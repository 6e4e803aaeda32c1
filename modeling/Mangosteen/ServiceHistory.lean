import Mangosteen.ServiceRuns

namespace Mangosteen.Service

open FlatCombining Simulation AtomicObject Transition Memory Session Instrumentation Transactions
open Combining (TaskInv Effect effect_of_move)

variable {n : Nat} {Req Res Local : Type} {cb : Callbacks Req Res Local} {m₀ : Nat → UInt8}

/-- The session of the combiner is in the log. `u` says that nothing waits to be
committed. -/
def Settles (u : Prop) (pc : Pc n) : Prop := pc.stopped = true ∨ u ∧ ∃ cs, pc = .logPayload cs

/-- The update in slot `i` has taken effect. -/
def Done (g : Shared n Req) (pcs : Fin n → Pc n) (u : Prop) (i : Fin n) : Prop :=
  g.ready i = .done ∨ (pcs i).stage = .unlocking ∨ ∃ w, i ∈ (pcs w).pending ∧ Settles u (pcs w)

section Done

variable {g g' : Shared n Req} {pcs : Fin n → Pc n} {u u' : Prop} {i t : Fin n} {pc' : Pc n}

theorem done_congr (hready : g'.ready i = .done ↔ g.ready i = .done)
    (hstage : i = t → (pc'.stage = .unlocking ↔ (pcs t).stage = .unlocking))
    (hmine : i ∈ pc'.pending ∧ Settles u' pc' ↔ i ∈ (pcs t).pending ∧ Settles u (pcs t))
    (hother : ∀ w, w ≠ t → (Settles u' (pcs w) ↔ Settles u (pcs w))) :
    Done g' (Function.update pcs t pc') u' i ↔ Done g pcs u i := by
  have hst : (Function.update pcs t pc' i).stage = .unlocking ↔ (pcs i).stage = .unlocking := by
    by_cases hit : i = t
    · rw [hit, Function.update_self]
      exact hstage hit
    · rw [Function.update_of_ne hit]
  have hw :
      (∃ w, i ∈ (Function.update pcs t pc' w).pending ∧ Settles u' (Function.update pcs t pc' w)) ↔
      ∃ w, i ∈ (pcs w).pending ∧ Settles u (pcs w) := by
    apply exists_congr
    intro w
    by_cases hwt : w = t
    · rw [hwt, Function.update_self, hmine]
    · rw [Function.update_of_ne hwt, hother w hwt]
  rw [Done, Done, hready, hst, hw]

theorem done_of_effect (htask : TaskInv (fun _ => True) g pcs) (he : Effect t g (pcs t) g' pc')
    (hrole : i = t → (pcs t).role = .updating ∧ pc'.role = .updating)
    (hquiet : pc'.stopped = (pcs t).stopped → (Settles u' pc' ↔ Settles u (pcs t)))
    (hlogged : ∀ cs, pcs t = .logPayload cs → u)
    (hother : ∀ w, w ≠ t → (Settles u' (pcs w) ↔ Settles u (pcs w))) :
    Done g' (Function.update pcs t pc') u' i ↔ Done g pcs u i := by
  have hphase := htask.phase t trivial
  cases he with
  | quiet hg _ hstage _ hp _ hstop =>
      exact done_congr (by rw [hg.ready]) (fun _ => by rw [hstage])
        (by rw [hp, hquiet hstop]) hother
  | read _ hg _ hpc =>
      refine done_congr (by rw [hg.ready]) (fun hit => ?_) ?_ hother
      · have := (hrole hit).1
        rw [hpc] at this
        cases this
      · simp_all [Pc.pending, Pc.commands]
  | call _ hpc hpc' hg =>
      subst hg
      refine done_congr Iff.rfl (fun hit => ?_) ?_ hother
      · have := (hrole hit).1
        rw [hpc] at this
        cases this
      · simp_all [Pc.pending, Pc.commands]
  | post hpc hpc' hg =>
      subst hg
      obtain ⟨hnone, -⟩ := hphase.of_fresh (.inr (by rw [hpc]; rfl))
      refine done_congr ?_ (fun _ => by rw [hpc, hpc']; simp [Pc.stage]) ?_ hother
      · by_cases hit : i = t
        · simp [hit, hnone]
        · simp [hit]
      · simp_all [Pc.pending, Pc.commands]
  | seen hdone hg hpc hpc' =>
      subst hg
      refine done_congr Iff.rfl (fun _ => by rw [hpc, hpc']; simp [Pc.stage]) ?_ hother
      rw [hpc', Combining.pending_of_waiting hpc]
      simp [Pc.pending, Pc.commands]
  | clear hpc hpc' hg =>
      subst hg
      have hit : i ≠ t := by
        intro hit
        have := (hrole hit).2
        rw [hpc'] at this
        cases this
      refine done_congr (by simp [hit]) (fun h => absurd h hit) ?_ hother
      simp_all [Pc.pending, Pc.commands]
  | lock hpc hpc' hg =>
      refine done_congr (by rw [hg.ready]) (fun _ => by rw [hpc, hpc']; simp [Pc.stage]) ?_ hother
      simp_all [Pc.pending, Pc.commands]
  | take j cs hpc hpc' hg =>
      subst hg
      have hready := htask.take t j cs hpc
      refine done_congr ?_ (fun _ => by rw [hpc, hpc']; simp [Pc.stage]) ?_ hother
      · by_cases hij : i = j
        · simp [hij, hready]
        · simp [hij]
      · simp_all [Settles, Pc.stopped]
  | process j index cs hj hpc hpc' hg =>
      subst hg
      refine done_congr Iff.rfl (fun _ => by rw [hpc, hpc']; simp [Pc.stage]) ?_ hother
      simp [hpc, hpc', Settles, Pc.stopped]
  | stop cs hpc hpc' hg =>
      subst hg
      refine done_congr Iff.rfl (fun _ => by rw [hpc, hpc']; simp [Pc.stage]) ?_ hother
      simp [hpc, hpc', Settles, Pc.stopped, Pc.pending, Pc.commands, hlogged cs hpc]
  | mark j index cs hj hpc hpc' hg =>
      subst hg
      by_cases hij : i = j
      · have hmem : i ∈ (pcs t).pending := by
          rw [hpc, hij]
          simp [Pc.pending, Combining.drop_of_getElem? hj]
        exact iff_of_true (.inl (by simp [hij])) (.inr (.inr ⟨t, hmem, .inl (by rw [hpc]; rfl)⟩))
      · refine done_congr (by simp [hij]) (fun _ => by rw [hpc, hpc']; simp [Pc.stage]) ?_ hother
        rw [hpc, hpc']
        simp [Pc.pending, Settles, Pc.stopped, Combining.mem_drop_of_ne hj hij]
  | marked index cs hj hpc hpc' hg =>
      subst hg
      refine done_congr Iff.rfl (fun _ => by rw [hpc, hpc']; simp [Pc.stage]) ?_ hother
      simp [hpc, hpc', Pc.pending, Pc.commands, List.drop_eq_nil_of_le hj]
  | clearOwn hpc hpc' hg =>
      subst hg
      by_cases hit : i = t
      · obtain ⟨hdone, -⟩ := hphase.of_clearing (.inr (by rw [hpc]; rfl))
        exact iff_of_true (.inr (.inl (by rw [hit, Function.update_self, hpc']; rfl)))
          (.inl (by rw [hit, hdone]))
      · refine done_congr (by simp [hit]) (fun h => absurd h hit) ?_ hother
        simp_all [Pc.pending, Pc.commands]
  | unlock hpc hpc' hg =>
      subst hg
      refine done_congr Iff.rfl (fun hit => ?_) ?_ hother
      · have := (hrole hit).2
        rw [hpc'] at this
        cases this
      · simp_all [Pc.pending, Pc.commands]

end Done

def State.pcs (s : State n Req Res Local) (t : Fin n) : Pc n := (s.control.thread t).pc

/-- The status of a thread's call in the atomic object. -/
inductive Stands (s : State n Req Res Local) (t : Fin n) : Status Req Res → Prop
  | outside (hrole : (s.pcs t).role = .outside) : Stands s t .idle
  | reading (hrole : (s.pcs t).role = .reading) :
      Stands s t (.called (s.control.shared.applicationSpecificStruct t))
  | read {r} (hrole : (s.pcs t).role = .read) (hr : s.answer t = some r) : Stands s t (.done r)
  | called (hrole : (s.pcs t).role = .updating)
      (hd : ¬ Done s.control.shared s.pcs (s.unpublished = []) t) :
      Stands s t (.called (s.control.shared.applicationSpecificStruct t))
  | done {r} (hrole : (s.pcs t).role = .updating)
      (hd : Done s.control.shared s.pcs (s.unpublished = []) t)
      (hr : s.answer t = some r) : Stands s t (.done r)

/-- The memory of the object is what a replay of the log would make. -/
structure Related (m₀ : Nat → UInt8) (s : State n Req Res Local)
    (a : AtomicObject.State (Fin n) Req Res (Nat → UInt8)) : Prop where
  memory : a.memory = replayed m₀ s.published
  status : ∀ t, Stands s t (a.status t)

section Stands

variable {s s' : State n Req Res Local} {t : Fin n} {st : Status Req Res}

theorem Stands.congr (h : Stands s t st) (hrole : (s'.pcs t).role = (s.pcs t).role)
    (happ : s'.control.shared.applicationSpecificStruct t =
      s.control.shared.applicationSpecificStruct t)
    (hdone : (s.pcs t).role = .updating → (Done s'.control.shared s'.pcs (s'.unpublished = []) t ↔
      Done s.control.shared s.pcs (s.unpublished = []) t))
    (hans : (s.pcs t).role = .read ∨ Done s.control.shared s.pcs (s.unpublished = []) t →
      s'.answer t = s.answer t) :
    Stands s' t st := by
  cases h with
  | outside hr => exact .outside (hrole.trans hr)
  | reading hr =>
      rw [← happ]
      exact .reading (hrole.trans hr)
  | read hr ha => exact .read (hrole.trans hr) ((hans (.inl hr)).trans ha)
  | called hr hd =>
      rw [← happ]
      exact .called (hrole.trans hr) fun hd' => hd ((hdone hr).mp hd')
  | done hr hd ha => exact .done (hrole.trans hr) ((hdone hr).mpr hd) ((hans (.inr hd)).trans ha)

theorem Stands.idle (h : Stands s t st) (hrole : (s.pcs t).role = .outside) : st = .idle := by
  cases h with
  | outside => rfl
  | reading hr | read hr | called hr | done hr =>
      rw [hrole] at hr
      cases hr

theorem Stands.pending (h : Stands s t st)
    (hrole : (s.pcs t).role = .reading ∨
      (s.pcs t).role = .updating ∧ ¬ Done s.control.shared s.pcs (s.unpublished = []) t) :
    st = .called (s.control.shared.applicationSpecificStruct t) := by
  cases h with
  | reading | called => rfl
  | outside hr | read hr =>
      rw [hr] at hrole
      simp at hrole
  | done hr hd =>
      rw [hr] at hrole
      simp [hd] at hrole

theorem Stands.over (h : Stands s t st)
    (hrole : (s.pcs t).role = .read ∨
      (s.pcs t).role = .updating ∧ Done s.control.shared s.pcs (s.unpublished = []) t) :
    ∃ r, s.answer t = some r ∧ st = .done r := by
  cases h with
  | read _ ha => exact ⟨_, ha, rfl⟩
  | done _ _ ha => exact ⟨_, ha, rfl⟩
  | outside hr | reading hr =>
      rw [hr] at hrole
      simp at hrole
  | called hr hd =>
      rw [hr] at hrole
      simp [hd] at hrole

end Stands

theorem Inv.not_done {s : State n Req Res Local} (h : Inv cb m₀ s) {t i : Fin n}
    (hi : i ∈ (s.pcs t).pending)
    (ht : ¬ Settles (s.unpublished = []) (s.pcs t)) :
    ¬ Done s.control.shared s.pcs (s.unpublished = []) i := by
  have hready := h.task.pending t i hi
  rintro (hd | hst | ⟨w, hw, hset⟩)
  · rw [hready] at hd
    cases hd
  · obtain ⟨hnone, -⟩ := (h.task.phase i trivial).of_unlocking hst
    rw [hready] at hnone
    cases hnone
  · obtain rfl :=
      h.lock.single w t (Combining.locks_of_mem_pending hw) (Combining.locks_of_mem_pending hi)
    exact ht hset

theorem Inv.updating {s : State n Req Res Local} (h : Inv cb m₀ s) {t i : Fin n}
    (hi : i ∈ (s.pcs t).pending) : (s.pcs i).role = .updating := by
  by_contra hne
  exact h.not_pending hne t hi

theorem Inv.memory_idle {s : State n Req Res Local} (h : Inv cb m₀ s)
    (hidle : ∀ t, (s.pcs t).role = .outside) : s.memory = replayed m₀ s.published := by
  cases h.situation with
  | quiet _ _ hm => exact hm
  | combining w _ _ hw =>
      have hrole := hidle w
      rw [State.pcs] at hrole
      generalize (s.control.thread w).pc = pc at hw hrole
      cases pc <;> first | (cases hw; done) | cases hrole
  | logging w cs es hpc =>
      have hrole := hidle w
      rw [State.pcs, hpc] at hrole
      cases hrole

section Moves

variable {s : State n Req Res Local} {t : Fin n} {g : Shared n Req} {pc : Pc n} {f : Nat}
  {x : Store n Res Local}
  {label : Option (Event (Fin n) Req Res)} {a : AtomicObject.State (Fin n) Req Res (Nat → UInt8)}

theorem settles_iff {u : Prop} (h : ∀ cs, pc ≠ .logPayload cs) :
    Settles u pc ↔ pc.stopped = true := by
  simp [Settles, h]

theorem Turn.unpublished {g₀ : Shared n Req} {x₀ : Store n Res Local} {pc₀ : Pc n}
    (h : Turn cb t g₀ x₀ pc₀ g pc label x) :
    (x.unpublished = x₀.unpublished ∧ (∀ cs, pc ≠ .logPayload cs) ∧
        ∀ cs, pc₀ = .logPayload cs → x₀.unpublished = [] ∧ pc.stopped = true) ∨
      ∃ cs, pc₀ = .instrumentStop cs ∧ pc = .logPayload cs ∧ x.unpublished ≠ [] := by
  cases h with
  | stop cs => exact .inr ⟨cs, rfl, rfl, by simp [loggedBatches]⟩
  | plain _ _ _ _ hl hl' => exact .inl ⟨rfl, hl', fun cs hcs => absurd hcs (hl cs)⟩
  | call req hpc' =>
      refine .inl ⟨rfl, fun cs => ?_, by simp⟩
      rcases hpc' with ⟨rfl, -⟩ | ⟨rfl, -⟩ <;> simp
  | logged cs hu => exact .inl ⟨rfl, by simp, fun _ _ => ⟨hu, rfl⟩⟩
  | ret hpc =>
    exact .inl ⟨rfl, by simp, fun cs hcs => by rcases hpc with rfl | rfl | rfl <;> cases hcs⟩
  | start | enable | process | processed | allProcessed | enter
  | respond => exact .inl ⟨rfl, by simp, by simp⟩

theorem pcs_afterMove : (afterMove s t g pc f x).pcs = Function.update s.pcs t pc := by
  funext u
  by_cases hu : u = t
  · subst hu
    simp [State.pcs]
  · simp [State.pcs, hu]

theorem Inv.done_move (hi : Inv cb m₀ s)
    (hm : Move t s.control.shared (s.pcs t, (s.control.thread t).combiner) g (pc, f))
    (hturn : Turn cb t s.control.shared s.toStore (s.pcs t) g pc label x) {i : Fin n}
    (hrole : i = t → (s.pcs t).role = .updating ∧ pc.role = .updating) :
    Done g (afterMove s t g pc f x).pcs (x.unpublished = []) i ↔
    Done s.control.shared s.pcs (s.unpublished = []) i := by
  rw [pcs_afterMove]
  rcases hturn.unpublished with ⟨hu, hpc', hpc⟩ | ⟨cs, hpc, hpc', hu⟩
  · rw [hu]
    refine done_of_effect hi.task (effect_of_move hm) hrole (fun hstop => ?_)
      (fun cs hcs => (hpc cs hcs).1) fun _ _ => Iff.rfl
    have hne : ∀ cs, s.pcs t ≠ .logPayload cs := by
      intro cs hcs
      rw [(hpc cs hcs).2, hcs] at hstop
      cases hstop
    rw [settles_iff hpc', settles_iff hne, hstop]
  · refine done_of_effect hi.task (effect_of_move hm) hrole (fun _ => ?_)
      (by simp [hpc]) fun w hw => ?_
    · simp [Settles, hpc, hpc', hu, Pc.stopped]
    · have hne : ∀ cs, s.pcs w ≠ .logPayload cs := by
        intro cs' hcs
        exact hw (hi.lock.single w t (by rw [show (s.control.thread w).pc = _ from hcs]; rfl)
          (by rw [show (s.control.thread t).pc = _ from hpc]; rfl))
      rw [settles_iff hne, settles_iff hne]

/-- The other threads stand where they stood, and so does the one that moves as
long as its call goes on. -/
theorem Inv.stands_move (hi : Inv cb m₀ s)
    (hm : Move t s.control.shared (s.pcs t, (s.control.thread t).combiner) g (pc, f))
    (hturn : Turn cb t s.control.shared s.toStore (s.pcs t) g pc label x) {i : Fin n}
    {st : Status Req Res} (h : Stands s i st) (hrole : i = t → pc.role = (s.pcs t).role)
    (happ : g.applicationSpecificStruct i = s.control.shared.applicationSpecificStruct i)
    (hans : (s.pcs i).role = .read ∨ Done s.control.shared s.pcs (s.unpublished = []) i →
      x.answer i = s.answer i) :
    Stands (afterMove s t g pc f x) i st := by
  refine h.congr ?_ happ (fun hr => hi.done_move hm hturn fun hit => ?_) hans
  · rw [pcs_afterMove]
    by_cases hit : i = t
    · rw [hit, Function.update_self, hrole hit]
    · rw [Function.update_of_ne hit]
  · subst hit
    exact ⟨hr, (hrole rfl).trans hr⟩

theorem Inv.related_silent (hi : Inv cb m₀ s) (hr : Related m₀ s a)
    (hm : Move t s.control.shared (s.pcs t, (s.control.thread t).combiner) g (pc, f))
    (hturn : Turn cb t s.control.shared s.toStore (s.pcs t) g pc label x)
    (hrole : pc.role = (s.pcs t).role)
    (happ : g.applicationSpecificStruct = s.control.shared.applicationSpecificStruct)
    (hpub : x.published = s.published)
    (hans : ∀ i, (s.pcs i).role = .read ∨ Done s.control.shared s.pcs (s.unpublished = []) i →
      x.answer i = s.answer i) : Related m₀ (afterMove s t g pc f x) a :=
  ⟨hr.memory.trans (congrArg (replayed m₀) hpub.symm),
    fun i => hi.stands_move hm hturn (hr.status i) (fun _ => hrole) (by rw [happ]) (hans i)⟩

theorem Inv.related_own (hi : Inv cb m₀ s) (hr : Related m₀ s a)
    (hm : Move t s.control.shared (s.pcs t, (s.control.thread t).combiner) g (pc, f))
    (hturn : Turn cb t s.control.shared s.toStore (s.pcs t) g pc label x) {st : Status Req Res}
    (happ : ∀ i, i ≠ t →
      g.applicationSpecificStruct i = s.control.shared.applicationSpecificStruct i)
    (hpub : x.published = s.published) (hans : ∀ i, i ≠ t → x.answer i = s.answer i)
    (hst : Stands (afterMove s t g pc f x) t st) :
    Related m₀ (afterMove s t g pc f x) { a with status := Function.update a.status t st } := by
  refine ⟨hr.memory.trans (congrArg (replayed m₀) hpub.symm), fun i => ?_⟩
  by_cases hit : i = t
  · subst hit
    simpa using hst
  · dsimp only
    rw [Function.update_of_ne hit]
    exact hi.stands_move hm hturn (hr.status i) (fun h => absurd h hit)
      (happ i hit) fun _ => hans i hit

theorem Inv.not_done_post (hi : Inv cb m₀ s) (hpc : s.pcs t = .idle) (u : Prop) :
    ¬ Done s.control.shared (Function.update s.pcs t .post) u t := by
  have hrole : (s.pcs t).role ≠ .updating := by
    rw [hpc]
    simp [Pc.role]
  obtain ⟨hnone, -⟩ := (hi.task.phase t trivial).of_fresh (.inl (stage_of_role hrole))
  rintro (hd | hst | ⟨w, hw, -⟩)
  · rw [hnone] at hd
    cases hd
  · rw [Function.update_self] at hst
    cases hst
  · by_cases hwt : w = t
    · rw [hwt, Function.update_self] at hw
      cases hw
    · rw [Function.update_of_ne hwt] at hw
      exact hi.not_pending hrole w hw

theorem Inv.related_move (hi : Inv cb m₀ s) (hr : Related m₀ s a)
    (hm : Move t s.control.shared (s.pcs t, (s.control.thread t).combiner) g (pc, f))
    (hf : follow cb t g (s.pcs t) pc s.toStore = some (label, x)) :
    ∃ a', (atomic (Fin n) cb.machine m₀).Run a label.toList a' ∧
    Related m₀ (afterMove s t g pc f x) a' := by
  have hturn := turn_of_move hm hf
  have hsilent := fun hrole happ hpub hans => hi.related_silent hr hm hturn hrole happ hpub hans
  have hown := fun {st} (hst : Stands (afterMove s t g pc f x) t st) happ hpub hans =>
    hi.related_own hr hm hturn happ hpub hans hst
  have hphase := hi.task.phase t trivial
  have hstatus := hr.status t
  clear hf
  generalize hpc : s.pcs t = pc₀ at *
  cases hturn with
  | plain happ hrole => exact ⟨a, .refl, hsilent hrole happ rfl fun _ _ => rfl⟩
  | start | enable | allProcessed | stop => exact ⟨a, .refl, hsilent rfl rfl rfl fun _ _ => rfl⟩
  | process _ _ _ _ happ => exact ⟨a, .refl, hsilent rfl happ rfl fun _ _ => rfl⟩
  | logged _ _ happ => exact ⟨a, .refl, hsilent rfl happ rfl fun _ _ => rfl⟩
  | enter => exact ⟨a, .refl, hsilent rfl rfl rfl fun _ _ => rfl⟩
  | processed index cs i hi' hl hres =>
      have hpending : i ∈ (s.pcs t).pending := by
        rw [hpc]
        exact List.mem_of_getElem? hi'
      have hnot := hi.not_done hpending (by rw [hpc]; simp [Settles, Pc.stopped])
      refine ⟨a, .refl, hsilent rfl rfl rfl fun j hj => Function.update_of_ne ?_ _ _⟩
      rintro rfl
      rcases hj with hj | hj
      · rw [hi.updating hpending] at hj
        cases hj
      · exact hnot hj
  | call req hpc' happ =>
      have hself : g.applicationSpecificStruct t = req := by rw [happ, Function.update_self]
      have hrole : (s.pcs t).role = .outside := by rw [hpc]; rfl
      have hnew : Stands
          (afterMove s t g pc f { s.toStore with answer := Function.update s.answer t none }) t
          (.called req) := by
        rw [← hself]
        rcases hpc' with ⟨rfl, -⟩ | ⟨rfl, -⟩
        · refine .called (by rw [pcs_afterMove, Function.update_self]; rfl) ?_
          rw [pcs_afterMove]
          cases hm
          exact hi.not_done_post hpc _
        · exact .reading (by rw [pcs_afterMove, Function.update_self]; rfl)
      refine ⟨_, Labelled.Run.single (Step.call t req (hstatus.idle hrole)),
        hown hnew (fun i hit => ?_) rfl fun i hit => ?_⟩
      · rw [happ, Function.update_of_ne hit]
      · exact Function.update_of_ne hit _ _
  | @respond l res hl hres =>
      -- the reader's request takes effect when its callback is over
      obtain ⟨l₁, hl₁, hsteps⟩ := hi.reading t hpc
      obtain rfl := Option.some.inj (hl.symm.trans hl₁)
      have hcalled := hstatus.pending (.inl (by rw [hpc]; rfl))
      rw [← hr.memory] at hsteps
      refine ⟨_, Labelled.Run.refl.silent (Step.effect t hcalled ⟨l, hsteps, hres⟩),
        hown (.read ?_ ?_) (fun _ _ => rfl) rfl fun i hit => ?_⟩
      · rw [pcs_afterMove, Function.update_self]
        rfl
      · exact Function.update_self ..
      · exact Function.update_of_ne hit _ _
  | ret hret happ =>
      have hover : (s.pcs t).role = .read ∨
          (s.pcs t).role = .updating ∧ Done s.control.shared s.pcs (s.unpublished = []) t := by
        rcases hret with rfl | rfl | rfl
        · have hstage : (s.pcs t).stage = .clearing := by rw [hpc]; rfl
          exact .inr ⟨by rw [hpc]; rfl, .inl (hphase.of_clearing (.inl hstage)).1⟩
        · exact .inr ⟨by rw [hpc]; rfl, .inr (.inl (by rw [hpc]; rfl))⟩
        · exact .inl (by rw [hpc]; rfl)
      obtain ⟨r, hans, hdone⟩ := hstatus.over hover
      rw [hans]
      refine ⟨_, Labelled.Run.single (Step.ret t hdone),
        hown (.outside ?_) (fun i _ => by rw [happ]) rfl fun _ _ => rfl⟩
      rw [pcs_afterMove, Function.update_self]
      rfl

/-- When its batch is in the log, all updates of a session take effect, in the
order of the commands. -/
theorem Inv.related_publish (hi : Inv cb m₀ s) (hr : Related m₀ s a)
    {cs : List (Fin n)} {es : List Entry}
    {rest : List (List Entry)} (hpc : s.pcs t = .logPayload cs) (hu : s.unpublished = es :: rest) :
    ∃ a', (atomic (Fin n) cb.machine m₀).Run a [] a' ∧
      Related m₀ { s with unpublished := rest, published := s.published ++ [es] } a' := by
  obtain ⟨-, rfl, hseq⟩ := hi.publish hpc hu
  have hpending : ∀ i, i ∈ (s.pcs t).pending ↔ i ∈ cs := fun i => by rw [hpc]; rfl
  have hnot : ∀ i ∈ cs, ¬ Done s.control.shared s.pcs (s.unpublished = []) i := fun i hi' =>
    hi.not_done ((hpending i).mpr hi') (by simp [Settles, hpc, hu, Pc.stopped])
  have hnd : cs.Nodup := by
    have h := hi.task.nodup t
    rwa [show (s.control.thread t).pc = .logPayload cs from hpc] at h
  obtain ⟨memory, status⟩ := a
  obtain rfl : memory = _ := hr.memory
  obtain ⟨status', hrun, hdone, hsame⟩ := hseq.run m₀ hnd fun i hi' =>
    (hr.status i).pending (.inr ⟨hi.updating ((hpending i).mpr hi'), hnot i hi'⟩)
  refine ⟨_, hrun, rfl, fun i => ?_⟩
  by_cases hi' : i ∈ cs
  · obtain ⟨r, hans, hst⟩ := hdone i hi'
    show Stands _ i (status' i)
    rw [hst]
    exact .done (hi.updating ((hpending i).mpr hi'))
      (.inr (.inr ⟨t, (hpending i).mpr hi', .inr ⟨rfl, cs, hpc⟩⟩)) hans
  · show Stands _ i (status' i)
    rw [hsame i hi']
    refine (hr.status i).congr rfl rfl (fun _ => ?_) fun _ => rfl
    -- the other slots are not in the hands of this combiner
    refine or_congr Iff.rfl (or_congr Iff.rfl (exists_congr fun w => and_congr_right fun hw => ?_))
    have hne : ∀ cs', s.pcs w ≠ .logPayload cs' := by
      intro cs' hcs'
      obtain rfl := hi.lock.single w t (Combining.locks_of_mem_pending hw)
        (by rw [show (s.control.thread t).pc = .logPayload cs from hpc]; rfl)
      exact hi' ((hpending i).mp hw)
    exact (settles_iff hne).trans (settles_iff hne).symm

end Moves

theorem simulates (hcb : cb.Proper) :
    Simulates (service n cb m₀) (atomic (Fin n) cb.machine m₀) (Related m₀) where
  initial s h := by
    obtain ⟨hc, hx⟩ := h
    obtain ⟨⟨_, _, _, _, _, _⟩, control⟩ := s
    cases hx
    have hidle : ∀ t, (control.thread t).pc = .idle := fun t => by rw [hc.thread]
    exact ⟨_, rfl, rfl, fun t => .outside (by simp [State.pcs, hidle, Pc.role])⟩
  step s a label s' hreach hr hs := by
    have hi := inv_of_reachable hcb hreach
    cases hs with
    | move _ hm hf => exact hi.related_move hr hm hf
    | load
    | write =>
    exact ⟨a, .refl, hr.memory, fun t => (hr.status t).congr rfl rfl
      (fun _ => Iff.rfl) fun _ => rfl⟩
    | publish hpc hu => exact hi.related_publish hr hpc hu
    | @hook t g k addr size _ hm =>
        obtain ⟨hsame, happ⟩ := Combining.sameTasks_of_hookMove hm
        have hpcs :
            (fun u =>
              (Function.update s.control.thread t { s.control.thread t with hook := k } u).pc) =
              s.pcs := by
          funext u
          by_cases hu : u = t
          · rw [hu, Function.update_self]
            rfl
          · rw [Function.update_of_ne hu]
            rfl
        refine ⟨a, .refl, hr.memory.trans (replayed_mapEntry ..).symm, fun u => ?_⟩
        refine (hr.status u).congr (congrArg Pc.role (congrFun hpcs u)) (congrFun happ u)
          (fun _ => ?_) fun _ => rfl
        show Done g (fun u =>
            (Function.update s.control.thread t { s.control.thread t with hook := k } u).pc) _ u ↔ _
        rw [hpcs, Done, hsame.ready]
        rfl

theorem Callbacks.Proper.steps_reads (hcb : cb.Proper) {req : Req} (hro : cb.isReadOnly req = true)
    {m m' : Nat → UInt8} {l : Local} (h : cb.machine.Steps (cb.start req) m l m') : m' = m := by
  induction h with
  | refl => rfl
  | @tail l m' h hr ih =>
      obtain ⟨addr, next, ha⟩ := hcb.reads req l hro ⟨m, m', h⟩ hr
      simpa [Callbacks.machine, ha] using ih

theorem published_next {s s' : State n Req Res Local} (h : (service n cb m₀).Next s s') :
    s'.published = s.published ∨ ∃ es, s'.published = s.published ++ [es] := by
  obtain ⟨label, hs⟩ := h
  cases hs with
  | load | write => exact .inl rfl
  | publish => exact .inr ⟨_, rfl⟩
  | @hook t g k addr size =>
      generalize (s.control.thread t).hook = k₀
      cases k₀ with
      | enqueue locked => cases locked <;> exact .inr ⟨_, rfl⟩
      | _ => exact .inl (List.append_nil _)
  | @move t g pc f label x hh hm hf =>
      have hturn := turn_of_move hm hf
      generalize (s.control.thread t).pc = pc₀ at hturn
      cases hturn <;> exact .inl rfl

theorem exists_published {s : State n Req Res Local}
    (h : Reachable (service n cb m₀).initial (service n cb m₀).Next s)
    {bs : List (List Entry)} (hbs : bs <+: s.published) :
    ∃ s', Reachable (service n cb m₀).initial (service n cb m₀).Next s' ∧ s'.published = bs := by
  obtain ⟨s₀, h₀, hr⟩ := h
  induction hr with
  | refl =>
      have hempty : s₀.published = [] := by rw [h₀.2]
      rw [hempty, List.prefix_nil] at hbs
      exact ⟨s₀, .start h₀, hempty.trans hbs.symm⟩
  | tail hr hs ih =>
      rcases published_next hs with heq | ⟨es, heq⟩
      · exact ih (heq ▸ hbs)
      · rw [heq, List.prefix_concat_iff] at hbs
        rcases hbs with rfl | hbs
        · exact ⟨_, ⟨s₀, h₀, hr.tail hs⟩, heq⟩
        · exact ih hbs

/-- What every update keeps, run alone, holds of the memory that a replay of the
log makes. -/
theorem invariant_replayed (hcb : cb.Proper) {I : (Nat → UInt8) → Prop} (h₀ : I m₀)
    (hop : ∀ req m res m', cb.isReadOnly req = false → cb.machine.Yields req m res m' → I m → I m')
    {s : State n Req Res Local} (h : Reachable (service n cb m₀).initial (service n cb m₀).Next s) :
    I (replayed m₀ s.published) := by
  obtain ⟨a, ha, hr⟩ := (simulates hcb).reachable h
  rw [← hr.memory]
  refine invariant_memory h₀ (fun req m res m' hy hm => ?_) ha
  cases hro : cb.isReadOnly req with
  | false => exact hop req m res m' hro hy hm
  | true =>
      obtain ⟨l, hsteps, -⟩ := hy
      rwa [hcb.steps_reads hro hsteps]

/-- A single byte that requests set or read. -/
def register : Callbacks (Option UInt8) UInt8 (Option UInt8 ⊕ UInt8) where
  isReadOnly req := req.isNone
  start := .inl
  result
    | .inl _ => none
    | .inr b => some b
  action
    | .inl (some b) => .write (.store 4096 [b]) (.inr b)
    | .inl none => .load 4096 .inr
    | .inr b => .load 4096 fun _ => .inr b

theorem steps_register {req : Option UInt8} {m m' : Nat → UInt8} {l : Option UInt8 ⊕ UInt8}
    (h : register.machine.Steps (register.start req) m l m') :
    l = .inl req ∧ m' = m ∨ ∃ b, l = .inr b ∧ (m' = m ∨ m' = write m 4096 [b]) := by
  induction h with
  | refl => exact .inl ⟨rfl, rfl⟩
  | tail _ hr ih =>
      rcases ih with ⟨rfl, rfl⟩ | ⟨b, rfl, -⟩
      · cases req with
        | none => exact .inr ⟨_, rfl, .inl rfl⟩
        | some b => exact .inr ⟨b, rfl, .inr rfl⟩
      · cases hr

theorem proper_register : register.Proper where
  reads req l hro hv hr := by
    obtain ⟨m, m', h⟩ := hv
    rcases steps_register h with ⟨rfl, -⟩ | ⟨b, rfl, -⟩
    · cases req with
      | none => exact ⟨_, _, rfl⟩
      | some b => cases hro
    · cases hr
  stores req l access next _ _ _ ha := by
    rcases l with (_ | b) | b
    · cases ha
    · cases ha
      exact ⟨4096, [b], rfl, Nat.le_refl _⟩
    · cases ha

/-- The service is linearizable: whatever its clients see, they could have seen of
an object that executes each request at one moment between call and return, and
whose memory is at every moment what a replay of the log would make. -/
theorem linearizable (n : Nat) (Req Res Local : Type) (cb : Callbacks Req Res Local)
    (hcb : cb.Proper)
    (m₀ : Nat → UInt8) (s₀ s : State n Req Res Local) (ls : List (Event (Fin n) Req Res))
    (h₀ : (service n cb m₀).initial s₀) (h : (service n cb m₀).Run s₀ ls s) :
    ∃ a, (atomic (Fin n) cb.machine m₀).Run ⟨m₀, fun _ => .idle⟩ ls a ∧
    a.memory = replayed m₀ s.published := by
  obtain ⟨_, a, rfl, hrun, hr⟩ := (simulates hcb).run h h₀
  exact ⟨a, hrun, hr.memory⟩

/-- The service of two threads before any call. -/
def blank : State 2 (Option UInt8) UInt8 (Option UInt8 ⊕ UInt8) where
  memory _ := 0
  data _ := {}
  running _ := none
  answer _ := none
  unpublished := []
  published := []
  control := SpinLock.start 2 none

theorem initial_blank : (service 2 register fun _ => 0).initial blank :=
  ⟨SpinLock.initial_start 2 none _, rfl⟩

theorem exists_set : ∃ s, (service 2 register fun _ => 0).Run blank
    [.call 0 (some 7), .ret 0 (some 7), .call 1 none, .ret 1 (some 7)] s ∧
    s.published.length = 1 := by
  have h : (service 2 register fun _ => 0).Run blank [] blank := .refl
  have h := h.tail _ (Step.move (t := 0) rfl (.callUpdate (some 7)) rfl)
  have h := h.silent (Step.move (t := 0) rfl .post rfl)
  have h := h.silent (Step.move (t := 0) rfl (.notStarted (by decide)) rfl)
  have h := h.silent (Step.move (t := 0) rfl (.notDone (by decide)) rfl)
  have h := h.silent (Step.move (t := 0) rfl (.lockIsFree rfl) rfl)
  have h := h.silent (Step.move (t := 0) rfl (.lockWriter rfl) rfl)
  have h := h.silent (Step.move (t := 0) rfl (.collectReady 0 rfl) rfl)
  have h := h.silent (Step.move (t := 0) rfl (.take 0) rfl)
  have h := h.silent (Step.move (t := 0) rfl (.collectNext 1 (by decide)) rfl)
  have h := h.silent (Step.move (t := 0) rfl .collected rfl)
  have h := h.silent (Step.move (t := 0) rfl (.scanNext 0 rfl) rfl)
  have h := h.silent (Step.move (t := 0) rfl (.scanNext 1 rfl) rfl)
  have h := h.silent (Step.move (t := 0) rfl .scanned rfl)
  have h := h.silent (Step.move (t := 0) rfl .instrumentStart rfl)
  have h := h.silent (Step.move (t := 0) rfl .enableCombiner rfl)
  have h := h.silent (Step.move (t := 0) rfl (.process (i := 0) rfl) rfl)
  have h := h.silent (Step.write (t := 0) rfl rfl rfl rfl rfl rfl)
  have h := h.silent (Step.move (t := 0) rfl .processed rfl)
  have h := h.silent (Step.move (t := 0) rfl (.allProcessed (Nat.le_refl 1)) rfl)
  have h := h.silent (Step.move (t := 0) rfl .instrumentStop rfl)
  have h := h.silent (Step.publish (t := 0) rfl rfl)
  have h := h.silent (Step.move (t := 0) rfl .logPayload rfl)
  have h := h.silent (Step.move (t := 0) rfl .disableCombiner rfl)
  have h := h.silent (Step.move (t := 0) rfl (.markDone (i := 0) rfl) rfl)
  have h := h.silent (Step.move (t := 0) rfl (.allMarked (Nat.le_refl 1)) rfl)
  have h := h.silent (Step.move (t := 0) rfl .clearOwn rfl)
  have h := h.tail _ (Step.move (t := 0) rfl .writeUnlock rfl)
  have h := h.tail _ (Step.move (t := 1) rfl (.callRead none) rfl)
  have h := h.silent (Step.move (t := 1) rfl .markReaderAsActive rfl)
  have h := h.silent (Step.move (t := 1) rfl (.noWriter rfl) rfl)
  have h := h.silent (Step.load (t := 1) rfl rfl rfl rfl rfl)
  have h := h.silent (Step.move (t := 1) rfl .readRequest rfl)
  have h := h.tail _ (Step.move (t := 1) rfl .readUnlock rfl)
  exact ⟨_, h, rfl⟩

theorem linearizable_register :
    ∃ a, (atomic (Fin 2) register.machine fun _ => 0).Run ⟨fun _ => 0, fun _ => .idle⟩
    [.call 0 (some 7), .ret 0 (some 7), .call 1 none, .ret 1 (some 7)] a := by
  obtain ⟨s, hs, -⟩ := exists_set
  obtain ⟨a, ha, -⟩ := linearizable 2 _ _ _ register proper_register _ blank s _ initial_blank hs
  exact ⟨a, ha⟩

/-- A replay of any prefix of the log leaves a memory that keeps the invariants of
the state machine, and so does the memory itself as soon as no thread is in a
call. -/
theorem replay_keeps_invariant (n : Nat) (Req Res Local : Type) (cb : Callbacks Req Res Local)
    (hcb : cb.Proper) (m₀ : Nat → UInt8) (I : (Nat → UInt8) → Prop) (h₀ : I m₀)
    (hop : ∀ req m res m', cb.isReadOnly req = false → cb.machine.Yields req m res m' → I m → I m')
    (s : State n Req Res Local) (h : Reachable (service n cb m₀).initial (service n cb m₀).Next s) :
    (∀ bs, bs <+: s.published → I (replayed m₀ bs)) ∧
    ((∀ t, (s.pcs t).role = .outside) → I s.memory) := by
  refine ⟨fun bs hbs => ?_, fun hidle => ?_⟩
  · obtain ⟨s', hs', rfl⟩ := exists_published h hbs
    exact invariant_replayed hcb h₀ hop hs'
  · rw [(inv_of_reachable hcb h).memory_idle hidle]
    exact invariant_replayed hcb h₀ hop h

theorem keeps_zero {req : Option UInt8} {m m' : Nat → UInt8} {res : UInt8}
    (hy : register.machine.Yields req m res m')
    (hm : ∀ a, a ≠ 4096 → m a = 0) : ∀ a, a ≠ 4096 → m' a = 0 := by
  intro a ha
  obtain ⟨l, hsteps, -⟩ := hy
  rcases steps_register hsteps with ⟨-, rfl⟩ | ⟨b, -, rfl | rfl⟩
  · exact hm a ha
  · exact hm a ha
  · have hsame : write m 4096 [b] a = m a := by
      rw [write]
      split
      · rw [List.getD_eq_getElem?_getD, List.getElem?_eq_none (by simp; omega), Option.getD_none]
      · rfl
    rw [hsame]
    exact hm a ha

/-- The update that sets the byte at 4096 is in the log. -/
theorem replay_keeps_invariant_register : ∃ s : State 2 (Option UInt8) UInt8 (Option UInt8 ⊕ UInt8),
    s.published.length = 1 ∧ ∀ bs, bs <+: s.published → replayed (fun _ => 0) bs 8192 = 0 := by
  obtain ⟨s, hs, hlen⟩ := exists_set
  have hinv :=
    replay_keeps_invariant 2 _ _ _ register proper_register _ (fun m => ∀ a, a ≠ 4096 → m a = 0)
    (fun _ _ => rfl) (fun _ _ _ _ _ hy hm => keeps_zero hy hm) s (hs.reachable initial_blank)
  exact ⟨s, hlen, fun bs hbs => hinv.1 bs hbs 8192 (by decide)⟩

end Mangosteen.Service
