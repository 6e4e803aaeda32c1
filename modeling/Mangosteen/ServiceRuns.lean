import Mangosteen.Combining
import Mangosteen.Service

namespace Mangosteen.FlatCombining

variable {n : Nat}

/-- The kind of call that a thread is in. -/
inductive Role
  | outside
  | updating
  | reading
  | read
  deriving DecidableEq

def Pc.role : Pc n → Role
  | .idle | .checkLock _ | .takeLock _ | .drain _ _ | .work _ | .release _ => .outside
  | .markReaderAsActive | .checkWriter | .markReaderAsInactive | .awaitFree
  | .readRequest => .reading
  | .readUnlock => .read
  | _ => .updating

/-- The slots of the session whose callbacks are over. -/
def Pc.finished : Pc n → List (Fin n)
  | .process index cs | .processRequest index cs => cs.take index
  | .instrumentStop cs => cs
  | _ => []

end Mangosteen.FlatCombining

namespace Mangosteen.Service

open FlatCombining Simulation AtomicObject Transition Memory Session Instrumentation
  Transactions OpenAddressing
open SpinLock (LockInv lockInv_of_reachable)
open Combining (TaskInv taskInv_of_reachable)

variable {n : Nat} {Req Res Local : Type} {cb : Callbacks Req Res Local} {m₀ : Nat → UInt8}

/-- The moves of a thread by what they bring with them. -/
inductive Turn (cb : Callbacks Req Res Local) (t : Fin n) (g : Shared n Req)
    (x : Store n Res Local) :
    Pc n → Shared n Req → Pc n → Option (Event (Fin n) Req Res) → Store n Res Local → Prop
  | plain {pc g' pc'} (happ : g'.applicationSpecificStruct = g.applicationSpecificStruct)
      (hrole : pc'.role = pc.role)
      (hc : pc.combines = false) (hc' : pc'.combines = false) (hl : ∀ cs, pc ≠ .logPayload cs)
      (hl' : ∀ cs, pc' ≠ .logPayload cs) (hr : pc ≠ .readRequest) (hr' : pc' ≠ .readRequest) :
      Turn cb t g x pc g' pc' none x
  | call {g' pc'} (req : Req)
      (hpc' : pc' = .post ∧ cb.isReadOnly req = false ∨ pc' = .markReaderAsActive ∧
        cb.isReadOnly req = true)
      (happ : g'.applicationSpecificStruct = Function.update g.applicationSpecificStruct t req) :
      Turn cb t g x .idle g' pc' (some (.call t req))
        { x with answer := Function.update x.answer t none }
  | start (cs : List (Fin n)) :
      Turn cb t g x (.instrumentStart cs) g (.enableCombiner cs) none
        { x with data := Function.update x.data t (instrumentStart (x.data t)) }
  | enable (cs : List (Fin n)) : Turn cb t g x (.enableCombiner cs) g (.process 0 cs) none x
  | process {g'} (index : Nat) (cs : List (Fin n)) (i : Fin n) (hi : cs[index]? = some i)
      (happ : g'.applicationSpecificStruct = g.applicationSpecificStruct) :
      Turn cb t g x (.process index cs) g' (.processRequest index cs) none
        { x with
          running := Function.update x.running t (some (cb.start (g.applicationSpecificStruct i))) }
  | processed (index : Nat) (cs : List (Fin n)) (i : Fin n) {l res} (hi : cs[index]? = some i)
      (hl : x.running t = some l) (hres : cb.result l = some res) :
      Turn cb t g x (.processRequest index cs) g (.process (index + 1) cs) none
        { x with
          running := Function.update x.running t none,
          answer := Function.update x.answer i (some res) }
  | allProcessed (index : Nat) (cs : List (Fin n)) (hi : cs.length ≤ index) :
      Turn cb t g x (.process index cs) g (.instrumentStop cs) none x
  | stop (cs : List (Fin n)) :
      Turn cb t g x (.instrumentStop cs) g (.logPayload cs) none
        { x with
          data := Function.update x.data t {}, unpublished := loggedBatches x.memory (x.data t) }
  | logged {g'} (cs : List (Fin n)) (hu : x.unpublished = [])
      (happ : g'.applicationSpecificStruct = g.applicationSpecificStruct) :
      Turn cb t g x (.logPayload cs) g' (.disableCombiner cs) none x
  | enter (hfree : g.writers = 0) :
      Turn cb t g x .checkWriter g .readRequest none
        { x with
          running := Function.update x.running t (some (cb.start (g.applicationSpecificStruct t))) }
  | respond {l res} (hl : x.running t = some l) (hres : cb.result l = some res) :
      Turn cb t g x .readRequest g .readUnlock none
        { x with
          running := Function.update x.running t none,
          answer := Function.update x.answer t (some res) }
  | ret {pc g'} (hpc : pc = .clear ∨ pc = .writeUnlock ∨ pc = .readUnlock)
      (happ : g'.applicationSpecificStruct = g.applicationSpecificStruct) :
      Turn cb t g x pc g' .idle (some (.ret t (x.answer t))) x

theorem respond_eq_some {t : Fin n} {slot : Option (Fin n)} {x x' : Store n Res Local}
    (h : respond cb t slot x = some x') :
    ∃ l res i, x.running t = some l ∧ cb.result l = some res ∧ slot = some i ∧
      x' =
      { x with
        running := Function.update x.running t none,
        answer := Function.update x.answer i (some res) } := by
  obtain ⟨l, hl, h⟩ := Option.bind_eq_some_iff.mp h
  obtain ⟨res, hres, h⟩ := Option.bind_eq_some_iff.mp h
  obtain ⟨i, hi, h⟩ := Option.bind_eq_some_iff.mp h
  exact ⟨l, res, i, hl, hres, hi, (Option.some.inj h).symm⟩

theorem turn_of_move {t : Fin n} {g g' : Shared n Req} {pc pc' : Pc n} {f f' : Nat}
    {x x' : Store n Res Local}
    {label : Option (Event (Fin n) Req Res)} (hm : Move t g (pc, f) g' (pc', f'))
    (hf : follow cb t g' pc pc' x = some (label, x')) : Turn cb t g x pc g' pc' label x' := by
  cases hm with
  | callUpdate req =>
      simp only [follow, Function.update_self] at hf
      split at hf
      · cases hf
      · cases hf
        exact .call req (.inl ⟨rfl, by simp_all⟩) rfl
  | callRead req =>
      simp only [follow, Function.update_self] at hf
      split at hf
      · cases hf
        exact .call req (.inr ⟨rfl, ‹_›⟩) rfl
      · cases hf
  | instrumentStart =>
      cases hf
      exact .start _
  | enableCombiner =>
      cases hf
      exact .enable _
  | @process _ index cs i hi =>
      simp only [follow, hi] at hf
      cases hf
      exact .process index cs i hi rfl
  | @processed _ index cs =>
      obtain ⟨x₁, hx, hf⟩ := Option.map_eq_some_iff.mp hf
      obtain ⟨l, res, i, hl, hres, hi, rfl⟩ := respond_eq_some hx
      cases hf
      exact .processed index cs i hi hl hres
  | allProcessed hi =>
      cases hf
      exact .allProcessed _ _ hi
  | instrumentStop =>
      cases hf
      exact .stop _
  | logPayload =>
      simp only [follow, List.isEmpty_iff] at hf
      split at hf
      · cases hf
        exact .logged _ ‹_› rfl
      · cases hf
  | noWriter hfree =>
      cases hf
      exact .enter hfree
  | readRequest =>
      obtain ⟨x₁, hx, hf⟩ := Option.map_eq_some_iff.mp hf
      obtain ⟨l, res, i, hl, hres, hi, rfl⟩ := respond_eq_some hx
      cases hi
      cases hf
      exact .respond hl hres
  | clear =>
      cases hf
      exact .ret (.inl rfl) rfl
  | writeUnlock =>
      cases hf
      exact .ret (.inr (.inl rfl)) rfl
  | readUnlock =>
      cases hf
      exact .ret (.inr (.inr rfl)) rfl
  | _ =>
      cases hf
      exact .plain rfl rfl rfl rfl (by simp) (by simp) (by simp) (by simp)

section Callbacks

theorem stores_insertLines {lines : List Nat} {data data' : PerThread}
    (h : insertLines lines data = some data')
    (hz : ∀ line ∈ lines, line ≠ 0) (k : Nat)
    (hk : k ∈ lines ∨ Stores hashSetSize 0 data.hashSetEntries k) :
    Stores hashSetSize 0 data'.hashSetEntries k := by
  induction lines generalizing data with
  | nil =>
      cases h
      simpa using hk
  | cons line lines ih =>
      obtain ⟨d, hd, h⟩ := Option.bind_eq_some_iff.mp h
      have hstores := stores_insert (by decide) (homeSlot_lt line) (hz line List.mem_cons_self)
        (insertLine_eq_some hd).1 k
      apply ih h fun l hl => hz l (List.mem_cons_of_mem _ hl)
      rw [hstores]
      rcases hk with hk | hk
      · exact (List.mem_cons.mp hk).elim (fun he => .inr (.inl he)) .inl
      · exact .inr (.inr hk)

theorem recording_of_perform {keys : Finset Nat} {m : Nat → UInt8} {fe fe' : FrontEnd}
    {addr : Nat} {bytes : List UInt8}
    (h : Recording keys m fe) (haddr : 4096 ≤ addr)
    (hp : perform (.store addr bytes) fe = some fe') :
    ∃ keys, Recording keys m fe' ∧ fe'.memory = write fe.memory addr bytes ∧
      fe'.data.memcpyArray = fe.data.memcpyArray := by
  have hp' := hp
  rw [perform, storeAddressInHashSet, if_neg (by rw [h.active]; decide)] at hp'
  obtain ⟨data, hd, rfl⟩ := Option.map_eq_some_iff.mp hp'
  have hzero : ∀ line ∈ coveredLines addr bytes.length, line ≠ 0 := by
    intro line hline
    have hle := le_of_mem_coveredLines hline
    have hmod := Nat.mod_lt addr (show 0 < payloadSize by decide)
    simp only [payloadSize] at hle hmod
    omega
  have hmem : ∀ k, k ∈ coveredLines addr bytes.length ∨
      Stores hashSetSize 0 fe.data.hashSetEntries k →
      k ∈ (Finset.range hashSetSize).image data.hashSetEntries := by
    intro k hk
    obtain ⟨-, j, hj, rfl⟩ := stores_insertLines hd hzero k hk
    exact Finset.mem_image_of_mem _ (Finset.mem_range.mpr hj)
  -- the lines that are there in the end fit, so that the store found room
  have hcard : ((Finset.range hashSetSize).image data.hashSetEntries).card ≤ hashSetSize := by
    simpa using Finset.card_image_le (s := Finset.range hashSetSize) (f := data.hashSetEntries)
  have hrec : Recording ((Finset.range hashSetSize).image data.hashSetEntries) m fe :=
    { h with kept := fun line hline => hmem line (.inr hline) }
  obtain ⟨fe', hfe, -, hrec'⟩ := hrec.store hcard (fun line hline => hmem line (.inl hline)) haddr
  obtain rfl := Option.some.inj (hp.symm.trans hfe)
  exact ⟨_, hrec', rfl, memcpyArray_insertLines hd⟩

end Callbacks

theorem replayed_append (m₀ : Nat → UInt8) (bs cs : List (List Entry)) :
    replayed m₀ (bs ++ cs) = RedoLog.apply (writes (entries cs)) (replayed m₀ bs) := by
  simp only [replayed, entries_append, writes, List.flatMap_append, RedoLog.apply_append]

/-- How far the combiner has come with the request after those that are over,
which left memory `m`. -/
def Progress (cb : Callbacks Req Res Local) (s : State n Req Res Local) (w : Fin n)
    (m : Nat → UInt8) : Prop :=
  match (s.control.thread w).pc with
  | .processRequest index cs => ∃ i l, cs[index]? = some i ∧ s.running w = some l ∧
      cb.machine.Steps (cb.start (s.control.shared.applicationSpecificStruct i)) m l s.memory
  | _ => m = s.memory

/-- Memory and log between two sessions, in the middle of one, and when its only
batch waits to be committed. -/
inductive Situation (cb : Callbacks Req Res Local) (m₀ : Nat → UInt8) (s : State n Req Res Local) :
    Prop
  | quiet (hnone : ∀ t, (s.control.thread t).pc.combines = false) (hu : s.unpublished = [])
      (hm : s.memory = replayed m₀ s.published)
  | combining (w : Fin n) (keys : Finset Nat) (m : Nat → UInt8)
      (hw : (s.control.thread w).pc.combines = true)
      (hu : s.unpublished = []) (hcopies : (s.data w).memcpyArray = [])
      (hrec : Recording keys (replayed m₀ s.published) ⟨s.memory, s.data w⟩)
      (hseq : Sequence cb.machine s.control.shared.applicationSpecificStruct s.answer
        (s.control.thread w).pc.finished (replayed m₀ s.published) m)
      (hprog : Progress cb s w m)
  | logging (w : Fin n) (cs : List (Fin n)) (es : List Entry)
      (hpc : (s.control.thread w).pc = .logPayload cs)
      (hu : s.unpublished = [es]) (hm : replayed m₀ (s.published ++ [es]) = s.memory)
      (hseq : Sequence cb.machine s.control.shared.applicationSpecificStruct s.answer cs
        (replayed m₀ s.published) s.memory)

structure Inv (cb : Callbacks Req Res Local) (m₀ : Nat → UInt8) (s : State n Req Res Local) :
    Prop where
  control :
    Reachable (Initial fun _ => True) (FlatCombining.Step (fun _ => True) fun _ => True) s.control
  updates : ∀ t, (s.control.thread t).pc.role = .updating →
    cb.isReadOnly (s.control.shared.applicationSpecificStruct t) = false
  reads : ∀ t, (s.control.thread t).pc.role = .reading →
    cb.isReadOnly (s.control.shared.applicationSpecificStruct t) = true
  data : ∀ t, (s.control.thread t).pc.combines = false → s.data t = {}
  situation : Situation cb m₀ s
  reading : ∀ t, (s.control.thread t).pc = .readRequest → ∃ l, s.running t = some l ∧
    cb.machine.Steps (cb.start (s.control.shared.applicationSpecificStruct t))
    (replayed m₀ s.published) l
      (replayed m₀ s.published)

section Facts

variable {s s' : State n Req Res Local}

theorem Inv.lock (h : Inv cb m₀ s) : LockInv s.control := lockInv_of_reachable h.control

theorem Inv.task (h : Inv cb m₀ s) :
    TaskInv (fun _ => True) s.control.shared fun t => (s.control.thread t).pc :=
  taskInv_of_reachable h.control

theorem stage_of_role {pc : Pc n} (h : pc.role ≠ .updating) : pc.stage = .outside := by
  cases pc <;> first | rfl | exact absurd rfl h

theorem finished_subset {pc : Pc n} {i : Fin n} (h : i ∈ pc.finished) : i ∈ pc.pending := by
  cases pc with
  | process index cs | processRequest index cs => exact List.mem_of_mem_take h
  | instrumentStop cs => exact h
  | _ => cases h

theorem Inv.not_pending (h : Inv cb m₀ s) {t : Fin n}
    (ht : (s.control.thread t).pc.role ≠ .updating) (w : Fin n) :
    t ∉ (s.control.thread w).pc.pending := by
  intro hmem
  have hready := h.task.pending w t hmem
  obtain ⟨hnone, -⟩ := (h.task.phase t trivial).of_fresh (.inl (stage_of_role ht))
  rw [hready] at hnone
  cases hnone

theorem Inv.combiner (h : Inv cb m₀ s) {t : Fin n} (ht : (s.control.thread t).pc.combines = true) :
    ∃ keys m, s.unpublished = [] ∧ (s.data t).memcpyArray = [] ∧
      Recording keys (replayed m₀ s.published) ⟨s.memory, s.data t⟩ ∧
      Sequence cb.machine s.control.shared.applicationSpecificStruct s.answer
        (s.control.thread t).pc.finished (replayed m₀ s.published) m ∧ Progress cb s t m := by
  have hlocks := SpinLock.locks_of_combines ht
  cases h.situation with
  | quiet hnone =>
      rw [hnone t] at ht
      cases ht
  | combining w keys m hw hu hcopies hrec hseq hprog =>
      obtain rfl := h.lock.single t w hlocks (SpinLock.locks_of_combines hw)
      exact ⟨keys, m, hu, hcopies, hrec, hseq, hprog⟩
  | logging w cs es hpc =>
      obtain rfl := h.lock.single t w hlocks (by rw [hpc]; rfl)
      rw [hpc] at ht
      cases ht

theorem Inv.quiet (h : Inv cb m₀ s) {t : Fin n} (ht : (s.control.thread t).pc.reads = true) :
    s.memory = replayed m₀ s.published := by
  have hout : ∀ w, (s.control.thread w).pc.pastDrain = false := by
    intro w
    by_contra hw
    rw [Bool.not_eq_false] at hw
    have hreads :=
      h.lock.out w t (SpinLock.locks_of_pastDrain hw)
      (by rw [SpinLock.passed_of_pastDrain hw]; exact t.isLt)
    rw [ht] at hreads
    cases hreads
  cases h.situation with
  | quiet _ _ hm => exact hm
  | combining w _ _ hw =>
      have hpast : (s.control.thread w).pc.pastDrain = true := by
        generalize (s.control.thread w).pc = pc at hw
        cases pc <;> first | rfl | cases hw
      rw [hout w] at hpast
      cases hpast
  | logging w cs es hpc =>
      have hpast := hout w
      rw [hpc] at hpast
      cases hpast

theorem Inv.between (h : Inv cb m₀ s) {t : Fin n} (hl : (s.control.thread t).pc.locks = true)
    (hc : (s.control.thread t).pc.combines = false)
    (hlog : ∀ cs, (s.control.thread t).pc ≠ .logPayload cs) :
    s.unpublished = [] ∧ s.memory = replayed m₀ s.published := by
  cases h.situation with
  | quiet _ hu hm => exact ⟨hu, hm⟩
  | combining w _ _ hw =>
      obtain rfl := h.lock.single t w hl (SpinLock.locks_of_combines hw)
      rw [hc] at hw
      cases hw
  | logging w cs es hpc =>
      obtain rfl := h.lock.single t w hl (by rw [hpc]; rfl)
      exact absurd hpc (hlog cs)

theorem Situation.congr (h : Situation cb m₀ s)
    (hcomb : ∀ u, (s'.control.thread u).pc.combines = (s.control.thread u).pc.combines)
    (hpc : ∀ u, (s.control.thread u).pc.combines = true →
      (s'.control.thread u).pc = (s.control.thread u).pc ∧ s'.running u = s.running u)
    (hlog : ∀ u cs, (s.control.thread u).pc = .logPayload cs → s.unpublished ≠ [] →
      (s'.control.thread u).pc = .logPayload cs)
    (hmem : s'.memory = s.memory) (hdata : s'.data = s.data) (hunp : s'.unpublished = s.unpublished)
    (hrec : replayed m₀ s'.published = replayed m₀ s.published)
    (hlast : ∀ es, replayed m₀ (s'.published ++ [es]) = replayed m₀ (s.published ++ [es]))
    (happ : ∀ w, ∀ i ∈ (s.control.thread w).pc.pending, s'.answer i = s.answer i ∧
      s'.control.shared.applicationSpecificStruct i =
      s.control.shared.applicationSpecificStruct i) :
    Situation cb m₀ s' := by
  cases h with
  | quiet hnone hu hm =>
    exact .quiet (fun t => (hcomb t).trans (hnone t)) (hunp.trans hu) (by rw [hmem, hrec, hm])
  | combining w keys m hw hu hcopies hrecd hseq hprog =>
      obtain ⟨hpcw, hrunw⟩ := hpc w hw
      refine .combining w keys m ((hcomb w).trans hw) (hunp.trans hu) (by rwa [hdata]) ?_ ?_ ?_
      · rwa [hrec, hmem, hdata]
      · rw [hrec, hpcw]
        exact hseq.congr (fun i hi => (happ w i (finished_subset hi)).2) fun i hi =>
          (happ w i (finished_subset hi)).1
      · simp only [Progress, hpcw, hrunw, hmem] at hprog ⊢
        split
        · next index cs heq =>
            rw [heq] at hprog
            obtain ⟨i, l, hi, hl, hsteps⟩ := hprog
            have hmemi : i ∈ (s.control.thread w).pc.pending := by
              rw [heq]
              exact List.mem_of_getElem? hi
            exact ⟨i, l, hi, hl, by rwa [(happ w i hmemi).2]⟩
        · next hne => simpa [hne] using hprog
  | logging w cs es hpcw hu hm hseq =>
      have hpending : ∀ i ∈ cs, i ∈ (s.control.thread w).pc.pending := by
        rw [hpcw]
        exact fun _ hi => hi
      refine .logging w cs es (hlog w cs hpcw (by rw [hu]; simp)) (hunp.trans hu)
        (by rw [hlast, hmem, hm]) ?_
      rw [hrec, hmem]
      exact hseq.congr (fun i hi => (happ w i (hpending i hi)).2) fun i hi =>
        (happ w i (hpending i hi)).1

end Facts

section Moves

variable {s : State n Req Res Local} {t : Fin n} {g : Shared n Req} {pc : Pc n} {f : Nat}
  {x : Store n Res Local}

/-- The state after a move of thread `t`. -/
def afterMove (s : State n Req Res Local) (t : Fin n) (g : Shared n Req) (pc : Pc n) (f : Nat)
    (x : Store n Res Local) : State n Req Res Local :=
  ⟨x, ⟨g, Function.update s.control.thread t ⟨pc, .outside, f⟩⟩⟩

@[simp] theorem pc_afterMove_self : ((afterMove s t g pc f x).control.thread t).pc = pc := by
  simp [afterMove]

@[simp] theorem pc_afterMove_of_ne {u : Fin n} (hu : u ≠ t) :
    ((afterMove s t g pc f x).control.thread u).pc = (s.control.thread u).pc := by
  simp [afterMove, hu]

theorem Inv.moved (h : Inv cb m₀ s) (hh : (s.control.thread t).hook = .outside)
    (hm : Move t s.control.shared ((s.control.thread t).pc,
      (s.control.thread t).combiner) g (pc, f))
    (hpub : x.published = s.published) (hrun : ∀ u, u ≠ t → x.running u = s.running u)
    (happ : ∀ u, u ≠ t →
      g.applicationSpecificStruct u = s.control.shared.applicationSpecificStruct u)
    (hdata : ∀ u, u ≠ t → x.data u = s.data u) (hown : pc.combines = false → x.data t = {})
    (hup : pc.role = .updating → cb.isReadOnly (g.applicationSpecificStruct t) = false)
    (hrd : pc.role = .reading → cb.isReadOnly (g.applicationSpecificStruct t) = true)
    (hsit : Situation cb m₀ (afterMove s t g pc f x))
    (hin : pc = .readRequest → ∃ l, x.running t = some l ∧
      cb.machine.Steps (cb.start (g.applicationSpecificStruct t)) (replayed m₀ s.published) l
        (replayed m₀ s.published)) : Inv cb m₀ (afterMove s t g pc f x) := by
  refine ⟨h.control.next (.move trivial hh hm), fun u hu => ?_, fun u hu => ?_, fun u hu => ?_,
    hsit, fun u hu => ?_⟩
  · by_cases hut : u = t
    · subst hut
      exact hup (by simpa using hu)
    · rw [pc_afterMove_of_ne hut] at hu
      exact (congrArg cb.isReadOnly (happ u hut)).trans (h.updates u hu)
  · by_cases hut : u = t
    · subst hut
      exact hrd (by simpa using hu)
    · rw [pc_afterMove_of_ne hut] at hu
      exact (congrArg cb.isReadOnly (happ u hut)).trans (h.reads u hu)
  · by_cases hut : u = t
    · subst hut
      exact hown (by simpa using hu)
    · rw [pc_afterMove_of_ne hut] at hu
      exact (hdata u hut).trans (h.data u hu)
  · rw [show (afterMove s t g pc f x).published = s.published from hpub]
    by_cases hut : u = t
    · subst hut
      exact hin (by simpa using hu)
    · rw [pc_afterMove_of_ne hut] at hu
      obtain ⟨l, hl, hsteps⟩ := h.reading u hu
      refine ⟨l, (hrun u hut).trans hl, ?_⟩
      rwa [show (afterMove s t g pc f x).control.shared.applicationSpecificStruct u = _
        from happ u hut]

theorem Inv.moved_outside (h : Inv cb m₀ s) (hh : (s.control.thread t).hook = .outside)
    (hm : Move t s.control.shared ((s.control.thread t).pc,
      (s.control.thread t).combiner) g (pc, f))
    (hc : (s.control.thread t).pc.combines = false) (hc' : pc.combines = false)
    (hlog : ∀ cs, (s.control.thread t).pc = .logPayload cs → s.unpublished = [])
    (hmem : x.memory = s.memory) (hdata : x.data = s.data) (hunp : x.unpublished = s.unpublished)
    (hpub : x.published = s.published) (hrun : ∀ u, u ≠ t → x.running u = s.running u)
    (hans : ∀ u, u ≠ t → x.answer u = s.answer u)
    (happ : ∀ u, u ≠ t →
      g.applicationSpecificStruct u = s.control.shared.applicationSpecificStruct u)
    (hown : (s.control.thread t).pc.role = .updating → x.answer t = s.answer t ∧
      g.applicationSpecificStruct t = s.control.shared.applicationSpecificStruct t)
    (hup : pc.role = .updating → cb.isReadOnly (g.applicationSpecificStruct t) = false)
    (hrd : pc.role = .reading → cb.isReadOnly (g.applicationSpecificStruct t) = true)
    (hin : pc = .readRequest → ∃ l, x.running t = some l ∧
      cb.machine.Steps (cb.start (g.applicationSpecificStruct t)) (replayed m₀ s.published) l
        (replayed m₀ s.published)) : Inv cb m₀ (afterMove s t g pc f x) := by
  refine h.moved hh hm hpub hrun happ (fun u _ => by rw [hdata]) (fun _ => ?_) hup hrd ?_ hin
  · rw [hdata]
    exact h.data t hc
  · refine h.situation.congr (fun u => ?_) (fun u hu => ?_) (fun u cs hu hne => ?_) hmem hdata
      hunp ?_ (fun es => ?_) fun w i hi => ?_
    · by_cases hut : u = t
      · rw [hut, pc_afterMove_self, hc, hc']
      · rw [pc_afterMove_of_ne hut]
    · have hut : u ≠ t := by
        rintro rfl
        rw [hc] at hu
        cases hu
      exact ⟨pc_afterMove_of_ne hut, hrun u hut⟩
    · have hut : u ≠ t := by
        rintro rfl
        exact hne (hlog cs hu)
      rwa [pc_afterMove_of_ne hut]
    · exact congrArg _ hpub
    · exact congrArg (fun bs => replayed m₀ (bs ++ [es])) hpub
    · by_cases hit : i = t
      · subst hit
        by_cases hrole : (s.control.thread i).pc.role = .updating
        · exact hown hrole
        · exact absurd hi (h.not_pending hrole w)
      · exact ⟨hans i hit, happ i hit⟩

theorem Inv.move {label : Option (Event (Fin n) Req Res)} (h : Inv cb m₀ s)
    (hh : (s.control.thread t).hook = .outside)
    (hm : Move t s.control.shared ((s.control.thread t).pc,
      (s.control.thread t).combiner) g (pc, f))
    (hf : follow cb t g (s.control.thread t).pc pc s.toStore = some (label, x)) :
    Inv cb m₀ (afterMove s t g pc f x) := by
  have hturn := turn_of_move hm hf
  generalize hpc : (s.control.thread t).pc = pc₀ at hturn
  cases hturn with
  | plain happ hrole hc hc' hl hl' hr hr' =>
      refine h.moved_outside hh hm (by rw [hpc, hc]) hc'
        (fun cs hcs => absurd (hpc.symm.trans hcs) (hl cs)) rfl rfl rfl
        rfl (fun _ _ => rfl) (fun _ _ => rfl) (fun u _ => by rw [happ])
          (fun _ => ⟨rfl, by rw [happ]⟩) (fun hu => ?_)
        (fun hu => ?_) fun hin => absurd hin hr'
      · rw [happ]
        exact h.updates t (by rw [hpc, ← hrole, hu])
      · rw [happ]
        exact h.reads t (by rw [hpc, ← hrole, hu])
  | call req hpc' happ =>
      have hself : g.applicationSpecificStruct t = req := by rw [happ, Function.update_self]
      have hidle : (s.control.thread t).pc.role ≠ .updating := by
        rw [hpc]
        simp [Pc.role]
      refine h.moved_outside hh hm (by rw [hpc]; rfl) ?_
        (fun cs hcs => absurd (hpc.symm.trans hcs) (by simp)) rfl rfl rfl
        rfl (fun _ _ => rfl) (fun u hu => Function.update_of_ne hu _ _)
        (fun u hu => by rw [happ, Function.update_of_ne hu]) (fun hu => absurd hu hidle) ?_ ?_ ?_
      · rcases hpc' with ⟨rfl, -⟩ | ⟨rfl, -⟩ <;> rfl
      · rcases hpc' with ⟨rfl, hro⟩ | ⟨rfl, -⟩
        · exact fun _ => hself ▸ hro
        · simp [Pc.role]
      · rcases hpc' with ⟨rfl, -⟩ | ⟨rfl, hro⟩
        · simp [Pc.role]
        · exact fun _ => hself ▸ hro
      · rcases hpc' with ⟨rfl, -⟩ | ⟨rfl, -⟩ <;> simp
  | start cs =>
      obtain ⟨hu, hmem⟩ := h.between (t := t) (by rw [hpc]; rfl) (by rw [hpc]; rfl) (by simp [hpc])
      have hdata : s.data t = {} := h.data t (by rw [hpc]; rfl)
      refine h.moved hh hm rfl (fun _ _ => rfl) (fun _ _ => rfl)
        (fun u hut => Function.update_of_ne hut _ _)
        (by simp [Pc.combines]) (fun _ => h.updates t (by rw [hpc]; rfl))
        (by simp [Pc.role]) ?_ (by simp)
      refine .combining t ∅ (replayed m₀ s.published) (by simp [Pc.combines]) hu ?_ ?_ ?_ ?_
      · simp [afterMove, instrumentStart, hdata]
      · simp only [afterMove, Function.update_self, hdata, hmem]
        exact recording_start ∅ _
      · rw [pc_afterMove_self]
        exact .nil
      · simp only [Progress, pc_afterMove_self]
        exact hmem.symm
  | enable cs =>
      obtain ⟨keys, m, hu, hcopies, hrec, hseq, hprog⟩ := h.combiner (t := t) (by rw [hpc]; rfl)
      refine h.moved hh hm rfl (fun _ _ => rfl) (fun _ _ => rfl) (fun _ _ => rfl)
        (by simp [Pc.combines])
        (fun _ => h.updates t (by rw [hpc]; rfl)) (by simp [Pc.role]) ?_ (by simp)
      simp only [Progress, hpc] at hprog
      refine .combining t keys m (by simp [Pc.combines]) hu hcopies hrec ?_
        (by simpa [Progress, afterMove] using hprog)
      rw [pc_afterMove_self]
      rwa [hpc] at hseq
  | process index cs i hi happ =>
      obtain ⟨keys, m, hu, hcopies, hrec, hseq, hprog⟩ := h.combiner (t := t) (by rw [hpc]; rfl)
      refine h.moved hh hm rfl (fun u hut => Function.update_of_ne hut _ _)
        (fun u _ => by rw [happ]) (fun _ _ => rfl)
        (by simp [Pc.combines]) (fun _ => ?_) (by simp [Pc.role]) ?_ (by simp)
      · rw [happ]
        exact h.updates t (by rw [hpc]; rfl)
      · simp only [Progress, hpc] at hprog
        refine .combining t keys m (by simp [Pc.combines]) hu hcopies hrec ?_ ?_
        · rw [pc_afterMove_self]
          rw [hpc] at hseq
          exact hseq.congr (fun _ _ => by rw [← happ]; rfl) fun _ _ => rfl
        · simp only [Progress, pc_afterMove_self]
          refine ⟨i, _, hi, Function.update_self .., ?_⟩
          rw [show (afterMove s t g (.processRequest index cs) f
            _).control.shared.applicationSpecificStruct = _ from happ, hprog]
          exact .refl
  | processed index cs i hi hl hres =>
      obtain ⟨keys, m, hu, hcopies, hrec, hseq, hprog⟩ := h.combiner (t := t) (by rw [hpc]; rfl)
      have hnd := h.task.nodup t
      simp only [Progress, hpc] at hprog hnd
      obtain ⟨j, l', hj, hl', hsteps⟩ := hprog
      obtain rfl := Option.some.inj (hl.symm.trans hl')
      obtain rfl := Option.some.inj (hi.symm.trans hj)
      refine h.moved hh hm rfl (fun u hut => Function.update_of_ne hut _ _)
        (fun _ _ => rfl) (fun _ _ => rfl)
        (by simp [Pc.combines]) (fun _ => h.updates t (by rw [hpc]; rfl))
        (by simp [Pc.role]) ?_ (by simp)
      refine .combining t keys s.memory (by simp [Pc.combines]) hu hcopies hrec ?_
        (by simp [Progress, afterMove])
      rw [pc_afterMove_self, Pc.finished, List.take_add_one, hi]
      rw [hpc] at hseq
      have hnot := (Combining.not_mem_of_getElem? hi hnd).1
      refine (hseq.congr (fun _ _ => rfl) fun u hmem => ?_).concat (Function.update_self ..)
        ⟨_, hsteps, hres⟩
      have hne : u ≠ i := fun he => hnot (he ▸ hmem)
      exact Function.update_of_ne hne _ _
  | allProcessed index cs hi =>
      obtain ⟨keys, m, hu, hcopies, hrec, hseq, hprog⟩ := h.combiner (t := t) (by rw [hpc]; rfl)
      refine h.moved hh hm rfl (fun _ _ => rfl) (fun _ _ => rfl) (fun _ _ => rfl)
        (by simp [Pc.combines])
        (fun _ => h.updates t (by rw [hpc]; rfl)) (by simp [Pc.role]) ?_ (by simp)
      simp only [Progress, hpc] at hprog
      refine .combining t keys m (by simp [Pc.combines]) hu hcopies hrec ?_
        (by simpa [Progress, afterMove] using hprog)
      rw [pc_afterMove_self]
      rwa [hpc, Pc.finished, List.take_of_length_le hi] at hseq
  | stop cs =>
      obtain ⟨keys, m, hu, hcopies, hrec, hseq, hprog⟩ := h.combiner (t := t) (by rw [hpc]; rfl)
      simp only [Progress, hpc] at hprog
      obtain rfl := hprog
      refine h.moved hh hm rfl (fun _ _ => rfl) (fun _ _ => rfl)
        (fun u hut => Function.update_of_ne hut _ _)
        (fun _ => Function.update_self ..) (fun _ => h.updates t (by rw [hpc]; rfl))
        (by simp [Pc.role]) ?_ (by simp)
      have hone : loggedBatches s.memory (s.data t) =
          [(s.data t).lines.map (redoEntry s.memory)] := by
        rw [loggedBatches, hcopies]
        rfl
      refine .logging t cs _ pc_afterMove_self hone ?_ ?_
      · rw [← hone]
        exact (replayed_append ..).trans hrec.replay
      · rwa [hpc] at hseq
  | logged cs hu happ =>
      refine h.moved_outside hh hm (by rw [hpc]; rfl) rfl (fun _ _ => hu) rfl rfl rfl rfl
        (fun _ _ => rfl) (fun _ _ => rfl)
        (fun u _ => by rw [happ]) (fun _ => ⟨rfl, by rw [happ]⟩) (fun _ => ?_)
        (by simp [Pc.role]) (by simp)
      rw [happ]
      exact h.updates t (by rw [hpc]; rfl)
  | enter hfree =>
      refine h.moved_outside hh hm (by rw [hpc]; rfl) rfl (by simp [hpc]) rfl rfl rfl rfl
        (fun u hut => Function.update_of_ne hut _ _) (fun _ _ => rfl) (fun _ _ => rfl)
        (fun _ => ⟨rfl, rfl⟩)
        (by simp [Pc.role]) (fun _ => h.reads t (by rw [hpc]; rfl)) fun _ =>
        ⟨_, Function.update_self .., .refl⟩
  | respond hl hres =>
      have hrole : (s.control.thread t).pc.role ≠ .updating := by
        rw [hpc]
        simp [Pc.role]
      exact h.moved_outside hh hm (by rw [hpc]; rfl) rfl (by simp [hpc]) rfl rfl rfl rfl
        (fun u hut => Function.update_of_ne hut _ _) (fun u hut => Function.update_of_ne hut _ _)
        (fun _ _ => rfl)
        (fun hu => absurd hu hrole) (by simp [Pc.role]) (by simp [Pc.role]) (by simp)
  | ret hret happ =>
      refine h.moved_outside hh hm ?_ rfl ?_ rfl rfl rfl rfl (fun _ _ => rfl) (fun _ _ => rfl)
        (fun u _ => by rw [happ])
        (fun _ => ⟨rfl, by rw [happ]⟩) (by simp [Pc.role]) (by simp [Pc.role]) (by simp)
      · rw [hpc]
        rcases hret with rfl | rfl | rfl <;> rfl
      · rw [hpc]
        rcases hret with rfl | rfl | rfl <;> simp

end Moves

section Steps

variable {s s' : State n Req Res Local}

theorem inv_initial (h : (service n cb m₀).initial s) : Inv cb m₀ s := by
  obtain ⟨hc, hx⟩ := h
  obtain ⟨⟨_, _, _, _, _, _⟩, control⟩ := s
  cases hx
  have hidle : ∀ t, (control.thread t).pc = .idle := fun t => by rw [hc.thread]
  refine ⟨.start hc, ?_, ?_, fun _ _ => rfl, .quiet ?_ rfl rfl, ?_⟩
  all_goals simp [hidle, Pc.role, Pc.combines]

theorem steps_load {l : Local} {addr : Nat} {next : UInt8 → Local}
    {start : Local} {m m' : Nat → UInt8}
    (h : cb.machine.Steps start m l m') (hr : cb.result l = none)
    (ha : cb.action l = .load addr next) : cb.machine.Steps start m (next (m' addr)) m' := by
  have hstep : cb.machine.step l m' = (next (m' addr), m') := by simp [Callbacks.machine, ha]
  simpa [hstep] using h.tail hr

theorem steps_write {l next : Local} {access : Access} {start : Local} {m m' : Nat → UInt8}
    (h : cb.machine.Steps start m l m') (hr : cb.result l = none)
    (ha : cb.action l = .write access next) : cb.machine.Steps start m next (plain access m') := by
  have hstep : cb.machine.step l m' = (next, plain access m') := by simp [Callbacks.machine, ha]
  simpa [hstep] using h.tail hr

theorem runsCallback_cases {pc : Pc n} (h : runsCallback pc = true) :
    (∃ index cs, pc = .processRequest index cs) ∨ pc = .readRequest := by
  cases pc with
  | processRequest index cs => exact .inl ⟨index, cs, rfl⟩
  | readRequest => exact .inr rfl
  | _ => cases h

/-- A step inside a callback: only the thread's own place changes, and in the
combiner the memory and the record. -/
theorem Inv.callback (h : Inv cb m₀ s) {t : Fin n} {l' : Local} {memory : Nat → UInt8}
    {data : Fin n → PerThread}
    (hc : runsCallback (s.control.thread t).pc = true) (hdata : ∀ u, u ≠ t → data u = s.data u)
    (hread : (s.control.thread t).pc = .readRequest → memory = s.memory ∧ data = s.data ∧
      cb.machine.Steps (cb.start (s.control.shared.applicationSpecificStruct t))
      (replayed m₀ s.published) l'
        (replayed m₀ s.published))
    (hproc : ∀ index cs i l m keys, (s.control.thread t).pc = .processRequest index cs →
      cs[index]? = some i → s.running t = some l →
      cb.machine.Steps (cb.start (s.control.shared.applicationSpecificStruct i)) m l s.memory →
      Recording keys (replayed m₀ s.published) ⟨s.memory, s.data t⟩ →
      cb.machine.Steps (cb.start (s.control.shared.applicationSpecificStruct i)) m l' memory ∧
        (∃ keys, Recording keys (replayed m₀ s.published) ⟨memory, data t⟩) ∧
        (data t).memcpyArray = (s.data t).memcpyArray) :
    Inv cb m₀ { s with memory, data, running := Function.update s.running t (some l') } := by
  have hrun : ∀ u, u ≠ t → Function.update s.running t (some l') u = s.running u :=
    fun u hu => Function.update_of_ne hu _ _
  refine ⟨h.control, h.updates, h.reads, fun u hu => ?_, ?_, fun u hu => ?_⟩
  · by_cases hut : u = t
    · subst hut
      rcases runsCallback_cases hc with ⟨index, cs, hpc⟩ | hpc
      · rw [hpc] at hu
        cases hu
      · exact (congrFun (hread hpc).2.1 u).trans (h.data u hu)
    · exact (hdata u hut).trans (h.data u hu)
  · rcases runsCallback_cases hc with ⟨index, cs, hpc⟩ | hpc
    · have hcomb : (s.control.thread t).pc.combines = true := by rw [hpc]; rfl
      obtain ⟨keys, m, hu, hcopies, hrec, hseq, hprog⟩ := h.combiner hcomb
      simp only [Progress, hpc] at hprog
      obtain ⟨i, l, hi, hl, hsteps⟩ := hprog
      obtain ⟨hsteps', ⟨keys', hrec'⟩, hcopies'⟩ := hproc index cs i l m keys hpc hi hl hsteps hrec
      refine .combining t keys' m hcomb hu (hcopies'.trans hcopies) hrec' hseq ?_
      simp only [Progress, hpc]
      exact ⟨i, l', hi, Function.update_self .., hsteps'⟩
    · obtain ⟨hmem, hdata', -⟩ := hread hpc
      refine h.situation.congr (fun _ => rfl) (fun u hu => ⟨rfl, hrun u ?_⟩)
        (fun _ _ hu _ => hu) hmem hdata' rfl rfl (fun _ => rfl) fun _ _ _ => ⟨rfl, rfl⟩
      rintro rfl
      rw [hpc] at hu
      cases hu
  · by_cases hut : u = t
    · subst hut
      exact ⟨l', Function.update_self .., (hread hu).2.2⟩
    · obtain ⟨l, hl, hsteps⟩ := h.reading u hu
      exact ⟨l, (hrun u hut).trans hl, hsteps⟩

theorem Inv.load (h : Inv cb m₀ s) {t : Fin n} {l : Local} {addr : Nat} {next : UInt8 → Local}
    (hc : runsCallback (s.control.thread t).pc = true) (hl : s.running t = some l)
    (hr : cb.result l = none) (ha : cb.action l = .load addr next) :
    Inv cb m₀ { s with running := Function.update s.running t (some (next (s.memory addr))) } := by
  refine h.callback hc (fun _ _ => rfl) (fun hpc => ⟨rfl, rfl, ?_⟩)
    fun index cs i l₁ m keys hpc hi hl₁ hsteps hrec => ?_
  · obtain ⟨l₁, hl₁, hsteps⟩ := h.reading t hpc
    obtain rfl := Option.some.inj (hl.symm.trans hl₁)
    rw [h.quiet (t := t) (by rw [hpc]; rfl)]
    exact steps_load hsteps hr ha
  · obtain rfl := Option.some.inj (hl.symm.trans hl₁)
    exact ⟨steps_load hsteps hr ha, ⟨keys, hrec⟩, rfl⟩

theorem Inv.write (hcb : cb.Proper) (h : Inv cb m₀ s) {t : Fin n} {l next : Local}
    {access : Access} {fe : FrontEnd}
    (hc : runsCallback (s.control.thread t).pc = true) (hl : s.running t = some l)
    (hr : cb.result l = none)
    (ha : cb.action l = .write access next) (hp : perform access ⟨s.memory, s.data t⟩ = some fe) :
    Inv cb m₀ { s with
      memory := fe.memory
      data := Function.update s.data t fe.data
      running := Function.update s.running t (some next) } := by
  refine h.callback hc (fun u hu => Function.update_of_ne hu _ _) (fun hpc => ?_)
    fun index cs i l₁ m keys hpc hi hl₁ hsteps hrec => ?_
  · -- the code of a reader does not come to a write
    obtain ⟨l₁, hl₁, hsteps⟩ := h.reading t hpc
    obtain rfl := Option.some.inj (hl.symm.trans hl₁)
    obtain ⟨addr, load, hload⟩ := hcb.reads _ l (h.reads t (by rw [hpc]; rfl)) ⟨_, _, hsteps⟩ hr
    rw [ha] at hload
    cases hload
  · obtain rfl := Option.some.inj (hl.symm.trans hl₁)
    have hpending : i ∈ (s.control.thread t).pc.pending := by
      rw [hpc]
      exact List.mem_of_getElem? hi
    have hupd : (s.control.thread i).pc.role = .updating := by
      by_contra hne
      exact h.not_pending hne t hpending
    obtain ⟨addr, bytes, rfl, haddr⟩ :=
      hcb.stores _ l access next (h.updates i hupd) ⟨_, _, hsteps⟩ hr ha
    obtain ⟨keys', hrec', hmem, hcopies⟩ := recording_of_perform hrec haddr hp
    rw [Function.update_self]
    refine ⟨?_, ⟨keys', hrec'⟩, hcopies⟩
    rw [hmem]
    exact steps_write hsteps hr ha

theorem Inv.publish (h : Inv cb m₀ s) {t : Fin n} {cs : List (Fin n)} {es : List Entry}
    {rest : List (List Entry)}
    (hpc : (s.control.thread t).pc = .logPayload cs) (hu : s.unpublished = es :: rest) :
    Inv cb m₀ { s with unpublished := rest, published := s.published ++ [es] } ∧ rest = [] ∧
      Sequence cb.machine s.control.shared.applicationSpecificStruct s.answer cs
      (replayed m₀ s.published)
        (replayed m₀ (s.published ++ [es])) := by
  have hl : (s.control.thread t).pc.locks = true := by rw [hpc]; rfl
  have hnone : ∀ u, (s.control.thread u).pc.combines = false := by
    intro u
    by_contra hcomb
    rw [Bool.not_eq_false] at hcomb
    obtain rfl := h.lock.single u t (SpinLock.locks_of_combines hcomb) hl
    rw [hpc] at hcomb
    cases hcomb
  cases h.situation with
  | quiet _ hu' =>
      rw [hu] at hu'
      cases hu'
  | combining w _ _ hw =>
      rw [hnone w] at hw
      cases hw
  | logging w cs' es' hpc' hu' hm hseq =>
      obtain rfl := h.lock.single t w hl (by rw [hpc']; rfl)
      obtain ⟨rfl, rfl⟩ := List.cons_eq_cons.mp (hu.symm.trans hu')
      obtain rfl := Pc.logPayload.inj (hpc.symm.trans hpc')
      refine ⟨⟨h.control, h.updates, h.reads, h.data, .quiet hnone rfl hm.symm, fun u hread => ?_⟩,
        rfl, hm ▸ hseq⟩
      -- nobody reads while the combiner logs
      have hreads := h.lock.out t u hl (by rw [hpc]; exact u.isLt)
      rw [hread] at hreads
      cases hreads

theorem replayed_mapEntry (bs : List (List Entry)) (addr size : Nat) (k : Hook) :
    replayed m₀ (bs ++ mapEntry addr size k) = replayed m₀ bs := by
  rw [replayed_append]
  cases k with
  | enqueue locked => cases locked <;> rfl
  | _ => rfl

theorem Inv.hook (h : Inv cb m₀ s) {t : Fin n} {g : Shared n Req} {k : Hook} (addr size : Nat)
    (hc : (s.control.thread t).pc.callsBack = true)
    (hm : HookMove (s.control.thread t).combiner s.control.shared (s.control.thread t).hook g k) :
    Inv cb m₀ { s with
      published := s.published ++ mapEntry addr size (s.control.thread t).hook
      control :=
        ⟨g, Function.update s.control.thread t { s.control.thread t with hook := k }⟩ } := by
  have hpc : ∀ u, (Function.update s.control.thread t { s.control.thread t with hook := k } u).pc =
      (s.control.thread u).pc := by
    intro u
    by_cases hu : u = t
    · rw [hu, Function.update_self]
    · rw [Function.update_of_ne hu]
  obtain ⟨-, happ⟩ := Combining.sameTasks_of_hookMove hm
  refine ⟨h.control.next (.hook trivial hc (fun _ => trivial) hm), fun u => ?_, fun u => ?_,
    fun u => ?_, ?_, fun u => ?_⟩
  · simpa only [hpc, happ] using h.updates u
  · simpa only [hpc, happ] using h.reads u
  · simpa only [hpc] using h.data u
  · refine h.situation.congr (fun u => by simp only [hpc]) (fun u _ => ⟨hpc u, rfl⟩)
      (fun u cs hu _ => by simp only [hpc, hu])
      rfl rfl rfl (replayed_mapEntry ..) (fun es => ?_) fun _ i _ => ⟨rfl, by simp only [happ]⟩
    dsimp only
    rw [replayed_append m₀ _ [es], replayed_mapEntry, ← replayed_append]
  · simpa only [hpc, happ, replayed_mapEntry] using h.reading u

theorem inv_of_reachable (hcb : cb.Proper)
    (h : Reachable (service n cb m₀).initial (service n cb m₀).Next s) : Inv cb m₀ s := by
  refine h.invariant (fun s => inv_initial) fun s s' hi hs => ?_
  obtain ⟨label, hs⟩ := hs
  cases hs with
  | move hh hm hf => exact hi.move hh hm hf
  | load hc _ hl hr ha => exact hi.load hc hl hr ha
  | write hc _ hl hr ha hp => exact hi.write hcb hc hl hr ha hp
  | publish hpc hu => exact (hi.publish hpc hu).1
  | hook addr size hc hm => exact hi.hook addr size hc hm

end Steps

end Mangosteen.Service
