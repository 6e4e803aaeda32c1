import Mathlib.Data.Fintype.Card
import Mathlib.Data.List.Nodup
import Mangosteen.SpinLock

namespace Mangosteen.FlatCombining

variable {n : Nat}

/-- Where the caller of `exec_rw_flat_combining` stands with its own slot. -/
inductive Stage
  | outside
  | posting
  | waiting
  | clearing
  | combining
  | clearingOwn
  | unlocking
  deriving DecidableEq

def Pc.stage : Pc n → Stage
  | .post => .posting
  | .checkStarted | .awaitDone | .checkDone | .checkFree | .lockWriter => .waiting
  | .clear => .clearing
  | .collect _ _ | .take _ _ | .scan _ _ | .instrumentStart _ | .enableCombiner _ | .process _ _
  | .processRequest _ _ | .instrumentStop _ | .logPayload _ | .disableCombiner _
  | .markDone _ _ => .combining
  | .clearOwn => .clearingOwn
  | .writeUnlock => .unlocking
  | _ => .outside

/-- The used part of `ready_commands_indexes`. -/
def Pc.commands : Pc n → List (Fin n)
  | .collect _ cs | .take _ cs | .scan _ cs | .instrumentStart cs
  | .enableCombiner cs | .process _ cs
  | .processRequest _ cs | .instrumentStop cs | .logPayload cs | .disableCombiner cs
  | .markDone _ cs => cs
  | _ => []

/-- The slots that the combiner has collected and not yet marked. -/
def Pc.pending : Pc n → List (Fin n)
  | .markDone index cs => cs.drop index
  | pc => pc.commands

/-- Those of them whose request it has passed to `processRequestCallBack`. -/
def Pc.served : Pc n → List (Fin n)
  | .process index cs => cs.take index
  | .processRequest index cs => cs.take (index + 1)
  | .instrumentStop cs | .logPayload cs | .disableCombiner cs => cs
  | .markDone index cs => cs.drop index
  | _ => []

/-- Past the `instrument_stop` of the session. -/
def Pc.stopped : Pc n → Bool
  | .disableCombiner _ | .markDone _ _ => true
  | _ => false

/-- The loops ahead of the thread still come to slot `i`. -/
def Pc.reaches (i : Fin n) : Pc n → Bool
  | .collect k _ => k ≤ i.val
  | .take k _ => k ≤ i
  | pc => pc.stage = .waiting

end Mangosteen.FlatCombining

namespace Mangosteen.Combining

open FlatCombining Transition SpinLock

variable {n : Nat} {Req : Type}

/-- The two states agree on the task array and on what has happened. -/
structure SameTasks (g g' : Shared n Req) : Prop where
  ready : g'.ready = g.ready
  requests : g'.requests = g.requests
  returned : g'.returned = g.returned
  executed : g'.executed = g.executed
  stops : g'.stops = g.stops

/-- What a step of a thread does to the task array. -/
inductive Effect (t : Fin n) (g : Shared n Req) (pc : Pc n) (g' : Shared n Req) (pc' : Pc n) : Prop
  | quiet (hg : SameTasks g g')
      (happ : g'.applicationSpecificStruct = g.applicationSpecificStruct)
      (hstage : pc'.stage = pc.stage)
      (hcs : pc'.commands = pc.commands) (hp : pc'.pending = pc.pending)
      (hs : pc'.served = pc.served)
      (hstop : pc'.stopped = pc.stopped) (htake : ∀ i cs, pc' = .take i cs →
        g.ready i = .readyToExecute)
      (hreach : g.ready t = .readyToExecute → pc.reaches t = true → pc'.reaches t = true)
  | read (req : Req) (hg : SameTasks g g')
      (happ : g'.applicationSpecificStruct = Function.update g.applicationSpecificStruct t req)
      (hpc : pc = .idle) (hpc' : pc' = .markReaderAsActive)
  | call (req : Req) (hpc : pc = .idle) (hpc' : pc' = .post)
      (hg : g' = { g with
        applicationSpecificStruct := Function.update g.applicationSpecificStruct t req
        requests := Function.update g.requests t (g.requests t ++ [req]) })
  | post (hpc : pc = .post) (hpc' : pc' = .checkStarted)
      (hg : g' = { g with ready := Function.update g.ready t .readyToExecute })
  | seen (hdone : g.ready t = .done) (hg : g' = g) (hpc : pc.stage = .waiting) (hpc' : pc' = .clear)
  | clear (hpc : pc = .clear) (hpc' : pc' = .idle)
      (hg : g' = { g with
        ready := Function.update g.ready t .none
        returned := Function.update g.returned t (g.returned t + 1) })
  | lock (hpc : pc = .lockWriter) (hpc' : pc' = .collect 0 []) (hg : SameTasks g g')
      (happ : g'.applicationSpecificStruct = g.applicationSpecificStruct)
  | take (i : Fin n) (cs : List (Fin n)) (hpc : pc = .take i cs)
      (hpc' : pc' = .collect (i + 1) (cs ++ [i]))
      (hg : g' = { g with ready := Function.update g.ready i .started })
  | process (i : Fin n) (index : Nat) (cs : List (Fin n)) (h : cs[index]? = some i)
      (hpc : pc = .process index cs) (hpc' : pc' = .processRequest index cs) (hg : g' = { g with
        executed :=
          Function.update g.executed i
          (g.executed i ++ [(g.applicationSpecificStruct i, g.stops)]) })
  | stop (cs : List (Fin n)) (hpc : pc = .logPayload cs) (hpc' : pc' = .disableCombiner cs)
      (hg : g' = { g with stops := g.stops + 1 })
  | mark (i : Fin n) (index : Nat) (cs : List (Fin n)) (h : cs[index]? = some i)
      (hpc : pc = .markDone index cs)
      (hpc' : pc' = .markDone (index + 1) cs)
      (hg : g' = { g with ready := Function.update g.ready i .done })
  | marked (index : Nat) (cs : List (Fin n)) (h : cs.length ≤ index) (hpc : pc = .markDone index cs)
      (hpc' : pc' = .clearOwn) (hg : g' = g)
  | clearOwn (hpc : pc = .clearOwn) (hpc' : pc' = .writeUnlock)
      (hg : g' = { g with ready := Function.update g.ready t .none })
  | unlock (hpc : pc = .writeUnlock) (hpc' : pc' = .idle)
      (hg : g' = { g with
        writers := 0, returned := Function.update g.returned t (g.returned t + 1) })

theorem effect_of_move {t : Fin n} {g g' : Shared n Req} {pc pc' : Pc n} {f f' : Nat}
    (h : Move t g (pc, f) g' (pc', f')) : Effect t g pc g' pc' := by
  have hsame : SameTasks g g := ⟨rfl, rfl, rfl, rfl, rfl⟩
  cases h with
  | callUpdate req => exact .call req rfl rfl rfl
  | callRead req => exact .read req ⟨rfl, rfl, rfl, rfl, rfl⟩ rfl rfl rfl
  | post => exact .post rfl rfl rfl
  | awaited h => exact .seen h rfl rfl rfl
  | isDone h => exact .seen h rfl rfl rfl
  | clear => exact .clear rfl rfl rfl
  | lockWriter => exact .lock rfl rfl ⟨rfl, rfl, rfl, rfl, rfl⟩ rfl
  | collectReady i h =>
      refine .quiet hsame rfl rfl rfl rfl rfl rfl (fun j _ hj => ?_) fun _ hr => hr
      cases hj
      exact h
  | collectNext i h =>
      refine .quiet hsame rfl rfl rfl rfl rfl rfl (by simp) fun ht hr => ?_
      -- the slot that the loop passes is not ready
      have hne : t ≠ i := fun hti => h (hti ▸ ht)
      have hle : i.val ≤ t.val := by simpa [Pc.reaches] using hr
      have hlt : i.val + 1 ≤ t.val := by
        have := Fin.val_ne_of_ne hne
        omega
      simpa [Pc.reaches] using hlt
  | take i => exact .take i _ rfl rfl rfl
  | collected =>
      refine .quiet hsame rfl rfl rfl rfl rfl rfl (by simp) fun _ hr => ?_
      have hle : n ≤ t.val := by simpa [Pc.reaches] using hr
      omega
  | process h => exact .process _ _ _ h rfl rfl rfl
  | allProcessed h =>
      exact .quiet hsame rfl rfl rfl rfl (List.take_of_length_le h).symm rfl (by simp)
        (by simp [Pc.reaches, Pc.stage])
  | logPayload => exact .stop _ rfl rfl rfl
  | markDone h => exact .mark _ _ _ h rfl rfl rfl
  | allMarked h => exact .marked _ _ h rfl rfl rfl
  | clearOwn => exact .clearOwn rfl rfl rfl
  | writeUnlock => exact .unlock rfl rfl rfl
  | _ => exact .quiet ⟨rfl, rfl, rfl, rfl, rfl⟩ rfl rfl rfl rfl rfl rfl (by simp) (by
      simp [Pc.reaches, Pc.stage])

theorem sameTasks_of_hookMove {g g' : Shared n Req} {k k' : Hook} {f : Nat}
    (h : HookMove f g k g' k') :
    SameTasks g g' ∧ g'.applicationSpecificStruct = g.applicationSpecificStruct := by
  cases h <;> exact ⟨⟨rfl, rfl, rfl, rfl, rfl⟩, rfl⟩

theorem Effect.executed {t i : Fin n} {g g' : Shared n Req} {pc pc' : Pc n}
    (h : Effect t g pc g' pc') (hne : g'.executed i ≠ g.executed i) :
    g'.executed i = g.executed i ++ [(g.applicationSpecificStruct i, g.stops)] ∧
      ∃ index cs, cs[index]? = some i ∧ pc' = .processRequest index cs := by
  cases h with
  | quiet hg => exact absurd (by rw [hg.executed]) hne
  | read _ hg => exact absurd (by rw [hg.executed]) hne
  | lock _ _ hg => exact absurd (by rw [hg.executed]) hne
  | process j index cs hj _ hpc' hg =>
      subst hg hpc'
      by_cases hij : i = j
      · subst hij
        exact ⟨Function.update_self .., index, cs, hj, rfl⟩
      · exact absurd (Function.update_of_ne hij _ _) hne
  | call _ _ _ hg | post _ _ hg | seen _ hg | clear _ _ hg | take _ _ _ _ hg | stop _ _ _ hg
  | mark _ _ _ _ _ _ hg
  | marked _ _ _ _ _ hg | clearOwn _ _ hg | unlock _ _ hg => exact absurd (by rw [hg]) hne

/-- Every request of slot `i` that was executed was executed in a session whose
`instrument_stop` has returned. -/
def Settled (g : Shared n Req) (i : Fin n) : Prop := ∀ x ∈ g.executed i, x.2 < g.stops

/-- The life of a slot. -/
inductive Phase (g : Shared n Req) (pcs : Fin n → Pc n) (i : Fin n) : Prop
  | fresh (hready : g.ready i = .none) (hstage : (pcs i).stage = .outside ∨
      (pcs i).stage = .posting) (he : (g.executed i).length = g.returned i) (hs : Settled g i)
  | posted (hready : g.ready i = .readyToExecute)
      (hstage : (pcs i).stage = .waiting ∨ (pcs i).stage = .combining)
      (hreach : (pcs i).reaches i = true)
      (he : (g.executed i).length = g.returned i) (hs : Settled g i)
  | taken (hready : g.ready i = .started) (hstage : (pcs i).stage = .waiting ∨
      (pcs i).stage = .combining) (w : Fin n) (hw : i ∈ (pcs w).pending)
      (he : (g.executed i).length = g.returned i + if i ∈ (pcs w).served then 1 else 0)
      (hs : (pcs w).stopped = true ∨ i ∉ (pcs w).served → Settled g i)
      (hpast : ∀ x ∈ (g.executed i).take (g.returned i), x.2 < g.stops)
  | finished (hready : g.ready i = .done)
      (hstage : (pcs i).stage = .waiting ∨ (pcs i).stage = .combining ∨ (pcs i).stage = .clearing ∨
        (pcs i).stage = .clearingOwn)
      (he : (g.executed i).length = g.returned i + 1) (hs : Settled g i)
  | cleared (hready : g.ready i = .none) (hstage : (pcs i).stage = .unlocking)
      (he : (g.executed i).length = g.returned i + 1) (hs : Settled g i)

/-- The calls of the thread of slot `i`: the last one is in progress as long as
the thread is inside the function, and its request is in the slot. -/
structure Calls (g : Shared n Req) (pc : Pc n) (i : Fin n) : Prop where
  order : (g.executed i).map Prod.fst = (g.requests i).take (g.executed i).length
  count : (g.requests i).length = g.returned i + if pc.stage = .outside then 0 else 1
  request : pc.stage ≠ .outside →
    (g.requests i)[g.returned i]? = some (g.applicationSpecificStruct i)

/-- What the combiners have collected. -/
structure Collected (g : Shared n Req) (pcs : Fin n → Pc n) : Prop where
  pending : ∀ w, ∀ i ∈ (pcs w).pending, g.ready i = .started
  nodup : ∀ w, (pcs w).commands.Nodup
  take : ∀ w i cs, pcs w = .take i cs → g.ready i = .readyToExecute

structure TaskInv (active : Fin n → Prop) (g : Shared n Req) (pcs : Fin n → Pc n) :
    Prop extends Collected g pcs where
  calls : ∀ i, active i → Calls g (pcs i) i
  phase : ∀ i, active i → Phase g pcs i
  sessions : ∀ i, ∀ x ∈ g.executed i, x.2 ≤ g.stops

theorem locks_of_mem_pending {pc : Pc n} {i : Fin n} (h : i ∈ pc.pending) : pc.locks = true := by
  cases pc <;> first | rfl | cases h

theorem pending_of_waiting {pc : Pc n} (h : pc.stage = .waiting) : pc.pending = [] := by
  cases pc <;> first | rfl | cases h

theorem drop_of_getElem? {cs : List (Fin n)} {index : Nat} {i : Fin n} (h : cs[index]? = some i) :
    cs.drop index = i :: cs.drop (index + 1) := by
  obtain ⟨hlt, rfl⟩ := List.getElem?_eq_some_iff.mp h
  exact List.drop_eq_getElem_cons hlt

theorem not_mem_of_getElem? {cs : List (Fin n)} {index : Nat} {i : Fin n} (h : cs[index]? = some i)
    (hcs : cs.Nodup) : i ∉ cs.take index ∧ i ∉ cs.drop (index + 1) := by
  rw [← List.take_append_drop index cs, drop_of_getElem? h, List.nodup_append',
    List.nodup_cons] at hcs
  exact ⟨fun hmem => hcs.2.2 hmem List.mem_cons_self, hcs.2.1.1⟩

theorem mem_drop_of_ne {cs : List (Fin n)} {index : Nat} {i j : Fin n} (h : cs[index]? = some i)
    (hj : j ≠ i) : j ∈ cs.drop (index + 1) ↔ j ∈ cs.drop index := by
  rw [drop_of_getElem? h, List.mem_cons]
  exact (or_iff_right hj).symm

section Phases

variable {g g' : Shared n Req} {pcs pcs' : Fin n → Pc n} {i : Fin n}

theorem Phase.congr (h : Phase g pcs i) (hready : g'.ready i = g.ready i)
    (hexec : g'.executed i = g.executed i)
    (hret : g'.returned i = g.returned i) (hstops : g.stops ≤ g'.stops)
    (hstage : (pcs' i).stage = (pcs i).stage)
    (hreach : g.ready i = .readyToExecute → (pcs i).reaches i = true → (pcs' i).reaches i = true)
    (hw : ∀ w, i ∈ (pcs w).pending → i ∈ (pcs' w).pending ∧
      (i ∈ (pcs' w).served ↔ i ∈ (pcs w).served) ∧
      ((pcs' w).stopped = true → (pcs w).stopped = true ∨ Settled g' i)) : Phase g' pcs' i := by
  have hsettled : Settled g i → Settled g' i := by
    intro h x hx
    rw [hexec] at hx
    exact Nat.lt_of_lt_of_le (h x hx) hstops
  cases h with
  | fresh hr hst he hs =>
    exact .fresh (by rw [hready, hr]) (by rwa [hstage]) (by rwa [hexec, hret]) (hsettled hs)
  | posted hr hst hre he hs =>
      exact .posted (by rw [hready, hr]) (by rwa [hstage]) (hreach hr hre)
        (by rwa [hexec, hret]) (hsettled hs)
  | taken hr hst w hmem he hs hpast =>
      obtain ⟨hp, hserved, hstopped⟩ := hw w hmem
      refine .taken (by rw [hready, hr]) (by rwa [hstage]) w hp
        (by simpa only [hexec, hret, hserved] using he) ?_ ?_
      · rintro (hst' | hns)
        · rcases hstopped hst' with h | h
          · exact hsettled (hs (.inl h))
          · exact h
        · exact hsettled (hs (.inr fun h => hns (hserved.mpr h)))
      · rw [hexec, hret]
        exact fun x hx => Nat.lt_of_lt_of_le (hpast x hx) hstops
  | finished hr hst he hs =>
    exact .finished (by rw [hready, hr]) (by rwa [hstage]) (by rwa [hexec, hret]) (hsettled hs)
  | cleared hr hst he hs =>
    exact .cleared (by rw [hready, hr]) (by rwa [hstage]) (by rwa [hexec, hret]) (hsettled hs)

theorem Phase.move {t : Fin n} {pc' : Pc n} (h : Phase g pcs i) (hready : g'.ready i = g.ready i)
    (hexec : g'.executed i = g.executed i) (hret : g'.returned i = g.returned i)
    (hstops : g.stops ≤ g'.stops) (hown : i = t → pc'.stage = (pcs t).stage ∧
      (g.ready t = .readyToExecute → (pcs t).reaches t = true → pc'.reaches t = true))
    (hw : i ∈ (pcs t).pending → i ∈ pc'.pending ∧ (i ∈ pc'.served ↔ i ∈ (pcs t).served) ∧
      (pc'.stopped = true → (pcs t).stopped = true ∨ Settled g' i)) :
      Phase g' (Function.update pcs t pc') i := by
  refine h.congr hready hexec hret hstops ?_ ?_ fun w hmem => ?_
  · by_cases hi : i = t
    · rw [hi, Function.update_self, (hown hi).1]
    · rw [Function.update_of_ne hi]
  · by_cases hi : i = t
    · subst hi
      rw [Function.update_self]
      exact (hown rfl).2
    · rw [Function.update_of_ne hi]
      exact fun _ h => h
  · by_cases hwt : w = t
    · subst hwt
      rw [Function.update_self]
      exact hw hmem
    · rw [Function.update_of_ne hwt]
      exact ⟨hmem, Iff.rfl, .inl⟩

theorem Phase.of_fresh (h : Phase g pcs i)
    (hst : (pcs i).stage = .outside ∨ (pcs i).stage = .posting) :
    g.ready i = .none ∧ (g.executed i).length = g.returned i ∧ Settled g i := by
  cases h with
  | fresh hr _ he hs => exact ⟨hr, he, hs⟩
  | posted _ hst' | taken _ hst' | finished _ hst' | cleared _ hst' => grind

theorem Phase.of_clearing (h : Phase g pcs i)
    (hst : (pcs i).stage = .clearing ∨ (pcs i).stage = .clearingOwn) :
    g.ready i = .done ∧ (g.executed i).length = g.returned i + 1 ∧ Settled g i := by
  cases h with
  | finished hr _ he hs => exact ⟨hr, he, hs⟩
  | fresh _ hst' | posted _ hst' | taken _ hst' | cleared _ hst' => grind

theorem Phase.of_unlocking (h : Phase g pcs i) (hst : (pcs i).stage = .unlocking) :
    g.ready i = .none ∧ (g.executed i).length = g.returned i + 1 ∧ Settled g i := by
  cases h with
  | cleared hr _ he hs => exact ⟨hr, he, hs⟩
  | fresh _ hst' | posted _ hst' | taken _ hst' | finished _ hst' => grind

end Phases

section Moves

variable {active : Fin n → Prop} {t : Fin n} {g g' : Shared n Req} {pcs : Fin n → Pc n} {pc' : Pc n}

theorem Collected.move (h : Collected g pcs) (hready : g'.ready = g.ready)
    (hp : pc'.pending = (pcs t).pending)
    (hcs : pc'.commands = (pcs t).commands)
    (htake : ∀ i cs, pc' = .take i cs → g.ready i = .readyToExecute) :
    Collected g' (Function.update pcs t pc') := by
  constructor
  · intro w i hi
    rw [hready]
    by_cases hwt : w = t
    · rw [hwt, Function.update_self, hp] at hi
      exact h.pending t i hi
    · rw [Function.update_of_ne hwt] at hi
      exact h.pending w i hi
  · intro w
    by_cases hwt : w = t
    · rw [hwt, Function.update_self, hcs]
      exact h.nodup t
    · rw [Function.update_of_ne hwt]
      exact h.nodup w
  · intro w i cs hw
    rw [hready]
    by_cases hwt : w = t
    · rw [hwt, Function.update_self] at hw
      exact htake i cs hw
    · rw [Function.update_of_ne hwt] at hw
      exact h.take w i cs hw

theorem TaskInv.calls_move (h : TaskInv active g pcs) (hreq : g'.requests = g.requests)
    (hret : g'.returned = g.returned) (hexec : g'.executed = g.executed)
    (happ : g'.applicationSpecificStruct = g.applicationSpecificStruct)
    (hstage : pc'.stage = (pcs t).stage) :
    ∀ i, active i → Calls g' (Function.update pcs t pc' i) i := by
  intro i hi
  obtain ⟨horder, hcount, hrequest⟩ := h.calls i hi
  have hst : (Function.update pcs t pc' i).stage = (pcs i).stage := by
    by_cases hit : i = t
    · rw [hit, Function.update_self, hstage]
    · rw [Function.update_of_ne hit]
  constructor
  · rw [hexec, hreq, horder]
  · rw [hreq, hret, hst, hcount]
  · rw [hreq, hret, happ, hst]
    exact hrequest

theorem TaskInv.move_quiet (h : TaskInv active g pcs) (hg : SameTasks g g')
    (happ : g'.applicationSpecificStruct = g.applicationSpecificStruct)
    (hstage : pc'.stage = (pcs t).stage)
    (hcs : pc'.commands = (pcs t).commands) (hp : pc'.pending = (pcs t).pending)
    (hs : pc'.served = (pcs t).served)
    (hstop : pc'.stopped = (pcs t).stopped)
    (htake : ∀ i cs, pc' = .take i cs → g.ready i = .readyToExecute)
    (hreach : g.ready t = .readyToExecute → (pcs t).reaches t = true → pc'.reaches t = true) :
    TaskInv active g' (Function.update pcs t pc') := by
  obtain ⟨hready, hreq, hret, hexec, hstops⟩ := hg
  refine ⟨h.toCollected.move hready hp hcs htake, h.calls_move hreq hret hexec happ hstage,
    fun i hi => ?_, ?_⟩
  · refine (h.phase i hi).move (by rw [hready]) (by rw [hexec]) (by rw [hret]) (by rw [hstops])
      (fun _ => ⟨hstage, hreach⟩) fun hmem => ?_
    rw [hp, hs, hstop]
    exact ⟨hmem, Iff.rfl, .inl⟩
  · rw [hexec, hstops]
    exact h.sessions

theorem TaskInv.move_own (h : TaskInv active g pcs) (hready : ∀ i, i ≠ t → g'.ready i = g.ready i)
    (hreq : ∀ i, i ≠ t → g'.requests i = g.requests i)
    (hret : ∀ i, i ≠ t → g'.returned i = g.returned i)
    (happ : ∀ i, i ≠ t → g'.applicationSpecificStruct i = g.applicationSpecificStruct i)
    (hexec : g'.executed = g.executed) (hstops : g'.stops = g.stops) (hp : (pcs t).pending = [])
    (hp' : pc'.pending = []) (hcs' : pc'.commands = []) (htake : ∀ i cs, pc' ≠ .take i cs)
    (hown : g'.ready t = g.ready t ∨ g.ready t ≠ .started ∧ g.ready t ≠ .readyToExecute)
    (hcalls : Calls g' pc' t) (hphase : Phase g' (Function.update pcs t pc') t) :
    TaskInv active g' (Function.update pcs t pc') := by
  have hpend := h.pending
  have hnodup := h.nodup
  have htaken := h.take
  refine ⟨?_, fun i hi => ?_, fun i hi => ?_, ?_⟩
  · constructor <;> grind [Function.update_apply]
  · by_cases hit : i = t
    · rwa [hit, Function.update_self]
    · obtain ⟨horder, hcount, hrequest⟩ := h.calls i hi
      rw [Function.update_of_ne hit]
      constructor <;> grind
  · by_cases hit : i = t
    · rwa [hit]
    · refine (h.phase i hi).move (hready i hit) (by rw [hexec]) (hret i hit) (by rw [hstops])
        (fun h => absurd h hit) fun hmem => ?_
      rw [hp] at hmem
      cases hmem
  · rw [hexec, hstops]
    exact h.sessions

-- Moves of the combiner, which has the lock word for itself.
variable (hsingle : ∀ u w, (pcs u).locks = true → (pcs w).locks = true → u = w)

include hsingle

theorem Collected.take_started {i : Fin n} {cs : List (Fin n)} (h : Collected g pcs)
    (hpc : pcs t = .take i cs) : Collected { g with ready := Function.update g.ready i .started }
      (Function.update pcs t (.collect (i + 1) (cs ++ [i]))) := by
  have hposted := h.take t i cs hpc
  have hnew : i ∉ cs := fun hmem => by
    have hstarted := h.pending t i (by rw [hpc]; exact hmem)
    rw [hposted] at hstarted
    cases hstarted
  constructor
  · intro w j hj
    dsimp only
    by_cases hji : j = i
    · rw [hji, Function.update_self]
    · rw [Function.update_of_ne hji]
      by_cases hwt : w = t
      · subst hwt
        rw [Function.update_self] at hj
        refine h.pending w j ?_
        rw [hpc]
        exact (List.mem_append.mp hj).resolve_right (by simpa using hji)
      · rw [Function.update_of_ne hwt] at hj
        exact h.pending w j hj
  · intro w
    by_cases hwt : w = t
    · subst hwt
      have hcs := h.nodup w
      rw [hpc] at hcs
      rw [Function.update_self]
      exact hcs.append (List.nodup_singleton i) (List.disjoint_singleton.mpr hnew)
    · rw [Function.update_of_ne hwt]
      exact h.nodup w
  · intro w j cs' hw
    by_cases hwt : w = t
    · rw [hwt, Function.update_self] at hw
      cases hw
    · rw [Function.update_of_ne hwt] at hw
      exact absurd (hsingle w t (by rw [hw]; rfl) (by rw [hpc]; rfl)) hwt

theorem TaskInv.move_take {i : Fin n} {cs : List (Fin n)} (h : TaskInv active g pcs)
    (hpc : pcs t = .take i cs) :
    TaskInv active { g with ready := Function.update g.ready i .started }
      (Function.update pcs t (.collect (i + 1) (cs ++ [i]))) := by
  have hposted := h.take t i cs hpc
  refine ⟨h.toCollected.take_started hsingle hpc, h.calls_move rfl rfl rfl rfl (by rw [hpc]; rfl),
    fun j hj => ?_, h.sessions⟩
  by_cases hji : j = i
  · subst hji
    cases h.phase j hj with
    | posted hr hst hre he hs =>
        refine .taken (Function.update_self ..) ?_ t ?_ ?_ (fun _ => hs) fun x hx =>
          hs x (List.mem_of_mem_take hx)
        · by_cases hjt : j = t
          · rw [hjt, Function.update_self]
            exact .inr rfl
          · rwa [Function.update_of_ne hjt]
        · rw [Function.update_self]
          exact List.mem_append_right _ (List.mem_singleton_self j)
        · rw [Function.update_self]
          exact he
    | fresh hr | taken hr | finished hr | cleared hr =>
        rw [hr] at hposted
        cases hposted
  · refine (h.phase j hj).move (Function.update_of_ne hji _ _) rfl rfl (Nat.le_refl _)
      (fun hjt => ?_) fun hmem => ?_
    · subst hjt
      rw [hpc]
      refine ⟨rfl, fun _ hr => ?_⟩
      have hle : i ≤ j := by simpa [Pc.reaches] using hr
      have hlt : i.val + 1 ≤ j.val := by
        have := Fin.val_ne_of_ne hji
        omega
      simpa [Pc.reaches] using hlt
    · rw [hpc] at hmem ⊢
      exact ⟨List.mem_append_left _ hmem, Iff.rfl, .inl⟩

theorem TaskInv.move_process {i : Fin n} {index : Nat} {cs : List (Fin n)}
    (h : TaskInv active g pcs) (hpc : pcs t = .process index cs) (hi : cs[index]? = some i) :
    TaskInv active
      { g with
        executed :=
          Function.update g.executed i
          (g.executed i ++ [(g.applicationSpecificStruct i, g.stops)]) }
      (Function.update pcs t (.processRequest index cs)) := by
  have hcs : cs.Nodup := by
    have := h.nodup t
    rwa [hpc] at this
  have hmem : i ∈ (pcs t).pending := by
    rw [hpc]
    exact List.mem_of_getElem? hi
  have hstarted := h.pending t i hmem
  have hserved : ∀ j, j ∈ cs.take (index + 1) ↔ j ∈ cs.take index ∨ j = i := by
    intro j
    rw [List.take_add_one, hi]
    simp
  have hnew : i ∉ cs.take index := (not_mem_of_getElem? hi hcs).1
  -- the slot holds the request of the call in progress, which was not executed yet
  have hslot : active i → (pcs i).stage ≠ .outside ∧ (g.executed i).length = g.returned i := by
    intro hact
    cases h.phase i hact with
    | taken hr hst w hw he hs =>
        obtain rfl : w = t := hsingle w t (locks_of_mem_pending hw) (by rw [hpc]; rfl)
        rw [hpc, if_neg (show i ∉ (Pc.process index cs).served from hnew)] at he
        exact ⟨by rcases hst with h | h <;> rw [h] <;> decide, he⟩
    | fresh hr | posted hr | finished hr | cleared hr =>
        rw [hr] at hstarted
        cases hstarted
  have hstage : ∀ j, (Function.update pcs t (.processRequest index cs) j).stage =
      (pcs j).stage := by
    intro j
    by_cases hjt : j = t
    · rw [hjt, Function.update_self, hpc]
      rfl
    · rw [Function.update_of_ne hjt]
  refine ⟨h.toCollected.move rfl (by rw [hpc]; rfl) (by rw [hpc]; rfl) (fun _ _ h => by cases h),
    fun j hj => ?_, fun j hj => ?_, fun j x hx => ?_⟩
  · obtain ⟨horder, hcount, hrequest⟩ := h.calls j hj
    refine ⟨?_, by rwa [hstage], by rwa [hstage]⟩
    dsimp only
    by_cases hji : j = i
    · subst hji
      obtain ⟨hst, he⟩ := hslot hj
      rw [Function.update_self, List.map_append, List.length_append, horder,
        List.length_singleton, List.take_add_one, he, hrequest hst]
      rfl
    · rwa [Function.update_of_ne hji]
  · by_cases hji : j = i
    · subst hji
      obtain ⟨hst, he⟩ := hslot hj
      cases h.phase j hj with
      | taken hr hst w hw he' hs hpast =>
          refine .taken hr (by rwa [hstage]) t ?_ ?_ ?_ fun x hx => hpast x ?_
          · rw [Function.update_self]
            exact List.mem_of_getElem? hi
          · rw [Function.update_self, if_pos (show j ∈ (Pc.processRequest index cs).served from
              (hserved j).mpr (.inr rfl))]
            simp [he]
          · rw [Function.update_self]
            rintro (hst | hns)
            · cases hst
            · exact absurd ((hserved j).mpr (.inr rfl)) hns
          · dsimp only at hx
            rwa [Function.update_self, List.take_append_of_le_length (Nat.le_of_eq he.symm)] at hx
      | fresh hr | posted hr | finished hr | cleared hr =>
          rw [hr] at hstarted
          cases hstarted
    · refine (h.phase j hj).move rfl (Function.update_of_ne hji _ _) rfl (Nat.le_refl _)
        (fun hjt => ?_) fun hj => ?_
      · subst hjt
        rw [hpc]
        exact ⟨rfl, fun _ hr => by cases hr⟩
      · rw [hpc] at hj ⊢
        exact ⟨hj, (hserved j).trans (or_iff_left hji), .inl⟩
  · dsimp only at hx ⊢
    by_cases hji : j = i
    · subst hji
      rw [Function.update_self, List.mem_append, List.mem_singleton] at hx
      rcases hx with hx | rfl
      · exact h.sessions j x hx
      · exact Nat.le_refl _
    · rw [Function.update_of_ne hji] at hx
      exact h.sessions j x hx

theorem Collected.mark_done {i : Fin n} {index : Nat} {cs : List (Fin n)} (h : Collected g pcs)
    (hpc : pcs t = .markDone index cs) (hi : cs[index]? = some i) :
    Collected { g with ready := Function.update g.ready i .done }
      (Function.update pcs t (.markDone (index + 1) cs)) := by
  have hcs : cs.Nodup := by
    have := h.nodup t
    rwa [hpc] at this
  have hnew : i ∉ cs.drop (index + 1) := (not_mem_of_getElem? hi hcs).2
  have hlocks : (pcs t).locks = true := by
    rw [hpc]
    rfl
  constructor
  · intro w j hj
    dsimp only
    by_cases hwt : w = t
    · subst hwt
      rw [Function.update_self] at hj
      have hji : j ≠ i := fun hji => hnew (hji ▸ hj)
      rw [Function.update_of_ne hji]
      exact h.pending w j (by rw [hpc]; exact (mem_drop_of_ne hi hji).mp hj)
    · rw [Function.update_of_ne hwt] at hj
      exact absurd (hsingle w t (locks_of_mem_pending hj) hlocks) hwt
  · intro w
    by_cases hwt : w = t
    · rw [hwt, Function.update_self]
      exact hcs
    · rw [Function.update_of_ne hwt]
      exact h.nodup w
  · intro w j cs' hw
    by_cases hwt : w = t
    · rw [hwt, Function.update_self] at hw
      cases hw
    · rw [Function.update_of_ne hwt] at hw
      exact absurd (hsingle w t (by rw [hw]; rfl) hlocks) hwt

theorem TaskInv.move_mark {i : Fin n} {index : Nat} {cs : List (Fin n)} (h : TaskInv active g pcs)
    (hpc : pcs t = .markDone index cs) (hi : cs[index]? = some i) :
    TaskInv active { g with ready := Function.update g.ready i .done }
      (Function.update pcs t (.markDone (index + 1) cs)) := by
  have hmem : i ∈ (pcs t).pending := by
    rw [hpc]
    show i ∈ cs.drop index
    rw [drop_of_getElem? hi]
    exact List.mem_cons_self
  have hstarted := h.pending t i hmem
  have hlocks : (pcs t).locks = true := by
    rw [hpc]
    rfl
  refine ⟨h.toCollected.mark_done hsingle hpc hi, h.calls_move rfl rfl rfl rfl (by rw [hpc]; rfl),
    fun j hj => ?_, h.sessions⟩
  by_cases hji : j = i
  · subst hji
    cases h.phase j hj with
    | taken hr hst w hw he hs =>
        obtain rfl : w = t := hsingle w t (locks_of_mem_pending hw) hlocks
        rw [hpc] at hw he hs
        rw [if_pos (show j ∈ (Pc.markDone index cs).served from hw)] at he
        refine .finished (Function.update_self ..) ?_ he (hs (.inl rfl))
        by_cases hjt : j = w
        · rw [hjt, Function.update_self]
          exact .inr (.inl rfl)
        · rw [Function.update_of_ne hjt]
          exact hst.imp_right .inl
    | fresh hr | posted hr | finished hr | cleared hr =>
        rw [hr] at hstarted
        cases hstarted
  · refine (h.phase j hj).move (Function.update_of_ne hji _ _) rfl rfl (Nat.le_refl _)
      (fun hjt => ?_) fun hj => ?_
    · subst hjt
      rw [hpc]
      exact ⟨rfl, fun _ hr => by cases hr⟩
    · rw [hpc] at hj ⊢
      exact ⟨(mem_drop_of_ne hi hji).mpr hj, mem_drop_of_ne hi hji, .inl⟩

omit hsingle in
theorem TaskInv.move_stop {cs : List (Fin n)} (h : TaskInv active g pcs)
    (hpc : pcs t = .logPayload cs) :
    TaskInv active { g with stops := g.stops + 1 }
    (Function.update pcs t (.disableCombiner cs)) := by
  refine ⟨h.toCollected.move rfl (by rw [hpc]; rfl) (by rw [hpc]; rfl) (fun _ _ h => by cases h),
    h.calls_move rfl rfl rfl rfl (by rw [hpc]; rfl), fun i hi => ?_,
    fun i x hx => Nat.le_succ_of_le (h.sessions i x hx)⟩
  refine (h.phase i hi).move rfl rfl rfl (Nat.le_succ _) (fun _ => ?_) fun hmem => ?_
  · rw [hpc]
    exact ⟨rfl, fun _ hr => by cases hr⟩
  · rw [hpc] at hmem ⊢
    exact ⟨hmem, Iff.rfl, fun _ => .inr fun x hx => Nat.lt_succ_of_le (h.sessions i x hx)⟩

theorem TaskInv.move (h : TaskInv active g pcs) (ha : active t) (he : Effect t g (pcs t) g' pc') :
    TaskInv active g' (Function.update pcs t pc') := by
  have hphase := h.phase t ha
  obtain ⟨horder, hcount, hrequest⟩ := h.calls t ha
  cases he with
  | quiet hg happ hstage hcs hp hs hstop htake hreach =>
      exact h.move_quiet hg happ hstage hcs hp hs hstop htake hreach
  | read req hg happ hpc hpc' =>
      subst hpc'
      obtain ⟨hready, hreq, hret, hexec, hstops⟩ := hg
      obtain ⟨hr, hlen, hs⟩ := hphase.of_fresh (.inl (by rw [hpc]; rfl))
      rw [hpc] at hcount
      refine h.move_own (fun i _ => by rw [hready]) (fun i _ => by rw [hreq])
        (fun i _ => by rw [hret])
        (fun i hi => by rw [happ, Function.update_of_ne hi]) hexec hstops
        (by rw [hpc]; rfl) rfl rfl (by simp)
        (.inl (by rw [hready])) ⟨?_, ?_, fun h => absurd rfl h⟩ ?_
      · rwa [hexec, hreq]
      · rw [hreq, hret, hcount]
        rfl
      · refine .fresh (by rwa [hready]) (.inl (by rw [Function.update_self]; rfl))
          (by rwa [hexec, hret]) fun x hx => ?_
        rw [hexec] at hx
        rw [hstops]
        exact hs x hx
  | call req hpc hpc' hg =>
      subst hpc' hg
      obtain ⟨hr, hlen, hs⟩ := hphase.of_fresh (.inl (by rw [hpc]; rfl))
      have hcount' : (g.requests t).length = g.returned t := by
        rw [hcount, hpc]
        rfl
      refine h.move_own (fun _ _ => rfl) (fun i hi => Function.update_of_ne hi _ _) (fun _ _ => rfl)
        (fun i hi => Function.update_of_ne hi _ _) rfl rfl (by rw [hpc]; rfl) rfl rfl
        (by simp) (.inl rfl) ?_ (.fresh hr (.inr (by rw [Function.update_self]; rfl)) hlen hs)
      constructor
      · dsimp only
        rw [Function.update_self, horder, List.take_append_of_le_length (by omega)]
      · dsimp only
        rw [Function.update_self, List.length_append, hcount']
        rfl
      · intro _
        dsimp only
        rw [Function.update_self, Function.update_self, ← hcount', List.getElem?_concat_length]
  | post hpc hpc' hg =>
      subst hpc' hg
      obtain ⟨hr, hlen, hs⟩ := hphase.of_fresh (.inr (by rw [hpc]; rfl))
      rw [hpc] at hcount hrequest
      refine h.move_own (fun i hi => Function.update_of_ne hi _ _) (fun _ _ => rfl)
        (fun _ _ => rfl) (fun _ _ => rfl)
        rfl rfl (by rw [hpc]; rfl) rfl rfl (by simp) (.inr (by rw [hr]; decide))
        ⟨horder, hcount, fun _ => hrequest (by simp [Pc.stage])⟩ ?_
      refine .posted (Function.update_self ..) (.inl ?_) ?_ hlen hs
      · rw [Function.update_self]
        rfl
      · rw [Function.update_self]
        rfl
  | seen hdone hg hpc hpc' =>
      subst hpc' hg
      refine h.move_own (fun _ _ => rfl) (fun _ _ => rfl) (fun _ _ => rfl) (fun _ _ => rfl) rfl
        rfl ?_ rfl rfl (by simp)
        (.inl rfl) ⟨horder, by rwa [hpc] at hcount, fun _ => hrequest (by rw [hpc]; decide)⟩ ?_
      · exact pending_of_waiting hpc
      · cases hphase with
        | finished hr _ hlen hs =>
          exact .finished hr (.inr (.inr (.inl (by rw [Function.update_self]; rfl)))) hlen hs
        | fresh hr | posted hr | taken hr | cleared hr =>
            rw [hr] at hdone
            cases hdone
  | clear hpc hpc' hg =>
      subst hpc' hg
      obtain ⟨hr, hlen, hs⟩ := hphase.of_clearing (.inl (by rw [hpc]; rfl))
      rw [hpc] at hcount
      refine h.move_own (fun i hi => Function.update_of_ne hi _ _) (fun _ _ => rfl)
        (fun i hi => Function.update_of_ne hi _ _) (fun _ _ => rfl) rfl rfl
        (by rw [hpc]; rfl) rfl rfl (by simp)
        (.inr (by rw [hr]; decide)) ⟨horder, ?_, fun h => absurd rfl h⟩ ?_
      · dsimp only
        rw [Function.update_self, hcount]
        rfl
      · refine .fresh (Function.update_self ..) (.inl (by rw [Function.update_self]; rfl)) ?_ hs
        dsimp only
        rw [Function.update_self, hlen]
  | lock hpc hpc' hg happ =>
      subst hpc'
      obtain ⟨hready, hreq, hret, hexec, hstops⟩ := hg
      rw [hpc] at hcount hrequest
      have hsettled : Settled g t → Settled g' t := by
        intro hs x hx
        rw [hexec] at hx
        rw [hstops]
        exact hs x hx
      refine h.move_own (fun i _ => by rw [hready]) (fun i _ => by rw [hreq])
        (fun i _ => by rw [hret])
        (fun i _ => by rw [happ]) hexec hstops (by rw [hpc]; rfl) rfl rfl (by simp)
        (.inl (by rw [hready])) ⟨by rwa [hexec, hreq], ?_, fun _ => ?_⟩ ?_
      · rw [hreq, hret, hcount]
        rfl
      · rw [hreq, hret, happ]
        exact hrequest (by simp [Pc.stage])
      · have hcombining : (Function.update pcs t (.collect 0 []) t).stage = .combining := by
          rw [Function.update_self]
          rfl
        cases hphase with
        | posted hr _ _ hlen hs =>
            exact .posted (by rwa [hready]) (.inr hcombining) (by simp [Pc.reaches])
              (by rwa [hexec, hret]) (hsettled hs)
        | taken hr _ w hw hlen hs hpast =>
            have hwt : w ≠ t := fun hwt => by
              rw [hwt, hpc] at hw
              cases hw
            refine .taken (by rwa [hready]) (.inr hcombining) w ?_ ?_ ?_
              (by rwa [hexec, hret, hstops])
            · rwa [Function.update_of_ne hwt]
            · rwa [Function.update_of_ne hwt, hexec, hret]
            · rw [Function.update_of_ne hwt]
              exact fun h => hsettled (hs h)
        | finished hr _ hlen hs =>
            exact .finished (by rwa [hready]) (.inr (.inl hcombining))
              (by rwa [hexec, hret]) (hsettled hs)
        | fresh _ hst | cleared _ hst =>
            rw [hpc] at hst
            simp [Pc.stage] at hst
  | take i cs hpc hpc' hg =>
      subst hpc' hg
      exact h.move_take hsingle hpc
  | process i index cs hi hpc hpc' hg =>
      subst hpc' hg
      exact h.move_process hsingle hpc hi
  | stop cs hpc hpc' hg =>
      subst hpc' hg
      exact h.move_stop hpc
  | mark i index cs hi hpc hpc' hg =>
      subst hpc' hg
      exact h.move_mark hsingle hpc hi
  | marked index cs hi hpc hpc' hg =>
      subst hpc' hg
      have hnone : (pcs t).pending = [] := by
        rw [hpc]
        exact List.drop_eq_nil_of_le hi
      rw [hpc] at hcount hrequest
      refine h.move_own (fun _ _ => rfl) (fun _ _ => rfl) (fun _ _ => rfl) (fun _ _ => rfl) rfl rfl
        hnone rfl rfl (by simp)
        (.inl rfl) ⟨horder, hcount, fun _ => hrequest (by simp [Pc.stage])⟩ ?_
      cases hphase with
      | finished hr _ hlen hs =>
        exact .finished hr (.inr (.inr (.inr (by rw [Function.update_self]; rfl)))) hlen hs
      | posted _ _ hre =>
          -- the loop that collected the commands went over this slot as well
          rw [hpc] at hre
          cases hre
      | taken _ _ w hw =>
          obtain rfl : w = t := hsingle w t (locks_of_mem_pending hw) (by rw [hpc]; rfl)
          rw [hnone] at hw
          cases hw
      | fresh _ hst | cleared _ hst =>
          rw [hpc] at hst
          simp [Pc.stage] at hst
  | clearOwn hpc hpc' hg =>
      subst hpc' hg
      obtain ⟨hr, hlen, hs⟩ := hphase.of_clearing (.inr (by rw [hpc]; rfl))
      rw [hpc] at hcount hrequest
      refine h.move_own (fun i hi => Function.update_of_ne hi _ _) (fun _ _ => rfl)
        (fun _ _ => rfl) (fun _ _ => rfl)
        rfl rfl (by rw [hpc]; rfl) rfl rfl (by simp) (.inr (by rw [hr]; decide))
        ⟨horder, hcount, fun _ => hrequest (by simp [Pc.stage])⟩ ?_
      exact .cleared (Function.update_self ..) (by rw [Function.update_self]; rfl) hlen hs
  | unlock hpc hpc' hg =>
      subst hpc' hg
      obtain ⟨hr, hlen, hs⟩ := hphase.of_unlocking (by rw [hpc]; rfl)
      rw [hpc] at hcount
      refine h.move_own (fun _ _ => rfl) (fun _ _ => rfl) (fun i hi => Function.update_of_ne hi _ _)
        (fun _ _ => rfl)
        rfl rfl (by rw [hpc]; rfl) rfl rfl (by simp) (.inl rfl)
          ⟨horder, ?_, fun h => absurd rfl h⟩ ?_
      · dsimp only
        rw [Function.update_self, hcount]
        rfl
      · refine .fresh hr (.inl (by rw [Function.update_self]; rfl)) ?_ hs
        dsimp only
        rw [Function.update_self, hlen]

end Moves

variable {active : Fin n → Prop} {admits : Thread n → Prop} {s : State n Req}

theorem taskInv_of_initial (h : Initial active s) :
    TaskInv active s.shared fun t => (s.thread t).pc := by
  have hidle : ∀ t, (s.thread t).pc = .idle := fun t => by rw [h.thread]
  refine ⟨⟨fun w i hi => ?_, fun w => ?_, fun w i cs hw => ?_⟩, fun i hi => ⟨?_, ?_, fun hst => ?_⟩,
    fun i hi => ?_, fun i x hx => ?_⟩
  · rw [hidle] at hi
    cases hi
  · rw [hidle]
    exact List.nodup_nil
  · rw [hidle] at hw
    cases hw
  · rw [h.executed, h.requests]
    rfl
  · rw [h.requests, h.returned, hidle]
    rfl
  · rw [hidle] at hst
    exact absurd rfl hst
  · refine .fresh (h.ready i hi) (.inl (by rw [hidle]; rfl)) (by rw [h.executed, h.returned]; rfl)
      fun x hx => ?_
    rw [h.executed] at hx
    cases hx
  · rw [h.executed] at hx
    cases hx

theorem taskInv_of_reachable (h : Reachable (Initial active) (Step active admits) s) :
    TaskInv active s.shared fun t => (s.thread t).pc := by
  refine h.invariant_of (I := fun s => TaskInv active s.shared fun t => (s.thread t).pc)
    (fun _ => lockInv_of_reachable) (fun _ => taskInv_of_initial) fun s s' hlock hi hs => ?_
  cases hs with
  | @move t g pc f ha hh hm =>
      have hpcs : (fun u => (Function.update s.thread t ⟨pc, .outside, f⟩ u).pc) =
          Function.update (fun u => (s.thread u).pc) t pc := by
        funext u
        by_cases hu : u = t
        · rw [hu, Function.update_self, Function.update_self]
        · rw [Function.update_of_ne hu, Function.update_of_ne hu]
      dsimp only
      rw [hpcs]
      exact hi.move hlock.single ha (effect_of_move hm)
  | @hook t g k ha hc hadm hm =>
      have hpcs : (fun u => (Function.update s.thread t { s.thread t with hook := k } u).pc) =
          fun u => (s.thread u).pc := by
        funext u
        by_cases hu : u = t
        · rw [hu, Function.update_self]
        · rw [Function.update_of_ne hu]
      obtain ⟨hg, happ⟩ := sameTasks_of_hookMove hm
      have hsame := hi.move_quiet (t := t) hg happ rfl rfl rfl rfl rfl (hi.take t) fun _ hr => hr
      rw [Function.update_eq_self] at hsame
      dsimp only
      rwa [hpcs]

/-- What calls of `exec_rw_flat_combining` have come to. -/
structure ExactlyOnce (active : Fin n → Prop) (s : State n Req) : Prop where
  /-- The requests of a thread are executed in order. -/
  order : ∀ i, active i → (s.shared.executed i).map Prod.fst = (s.shared.requests i).take
    (s.shared.executed i).length
  /-- None is executed before its call or twice, and none is left out when the
  call returns. -/
  started : ∀ i, active i → (s.shared.executed i).length ≤ (s.shared.requests i).length
  returned : ∀ i, active i → s.shared.returned i ≤ (s.shared.executed i).length
  single : ∀ i, active i → (s.shared.requests i).length ≤ s.shared.returned i + 1
  /-- The `instrument_stop` of its session has returned before the call does. -/
  stopped : ∀ i, active i → ∀ x ∈ (s.shared.executed i).take (s.shared.returned i),
    x.2 < s.shared.stops
  /-- The slot of a thread outside of the function is free. -/
  free : ∀ i, active i → (s.thread i).pc.stage = .outside →
    s.shared.ready i = .none ∧ s.shared.returned i = (s.shared.requests i).length
  /-- The callback runs under the lock, with no reader inside. -/
  held : ∀ w index cs, (s.thread w).pc = .processRequest index cs →
    s.shared.writers ≠ 0 ∧ ∀ r, (s.thread r).pc.reads = false
  /-- No slot is collected twice, and the array of indexes is not overrun. -/
  commands : ∀ w, (s.thread w).pc.commands.Nodup ∧ (s.thread w).pc.commands.length ≤ n

theorem Phase.past {g : Shared n Req} {pcs : Fin n → Pc n} {i : Fin n} (h : Phase g pcs i) :
    ∀ x ∈ (g.executed i).take (g.returned i), x.2 < g.stops := by
  cases h with
  | taken _ _ _ _ _ _ hpast => exact hpast
  | fresh _ _ _ hs | posted _ _ _ _ hs | finished _ _ _ hs | cleared _ _ _ hs =>
      exact fun x hx => hs x (List.mem_of_mem_take hx)

theorem Calls.le_of_phase {g : Shared n Req} {pcs : Fin n → Pc n} {i : Fin n}
    (h : Calls g (pcs i) i)
    (hp : Phase g pcs i) :
    g.returned i ≤ (g.executed i).length ∧ (g.executed i).length ≤ (g.requests i).length ∧
      (g.requests i).length ≤ g.returned i + 1 := by
  have hcount := h.count
  cases hp with
  | fresh _ hst he => split at hcount <;> omega
  | posted _ hst _ he => split at hcount <;> omega
  | taken _ hst w _ he =>
      have hout : (pcs i).stage ≠ .outside := by rcases hst with h | h <;> rw [h] <;> decide
      rw [if_neg hout] at hcount
      split at he <;> omega
  | finished _ hst he =>
      have hout : (pcs i).stage ≠ .outside := by rcases hst with h | h | h | h <;> rw [h] <;> decide
      rw [if_neg hout] at hcount
      omega
  | cleared _ hst he =>
      rw [hst, if_neg (by decide)] at hcount
      omega

/-- In every interleaving, whether or not all slots have a thread and wherever
memory is mapped, each call's request is executed exactly once, before the call
returns; and a step that executes a request is the combiner's, which has it in
the slot it collected. -/
theorem update_exactly_once (n : Nat) (Req : Type) (active : Fin n → Prop) (s : State n Req)
    (h : Reachable (Initial active) (Step active fun _ => True) s) :
    ExactlyOnce active s ∧ ∀ s', Step active (fun _ => True) s s' →
    ∀ i, s'.shared.executed i ≠ s.shared.executed i →
      s'.shared.executed i = s.shared.executed i ++
      [(s.shared.applicationSpecificStruct i, s.shared.stops)] ∧
      ∃ w index cs, cs[index]? = some i ∧ (s'.thread w).pc = .processRequest index cs := by
  have hlock := lockInv_of_reachable h
  have htask := taskInv_of_reachable h
  have hle := fun i hi => (htask.calls i hi).le_of_phase (htask.phase i hi)
  refine ⟨⟨fun i hi => (htask.calls i hi).order, fun i hi => (hle i hi).2.1,
    fun i hi => (hle i hi).1,
    fun i hi => (hle i hi).2.2, fun i hi => (htask.phase i hi).past, fun i hi hst => ?_,
    fun w index cs hw => ?_, fun w => ?_⟩, fun s' hs i hne => ?_⟩
  · obtain ⟨hr, -, -⟩ := (htask.phase i hi).of_fresh (.inl hst)
    have hcount := (htask.calls i hi).count
    rw [if_pos hst] at hcount
    exact ⟨hr, hcount.symm⟩
  · have hlocks : (s.thread w).pc.locks = true := by rw [hw]; rfl
    refine ⟨hlock.word w (.inl hlocks), fun r => hlock.out w r hlocks ?_⟩
    rw [passed_of_pastDrain (by rw [hw]; rfl)]
    exact r.isLt
  · refine ⟨htask.nodup w, ?_⟩
    have hcard := (htask.nodup w).length_le_card
    rwa [Fintype.card_fin] at hcard
  · cases hs with
    | @move t g pc f ha hh hm =>
        obtain ⟨hexec, index, cs, hi, hpc⟩ := (effect_of_move hm).executed hne
        refine ⟨hexec, t, index, cs, hi, ?_⟩
        dsimp only
        rw [Function.update_self, hpc]
    | @hook t g k ha hc hadm hm => exact absurd (by rw [(sameTasks_of_hookMove hm).1.executed]) hne

/-- The combiner executes the request of thread 1. -/
theorem update_exactly_once_crowded : ∃ s s' : State 4 Unit, ExactlyOnce (fun _ => True) s ∧
    (s.thread 1).pc = .checkStarted ∧ s'.shared.executed 1 = [((), 0)] ∧
      ∃ w index cs, cs[index]? = some 1 ∧ (s'.thread w).pc = .processRequest index cs := by
  obtain ⟨s, hs, hc⟩ := exists_crowded (fun _ => True) trivial
  obtain ⟨honce, hstep⟩ := update_exactly_once 4 Unit (fun _ => True) s hs
  have hm : Move 0 s.shared ((s.thread 0).pc, (s.thread 0).combiner)
      { s.shared with
        executed := Function.update s.shared.executed 1
          (s.shared.executed 1 ++ [(s.shared.applicationSpecificStruct 1, s.shared.stops)]) }
      (.processRequest 1 [0, 1], 1) := by
    rw [hc.combiner]
    exact .process rfl
  have hne : Function.update s.shared.executed 1
      (s.shared.executed 1 ++ [(s.shared.applicationSpecificStruct 1, s.shared.stops)]) 1 ≠
      s.shared.executed 1 := by
    rw [Function.update_self, hc.executed]
    exact List.cons_ne_nil _ _
  have hnext := hstep _ (.move trivial (by rw [hc.combiner]) hm) 1 hne
  refine ⟨s, _, honce, hc.posted, ?_, hnext.2⟩
  rw [hnext.1, hc.executed, hc.stops]
  rfl

end Mangosteen.Combining
