import Mangosteen.FlatCombining

namespace Mangosteen.FlatCombining

variable {n : Nat}

/-- The thread has taken the lock word for its own function. -/
def Pc.locks : Pc n → Bool
  | .collect _ _ | .take _ _ | .scan _ _ | .instrumentStart _ | .enableCombiner _ | .process _ _
  | .processRequest _ _ | .instrumentStop _ | .logPayload _ | .disableCombiner _
  | .markDone _ _ | .clearOwn
  | .writeUnlock | .drain _ _ | .work _ | .release _ => true
  | _ => false

/-- The hook has taken the lock word. -/
def Hook.locks : Hook → Bool
  | .enqueue true | .unlock => true
  | _ => false

/-- Between a successful `readLock` and its `readUnlock`. -/
def Pc.reads : Pc n → Bool
  | .readRequest | .readUnlock => true
  | _ => false

/-- The reader flag of the thread is up. -/
def Pc.flagged : Pc n → Bool
  | .checkWriter | .markReaderAsInactive | .readRequest | .readUnlock => true
  | _ => false

/-- Past the drain loop and before `writeUnlock`. -/
def Pc.pastDrain : Pc n → Bool
  | .instrumentStart _ | .enableCombiner _ | .process _ _ | .processRequest _ _
  | .instrumentStop _ | .logPayload _
  | .disableCombiner _ | .markDone _ _ | .clearOwn | .writeUnlock | .work _ | .release _ => true
  | _ => false

/-- Between `instrument_start` and `instrument_stop`. -/
def Pc.combines : Pc n → Bool
  | .enableCombiner _ | .process _ _ | .processRequest _ _ | .instrumentStop _ => true
  | _ => false

/-- How many elements of the reader set the current scan has found down. -/
def Pc.passed : Pc n → Nat
  | .scan i _ | .drain _ i => i
  | pc => if pc.pastDrain then n else 0

end Mangosteen.FlatCombining

namespace Mangosteen.SpinLock

open FlatCombining Transition

variable {n : Nat} {Req : Type}

/-- Inside a section that enqueues to the ring. -/
def Enqueues (th : Thread n) : Prop :=
  (∃ cs, th.pc = .logPayload cs) ∨ ∃ locked, th.hook = .enqueue locked

theorem locks_of_combines {pc : Pc n} (h : pc.combines = true) : pc.locks = true := by
  cases pc <;> first | rfl | cases h

theorem locks_of_pastDrain {pc : Pc n} (h : pc.pastDrain = true) : pc.locks = true := by
  cases pc <;> first | rfl | cases h

theorem passed_of_pastDrain {pc : Pc n} (h : pc.pastDrain = true) : pc.passed = n := by
  cases pc <;> first | rfl | cases h

theorem flagged_of_reads {pc : Pc n} (h : pc.reads = true) : pc.flagged = true := by
  cases pc <;> first | rfl | cases h

/-- What a step of a thread does to the lock. -/
inductive Effect (t : Fin n) (g : Shared n Req) (pc : Pc n) (g' : Shared n Req) (pc' : Pc n) : Prop
  | quiet (hw : g'.writers = g.writers) (hr : g'.readersSet = g.readersSet)
      (hl : pc'.locks = pc.locks) (hf : pc'.flagged = pc.flagged) (hreads : pc'.reads = pc.reads)
      (hp : pc'.passed ≤ pc.passed)
  | acquire (hfree : g.writers = 0) (hw : g'.writers = 1) (hr : g'.readersSet = g.readersSet)
      (hl : pc'.locks = true) (hl₀ : pc.locks = false) (hf : pc.flagged = false)
      (hf' : pc'.flagged = false) (hreads : pc'.reads = false) (hp : pc'.passed = 0)
  | release (hw : g'.writers = 0) (hr : g'.readersSet = g.readersSet) (hl : pc.locks = true)
      (hl' : pc'.locks = false) (hf : pc.flagged = false) (hf' : pc'.flagged = false)
      (hreads : pc'.reads = false)
  | raise (hw : g'.writers = g.writers)
      (hr : g'.readersSet = Function.update g.readersSet t .reading)
      (hl : pc.locks = false) (hl' : pc'.locks = false) (hf' : pc'.flagged = true)
      (hreads : pc'.reads = false)
  | lower (hw : g'.writers = g.writers)
      (hr : g'.readersSet = Function.update g.readersSet t .notReading)
      (hl : pc.locks = false) (hl' : pc'.locks = false) (hf' : pc'.flagged = false)
      (hreads : pc'.reads = false)
  | enter (hfree : g.writers = 0) (hw : g'.writers = 0) (hr : g'.readersSet = g.readersSet)
      (hl' : pc'.locks = false) (hf : pc.flagged = true) (hf' : pc'.flagged = true)
  | pass (i : Fin n) (hdown : g.readersSet i = .notReading) (hw : g'.writers = g.writers)
      (hr : g'.readersSet = g.readersSet) (hl : pc.locks = true)
      (hl' : pc'.locks = true) (hp : pc.passed = i)
      (hp' : pc'.passed = i + 1) (hf : pc.flagged = false) (hf' : pc'.flagged = false)
      (hreads : pc'.reads = false)

theorem effect_of_move {t : Fin n} {g g' : Shared n Req} {pc pc' : Pc n} {f f' : Nat}
    (h : Move t g (pc, f) g' (pc', f')) : Effect t g pc g' pc' := by
  cases h with
  | lockWriter hfree => exact .acquire hfree rfl rfl rfl rfl rfl rfl rfl rfl
  | takeLock hfree => exact .acquire hfree rfl rfl rfl rfl rfl rfl rfl rfl
  | writeUnlock => exact .release rfl rfl rfl rfl rfl rfl rfl
  | release => exact .release rfl rfl rfl rfl rfl rfl rfl
  | markReaderAsActive => exact .raise rfl rfl rfl rfl rfl rfl
  | markReaderAsInactive => exact .lower rfl rfl rfl rfl rfl rfl
  | readUnlock => exact .lower rfl rfl rfl rfl rfl rfl
  | noWriter hfree => exact .enter hfree hfree rfl rfl rfl rfl
  | scanNext i hdown => exact .pass i hdown rfl rfl rfl rfl rfl rfl rfl rfl rfl
  | drainNext i hdown => exact .pass i hdown rfl rfl rfl rfl rfl rfl rfl rfl rfl
  | _ => exact .quiet rfl rfl rfl rfl rfl (by simp [Pc.passed, Pc.pastDrain])

/-- What the lock word and the reader flags say about the threads. -/
structure LockInv (s : State n Req) : Prop where
  word : ∀ t, (s.thread t).pc.locks = true ∨ (s.thread t).hook.locks = true → s.shared.writers ≠ 0
  single : ∀ t u, (s.thread t).pc.locks = true → (s.thread u).pc.locks = true → t = u
  hookSingle : ∀ t u, (s.thread t).hook.locks = true → (s.thread u).hook.locks = true → t = u
  apart : ∀ t u, (s.thread t).pc.locks = true → (s.thread u).hook.locks = false
  flag : ∀ t, s.shared.readersSet t = .reading ↔ (s.thread t).pc.flagged = true
  out : ∀ t (j : Fin n), (s.thread t).pc.locks = true → j.val < (s.thread t).pc.passed →
    (s.thread j).pc.reads = false

section Moves

variable {s : State n Req} {t : Fin n} {g : Shared n Req} {pc : Pc n} {f : Nat}

theorem LockInv.free (h : LockInv s) (hw : s.shared.writers = 0) (u : Fin n) :
    (s.thread u).pc.locks = false ∧ (s.thread u).hook.locks = false := by
  constructor
  · by_contra hl
    exact h.word u (.inl (by simpa using hl)) hw
  · by_contra hl
    exact h.word u (.inr (by simpa using hl)) hw

theorem LockInv.move (h : LockInv s) (hh : (s.thread t).hook = .outside)
    (he : Effect t s.shared (s.thread t).pc g pc) :
    LockInv ⟨g, Function.update s.thread t ⟨pc, .outside, f⟩⟩ := by
  have hout : Hook.outside.locks = false := rfl
  have hout₀ : (s.thread t).hook.locks = false := by rw [hh]; rfl
  have hfree := h.free
  obtain ⟨hword, hsingle, hhook, hapart, hflag, hpass⟩ := h
  cases he with
  | quiet hw hr hl hf hreads hp => constructor <;> grind [Function.update_apply]
  | acquire hzero hw hr hl hl₀ hf hf' hreads hp =>
      -- the word was zero, so that nobody else holds it
      have hnone := hfree hzero
      constructor <;> grind [Function.update_apply]
  | release hw hr hl hl' hf hf' hreads =>
      -- this thread was the only one to hold the word
      have hothers : ∀ u, u ≠ t → (s.thread u).pc.locks = false := fun u hu => by grind
      have hhooks : ∀ u, (s.thread u).hook.locks = false := fun u => hapart t u hl
      constructor <;> grind [Function.update_apply]
  | raise hw hr hl hl' hf' hreads =>
      have hset := fun i => congrFun hr i
      constructor <;> grind [Function.update_apply]
  | lower hw hr hl hl' hf' hreads =>
      have hset := fun i => congrFun hr i
      constructor <;> grind [Function.update_apply]
  | enter hzero hw hr hl' hf hf' =>
      -- no writer is in its drain loop or past it
      have hnone := hfree hzero
      constructor <;> grind [Function.update_apply]
  | pass i hdown hw hr hl hl' hp hp' hf hf' hreads =>
      -- the flag that is down belongs to a thread that does not read
      have hdown' : (s.thread i).pc.reads = false := by
        by_contra hreads
        rw [Bool.not_eq_false] at hreads
        rw [(hflag i).mpr (flagged_of_reads hreads)] at hdown
        cases hdown
      constructor <;> grind [Function.update_apply]

end Moves

section HookMoves

variable {s s' : State n Req} (hpc : ∀ u, (s'.thread u).pc = (s.thread u).pc)
  (hr : s'.shared.readersSet = s.shared.readersSet)

include hpc hr

/-- Where a step in the hook leaves the locks, what the hooks hold is all that
can change. -/
theorem LockInv.of_hooks (h : LockInv s)
    (hword : ∀ t, (s.thread t).pc.locks = true ∨ (s'.thread t).hook.locks = true →
      s'.shared.writers ≠ 0)
    (hhook : ∀ t u, (s'.thread t).hook.locks = true → (s'.thread u).hook.locks = true → t = u)
    (hapart : ∀ t u, (s.thread t).pc.locks = true → (s'.thread u).hook.locks = false) :
    LockInv s' := by
  constructor
  · exact fun t => (hpc t).symm ▸ hword t
  · exact fun t u => (hpc t).symm ▸ (hpc u).symm ▸ h.single t u
  · exact hhook
  · exact fun t u => (hpc t).symm ▸ hapart t u
  · exact fun t => (hpc t).symm ▸ hr ▸ h.flag t
  · exact fun t j => (hpc t).symm ▸ (hpc j).symm ▸ h.out t j

end HookMoves

theorem LockInv.hookMove {s : State n Req} {t : Fin n} {g : Shared n Req} {hook : Hook}
    {f : Nat} (h : LockInv s) (hm : HookMove f s.shared (s.thread t).hook g hook) :
    LockInv ⟨g, Function.update s.thread t { s.thread t with hook }⟩ := by
  have hpc : ∀ u, (Function.update s.thread t { s.thread t with hook } u).pc = (s.thread u).pc := by
    intro u
    by_cases hu : u = t
    · rw [hu, Function.update_self]
    · rw [Function.update_of_ne hu]
  have hself : (Function.update s.thread t { s.thread t with hook } t).hook = hook := by
    rw [Function.update_self]
  have hother : ∀ u, u ≠ t → (Function.update s.thread t { s.thread t with hook } u).hook =
      (s.thread u).hook :=
    fun u hu => by rw [Function.update_of_ne hu]
  generalize Function.update s.thread t { s.thread t with hook } = thread at *
  -- the hooks hold what they held before
  have hkeep : hook.locks = (s.thread t).hook.locks → g.writers = s.shared.writers →
      g.readersSet = s.shared.readersSet → LockInv ⟨g, thread⟩ := by
    intro hl hw hr
    have hlocks : ∀ u, (thread u).hook.locks = (s.thread u).hook.locks := by
      intro u
      by_cases hu : u = t
      · rw [hu, hself, hl]
      · rw [hother u hu]
    refine h.of_hooks hpc hr (fun u hu => ?_) (fun u v hu hv => ?_) fun u v hu => ?_
    · rw [hlocks] at hu
      rw [hw]
      exact h.word u hu
    · rw [hlocks] at hu hv
      exact h.hookSingle u v hu hv
    · rw [hlocks]
      exact h.apart u v hu
  generalize hk : (s.thread t).hook = k at hm hkeep
  cases hm with
  | exchange hzero =>
      have hnone := h.free hzero
      have honly : ∀ u, (thread u).hook.locks = true → u = t := by
        intro u hu
        by_contra hne
        rw [hother u hne, (hnone u).2] at hu
        cases hu
      refine h.of_hooks hpc rfl (fun _ _ => Nat.one_ne_zero)
        (fun u v hu hv => (honly u hu).trans (honly v hv).symm) fun u v hu => ?_
      rw [(hnone u).1] at hu
      cases hu
  | unlock =>
      have hl : (s.thread t).hook.locks = true := by rw [hk]; rfl
      have hpcs : ∀ u, (s.thread u).pc.locks = false := by
        intro u
        by_contra hu
        have hfalse := h.apart u t (by simpa using hu)
        rw [hl] at hfalse
        cases hfalse
      have hhooks : ∀ u, (thread u).hook.locks = false := by
        intro u
        by_cases hu : u = t
        · rw [hu, hself]
          rfl
        · rw [hother u hu]
          by_contra hlu
          exact hu (h.hookSingle u t (by simpa using hlu) hl)
      refine h.of_hooks hpc rfl (fun u hu => ?_) (fun u v hu => ?_) fun u v _ => hhooks v
      · rw [hpcs, hhooks] at hu
        simp at hu
      · rw [hhooks] at hu
        cases hu
  | _ => exact hkeep rfl rfl rfl

/-- The combiner flag is up only between `instrument_start` and
`instrument_stop`, and only then does the hook leave the lock word alone. -/
structure FlagInv (s : State n Req) : Prop where
  combines : ∀ t, (s.thread t).combiner ≠ 0 → (s.thread t).pc.combines = true
  borrowed : ∀ t, (s.thread t).hook = .enqueue false → (s.thread t).combiner ≠ 0

theorem combines_of_move {t : Fin n} {g g' : Shared n Req} {pc pc' : Pc n} {f f' : Nat}
    (h : Move t g (pc, f) g' (pc', f')) (hf : f ≠ 0 → pc.combines = true) (hf' : f' ≠ 0) :
    pc'.combines = true := by
  cases h <;> first | rfl | exact absurd rfl hf' | exact hf hf'

variable {active : Fin n → Prop} {admits : Thread n → Prop} {s : State n Req}

theorem lockInv_of_reachable (h : Reachable (Initial active) (Step active admits) s) :
    LockInv s := by
  refine h.invariant (fun s hs => ?_) fun s s' hi hs => ?_
  · constructor <;> simp [hs.thread, hs.readersSet, Pc.locks, Hook.locks, Pc.flagged]
  · cases hs with
    | move _ hh hm => exact hi.move hh (effect_of_move hm)
    | hook _ _ _ hm => exact hi.hookMove hm

theorem flagInv_of_reachable (h : Reachable (Initial active) (Step active admits) s) :
    FlagInv s := by
  refine h.invariant (fun s hs => ?_) fun s s' hi hs => ?_
  · constructor <;> simp [hs.thread]
  · obtain ⟨hc, hb⟩ := hi
    cases hs with
    | @move t g pc f _ hh hm =>
        have hmove := combines_of_move hm (hc t)
        constructor <;> grind [Function.update_apply]
    | @hook t g k _ _ _ hm =>
        have henter : k = .enqueue false → (s.thread t).combiner ≠ 0 := by
          rintro rfl
          generalize (s.thread t).hook = k at hm
          generalize (s.thread t).combiner = f at hm ⊢
          cases hm with
          | enterCombiner h => exact h
        constructor <;> grind [Function.update_apply]

theorem locks_of_enqueues (hf : FlagInv s) {t : Fin n} (h : Enqueues (s.thread t)) :
    (s.thread t).pc.locks = true ∨ (s.thread t).hook.locks = true := by
  rcases h with ⟨cs, hpc⟩ | ⟨locked, hk⟩
  · exact .inl (by rw [hpc]; rfl)
  · cases locked with
    | true => exact .inr (by rw [hk]; rfl)
    | false => exact .inl (locks_of_combines (hf.combines t (hf.borrowed t hk)))

/-- Readers and writers keep out of each other's sections, and producers do. -/
structure Exclusive (s : State n Req) : Prop where
  readers : ∀ r w, r ≠ w → (s.thread r).pc.reads = true → (s.thread w).pc.pastDrain = false
  producers : ∀ a b, Enqueues (s.thread a) → Enqueues (s.thread b) → a = b

/-- Wherever application code maps memory, no reader is inside its section while
a writer is past its drain loop, and one thread at a time enqueues. -/
theorem reader_writer_exclusion (n : Nat) (Req : Type) (active : Fin n → Prop) (s : State n Req)
    (h : Reachable (Initial active) (Step active fun _ => True) s) : Exclusive s := by
  have hl := lockInv_of_reachable h
  have hf := flagInv_of_reachable h
  constructor
  · intro r w _ hr
    by_contra hw
    rw [Bool.not_eq_false] at hw
    have hout := hl.out w r (locks_of_pastDrain hw) (by rw [passed_of_pastDrain hw]; exact r.isLt)
    rw [hr] at hout
    cases hout
  · intro a b ha hb
    rcases locks_of_enqueues hf ha with ha | ha <;> rcases locks_of_enqueues hf hb with hb | hb
    · exact hl.single a b ha hb
    · exact absurd hb (by rw [hl.apart a b ha]; decide)
    · exact absurd ha (by rw [hl.apart b a hb]; decide)
    · exact hl.hookSingle a b ha hb

/-- The state in which the threads start. -/
def start (n : Nat) (req : Req) : State n Req where
  shared :=
    ⟨0, fun _ => .notReading, fun _ => .none, fun _ => req, fun _ => [], fun _ => 0, fun _ => [], 0⟩
  thread _ := {}

theorem initial_start (n : Nat) (req : Req) (active : Fin n → Prop) :
    Initial active (start n req) :=
  ⟨rfl, fun _ => rfl, fun _ _ => rfl, fun _ => rfl, fun _ => rfl, fun _ => rfl, rfl, fun _ => rfl⟩

theorem exists_drain :
    ∃ s : State 4 Unit, Reachable (Initial fun _ => True) (Step (fun _ => True) fun _ => True) s ∧
    (s.thread 1).pc = .readRequest ∧ (s.thread 0).pc = .scan 1 [0] := by
  have h : Reachable (Initial fun _ => True) (Step (fun _ => True) fun _ => True) (start 4 ()) :=
    .start (initial_start 4 () _)
  have h := h.next (.move (t := 1) trivial rfl (.callRead ()))
  have h := h.next (.move (t := 1) trivial rfl .markReaderAsActive)
  have h := h.next (.move (t := 1) trivial rfl (.noWriter rfl))
  have h := h.next (.move (t := 0) trivial rfl (.callUpdate ()))
  have h := h.next (.move (t := 0) trivial rfl .post)
  have h := h.next (.move (t := 0) trivial rfl (.notStarted (by decide)))
  have h := h.next (.move (t := 0) trivial rfl (.notDone (by decide)))
  have h := h.next (.move (t := 0) trivial rfl (.lockIsFree rfl))
  have h := h.next (.move (t := 0) trivial rfl (.lockWriter rfl))
  have h := h.next (.move (t := 0) trivial rfl (.collectReady 0 rfl))
  have h := h.next (.move (t := 0) trivial rfl (.take 0))
  have h := h.next (.move (t := 0) trivial rfl (.collectNext 1 (by decide)))
  have h := h.next (.move (t := 0) trivial rfl (.collectNext 2 (by decide)))
  have h := h.next (.move (t := 0) trivial rfl (.collectNext 3 (by decide)))
  have h := h.next (.move (t := 0) trivial rfl .collected)
  have h := h.next (.move (t := 0) trivial rfl (.scanNext 0 rfl))
  exact ⟨_, h, rfl, rfl⟩

theorem reader_writer_exclusion_drain :
    ∃ s : State 4 Unit, (s.thread 1).pc = .readRequest ∧ (s.thread 0).pc = .scan 1 [0] ∧
    Exclusive s := by
  obtain ⟨s, hs, hread, hscan⟩ := exists_drain
  exact ⟨s, hread, hscan, reader_writer_exclusion 4 Unit (fun _ => True) s hs⟩

/-- The combiner of a session has executed its own request, and the one of thread 1
is to come. Thread 2 waits to read, and thread 3 is in the hook. -/
structure Crowded (s : State 4 Unit) : Prop where
  combiner : s.thread 0 = ⟨.process 1 [0, 1], .outside, 1⟩
  posted : (s.thread 1).pc = .checkStarted
  reader : (s.thread 2).pc = .awaitFree
  hook : (s.thread 3).hook = .spin
  executed : s.shared.executed 1 = []
  stops : s.shared.stops = 0

theorem exists_crowded (admits : Thread 4 → Prop) (hadm : admits {}) :
    ∃ s, Reachable (Initial fun _ => True) (Step (fun _ => True) admits) s ∧ Crowded s := by
  have h : Reachable (Initial fun _ => True) (Step (fun _ => True) admits) (start 4 ()) :=
    .start (initial_start 4 () _)
  have h := h.next (.move (t := 1) trivial rfl (.callUpdate ()))
  have h := h.next (.move (t := 1) trivial rfl .post)
  have h := h.next (.move (t := 0) trivial rfl (.callUpdate ()))
  have h := h.next (.move (t := 0) trivial rfl .post)
  have h := h.next (.move (t := 0) trivial rfl (.notStarted (by decide)))
  have h := h.next (.move (t := 0) trivial rfl (.notDone (by decide)))
  have h := h.next (.move (t := 0) trivial rfl (.lockIsFree rfl))
  have h := h.next (.move (t := 0) trivial rfl (.lockWriter rfl))
  have h := h.next (.move (t := 0) trivial rfl (.collectReady 0 rfl))
  have h := h.next (.move (t := 0) trivial rfl (.take 0))
  have h := h.next (.move (t := 0) trivial rfl (.collectReady 1 rfl))
  have h := h.next (.move (t := 0) trivial rfl (.take 1))
  have h := h.next (.move (t := 0) trivial rfl (.collectNext 2 (by decide)))
  have h := h.next (.move (t := 0) trivial rfl (.collectNext 3 (by decide)))
  have h := h.next (.move (t := 0) trivial rfl .collected)
  have h := h.next (.move (t := 0) trivial rfl (.scanNext 0 rfl))
  have h := h.next (.move (t := 0) trivial rfl (.scanNext 1 rfl))
  have h := h.next (.move (t := 0) trivial rfl (.scanNext 2 rfl))
  have h := h.next (.move (t := 0) trivial rfl (.scanNext 3 rfl))
  have h := h.next (.move (t := 0) trivial rfl .scanned)
  have h := h.next (.move (t := 0) trivial rfl .instrumentStart)
  have h := h.next (.move (t := 0) trivial rfl .enableCombiner)
  have h := h.next (.move (t := 0) trivial rfl (.process (i := 0) rfl))
  have h := h.next (.move (t := 0) trivial rfl .processed)
  have h := h.next (.move (t := 2) trivial rfl (.callRead ()))
  have h := h.next (.move (t := 2) trivial rfl .markReaderAsActive)
  have h := h.next (.move (t := 2) trivial rfl (.someWriter (by decide)))
  have h := h.next (.move (t := 2) trivial rfl .markReaderAsInactive)
  have h := h.next (.hook (t := 3) trivial rfl (fun _ => hadm) .enterLocking)
  exact ⟨_, h, rfl, rfl, rfl, rfl, rfl, rfl⟩

end Mangosteen.SpinLock
