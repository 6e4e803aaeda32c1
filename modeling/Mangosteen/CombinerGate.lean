import Mangosteen.CollectedLines

namespace Mangosteen.CombinerGate

open RegisterMachine StateTransition LineCollector CollectorRuns CollectedLines

/-- The four bytes of an `int` and the four bytes after it. -/
def lowHalf (w : Word) : BitVec 32 := w.extractLsb' 0 32

def highHalf (w : Word) : BitVec 32 := w.extractLsb' 32 32

/-- An assignment to an `int`. -/
def setInt (w : Word) (v : BitVec 32) : Word := highHalf w ++ v

@[simp] theorem lowHalf_setInt (w : Word) (v : BitVec 32) : lowHalf (setInt w v) = v := by
  rw [lowHalf, setInt, BitVec.extractLsb'_append_eq_of_add_le le_rfl]
  simp

@[simp] theorem highHalf_setInt (w : Word) (v : BitVec 32) : highHalf (setInt w v) = highHalf w :=
  BitVec.extractLsb'_append_eq_left

theorem eq_zero_of_halves {w : Word} (hl : lowHalf w = 0) (hh : highHalf w = 0) : w = 0 := by
  have happend : highHalf w ++ lowHalf w = w := BitVec.extractLsb'_append_extractLsb'
  rw [← happend, hl, hh]
  rfl

variable (lay : Layout shippedBuild)

def combinerField : Word := lay.threadData + combinerOffset shippedBuild

/-- The field `combiner`, and the padding between it and the next field. -/
def combiner (m : Memory) : BitVec 32 := lowHalf (m.cells (combinerField lay))

def padding (m : Memory) : BitVec 32 := highHalf (m.cells (combinerField lay))

def assignCombiner (v : BitVec 32) (m : Memory) : Memory :=
  { m with
    cells := Function.update m.cells (combinerField lay) (setInt (m.cells (combinerField lay)) v) }

/-- The slots of the table behind a pointer are set to zero. -/
@[irreducible] def clearTable (slots : Nat) (table : Word) (m : Memory) : Memory :=
  { m with
    cells := fun a => if ∃ i < slots, a = table + BitVec.ofNat 64 (8 * i) then 0 else m.cells a }

/-- The assignments of `event_thread_init` that the emitted code depends on, with
the addresses that the allocations return. -/
def eventThreadInit (m : Memory) : Memory :=
  let cells := Function.update m.cells (lay.threadData + numberOfHashSetEntriesOffset) lay.counter
  let cells := Function.update cells (lay.threadData + hashSetEntriesOffset) lay.table
  assignCombiner lay 0 (clearTable shippedBuild.hashSetSize lay.table { m with cells })

def instrumentStart (m : Memory) : Memory := assignCombiner lay 1 m

def resetHashSet (m : Memory) : Memory :=
  let m := assignCombiner lay 0 m
  clearTable shippedBuild.hashSetSize (m.cells (lay.threadData + hashSetEntriesOffset)) m

/-- The slots are emptied while their lines are logged. -/
def instrumentStop (m : Memory) : Memory :=
  let m := assignCombiner lay 0 m
  let m := clearTable shippedBuild.hashSetSize (m.cells (lay.threadData + hashSetEntriesOffset)) m
  let counter := m.cells (lay.threadData + numberOfHashSetEntriesOffset)
  { cells := Function.update m.cells counter (setInt (m.cells counter) 0), overflow := [] }

inductive Event
  | start
  | stop
  | reset
  | store (x : Store)

noncomputable def perform : Event → Memory → Part Memory
  | .start, m => Part.some (instrumentStart lay m)
  | .stop, m => Part.some (instrumentStop lay m)
  | .reset, m => Part.some (resetHashSet lay m)
  | .store x, m => runStore shippedBuild lay x m

noncomputable def performAll : List Event → Memory → Part Memory
  | [], m => Part.some m
  | v :: vs, m => (perform lay v m).bind (performAll vs)

def Event.Valid : Event → Prop
  | .store x => InRange shippedBuild x
  | .start | .stop | .reset => True

/-- The code before a store changes neither the table nor the counter nor the
overflow buffer. -/
def Unrecorded (x : Store) (m : Memory) : Prop :=
  ∃ m' ∈ runStore shippedBuild lay x m,
  (∀ i < shippedBuild.hashSetSize, m'.cells (lay.slot i) = m.cells (lay.slot i)) ∧
    m'.cells lay.counter = m.cells lay.counter ∧ m'.overflow = m.overflow

/-- The thread's pointers are in place, and so are the bytes after the flag. -/
def Kept (pad : BitVec 32) (m : Memory) : Prop :=
  ∃ gate t count, Holds lay gate t count m.cells ∧ highHalf gate = pad

section Memory

variable {lay} {gate count : Word} {t : Nat → Word} {cells : Word → Word}

theorem combinerField_ne {o : Word}
    (ho : o = numberOfHashSetEntriesOffset ∨ o = hashSetEntriesOffset) :
    lay.threadData + o ≠ combinerField lay := by
  intro h
  have := BitVec.add_right_inj _ |>.mp h
  rcases ho with rfl | rfl
  · exact absurd this (by decide)
  · exact absurd this (by decide)

theorem holds_assignCombiner {m : Memory} (h : Holds lay gate t count m.cells) (v : BitVec 32) :
    Holds lay (setInt gate v) t count (assignCombiner lay v m).cells := by
  have hmem : combinerOffset shippedBuild ∈ fieldOffsets shippedBuild := by simp [fieldOffsets]
  have hgate : setInt (m.cells (combinerField lay)) v = setInt gate v :=
    congrArg (setInt · v) h.combiner
  simp only [assignCombiner, hgate]
  refine ⟨?_, ?_, Function.update_self _ _ _, fun i hi => ?_, ?_⟩
  · rw [Function.update_of_ne (combinerField_ne (.inl rfl)), h.counterPointer]
  · rw [Function.update_of_ne (combinerField_ne (.inr rfl)), h.tablePointer]
  · have hne : lay.slot i ≠ combinerField lay := fun he => lay.field_ne_slot _ hmem i hi he.symm
    rw [Function.update_of_ne hne, h.slots i hi]
  · have hne : lay.counter ≠ combinerField lay := fun he => lay.field_ne_counter _ hmem he.symm
    rw [Function.update_of_ne hne, h.counter]

theorem clearTable_of_ne {n : Nat} {table a : Word} {m : Memory}
    (h : ∀ i < n, a ≠ table + BitVec.ofNat 64 (8 * i)) :
    (clearTable n table m).cells a = m.cells a := by
  rw [clearTable]
  apply if_neg
  rintro ⟨i, hi, he⟩
  exact h i hi he

theorem clearTable_slot {n i : Nat} (hi : i < n) (table : Word) (m : Memory) :
    (clearTable n table m).cells (table + BitVec.ofNat 64 (8 * i)) = 0 := by
  rw [clearTable]
  exact if_pos ⟨i, hi, rfl⟩

theorem holds_clear {m : Memory} (h : Holds lay gate t count m.cells) :
    Holds lay gate (fun _ => 0) count (clearTable shippedBuild.hashSetSize lay.table m).cells := by
  have hfield : ∀ o ∈ fieldOffsets shippedBuild,
      (clearTable shippedBuild.hashSetSize lay.table m).cells (lay.threadData + o) =
      m.cells (lay.threadData + o) := fun o ho =>
    clearTable_of_ne fun i hi => lay.field_ne_slot o ho i hi
  refine ⟨?_, ?_, ?_, fun i hi => clearTable_slot hi _ _, ?_⟩
  · rw [hfield _ (by simp [fieldOffsets]), h.counterPointer]
  · rw [hfield _ (by simp [fieldOffsets]), h.tablePointer]
  · rw [hfield _ (by simp [fieldOffsets]), h.combiner]
  · rw [clearTable_of_ne fun i hi he => lay.slot_ne_counter i hi he.symm, h.counter]

theorem holds_setCounter (h : Holds lay gate t count cells) (w : Word) :
    Holds lay gate t w (Function.update cells lay.counter w) := by
  have hfield : ∀ o ∈ fieldOffsets shippedBuild,
      Function.update cells lay.counter w (lay.threadData + o) =
      cells (lay.threadData + o) := fun o ho =>
    Function.update_of_ne (lay.field_ne_counter o ho) _ _
  refine ⟨?_, ?_, ?_, fun i hi => ?_, Function.update_self _ _ _⟩
  · rw [hfield _ (by simp [fieldOffsets]), h.counterPointer]
  · rw [hfield _ (by simp [fieldOffsets]), h.tablePointer]
  · rw [hfield _ (by simp [fieldOffsets]), h.combiner]
  · have hne : lay.slot i ≠ lay.counter := lay.slot_ne_counter i hi
    rw [Function.update_of_ne hne, h.slots i hi]

theorem holds_eventThreadInit (m : Memory) :
    Holds lay (setInt (m.cells (combinerField lay)) 0) (fun _ => 0) (m.cells lay.counter)
    (eventThreadInit lay m).cells := by
  have hne : ∀ o ∈ fieldOffsets shippedBuild, lay.counter ≠ lay.threadData + o := fun o ho he =>
    lay.field_ne_counter o ho he.symm
  have hpointers : Holds lay (m.cells (combinerField lay)) (fun i => m.cells (lay.slot i))
      (m.cells lay.counter)
      (Function.update (Function.update m.cells
        (lay.threadData + numberOfHashSetEntriesOffset) lay.counter)
        (lay.threadData + hashSetEntriesOffset) lay.table) := by
    refine ⟨?_, Function.update_self _ _ _, ?_, fun i hi => ?_, ?_⟩
    · have hfields : lay.threadData + numberOfHashSetEntriesOffset ≠ lay.threadData +
          hashSetEntriesOffset := by
        intro h
        exact absurd (BitVec.add_right_inj _ |>.mp h) (by decide)
      rw [Function.update_of_ne hfields, Function.update_self]
    · have hcombiner : ∀ o, o = numberOfHashSetEntriesOffset ∨ o = hashSetEntriesOffset →
          lay.threadData + combinerOffset shippedBuild ≠ lay.threadData + o :=
        fun o ho he => combinerField_ne ho he.symm
      rw [Function.update_of_ne (hcombiner _ (.inr rfl)),
        Function.update_of_ne (hcombiner _ (.inl rfl))]
      rfl
    · have hslot : ∀ o ∈ fieldOffsets shippedBuild, lay.slot i ≠ lay.threadData + o :=
        fun o ho he =>
        lay.field_ne_slot o ho i hi he.symm
      rw [Function.update_of_ne (hslot _ (by simp [fieldOffsets])),
        Function.update_of_ne (hslot _ (by simp [fieldOffsets]))]
    · rw [Function.update_of_ne (hne _ (by simp [fieldOffsets])),
        Function.update_of_ne (hne _ (by simp [fieldOffsets]))]
  exact holds_assignCombiner (@holds_clear lay _ _ _ ⟨_, m.overflow⟩ hpointers) 0

end Memory

section Events

variable {lay} {pad : BitVec 32} {m m' : Memory} {v : Event} {x : Store}

theorem kept_eventThreadInit (m : Memory) : Kept lay (padding lay m) (eventThreadInit lay m) :=
  ⟨_, _, _, holds_eventThreadInit m, highHalf_setInt _ _⟩

theorem combiner_eventThreadInit (m : Memory) : combiner lay (eventThreadInit lay m) = 0 := by
  have hgate : (eventThreadInit lay m).cells (combinerField lay) = _ :=
    (holds_eventThreadInit m).combiner
  rw [combiner, hgate, lowHalf_setInt]

theorem kept_assignCombiner (h : Kept lay pad m) (w : BitVec 32) :
    Kept lay pad (assignCombiner lay w m) := by
  obtain ⟨gate, t, count, hm, hpad⟩ := h
  exact ⟨_, _, _, holds_assignCombiner hm w, (highHalf_setInt _ _).trans hpad⟩

theorem kept_clearTable (h : Kept lay pad m) :
    Kept lay pad (clearTable shippedBuild.hashSetSize
      (m.cells (lay.threadData + hashSetEntriesOffset)) m) := by
  obtain ⟨gate, t, count, hm, hpad⟩ := h
  rw [hm.tablePointer]
  exact ⟨_, _, _, holds_clear hm, hpad⟩

theorem kept_runStore (h : Kept lay pad m) (hx : InRange shippedBuild x)
    (hm : m' ∈ runStore shippedBuild lay x m) : Kept lay pad m' := by
  obtain ⟨gate, t, count, hholds, hpad⟩ := h
  by_cases hgate : gate = 0
  · rw [runStore_closed regular_shippedBuild (hholds.combiner.trans hgate)] at hm
    rw [Part.mem_some_iff.mp hm]
    exact ⟨gate, t, count, hholds, hpad⟩
  · have hcount : Holds lay gate t (count + BitVec.ofNat 64 0) m.cells := by
      rw [BitVec.add_zero]
      exact hholds
    cases hr : recordLines shippedBuild (storedLines shippedBuild x) (t, 0) with
    | none =>
        exact absurd (Part.dom_iff_mem.mpr ⟨m', hm⟩)
          (not_dom_runStore regular_shippedBuild aligns_shippedBuild.pos hx.bound hgate hcount hr)
    | some s =>
        obtain ⟨m₁, hm₁, hholds₁, -⟩ :=
          mem_runStore regular_shippedBuild aligns_shippedBuild.pos hx.bound hgate hcount hr
        rw [Part.mem_unique hm hm₁]
        exact ⟨_, _, _, hholds₁, hpad⟩

theorem kept_perform (h : Kept lay pad m) (hv : v.Valid) (hm : m' ∈ perform lay v m) :
    Kept lay pad m' := by
  cases v with
  | start =>
      rw [Part.mem_some_iff.mp hm]
      exact kept_assignCombiner h 1
  | reset =>
      rw [Part.mem_some_iff.mp hm]
      exact kept_clearTable (kept_assignCombiner h 0)
  | stop =>
      rw [Part.mem_some_iff.mp hm]
      obtain ⟨gate, t, count, hholds, hpad⟩ := kept_clearTable (kept_assignCombiner h 0)
      rw [instrumentStop, hholds.counterPointer]
      exact ⟨_, _, _, holds_setCounter hholds _, hpad⟩
  | store x => exact kept_runStore h hv hm

theorem kept_performAll {vs : List Event} (h : Kept lay pad m) (hvs : ∀ v ∈ vs, v.Valid)
    (hm : m' ∈ performAll lay vs m) : Kept lay pad m' := by
  induction vs generalizing m with
  | nil =>
      rw [Part.mem_some_iff.mp hm]
      exact h
  | cons v vs ih =>
      obtain ⟨m₁, hm₁, hrest⟩ := Part.mem_bind_iff.mp hm
      exact ih (kept_perform h (hvs v (by simp)) hm₁) (fun w hw => hvs w (by simp [hw])) hrest

theorem unrecorded_of_padding (h : Kept lay 0 m) (hc : combiner lay m = 0) (x : Store) :
    Unrecorded lay x m := by
  obtain ⟨gate, t, count, hholds, hpad⟩ := h
  have hgate : m.cells (combinerField lay) = gate := hholds.combiner
  have hzero : gate = 0 := by
    refine eq_zero_of_halves ?_ hpad
    rw [← hgate]
    exact hc
  refine ⟨m, ?_, fun i hi => rfl, rfl, rfl⟩
  rw [runStore_closed regular_shippedBuild (hholds.combiner.trans hzero)]
  exact Part.mem_some m

theorem recorded_of_padding (h : padding lay m ≠ 0) :
    ¬ Unrecorded lay (wordStore 4096) (eventThreadInit lay m) := by
  rintro ⟨m', hm', -, hcounter, -⟩
  have hholds := @holds_eventThreadInit lay m
  have hgate : setInt (m.cells (combinerField lay)) 0 ≠ 0 := by
    intro hzero
    apply h
    rw [padding, ← highHalf_setInt _ 0, hzero]
    rfl
  have hcount : Holds lay (setInt (m.cells (combinerField lay)) 0) (fun _ => 0)
      (m.cells lay.counter + BitVec.ofNat 64 0) (eventThreadInit lay m).cells := by
    rw [BitVec.add_zero]
    exact hholds
  have hwords : (wordsOf shippedBuild [wordStore 4096]).card = 1 := rfl
  obtain ⟨s, hs⟩ := exists_recordLines regular_shippedBuild aligns_shippedBuild inRange_singleton
    (by rw [hwords]; exact regular_shippedBuild.pos)
  have hone :=
    (holding_recordLines regular_shippedBuild aligns_shippedBuild inRange_singleton hs).count
  rw [hwords] at hone
  rw [List.flatMap_singleton] at hs
  obtain ⟨m₁, hm₁, hholds₁, -⟩ := mem_runStore regular_shippedBuild aligns_shippedBuild.pos
    (inRange_wordStore (by decide) (by decide)).bound hgate hcount hs
  rw [Part.mem_unique hm' hm₁, hholds₁.counter, hholds.counter, hone] at hcounter
  have hzero : BitVec.ofNat 64 (0 + 1) = 0 := by
    apply (BitVec.add_right_inj (m.cells lay.counter)).mp
    exact hcounter.trans (BitVec.add_zero _).symm
  exact absurd hzero (by decide)

end Events

/-- Stores that a thread makes while its flag is zero are ignored, in every state of
the thread, exactly if the memory that its data was allocated from had zeros in
the padding after the flag. -/
theorem stores_outside_unrecorded (lay : Layout shippedBuild) (m : Memory) :
    (∀ vs, (∀ v ∈ vs, Event.Valid v) → ∀ m' ∈ performAll lay vs (eventThreadInit lay m),
      combiner lay m' = 0 →
      ∀ x, InRange shippedBuild x → Unrecorded lay x m') ↔ padding lay m = 0 := by
  constructor
  · intro h
    by_contra hpad
    apply recorded_of_padding hpad
    exact h [] (fun v hv => absurd hv List.not_mem_nil) _ (Part.mem_some _)
      (combiner_eventThreadInit m) _ (inRange_wordStore (by decide) (by decide))
  · intro hpad vs hvs m' hm' hc x hx
    have hkept := @kept_eventThreadInit lay m
    rw [hpad] at hkept
    exact unrecorded_of_padding (kept_performAll hkept hvs hm') hc x

/-- Memory with a byte left over in the padding. -/
def usedMemory : Memory where
  cells a := if a = 10008 then 4294967296 else 0
  overflow := []

theorem not_stores_outside_unrecorded : ¬ ∀ vs, (∀ v ∈ vs, Event.Valid v) →
    ∀ m' ∈ performAll lowLayout vs (eventThreadInit lowLayout usedMemory),
    combiner lowLayout m' = 0 →
      ∀ x, InRange shippedBuild x → Unrecorded lowLayout x m' := by
  intro h
  have hpad : padding lowLayout usedMemory ≠ 0 := by decide
  apply recorded_of_padding hpad
  exact h [] (fun v hv => absurd hv List.not_mem_nil) _ (Part.mem_some _)
    (combiner_eventThreadInit usedMemory) _ (inRange_wordStore (by decide) (by decide))

end Mangosteen.CombinerGate
