import Mathlib.Data.Set.Card
import Mangosteen.CollectorRuns

namespace Mangosteen.CollectedLines

open RegisterMachine StateTransition Relation LineCollector CollectorRuns

/-- A store of the application, with what the registers hold when the code before
it is entered. The size of the operand is itself an operand of 32 bits. -/
structure Store where
  address : Nat
  size : Nat
  size_lt : size < 2 ^ 31
  regs : Reg → Word
  flags : Option (Word × Word)
  scratch : Word

/-- The memory of a thread, and the overflow buffer. -/
structure Memory where
  cells : Word → Word
  overflow : List Word

/-- The code that stands before a store. The TLS field has been read into the
register of the hash set. -/
noncomputable def runStore (b : Build) (lay : Layout b) (x : Store) (m : Memory) : Part Memory :=
  (eval (step (storeAddressInHashSet b x.size))
    ⟨0, Function.update x.regs .hashSetPointer lay.threadData, x.flags, m.cells,
    ⟨BitVec.ofNat 64 x.address, x.scratch, m.overflow⟩⟩).map fun σ => ⟨σ.mem, σ.env.overflow⟩

/-- Stores one after the other. What there is of a result ends where the code of
some store does not. -/
noncomputable def runStores (b : Build) (lay : Layout b) : List Store → Memory → Part Memory
  | [], m => Part.some m
  | x :: xs, m => (runStore b lay x m).bind (runStores b lay xs)

/-- The address that the mask leaves. -/
def alignedAddress (b : Build) (address : Nat) : Nat :=
  (BitVec.ofNat 64 address &&& imm8 (alignmentValue b.payloadSize)).toNat

/-- The lines that the code visits. -/
def storedLines (b : Build) (x : Store) : List Nat :=
  linesFrom b (alignedAddress b x.address)
    ((x.address + x.size - alignedAddress b x.address + (b.payloadSize - 1)) / b.payloadSize)

/-- Addresses whose last line ends below the sign bit. -/
def InBounds (b : Build) (x : Store) : Prop := x.address + x.size + b.payloadSize < 2 ^ 63

section Store

variable {b : Build} {lay : Layout b} {gate c₀ : Word} {s s' : (Nat → Word) × Nat}
  {x : Store} {m : Memory}

theorem alignedAddress_le (b : Build) {address : Nat} (h : address < 2 ^ 64) :
    alignedAddress b address ≤ address := by
  rw [alignedAddress, BitVec.toNat_and, BitVec.toNat_ofNat, Nat.mod_eq_of_lt h]
  exact Nat.and_le_left

theorem spans_linesFrom (hpos : 0 < b.payloadSize) (hx : InBounds b x) {start : Nat}
    (hle : start ≤ x.address) :
    Spans b start ((x.address + x.size - start + (b.payloadSize - 1)) / b.payloadSize)
    (x.address + x.size) := by
  rw [InBounds] at hx
  have hdiv := Nat.div_mul_le_self (x.address + x.size - start + (b.payloadSize - 1)) b.payloadSize
  have hmod := Nat.lt_div_mul_add hpos (a := x.address + x.size - start + (b.payloadSize - 1))
  rw [Nat.mul_comm] at hdiv hmod
  refine ⟨fun i hi => ?_, by omega, by omega⟩
  have hmul := Nat.mul_le_mul_left b.payloadSize (Nat.succ_le_of_lt hi)
  rw [Nat.mul_succ] at hmul
  omega

theorem spans_storedLines (hpos : 0 < b.payloadSize) (hx : InBounds b x) :
    Spans b (alignedAddress b x.address)
      ((x.address + x.size - alignedAddress b x.address + (b.payloadSize - 1)) / b.payloadSize)
      (x.address + x.size) := by
  refine spans_linesFrom hpos hx (alignedAddress_le b ?_)
  rw [InBounds] at hx
  omega

theorem reaches_loop (hb : Regular b) (hgate : gate ≠ 0)
    (hm : Holds lay gate s.1 (c₀ + BitVec.ofNat 64 s.2) m.cells) :
    ∃ τ, (∃ a, Point lay gate c₀ ⟨BitVec.ofNat 64 x.address, x.scratch, m.overflow⟩ 11
        (BitVec.ofNat 64 (alignedAddress b x.address)) lay.table
        (BitVec.ofNat 64 (x.address + x.size)) a s τ) ∧
      Reaches₁ (step (storeAddressInHashSet b x.size))
      ⟨0, Function.update x.regs .hashSetPointer lay.threadData, x.flags,
        m.cells, ⟨BitVec.ofNat 64 x.address, x.scratch, m.overflow⟩⟩ τ := by
  have hregs : Function.update x.regs .hashSetPointer lay.threadData .hashSetPointer =
      lay.threadData :=
    Function.update_self _ _ _
  obtain ⟨τ, hτ, hrun⟩ :=
    @leads_open b x.size m.cells ⟨BitVec.ofNat 64 x.address, x.scratch, m.overflow⟩ lay gate c₀ s _
    x.flags hm hgate hregs
  rw [imm32_ofNat x.size_lt, ← BitVec.ofNat_add] at hτ
  rw [storeAddressInHashSet_eq hb.unchecked, alignedAddress, BitVec.ofNat_toNat, BitVec.setWidth_eq]
  exact ⟨τ, hτ, hrun⟩

theorem mem_runStore (hb : Regular b) (hpos : 0 < b.payloadSize)
    (hx : InBounds b x) (hgate : gate ≠ 0)
    (hm : Holds lay gate s.1 (c₀ + BitVec.ofNat 64 s.2) m.cells)
    (h : recordLines b (storedLines b x) s = some s') :
    ∃ m' ∈ runStore b lay x m, Holds lay gate s'.1 (c₀ + BitVec.ofNat 64 s'.2) m'.cells ∧
    m'.overflow = m.overflow := by
  obtain ⟨τ, hτ, hrun⟩ := reaches_loop hb hgate hm
  obtain ⟨υ, ⟨hpc, henv, hmem⟩, hrun'⟩ := leads_recordLines hb (spans_storedLines hpos hx) h τ hτ
  rw [← storeAddressInHashSet_eq hb.unchecked] at hrun'
  refine ⟨_, Part.mem_map _ (mem_eval_of_reaches (TransGen.trans hrun hrun').to_reflTransGen ?_),
    hmem, ?_⟩
  · rw [hpc, storeAddressInHashSet_eq hb.unchecked]
    rfl
  · rw [henv]

theorem not_dom_runStore (hb : Regular b) (hpos : 0 < b.payloadSize)
    (hx : InBounds b x) (hgate : gate ≠ 0)
    (hm : Holds lay gate s.1 (c₀ + BitVec.ofNat 64 s.2) m.cells)
    (h : recordLines b (storedLines b x) s = none) : ¬ (runStore b lay x m).Dom := by
  obtain ⟨τ, ⟨a, hτ⟩, hrun⟩ := reaches_loop hb hgate hm
  rw [runStore, Part.map_Dom, reaches_eval hrun.to_reflTransGen,
    storeAddressInHashSet_eq hb.unchecked]
  exact not_dom_recordLines hb (spans_storedLines hpos hx) h hτ

theorem runStore_closed (hb : Regular b) (h : m.cells (lay.threadData + combinerOffset b) = 0) :
    runStore b lay x m = Part.some m := by
  have hregs : Function.update x.regs .hashSetPointer lay.threadData .hashSetPointer =
      lay.threadData :=
    Function.update_self _ _ _
  obtain ⟨τ, ⟨hpc, henv, hmem⟩, hrun⟩ := @leads_closed b x.size m.cells
    ⟨BitVec.ofNat 64 x.address, x.scratch, m.overflow⟩
    (Function.update x.regs .hashSetPointer lay.threadData) x.flags (by rw [hregs]; exact h)
  rw [← storeAddressInHashSet_eq hb.unchecked] at hrun
  have hend :=
    mem_eval_of_reaches hrun.to_reflTransGen
    (by rw [hpc, storeAddressInHashSet_eq hb.unchecked]; rfl)
  rw [runStore, Part.eq_some_iff.mpr hend, Part.map_some, hmem, henv]

theorem recordLines_append (b : Build) (ls ls' : List Nat) (s : (Nat → Word) × Nat) :
    recordLines b (ls ++ ls') s = (recordLines b ls s).bind (recordLines b ls') := by
  induction ls generalizing s with
  | nil => rfl
  | cons l ls ih =>
      simp only [recordLines, List.cons_append, List.map_cons, OpenAddressing.recordAll] at ih ⊢
      cases OpenAddressing.record b.hashSetSize 0 (home b) (BitVec.ofNat 64 l) s with
      | none => rfl
      | some s' => exact ih s'

theorem mem_runStores (hb : Regular b) (hpos : 0 < b.payloadSize) {xs : List Store}
    (hx : ∀ x ∈ xs, InBounds b x)
    (hgate : gate ≠ 0) (hm : Holds lay gate s.1 (c₀ + BitVec.ofNat 64 s.2) m.cells)
    (h : recordLines b (xs.flatMap (storedLines b)) s = some s') :
    ∃ m' ∈ runStores b lay xs m, Holds lay gate s'.1 (c₀ + BitVec.ofNat 64 s'.2) m'.cells ∧
    m'.overflow = m.overflow := by
  induction xs generalizing s m with
  | nil =>
      obtain rfl := Option.some.inj h
      exact ⟨m, Part.mem_some m, hm, rfl⟩
  | cons x xs ih =>
      rw [List.flatMap_cons, recordLines_append] at h
      obtain ⟨s₁, h₁, hrest⟩ := Option.bind_eq_some_iff.mp h
      obtain ⟨m₁, hmem₁, hm₁, ho₁⟩ := mem_runStore hb hpos (hx x (by simp)) hgate hm h₁
      obtain ⟨m', hmem', hm', ho'⟩ := ih (fun y hy => hx y (by simp [hy])) hm₁ hrest
      exact ⟨m', Part.mem_bind hmem₁ hmem', hm', ho'.trans ho₁⟩

theorem not_dom_runStores (hb : Regular b) (hpos : 0 < b.payloadSize) {xs : List Store}
    (hx : ∀ x ∈ xs, InBounds b x)
    (hgate : gate ≠ 0) (hm : Holds lay gate s.1 (c₀ + BitVec.ofNat 64 s.2) m.cells)
    (h : recordLines b (xs.flatMap (storedLines b)) s = none) : ¬ (runStores b lay xs m).Dom := by
  induction xs generalizing s m with
  | nil => cases h
  | cons x xs ih =>
      rw [List.flatMap_cons, recordLines_append] at h
      cases h₁ : recordLines b (storedLines b x) s with
      | none => exact fun hd => not_dom_runStore hb hpos (hx x (by simp)) hgate hm h₁ hd.1
      | some s₁ =>
          rw [h₁, Option.bind_some] at h
          obtain ⟨m₁, hmem₁, hm₁, -⟩ := mem_runStore hb hpos (hx x (by simp)) hgate hm h₁
          rw [runStores, Part.eq_some_iff.mpr hmem₁, Part.bind_some]
          exact ih (fun y hy => hx y (by simp [hy])) hm₁ h

end Store

/-- The aligned lines that some store writes to. -/
def linesOf (b : Build) (xs : List Store) : Set Nat :=
  {line | b.payloadSize ∣ line ∧ ∃ x ∈ xs, line < x.address + x.size ∧
    x.address < line + b.payloadSize}

/-- Stores that do not touch the first line of memory. -/
structure InRange (b : Build) (x : Store) : Prop where
  address : b.payloadSize ≤ x.address
  size : 1 ≤ x.size
  bound : InBounds b x

/-- The lines are the contents of the table, each once, and a search from its home
finds each of them. -/
structure Records (b : Build) (lines : Set Nat) (t : Nat → Word) : Prop where
  exact : ∀ w : Word, (w ≠ 0 ∧ ∃ i < b.hashSetSize, t i = w) ↔
    ∃ line ∈ lines, w = BitVec.ofNat 64 line
  once : ∀ i < b.hashSetSize, ∀ j < b.hashSetSize, t i ≠ 0 → t i = t j → i = j
  occupied : ∀ i < b.hashSetSize, t i ≠ 0 → ∃ d, i = (home b (t i) + d) % b.hashSetSize ∧
    ∀ k < d, t ((home b (t i) + k) % b.hashSetSize) ≠ 0

/-- The sizes for which the mask has the bits it should have. -/
def Aligns (b : Build) : Prop := b.payloadSize ∈ [8, 32, 64, 128]

section Lines

variable {b : Build} {x : Store} {line : Nat}

theorem mem_linesFrom {start k : Nat} :
    line ∈ linesFrom b start k ↔ ∃ i < k, line = start + b.payloadSize * i := by
  induction k generalizing start with
  | zero => simp [linesFrom]
  | succ k ih =>
      rw [linesFrom, List.mem_cons, ih]
      constructor
      · rintro (rfl | ⟨i, hi, rfl⟩)
        · exact ⟨0, Nat.succ_pos k, rfl⟩
        · exact ⟨i + 1, Nat.succ_lt_succ hi, by rw [Nat.mul_succ]; omega⟩
      · rintro ⟨i, hi, rfl⟩
        cases i with
        | zero => exact .inl rfl
        | succ i => exact .inr ⟨i, Nat.lt_of_succ_lt_succ hi, by rw [Nat.mul_succ]; omega⟩

theorem alignedAddress_eq (hb : Aligns b) {address : Nat} (h : address < 2 ^ 64) :
    alignedAddress b address = address - address % b.payloadSize := by
  have hround : ∀ j ≤ 64, (imm8 (alignmentValue (2 ^ j))).toNat = 2 ^ 64 - 2 ^ j →
      b.payloadSize = 2 ^ j → alignedAddress b address = address - address % b.payloadSize := by
    intro j hj hmask hsize
    rw [alignedAddress, BitVec.toNat_and, BitVec.toNat_ofNat, Nat.mod_eq_of_lt h, hsize,
      hmask, and_high_bits hj h]
  simp only [Aligns, List.mem_cons, List.not_mem_nil, or_false] at hb
  rcases hb with hb | hb | hb | hb
  · exact hround 3 (by decide) (by decide) hb
  · exact hround 5 (by decide) (by decide) hb
  · exact hround 6 (by decide) (by decide) hb
  · exact hround 7 (by decide) (by decide) hb

theorem Aligns.pos (hb : Aligns b) : 0 < b.payloadSize := by
  simp only [Aligns, List.mem_cons, List.not_mem_nil, or_false] at hb
  omega

theorem mem_storedLines (hb : Aligns b) (hx : InRange b x) :
    line ∈ storedLines b x ↔ b.payloadSize ∣ line ∧ line < x.address + x.size ∧
    x.address < line + b.payloadSize := by
  have hbound := hx.bound
  have hsize := hx.size
  rw [InBounds] at hbound
  have hspan := spans_storedLines hb.pos hx.bound
  rw [alignedAddress_eq hb (by omega)] at hspan
  rw [storedLines, mem_linesFrom, alignedAddress_eq hb (by omega)]
  have hmod := Nat.mod_lt x.address hb.pos
  have hdvd : b.payloadSize ∣ x.address - x.address % b.payloadSize := Nat.dvd_sub_mod x.address
  constructor
  · rintro ⟨i, hi, rfl⟩
    have hle := Nat.mod_le x.address b.payloadSize
    exact ⟨Nat.dvd_add hdvd (Nat.dvd_mul_right _ _), hspan.lt i hi, by omega⟩
  · rintro ⟨hline, hlt, hgt⟩
    -- the line is at least the first one, by whole lines
    obtain ⟨u, hu⟩ := hdvd
    obtain ⟨v, rfl⟩ := hline
    have huv : u ≤ v := by
      by_contra hlt'
      have := Nat.mul_le_mul_left b.payloadSize (Nat.succ_le_of_lt (Nat.lt_of_not_le hlt'))
      rw [Nat.mul_succ] at this
      omega
    have heq : b.payloadSize * v = x.address - x.address % b.payloadSize +
        b.payloadSize * (v - u) := by
      rw [hu, ← Nat.mul_add, Nat.add_sub_cancel' huv]
    refine ⟨v - u, ?_, heq⟩
    by_contra hge
    have := Nat.mul_le_mul_left b.payloadSize (Nat.le_of_not_lt hge)
    have hle := hspan.le
    omega

theorem mem_linesOf (hb : Aligns b) {xs : List Store} (hx : ∀ x ∈ xs, InRange b x) :
    line ∈ linesOf b xs ↔ line ∈ xs.flatMap (storedLines b) := by
  rw [List.mem_flatMap]
  constructor
  · rintro ⟨hd, x, hxs, hmeets⟩
    exact ⟨x, hxs, (mem_storedLines hb (hx x hxs)).mpr ⟨hd, hmeets⟩⟩
  · rintro ⟨x, hxs, hmem⟩
    obtain ⟨hd, hmeets⟩ := (mem_storedLines hb (hx x hxs)).mp hmem
    exact ⟨hd, x, hxs, hmeets⟩

theorem line_bounds (hb : Aligns b) (hx : InRange b x) (h : line ∈ storedLines b x) :
    0 < line ∧ line < 2 ^ 63 := by
  obtain ⟨hd, hlt, hgt⟩ := (mem_storedLines hb hx).mp h
  have hbound := hx.bound
  have haddr := hx.address
  rw [InBounds] at hbound
  refine ⟨?_, by omega⟩
  rcases Nat.eq_zero_or_pos line with rfl | hpos
  · omega
  · exact hpos

end Lines

section Stores

variable {b : Build} {lay : Layout b} {xs : List Store} {gate count : Word} {m : Memory}

/-- The lines as words of the table. -/
def wordsOf (b : Build) (xs : List Store) : Finset Word :=
  ((xs.flatMap (storedLines b)).map (BitVec.ofNat 64)).toFinset

theorem ofNat_ne_zero {line : Nat} (h : 0 < line ∧ line < 2 ^ 63) : BitVec.ofNat 64 line ≠ 0 := by
  intro he
  have := congrArg BitVec.toNat he
  rw [BitVec.toNat_ofNat, Nat.mod_eq_of_lt (by omega)] at this
  exact absurd this (by simp; omega)

theorem zero_notMem (hb : Aligns b) (hx : ∀ x ∈ xs, InRange b x) :
    (0 : Word) ∉ (xs.flatMap (storedLines b)).map (BitVec.ofNat 64) := by
  intro hmem
  obtain ⟨line, hline, he⟩ := List.mem_map.mp hmem
  obtain ⟨x, hxs, hline⟩ := List.mem_flatMap.mp hline
  exact ofNat_ne_zero (line_bounds hb (hx x hxs) hline) he

theorem encard_linesOf (hb : Aligns b) (hx : ∀ x ∈ xs, InRange b x) :
    (linesOf b xs).encard = (wordsOf b xs).card := by
  have hset : linesOf b xs = ↑(xs.flatMap (storedLines b)).toFinset := by
    ext line
    rw [mem_linesOf hb hx, Finset.mem_coe, List.mem_toFinset]
  have himage : wordsOf b xs = (xs.flatMap (storedLines b)).toFinset.image (BitVec.ofNat 64) := by
    ext w
    simp [wordsOf]
  have hinj : Set.InjOn (BitVec.ofNat 64) ((xs.flatMap (storedLines b)).toFinset : Set Nat) := by
    intro i hi j hj he
    rw [Finset.mem_coe, List.mem_toFinset] at hi hj
    obtain ⟨x, hxs, hi⟩ := List.mem_flatMap.mp hi
    obtain ⟨y, hys, hj⟩ := List.mem_flatMap.mp hj
    have hi := line_bounds hb (hx x hxs) hi
    have hj := line_bounds hb (hx y hys) hj
    have := congrArg BitVec.toNat he
    rwa [BitVec.toNat_ofNat, BitVec.toNat_ofNat, Nat.mod_eq_of_lt (by omega),
      Nat.mod_eq_of_lt (by omega)] at this
  rw [hset, Set.encard_coe_eq_coe_finsetCard, himage, Finset.card_image_of_injOn hinj]

theorem holding_start (b : Build) :
    OpenAddressing.Holding b.hashSetSize 0 (home b) ∅ 0 ((fun _ => 0 : Nat → Word), 0) :=
  OpenAddressing.holding_blank

theorem holding_recordLines (hb : Regular b) (ha : Aligns b) (hx : ∀ x ∈ xs, InRange b x)
    {s : (Nat → Word) × Nat}
    (h : recordLines b (xs.flatMap (storedLines b)) (fun _ => 0, 0) = some s) :
    OpenAddressing.Holding b.hashSetSize 0 (home b) (wordsOf b xs) 0 s := by
  have hhold := (holding_start b).recordAll hb.pos (home_lt hb) h
  rw [Finset.empty_union, Nat.zero_add, List.count_eq_zero_of_not_mem (zero_notMem ha hx),
    Finset.erase_eq_of_notMem (by rw [List.mem_toFinset]; exact zero_notMem ha hx)] at hhold
  exact hhold

theorem exists_recordLines (hb : Regular b) (ha : Aligns b) (hx : ∀ x ∈ xs, InRange b x)
    (hcard : (wordsOf b xs).card ≤ b.hashSetSize) :
    ∃ s, recordLines b (xs.flatMap (storedLines b)) (fun _ => 0, 0) = some s :=
  (holding_start b).exists_recordAll hb.pos (home_lt hb) (zero_notMem ha hx) (Finset.empty_subset _)
    (fun _ hk => List.mem_toFinset.mpr hk) hcard

theorem dom_runStores (hb : Regular b) (ha : Aligns b) (hx : ∀ x ∈ xs, InRange b x)
    (hgate : gate ≠ 0) (hm : Holds lay gate (fun _ => 0) count m.cells) :
    (runStores b lay xs m).Dom ↔ (linesOf b xs).encard ≤ b.hashSetSize := by
  have hm : Holds lay gate (fun _ => 0) (count + BitVec.ofNat 64 0) m.cells := by
    rw [BitVec.ofNat_eq_ofNat, BitVec.add_zero]
    exact hm
  have hin : ∀ x ∈ xs, InBounds b x := fun x hxs => (hx x hxs).bound
  rw [encard_linesOf ha hx, Nat.cast_le]
  cases h : recordLines b (xs.flatMap (storedLines b)) (fun _ => 0, 0) with
  | some s =>
      obtain ⟨m', hmem, -⟩ := mem_runStores hb ha.pos hin hgate hm h
      exact iff_of_true (Part.dom_iff_mem.mpr ⟨m', hmem⟩) (holding_recordLines hb ha hx h).card_le
  | none =>
      refine iff_of_false (not_dom_runStores hb ha.pos hin hgate hm h) fun hcard => ?_
      obtain ⟨s, hs⟩ := exists_recordLines hb ha hx hcard
      exact absurd (h.symm.trans hs) (by simp)

theorem records_of_holding (ha : Aligns b) (hx : ∀ x ∈ xs, InRange b x) {s : (Nat → Word) × Nat}
    (h : OpenAddressing.Holding b.hashSetSize 0 (home b) (wordsOf b xs) 0 s) :
    Records b (linesOf b xs) s.1 := by
  refine ⟨fun w => ?_, fun i hi j hj hne he => h.placed.injective hi hj hne he, fun i hi hne => ?_⟩
  · rw [show (w ≠ 0 ∧ ∃ i < b.hashSetSize, s.1 i = w) ↔ w ∈ wordsOf b xs from h.stores w,
      wordsOf, List.mem_toFinset, List.mem_map]
    constructor
    · rintro ⟨line, hline, rfl⟩
      exact ⟨line, (mem_linesOf ha hx).mpr hline, rfl⟩
    · rintro ⟨line, hline, rfl⟩
      exact ⟨line, (mem_linesOf ha hx).mp hline, rfl⟩
  · obtain ⟨d, hd, hbefore⟩ := h.placed i hi hne
    exact ⟨d, hd.symm, fun k hk => (hbefore k hk).1⟩

end Stores

/-- The emitted code records the lines of all stores, as long as there are slots
for them. -/
theorem collects_written_lines (b : Build) (hb : Regular b) (ha : Aligns b)
    (lay : Layout b) (xs : List Store)
    (hx : ∀ x ∈ xs, InRange b x) (hlines : (linesOf b xs).encard ≤ b.hashSetSize)
    (gate count : Word) (hgate : gate ≠ 0)
    (m : Memory) (hm : Holds lay gate (fun _ => 0) count m.cells) :
    ∃ m' ∈ runStores b lay xs m, ∃ t,
      Holds lay gate t (count + BitVec.ofNat 64 (linesOf b xs).ncard) m'.cells ∧
      Records b (linesOf b xs) t := by
  have hm' : Holds lay gate (fun _ => 0) (count + BitVec.ofNat 64 0) m.cells := by
    rw [BitVec.ofNat_eq_ofNat, BitVec.add_zero]
    exact hm
  have hin : ∀ x ∈ xs, InBounds b x := fun x hxs => (hx x hxs).bound
  cases h : recordLines b (xs.flatMap (storedLines b)) (fun _ => 0, 0) with
  | none =>
    exact absurd ((dom_runStores hb ha hx hgate hm).mpr hlines)
      (not_dom_runStores hb ha.pos hin hgate hm' h)
  | some s =>
      have hhold := holding_recordLines hb ha hx h
      obtain ⟨m', hmem, hm', -⟩ := mem_runStores hb ha.pos hin hgate hm' h
      have hcount : s.2 = (linesOf b xs).ncard := by
        rw [hhold.count, Nat.zero_add, Set.ncard, encard_linesOf ha hx]
        rfl
      exact ⟨m', hmem, s.1, hcount ▸ hm', records_of_holding ha hx hhold⟩

section Shipped

theorem regular_shippedBuild : Regular shippedBuild := ⟨rfl, ⟨10, rfl⟩, rfl, by decide, by decide⟩

theorem aligns_shippedBuild : Aligns shippedBuild := by simp [Aligns, shippedBuild]

theorem toNat_slot {i : Nat} (hi : i < shippedBuild.hashSetSize) :
    ((1048576 : Word) + BitVec.ofNat 64 (8 * i)).toNat = 1048576 + 8 * i := by
  have hi : i < 1024 := hi
  have htable : (1048576 : Word).toNat = 1048576 := rfl
  rw [BitVec.toNat_add, BitVec.toNat_ofNat, htable]
  omega

theorem slot_ne_counter_low {i : Nat} (hi : i < shippedBuild.hashSetSize) :
    (1048576 : Word) + BitVec.ofNat 64 (8 * i) ≠ 32768 := by
  intro h
  have hcounter : (32768 : Word).toNat = 32768 := rfl
  have heq := congrArg BitVec.toNat h
  rw [toNat_slot hi, hcounter] at heq
  omega

theorem ne_counter_low {o : Word} (ho : ((4096 : Word) + o).toNat < 32768) :
    (4096 : Word) + o ≠ 32768 := by
  intro h
  rw [h] at ho
  exact absurd ho (by decide)

theorem ne_slot_low {o : Word} (ho : ((4096 : Word) + o).toNat < 32768) {i : Nat}
    (hi : i < shippedBuild.hashSetSize) :
    (4096 : Word) + o ≠ 1048576 + BitVec.ofNat 64 (8 * i) := by
  intro h
  rw [h, toNat_slot hi] at ho
  omega

theorem field_low_shippedBuild {o : Word} (ho : o ∈ fieldOffsets shippedBuild) :
    ((4096 : Word) + o).toNat < 32768 := by
  simp only [fieldOffsets, List.mem_cons, List.not_mem_nil, or_false] at ho
  rcases ho with rfl | rfl | rfl <;> decide

/-- A thread's data at the second page, its counter above it and its table above
both. -/
def lowLayout : Layout shippedBuild where
  threadData := 4096
  table := 1048576
  counter := 32768
  slot_ne_counter _ hi := slot_ne_counter_low hi
  field_ne_counter _ ho := ne_counter_low (field_low_shippedBuild ho)
  field_ne_slot _ ho _ hi := ne_slot_low (field_low_shippedBuild ho) hi

/-- Memory of a thread that has just started a transaction. -/
def startedMemory : Memory where
  cells a := if a = 4096 then 32768 else if a = 4104 then 1048576 else if a = 10008 then 1 else 0
  overflow := []

theorem holds_startedMemory : Holds lowLayout 1 (fun _ => 0) 0 startedMemory.cells := by
  refine ⟨rfl, rfl, rfl, fun i hi => ?_, rfl⟩
  have hne : ∀ o ∈ fieldOffsets shippedBuild, lowLayout.slot i ≠ lowLayout.threadData + o :=
    fun o ho h =>
    lowLayout.field_ne_slot o ho i hi h.symm
  have h₁ : lowLayout.slot i ≠ 4096 := hne numberOfHashSetEntriesOffset (by simp [fieldOffsets])
  have h₂ : lowLayout.slot i ≠ 4104 := hne hashSetEntriesOffset (by simp [fieldOffsets])
  have h₃ : lowLayout.slot i ≠ 10008 := hne (combinerOffset shippedBuild) (by simp [fieldOffsets])
  simp only [startedMemory, if_neg h₁, if_neg h₂, if_neg h₃]

/-- A store of eight bytes. -/
def wordStore (address : Nat) : Store := ⟨address, 8, by decide, fun _ => 0, none, 0⟩

theorem inRange_wordStore {address : Nat} (h : 32 ≤ address) (h' : address < 2 ^ 47) :
    InRange shippedBuild (wordStore address) := by
  refine ⟨h, by simp [wordStore], ?_⟩
  simp only [InBounds, wordStore, shippedBuild]
  omega

theorem inRange_singleton : ∀ x ∈ [wordStore 4096], InRange shippedBuild x := by
  intro x hx
  rw [List.mem_singleton.mp hx]
  exact inRange_wordStore (by decide) (by decide)

theorem encard_singleton : (linesOf shippedBuild [wordStore 4096]).encard ≤ 1024 := by
  rw [encard_linesOf aligns_shippedBuild inRange_singleton,
    show wordsOf shippedBuild [wordStore 4096] = {4096} from rfl]
  decide

end Shipped

theorem collects_written_lines_store :
    ∃ m' ∈ runStores shippedBuild lowLayout [wordStore 4096] startedMemory, ∃ t,
    Holds lowLayout 1 t
    (0 + BitVec.ofNat 64 (linesOf shippedBuild [wordStore 4096]).ncard) m'.cells ∧
      Records shippedBuild (linesOf shippedBuild [wordStore 4096]) t :=
  collects_written_lines shippedBuild regular_shippedBuild aligns_shippedBuild lowLayout _
  inRange_singleton encard_singleton
    1 0 (by decide) startedMemory holds_startedMemory

/-- In the build as it is shipped the code of a transaction ends exactly if the
transaction writes to no more lines than the table has slots. -/
theorem probe_loops_end (lay : Layout shippedBuild) (xs : List Store)
    (hx : ∀ x ∈ xs, InRange shippedBuild x)
    (gate count : Word) (hgate : gate ≠ 0) (m : Memory)
    (hm : Holds lay gate (fun _ => 0) count m.cells) :
    (runStores shippedBuild lay xs m).Dom ↔ (linesOf shippedBuild xs).encard ≤ 1024 :=
  dom_runStores regular_shippedBuild aligns_shippedBuild hx hgate hm

theorem probe_loops_end_store :
    (runStores shippedBuild lowLayout [wordStore 4096] startedMemory).Dom :=
  (probe_loops_end lowLayout _ inRange_singleton 1 0 (by decide) startedMemory
    holds_startedMemory).mpr encard_singleton

/-- One store to each of one line more than there are slots. -/
def manyStores : List Store := (List.range 1025).map fun i => wordStore (4096 + 32 * i)

theorem not_probe_loops_end : ¬ ∀ xs, (∀ x ∈ xs, InRange shippedBuild x) →
    (runStores shippedBuild lowLayout xs startedMemory).Dom := by
  intro h
  have hx : ∀ x ∈ manyStores, InRange shippedBuild x := by
    intro x hx
    obtain ⟨i, hi, rfl⟩ := List.mem_map.mp hx
    rw [List.mem_range] at hi
    exact inRange_wordStore (by omega) (by omega)
  have hroom : ∀ xs, (∀ x ∈ xs, InRange shippedBuild x) →
      (linesOf shippedBuild xs).encard ≤ 1024 := fun xs hx =>
    (dom_runStores regular_shippedBuild aligns_shippedBuild hx (by decide) holds_startedMemory).mp
      (h xs hx)
  have hsub : ((Finset.range 1025).image (4096 + 32 * ·) : Set Nat) ⊆
      linesOf shippedBuild manyStores := by
    intro line hline
    rw [Finset.mem_coe, Finset.mem_image] at hline
    obtain ⟨i, hi, rfl⟩ := hline
    refine ⟨⟨128 + i, by simp only [shippedBuild]; omega⟩, wordStore (4096 + 32 * i), ?_, ?_, ?_⟩
    · exact List.mem_map.mpr ⟨i, List.mem_range.mpr (Finset.mem_range.mp hi), rfl⟩
    · simp [wordStore]
    · simp [wordStore, shippedBuild]
  have hcard := (Set.encard_le_encard hsub).trans (hroom manyStores hx)
  rw [Set.encard_coe_eq_coe_finsetCard, Finset.card_image_of_injective _ fun i j h => by
    simpa using h,
    Finset.card_range] at hcard
  exact absurd hcard (by decide)

end Mangosteen.CollectedLines
