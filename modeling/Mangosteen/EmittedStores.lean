import Mangosteen.CombinerGate
import Mangosteen.ThreadMemory

namespace Mangosteen.EmittedStores

open RegisterMachine StateTransition Relation LineCollector CollectorRuns CollectedLines

section Frame

variable {b : Build}

/-- Cells differ in the table and in its counter only. -/
def OnlyTable (lay : Layout b) (m m' : Word → Word) : Prop :=
  ∀ a, a ≠ lay.counter → (∀ i < b.hashSetSize, a ≠ lay.slot i) → m' a = m a

/-- A point of the code, in terms of the table, with the rest of the memory as it
was. -/
def PointFrom (lay : Layout b) (m₀ : Word → Word) (gate c₀ : Word) (e : Env)
    (pc : Nat) (d p r a : Word) (s : (Nat → Word) × Nat) (σ : State Reg Env) : Prop :=
  ∃ m, Holds lay gate s.1 (c₀ + BitVec.ofNat 64 s.2) m ∧ OnlyTable lay m₀ m ∧
    At pc d p r a lay.counter (c₀ + BitVec.ofNat 64 s.2) m e σ

variable {size : Nat} {e : Env} {lay : Layout b} {gate c₀ line r : Word} {s s' : (Nat → Word) × Nat}
  {m₀ m : Word → Word}

theorem OnlyTable.refl (lay : Layout b) (m : Word → Word) : OnlyTable lay m m := fun _ _ _ => rfl

theorem OnlyTable.insert (h : OnlyTable lay m₀ m) {i : Nat} (hi : i < b.hashSetSize) (v w : Word) :
    OnlyTable lay m₀ (Function.update (Function.update m (lay.slot i) v) lay.counter w) := by
  intro a hc hs
  rw [Function.update_of_ne hc, Function.update_of_ne (hs i hi), h a hc hs]

theorem leads_seat_from (hb : Regular b) {i : Nat} (hi : i < b.hashSetSize)
    (h : s.1 i = 0 ∨ s.1 i = line) :
    Leads (listing b size)
    (PointFrom lay m₀ gate c₀ e 18 line lay.table r (BitVec.ofNat 64 (8 * i)) s)
      (PointFrom lay m₀ gate c₀ e 39 line (lay.slot i) r (BitVec.ofNat 64 (8 * i))
        (Function.update s.1 i line, if s.1 i = 0 then s.2 + 1 else s.2)) := by
  rintro σ ⟨m, hm, hframe, hσ⟩
  have hload : m (lay.table + BitVec.ofNat 64 (8 * i)) = s.1 i := hm.slots i hi
  by_cases hz : s.1 i = 0
  · have hcount : c₀ + BitVec.ofNat 64 s.2 + 1 = c₀ + BitVec.ofNat 64 (s.2 + 1) := by
      rw [BitVec.ofNat_add, BitVec.add_assoc]
      rfl
    obtain ⟨τ, hτ, hrun⟩ := leads_free (hload.trans hz) σ hσ
    rw [hcount] at hτ
    rw [if_pos hz]
    exact ⟨τ, ⟨_, hm.insert hb hi line _, hframe.insert hi line _, hτ⟩, hrun⟩
  · have hline := h.resolve_left hz
    obtain ⟨τ, hτ, hrun⟩ := leads_duplicate (by rw [hload]; exact hz) (hload.trans hline) σ hσ
    rw [if_neg hz, show Function.update s.1 i line = s.1 by rw [← hline, Function.update_eq_self]]
    exact ⟨τ, ⟨m, hm, hframe, hτ⟩, hrun⟩

theorem leads_taken_from (hb : Regular b) {i : Nat} (hi : i < b.hashSetSize)
    (hz : s.1 i ≠ 0) (h : s.1 i ≠ line) :
    Leads (listing b size)
    (PointFrom lay m₀ gate c₀ e 18 line lay.table r (BitVec.ofNat 64 (8 * i)) s)
      (PointFrom lay m₀ gate c₀ e 18 line lay.table r
        (BitVec.ofNat 64 (8 * OpenAddressing.next b.hashSetSize i)) s) := by
  rintro σ ⟨m, hm, hframe, hσ⟩
  have hload : m (lay.table + BitVec.ofNat 64 (8 * i)) = s.1 i := hm.slots i hi
  obtain ⟨τ, hτ, hrun⟩ := leads_next (by rw [hload]; exact hz) (by rw [hload]; exact h) σ hσ
  rw [next_index hb hi] at hτ
  exact ⟨τ, ⟨m, hm, hframe, hτ⟩, hrun⟩

theorem leads_probe_from (hb : Regular b) {fuel i j : Nat} (hi : i < b.hashSetSize)
    (h : OpenAddressing.probe b.hashSetSize 0 s.1 line fuel i = some j) :
    Leads (listing b size)
    (PointFrom lay m₀ gate c₀ e 18 line lay.table r (BitVec.ofNat 64 (8 * i)) s)
      (PointFrom lay m₀ gate c₀ e 39 line (lay.slot j) r (BitVec.ofNat 64 (8 * j))
        (Function.update s.1 j line, if s.1 j = 0 then s.2 + 1 else s.2)) := by
  induction fuel generalizing i with
  | zero => cases h
  | succ fuel ih =>
      rw [OpenAddressing.probe] at h
      split at h
      · rename_i hseat
        obtain rfl := Option.some.inj h
        exact leads_seat_from hb hi hseat
      · rename_i htaken
        obtain ⟨hz, hline⟩ := not_or.mp htaken
        exact (leads_taken_from hb hi hz hline).trans (ih (next_lt hb i) h)

theorem leads_record_from (hb : Regular b) (hlt : line.slt r = true)
    (h : OpenAddressing.record b.hashSetSize 0 (home b) line s = some s') :
    Leads (listing b size) (fun σ => ∃ a, PointFrom lay m₀ gate c₀ e 11 line lay.table r a s σ)
      (fun σ => ∃ a, PointFrom lay m₀ gate c₀ e 11 (line + imm32 b.payloadSize)
        lay.table r a s' σ) := by
  obtain ⟨j, hj, rfl⟩ := Option.map_eq_some_iff.mp h
  rintro σ ⟨a, m, hm, hframe, hσ⟩
  obtain ⟨τ, hτ, hrun⟩ := leads_home hlt σ hσ
  rw [home_index hb] at hτ
  obtain ⟨υ, ⟨m', hm', hframe', hυ⟩, hrun'⟩ :=
    leads_probe_from hb (home_lt hb line) hj τ ⟨m, hm, hframe, hτ⟩
  obtain ⟨ω, hω, hrun''⟩ := leads_remaining υ hυ
  rw [show lay.slot j - BitVec.ofNat 64 (8 * j) = lay.table from BitVec.add_sub_cancel _ _] at hω
  exact ⟨ω, ⟨_, m', hm', hframe', hω⟩, (TransGen.trans hrun hrun').trans hrun''⟩

theorem leads_recordLines_from (hb : Regular b) {start k finish : Nat} (hs : Spans b start k finish)
    (h : recordLines b (linesFrom b start k) s = some s') :
    Leads (listing b size)
      (fun σ => ∃ a, PointFrom lay m₀ gate c₀ e 11 (BitVec.ofNat 64 start) lay.table
        (BitVec.ofNat 64 finish) a s σ)
      (fun σ => Left lay gate c₀ e s' σ ∧ OnlyTable lay m₀ σ.mem) := by
  induction k generalizing start s with
  | zero =>
      obtain rfl := Option.some.inj h
      rintro σ ⟨a, m, hm, hframe, hσ⟩
      obtain ⟨τ, ⟨v, fl, rfl⟩, hrun⟩ := leads_end hs.not_slt σ hσ
      exact ⟨_, ⟨⟨rfl, rfl, hm⟩, hframe⟩, hrun⟩
  | succ k ih =>
      obtain ⟨s₁, h₁, hrest⟩ := Option.bind_eq_some_iff.mp h
      rintro σ hσ
      obtain ⟨τ, hτ, hrun⟩ := leads_record_from hb hs.slt h₁ σ hσ
      rw [payloadSize_next hb] at hτ
      obtain ⟨υ, hυ, hrun'⟩ := ih hs.tail hrest τ hτ
      exact ⟨υ, hυ, TransGen.trans hrun hrun'⟩

theorem mem_runStore_from {x : Store} {m : Memory} (hb : Regular b) (hpos : 0 < b.payloadSize)
    (hx : InBounds b x)
    (hgate : gate ≠ 0) (hm : Holds lay gate s.1 (c₀ + BitVec.ofNat 64 s.2) m.cells)
    (h : recordLines b (storedLines b x) s = some s') :
    ∃ m' ∈ runStore b lay x m, Holds lay gate s'.1 (c₀ + BitVec.ofNat 64 s'.2) m'.cells ∧
    OnlyTable lay m.cells m'.cells := by
  have hregs : Function.update x.regs .hashSetPointer lay.threadData .hashSetPointer =
      lay.threadData :=
    Function.update_self _ _ _
  obtain ⟨τ, ⟨a, hτ⟩, hrun⟩ :=
    @leads_open_at b x.size m.cells ⟨BitVec.ofNat 64 x.address, x.scratch, m.overflow⟩
    lay gate c₀ s _ x.flags hm hgate hregs
  have hstart : BitVec.ofNat 64 x.address &&& imm8 (alignmentValue b.payloadSize) =
      BitVec.ofNat 64 (alignedAddress b x.address) := by
    rw [alignedAddress, BitVec.ofNat_toNat, BitVec.setWidth_eq]
  rw [imm32_ofNat x.size_lt, ← BitVec.ofNat_add, hstart] at hτ
  obtain ⟨υ, ⟨⟨hpc, henv, hmem⟩, hframe⟩, hrun'⟩ :=
    leads_recordLines_from hb (spans_storedLines hpos hx) h τ
    ⟨a, _, hm, OnlyTable.refl lay m.cells, hτ⟩
  have hends := mem_eval_of_reaches (TransGen.trans hrun hrun').to_reflTransGen (by rw [hpc]; rfl)
  rw [← storeAddressInHashSet_eq hb.unchecked] at hends
  exact ⟨_, Part.mem_map _ hends, hmem, hframe⟩

end Frame

section Tables

variable {t : Nat → Nat} {count : Nat} {x : Store}

theorem insertLines_eq_recordAll (lines : List Nat) (data : Instrumentation.PerThread) :
    Instrumentation.insertLines lines data =
      (OpenAddressing.recordAll Instrumentation.hashSetSize 0 Instrumentation.homeSlot lines
        (data.hashSetEntries, data.numberOfHashSetEntries)).map fun s =>
          { data with hashSetEntries := s.1, numberOfHashSetEntries := s.2 } := by
  induction lines generalizing data with
  | nil => rfl
  | cons line lines ih =>
      rw [Instrumentation.insertLines, Instrumentation.insertLine, OpenAddressing.recordAll,
        OpenAddressing.record]
      cases OpenAddressing.probe Instrumentation.hashSetSize 0 data.hashSetEntries line
        Instrumentation.hashSetSize
          (Instrumentation.homeSlot line) with
      | none => rfl
      | some i => exact ih _

theorem injOn_ofNat : Set.InjOn (BitVec.ofNat 64) {k | k < 2 ^ 64} := by
  intro i hi j hj h
  have := congrArg BitVec.toNat h
  rwa [BitVec.toNat_ofNat, BitVec.toNat_ofNat, Nat.mod_eq_of_lt hi, Nat.mod_eq_of_lt hj] at this

theorem home_ofNat {line : Nat} (h : line < 2 ^ 64) :
    home shippedBuild (BitVec.ofNat 64 line) = Instrumentation.homeSlot line := by
  rw [home, BitVec.toNat_ofNat, Nat.mod_eq_of_lt h]
  rfl

theorem recordLines_eq (ht : ∀ i, t i < 2 ^ 64) {lines : List Nat}
    (hlines : ∀ line ∈ lines, line < 2 ^ 64) :
    recordLines shippedBuild lines (BitVec.ofNat 64 ∘ t, count) =
      (OpenAddressing.recordAll Instrumentation.hashSetSize 0 Instrumentation.homeSlot lines
        (t, count)).map fun s =>
        (BitVec.ofNat 64 ∘ s.1, s.2) :=
  @OpenAddressing.recordAll_map _ Instrumentation.hashSetSize 0 Instrumentation.homeSlot _ _
  _ (home shippedBuild)
    (BitVec.ofNat 64) {k | k < 2 ^ 64} (t, count) injOn_ofNat (Nat.two_pow_pos 64)
    (fun _ h => home_ofNat h) _ ht hlines

theorem linesFrom_eq (b : Build) (start k : Nat) :
    linesFrom b start k = (List.range k).map fun i => start + b.payloadSize * i := by
  induction k generalizing start with
  | zero => rfl
  | succ k ih =>
      rw [linesFrom, ih, List.range_succ_eq_map, List.map_cons, List.map_map]
      congr 1
      apply List.map_congr_left
      intro i _
      rw [Function.comp_apply, Nat.mul_succ]
      omega

theorem storedLines_eq (hx : InBounds shippedBuild x) :
    storedLines shippedBuild x = Instrumentation.coveredLines x.address x.size := by
  have hlt : x.address < 2 ^ 64 := by
    rw [InBounds] at hx
    omega
  have hle := Nat.mod_le x.address 32
  have hlines : x.address + x.size - (x.address - x.address % 32) + (32 - 1) = x.address % 32 +
      x.size + 32 - 1 := by omega
  rw [storedLines, alignedAddress_eq aligns_shippedBuild hlt, linesFrom_eq,
    Instrumentation.coveredLines]
  simp only [shippedBuild, Memory.payloadSize, hlines]

theorem lt_of_mem_coveredLines (hx : InBounds shippedBuild x) {line : Nat}
    (h : line ∈ Instrumentation.coveredLines x.address x.size) : line < 2 ^ 64 := by
  rw [← storedLines_eq hx, storedLines, mem_linesFrom] at h
  obtain ⟨i, hi, rfl⟩ := h
  have hlt := (spans_storedLines aligns_shippedBuild.pos hx).lt i hi
  rw [InBounds] at hx
  omega

end Tables

open CombinerGate ThreadMemory

/-- The fields of a thread, in the words of its memory. The count is an `int`, the
lower half of a word that the emitted code increments as a whole. -/
structure Represents (lay : Layout shippedBuild) (data : ThreadData) (m : Memory) : Prop where
  combiner_lt : data.combiner < 2 ^ 32
  padding_lt : data.padding < 2 ^ 32
  entries_lt : ∀ i, data.hashSetEntries i < 2 ^ 64
  copies : data.memcpyCount ≤ Instrumentation.maxNumOfMemcpy
  count : lowHalf (m.cells lay.counter) = BitVec.ofNat 32 data.numberOfHashSetEntries
  held : ∃ gate, lowHalf gate = BitVec.ofNat 32 data.combiner ∧
    highHalf gate = BitVec.ofNat 32 data.padding ∧
    Holds lay gate (BitVec.ofNat 64 ∘ data.hashSetEntries) (m.cells lay.counter) m.cells

/-- Cells differ in the flag, in the table and in its counter only. -/
def Elsewhere (lay : Layout shippedBuild) (m m' : Memory) : Prop :=
  ∀ a, a ≠ combinerField lay → a ≠ lay.counter → (∀ i < shippedBuild.hashSetSize, a ≠ lay.slot i) →
  m'.cells a = m.cells a

/-- What an event does to the fields of the thread. -/
def track (memory : Nat → UInt8) : Event → ThreadData → Option ThreadData
  | .start, data => some (start data)
  | .stop, data => (stop memory data).map Prod.snd
  | .reset, data => some (ThreadMemory.resetHashSet data)
  | .store x, data => storeAddress x.address x.size data

def trackAll (memory : Nat → UInt8) : List Event → ThreadData → Option ThreadData
  | [], data => some data
  | v :: vs, data => (track memory v data).bind (trackAll memory vs)

/-- The code ends exactly if there are fields for it to leave, which are then in
the memory that it leaves. -/
def Computes (lay : Layout shippedBuild) (m : Memory) (result : Part Memory) :
    Option ThreadData → Prop
  | some data => ∃ m' ∈ result, Represents lay data m' ∧ Elsewhere lay m m'
  | none => ¬ result.Dom

def Bounded : Event → Prop
  | .store x => InBounds shippedBuild x
  | .start | .stop | .reset => True

section Steps

variable {lay : Layout shippedBuild} {memory : Nat → UInt8} {data data' : ThreadData} {m : Memory}
  {v : Event} {x : Store}

theorem Elsewhere.refl (lay : Layout shippedBuild) (m : Memory) : Elsewhere lay m m :=
  fun _ _ _ _ => rfl

theorem Elsewhere.trans {m₀ m₁ m₂ : Memory} (h : Elsewhere lay m₀ m₁) (h' : Elsewhere lay m₁ m₂) :
    Elsewhere lay m₀ m₂ := by
  intro a hf hc hs
  rw [h' a hf hc hs, h a hf hc hs]

theorem OnlyTable.elsewhere {m' : Memory} (h : OnlyTable lay m.cells m'.cells) :
    Elsewhere lay m m' :=
  fun a _ hc hs => h a hc hs

theorem elsewhere_assignCombiner (w : BitVec 32) (m : Memory) :
    Elsewhere lay m (assignCombiner lay w m) := by
  intro a hf _ _
  simp only [assignCombiner]
  rw [Function.update_of_ne hf]

theorem Represents.gate_eq_zero (h : Represents lay data m) {gate : Word}
    (hl : lowHalf gate = BitVec.ofNat 32 data.combiner)
    (hh : highHalf gate = BitVec.ofNat 32 data.padding) :
    gate = 0 ↔ ThreadMemory.checkCombinerState data = 0 := by
  have hc := h.combiner_lt
  have hp := h.padding_lt
  have hlow := congrArg BitVec.toNat hl
  have hhigh := congrArg BitVec.toNat hh
  rw [BitVec.toNat_ofNat, Nat.mod_eq_of_lt hc] at hlow
  rw [BitVec.toNat_ofNat, Nat.mod_eq_of_lt hp] at hhigh
  rw [ThreadMemory.checkCombinerState]
  constructor
  · rintro rfl
    have hcombiner : data.combiner = 0 := hlow.symm
    have hpadding : data.padding = 0 := hhigh.symm
    rw [hcombiner, hpadding, Nat.mul_zero]
  · intro hz
    apply eq_zero_of_halves
    · rw [hl, show data.combiner = 0 by omega]
      rfl
    · rw [hh, show data.padding = 0 by omega]
      rfl

theorem lowHalf_count {c : Word} {n : Nat} (h : lowHalf c = BitVec.ofNat 32 n) (n' : Nat) :
    lowHalf (c - BitVec.ofNat 64 n + BitVec.ofNat 64 n') = BitVec.ofNat 32 n' := by
  have hn := congrArg BitVec.toNat h
  simp only [lowHalf, BitVec.extractLsb'_toNat, Nat.shiftRight_zero, BitVec.toNat_ofNat] at hn
  apply BitVec.eq_of_toNat_eq
  simp only [lowHalf, BitVec.extractLsb'_toNat, Nat.shiftRight_zero,
    BitVec.toNat_add, BitVec.toNat_sub, BitVec.toNat_ofNat]
  omega

theorem counter_assignCombiner (w : BitVec 32) (m : Memory) :
    (assignCombiner lay w m).cells lay.counter = m.cells lay.counter := by
  have hne : lay.counter ≠ combinerField lay := fun he =>
    lay.field_ne_counter (combinerOffset shippedBuild) (by simp [fieldOffsets]) he.symm
  simp only [assignCombiner]
  rw [Function.update_of_ne hne]

theorem counter_clearTable (m : Memory) :
    (clearTable shippedBuild.hashSetSize lay.table m).cells lay.counter = m.cells lay.counter :=
  clearTable_of_ne fun i hi => (lay.slot_ne_counter i hi).symm

theorem Represents.assignCombiner (h : Represents lay data m) {v : Nat} (hv : v < 2 ^ 32) :
    Represents lay { data with combiner := v } (assignCombiner lay (BitVec.ofNat 32 v) m) := by
  obtain ⟨gate, -, hh, hm⟩ := h.held
  have hcounter : (CombinerGate.assignCombiner lay (BitVec.ofNat 32 v) m).cells lay.counter =
      m.cells lay.counter :=
    counter_assignCombiner _ m
  refine ⟨hv, h.padding_lt, h.entries_lt, h.copies, ?_, _, lowHalf_setInt _ _,
    (highHalf_setInt _ _).trans hh, ?_⟩
  · rw [hcounter, h.count]
  · rw [hcounter]
    exact holds_assignCombiner hm _

theorem Represents.resetHashSet (h : Represents lay data m) :
    Represents lay (ThreadMemory.resetHashSet data) (CombinerGate.resetHashSet lay m) ∧
      Elsewhere lay m (CombinerGate.resetHashSet lay m) := by
  obtain ⟨gate, -, hh, hm⟩ := h.held
  have hflag := holds_assignCombiner hm 0
  have hcounter :=
    (counter_clearTable (CombinerGate.assignCombiner lay 0 m)).trans (counter_assignCombiner 0 m)
  rw [CombinerGate.resetHashSet, hflag.tablePointer]
  constructor
  · refine ⟨Nat.two_pow_pos 32, h.padding_lt, fun _ => Nat.two_pow_pos 64, h.copies, ?_,
      _, lowHalf_setInt _ _, (highHalf_setInt _ _).trans hh, ?_⟩
    · rw [hcounter]
      exact h.count
    · rw [hcounter]
      exact holds_clear hflag
  · apply (elsewhere_assignCombiner 0 m).trans
    exact fun _ _ _ hs => clearTable_of_ne hs

theorem track_stop (memory : Nat → UInt8) (h : Represents lay data m) :
    ∃ data', track memory .stop data = some data' ∧ Represents lay data' (instrumentStop lay m) ∧
      Elsewhere lay m (instrumentStop lay m) := by
  obtain ⟨hreset, hframe⟩ := h.resetHashSet
  obtain ⟨gate, hl, hh, hm⟩ := hreset.held
  have hpointer := hm.counterPointer
  have hset : (instrumentStop lay m).cells lay.counter =
      setInt ((CombinerGate.resetHashSet lay m).cells lay.counter) 0 := by
    rw [← hpointer]
    exact Function.update_self _ _ _
  refine ⟨{ ThreadMemory.resetHashSet data with numberOfHashSetEntries := 0, memcpyCount := 0 }, ?_,
    ?_, ?_⟩
  · rw [track, stop, if_pos h.copies]
    rfl
  · refine ⟨hreset.combiner_lt, hreset.padding_lt, hreset.entries_lt, Int.natCast_nonneg _,
      ?_, gate, hl, hh, ?_⟩
    · rw [hset, lowHalf_setInt]
      rfl
    · have hcounter :=
        holds_setCounter hm (setInt ((CombinerGate.resetHashSet lay m).cells lay.counter) 0)
      rw [hset]
      rw [← hpointer] at hcounter ⊢
      exact hcounter
  · apply hframe.trans
    intro a _ hc _
    rw [← hpointer] at hc
    exact Function.update_of_ne hc _ _

theorem storeAddress_open (h : ThreadMemory.checkCombinerState data ≠ 0) (addr size : Nat) :
    storeAddress addr size data =
      (OpenAddressing.recordAll Instrumentation.hashSetSize 0 Instrumentation.homeSlot
        (Instrumentation.coveredLines addr size)
        (data.hashSetEntries, data.numberOfHashSetEntries)).map fun s =>
          { data with hashSetEntries := s.1, numberOfHashSetEntries := s.2 } := by
  rw [storeAddress, if_neg h, storeLines, insertLines_eq_recordAll, Option.map_map]
  rfl

/-- The code before a store ends exactly where the probe loops do, with the same
table. -/
theorem track_store (h : Represents lay data m) (hx : InBounds shippedBuild x) :
    Computes lay m (runStore shippedBuild lay x m) (storeAddress x.address x.size data) := by
  obtain ⟨gate, hl, hh, hm⟩ := h.held
  rw [← BitVec.sub_add_cancel (m.cells lay.counter) (BitVec.ofNat 64 data.numberOfHashSetEntries)]
    at hm
  have hgate := h.gate_eq_zero hl hh
  by_cases hz : gate = 0
  · rw [storeAddress, if_pos (hgate.mp hz), runStore_closed regular_shippedBuild
      (hm.combiner.trans hz)]
    exact ⟨m, Part.mem_some m, h, Elsewhere.refl lay m⟩
  · have hlt : ∀ line ∈ Instrumentation.coveredLines x.address x.size, line < 2 ^ 64 :=
      fun _ => lt_of_mem_coveredLines hx
    have hrecord :=
      @recordLines_eq data.hashSetEntries data.numberOfHashSetEntries h.entries_lt _ hlt
    rw [← storedLines_eq hx] at hrecord
    rw [storeAddress_open (mt hgate.mpr hz), ← storedLines_eq hx]
    cases hr : OpenAddressing.recordAll Instrumentation.hashSetSize 0 Instrumentation.homeSlot
      (storedLines shippedBuild x)
        (data.hashSetEntries, data.numberOfHashSetEntries) with
    | none =>
        rw [hr] at hrecord
        exact not_dom_runStore regular_shippedBuild aligns_shippedBuild.pos hx hz hm hrecord
    | some s =>
        rw [hr] at hrecord
        obtain ⟨m', hm', hholds, honly⟩ :=
          mem_runStore_from regular_shippedBuild aligns_shippedBuild.pos hx hz hm hrecord
        have hentries : ∀ i, s.1 i < 2 ^ 64 :=
          OpenAddressing.recordAll_range h.entries_lt (by rw [storedLines_eq hx]; exact hlt) hr
        refine ⟨m', hm', ⟨h.combiner_lt, h.padding_lt, hentries, h.copies, ?_, gate, hl, hh, ?_⟩,
          honly.elsewhere⟩
        · rw [hholds.counter]
          exact lowHalf_count h.count s.2
        · rw [hholds.counter]
          exact hholds

theorem track_event (memory : Nat → UInt8) (h : Represents lay data m) (hv : Bounded v) :
    Computes lay m (perform lay v m) (track memory v data) := by
  cases v with
  | start =>
      have hone : (1 : Nat) < 2 ^ 32 := by decide
      exact ⟨_, Part.mem_some _, h.assignCombiner hone, elsewhere_assignCombiner 1 m⟩
  | reset =>
      exact ⟨_, Part.mem_some _, h.resetHashSet⟩
  | stop =>
      obtain ⟨data', htrack, hstop⟩ := track_stop memory h
      rw [htrack]
      exact ⟨_, Part.mem_some _, hstop⟩
  | store x => exact track_store h hv

theorem track_events (memory : Nat → UInt8) {vs : List Event} (h : Represents lay data m)
    (hvs : ∀ v ∈ vs, Bounded v) :
    Computes lay m (performAll lay vs m) (trackAll memory vs data) := by
  induction vs generalizing data m with
  | nil => exact ⟨m, Part.mem_some m, h, Elsewhere.refl lay m⟩
  | cons v vs ih =>
      have hevent := track_event memory h (hvs v (by simp))
      rw [trackAll]
      cases hv : track memory v data with
      | none =>
          rw [hv] at hevent
          exact fun hd => hevent hd.1
      | some data₁ =>
          rw [hv] at hevent
          obtain ⟨m₁, hm₁, h₁, hframe⟩ := hevent
          have hrest := ih h₁ fun w hw => hvs w (by simp [hw])
          rw [Option.bind_some, performAll, Part.eq_some_iff.mpr hm₁, Part.bind_some]
          cases hrun : trackAll memory vs data₁ with
          | none =>
              rw [hrun] at hrest
              exact hrest
          | some data' =>
              rw [hrun] at hrest
              obtain ⟨m', hm', h', hframe'⟩ := hrest
              exact ⟨m', hm', h', hframe.trans hframe'⟩

theorem represents_eventThreadInit (hpad : data.padding = (padding lay m).toNat)
    (hcount : data.numberOfHashSetEntries = (lowHalf (m.cells lay.counter)).toNat)
    (hcopies : data.memcpyCount ≤ Instrumentation.maxNumOfMemcpy) :
    Represents lay (ThreadMemory.eventThreadInit data) (CombinerGate.eventThreadInit lay m) := by
  have hholds : Holds lay _ (fun _ => 0) (m.cells lay.counter)
      (CombinerGate.eventThreadInit lay m).cells :=
    holds_eventThreadInit m
  refine ⟨Nat.two_pow_pos 32, hpad ▸ (padding lay m).isLt, fun _ => Nat.two_pow_pos 64, hcopies, ?_,
    setInt (m.cells (combinerField lay)) 0, lowHalf_setInt _ 0, ?_, ?_⟩
  · rw [hholds.counter, ThreadMemory.eventThreadInit, hcount,
      BitVec.ofNat_toNat, BitVec.setWidth_eq]
  · rw [highHalf_setInt, ThreadMemory.eventThreadInit, hpad, BitVec.ofNat_toNat, BitVec.setWidth_eq]
    rfl
  · rw [hholds.counter]
    exact hholds

end Steps

/-- The code emitted before stores is, over every run of a thread, the hash set
of its transactions: it ends where the set has room, it leaves the same table and
count, and it writes to no cell but the flag, the table and the counter. What the
padding and the count hold before they are first set is part of the data. -/
theorem emitted_code_refines (lay : Layout shippedBuild) (memory : Nat → UInt8)
    (m : Memory) (data : ThreadData) (hpad : data.padding = (padding lay m).toNat)
    (hcount : data.numberOfHashSetEntries = (lowHalf (m.cells lay.counter)).toNat)
    (hcopies : data.memcpyCount ≤ Instrumentation.maxNumOfMemcpy)
    (vs : List Event) (hvs : ∀ v ∈ vs, Bounded v) :
    Computes lay (CombinerGate.eventThreadInit lay m)
    (performAll lay vs (CombinerGate.eventThreadInit lay m))
      (trackAll memory vs (ThreadMemory.eventThreadInit data)) :=
  track_events memory (represents_eventThreadInit hpad hcount hcopies) hvs

/-- A thread whose memory was zero. -/
def fresh : ThreadData := ⟨0, 0, fun _ => 0, 0, 0, fun _ => ⟨0, 0⟩⟩

theorem bounded_transaction : ∀ v ∈ [Event.start, .store (wordStore 4096), .stop], Bounded v := by
  simp only [List.mem_cons, List.not_mem_nil, or_false, forall_eq_or_imp, forall_eq,
    Bounded, true_and, and_true]
  exact (inRange_wordStore (by decide) (by decide)).bound

theorem emitted_code_refines_store :
    Computes lowLayout (CombinerGate.eventThreadInit lowLayout ⟨fun _ => 0, []⟩)
      (performAll lowLayout [.start, .store (wordStore 4096), .stop]
        (CombinerGate.eventThreadInit lowLayout ⟨fun _ => 0, []⟩))
      (trackAll (fun _ => 0) [.start, .store (wordStore 4096), .stop]
        (ThreadMemory.eventThreadInit fresh)) :=
  emitted_code_refines lowLayout (fun _ => 0) ⟨fun _ => 0, []⟩ fresh rfl rfl (Int.natCast_nonneg _)
  _ bounded_transaction

end Mangosteen.EmittedStores
