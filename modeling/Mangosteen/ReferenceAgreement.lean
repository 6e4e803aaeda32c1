import Mangosteen.CollectedLines
import Mangosteen.HashSet

namespace Mangosteen.ReferenceAgreement

open RegisterMachine LineCollector CollectorRuns CollectedLines HashSet

/-- The writes one after the other. -/
def addRedoLogStubs (c : Coverage) : List Store → AddressHashSet → Option AddressHashSet
  | [], s => some s
  | x :: xs, s => (addRedoLogStub s c x.address x.size).bind (addRedoLogStubs c xs)

/-- Both versions come to an end with the same slots and the same number of
entries. -/
def Agrees (c : Coverage) (b : Build) (lay : Layout b) (xs : List Store) (m : Memory) : Prop :=
  ∃ h, addRedoLogStubs c xs (initialise b.hashSetSize 1) = some h ∧ ∃ m' ∈ runStores b lay xs m,
    (∀ i < b.hashSetSize, m'.cells (lay.slot i) = h.setOfEntries i) ∧
      m'.cells lay.counter = BitVec.ofNat 64 h.stats.numberOfEntries

/-- Writes to user memory, not to its first line. -/
structure Covered (c : Coverage) (x : Store) : Prop where
  address : c.size ≤ x.address
  bound : x.address + x.size < 2 ^ 47

/-- The address that the mask of the C version leaves. -/
def maskedAddress (c : Coverage) (address : Nat) : Nat :=
  (BitVec.ofNat 64 address &&& bitmask c).toNat

/-- The lines that the C version visits. -/
def coveredLines (b : Build) (c : Coverage) (x : Store) : List Nat :=
  linesFrom b (maskedAddress c x.address)
    ((x.address + x.size - maskedAddress c x.address + (b.payloadSize - 1)) / b.payloadSize)

section Reference

variable {c : Coverage} {b : Build} {s s' h : AddressHashSet} {x : Store} {xs ys : List Store}

theorem coverage_eq (c : Coverage) : c.size = 2 ^ c.maskShift := by cases c <;> rfl

theorem toNat_bitmask (c : Coverage) : (bitmask c).toNat = 2 ^ 64 - 2 ^ c.maskShift := by
  cases c <;> rfl

theorem maskedAddress_eq (c : Coverage) {address : Nat} (h : address < 2 ^ 64) :
    maskedAddress c address = address - address % c.size := by
  have hshift : c.maskShift ≤ 64 := by cases c <;> decide
  rw [maskedAddress, BitVec.toNat_and, BitVec.toNat_ofNat, Nat.mod_eq_of_lt h, toNat_bitmask,
    and_high_bits hshift h, coverage_eq]

theorem Covered.masked (hx : Covered c x) :
    maskedAddress c x.address = x.address - x.address % c.size := by
  have hbound := hx.bound
  exact maskedAddress_eq c (by omega)

theorem Covered.inBounds (hx : Covered c x) (hc : b.payloadSize = c.size) : InBounds b x := by
  have hbound := hx.bound
  have hsize : c.size ≤ 256 := by cases c <;> decide
  rw [InBounds, hc]
  omega

theorem payloadSize_pos (hc : b.payloadSize = c.size) : 0 < b.payloadSize := by
  rw [hc, coverage_eq]
  exact Nat.two_pow_pos _

theorem Covered.spans (hx : Covered c x) (hc : b.payloadSize = c.size) :
    Spans b (maskedAddress c x.address)
      ((x.address + x.size - maskedAddress c x.address + (b.payloadSize - 1)) / b.payloadSize)
      (x.address + x.size) := by
  refine spans_linesFrom (payloadSize_pos hc) (hx.inBounds hc) ?_
  rw [hx.masked]
  exact Nat.sub_le _ _

/-- A set that has the size of the table and was never resized. -/
structure Fits (b : Build) (s : AddressHashSet) : Prop where
  size : s.size = b.hashSetSize
  resizes : s.stats.numberOfResizes = 0

theorem insert_record (hb : Regular b) (hs : Fits b s) {w : Word}
    (h : insertAlignedBlockAddress s w = some s') :
    Fits b s' ∧ OpenAddressing.record b.hashSetSize 0 (home b) w s.contents = some s'.contents := by
  have hframe := insertAlignedBlockAddress_framed h
  have hcontents := @insertAlignedBlockAddress_contents s w (by rw [hs.size]; exact hb.pos)
  rw [h, hs.size] at hcontents
  exact ⟨⟨hframe.size.trans hs.size, hframe.resizes.trans hs.resizes⟩, hcontents.symm⟩

theorem addLines_record (hb : Regular b) (hc : b.payloadSize = c.size) {k start finish : Nat}
    (hspan : Spans b start k finish)
    (hs : Fits b s) (h : addLines c finish start s = some s')
    (hnone : s'.stats.numberOfResizes = 0) :
    Fits b s' ∧ recordLines b (linesFrom b start k) s.contents = some s'.contents := by
  induction k generalizing start s with
  | zero =>
      have hle := hspan.le
      rw [addLines, if_neg (by omega)] at h
      obtain rfl := Option.some.inj h
      exact ⟨hs, rfl⟩
  | succ k ih =>
      have hlt := hspan.lt 0 (Nat.succ_pos k)
      rw [addLines, if_pos (by omega)] at h
      obtain ⟨s₁, h₁, hbody⟩ := Option.bind_eq_some_iff.mp h
      obtain ⟨s₂, h₂, hloop⟩ := Option.bind_eq_some_iff.mp hbody
      have hmono := (addLines_counts hloop).1
      rw [(insertAlignedBlockAddress_framed h₂).resizes] at hmono
      split at h₁
      · rw [(resize_counts h₁).1] at hmono
        omega
      · obtain rfl := Option.some.inj h₁
        obtain ⟨hs₂, hrec⟩ := insert_record hb hs h₂
        rw [← hc] at hloop
        obtain ⟨hs', hrest⟩ := ih hspan.tail hs₂ hloop
        exact ⟨hs', Option.bind_eq_some_iff.mpr ⟨s₂.contents, hrec, hrest⟩⟩

theorem addRedoLogStubs_resizes (h : addRedoLogStubs c xs s = some s') :
    s.stats.numberOfResizes ≤ s'.stats.numberOfResizes := by
  induction xs generalizing s with
  | nil =>
      obtain rfl := Option.some.inj h
      exact le_rfl
  | cons x xs ih =>
      obtain ⟨s₁, h₁, hrest⟩ := Option.bind_eq_some_iff.mp h
      exact (addLines_counts h₁).1.trans (ih hrest)

theorem addRedoLogStubs_record (hb : Regular b) (hc : b.payloadSize = c.size)
    (hx : ∀ x ∈ xs, Covered c x) (hs : Fits b s)
    (h : addRedoLogStubs c xs s = some s') (hnone : s'.stats.numberOfResizes = 0) :
    recordLines b (xs.flatMap (coveredLines b c)) s.contents = some s'.contents := by
  induction xs generalizing s with
  | nil =>
      obtain rfl := Option.some.inj h
      rfl
  | cons x xs ih =>
      obtain ⟨s₁, h₁, hrest⟩ := Option.bind_eq_some_iff.mp h
      have hmono := addRedoLogStubs_resizes hrest
      obtain ⟨hs₁, hrec⟩ := addLines_record hb hc ((hx x (by simp)).spans hc) hs h₁ (by omega)
      rw [List.flatMap_cons, recordLines_append]
      exact Option.bind_eq_some_iff.mpr ⟨_, hrec, ih (fun y hy => hx y (by simp [hy])) hs₁ hrest⟩

theorem addRedoLogStubs_append (c : Coverage) (xs ys : List Store) (s : AddressHashSet) :
    addRedoLogStubs c (xs ++ ys) s = (addRedoLogStubs c xs s).bind (addRedoLogStubs c ys) := by
  induction xs generalizing s with
  | nil => rfl
  | cons x xs ih =>
      rw [List.cons_append, addRedoLogStubs, addRedoLogStubs]
      cases addRedoLogStub s c x.address x.size with
      | none => rfl
      | some s₁ => exact ih s₁

theorem exists_prefix (hys : ys <+: xs) (h : addRedoLogStubs c xs s = some s')
    (hnone : s'.stats.numberOfResizes = 0) :
    ∃ s₁, addRedoLogStubs c ys s = some s₁ ∧ s₁.stats.numberOfResizes = 0 := by
  obtain ⟨zs, rfl⟩ := hys
  rw [addRedoLogStubs_append] at h
  obtain ⟨s₁, h₁, hrest⟩ := Option.bind_eq_some_iff.mp h
  have hmono := addRedoLogStubs_resizes hrest
  exact ⟨s₁, h₁, by omega⟩

theorem fits_initialise (b : Build) : Fits b (initialise b.hashSetSize 1) := ⟨rfl, rfl⟩

end Reference

section Agreement

variable {c : Coverage} {b : Build} {lay : Layout b} {gate : Word} {m : Memory}
  {x : Store} {xs : List Store}
variable {h : AddressHashSet}

theorem holds_zero (hm : Holds lay gate (fun _ => 0) 0 m.cells) :
    Holds lay gate (fun _ => 0) (0 + BitVec.ofNat 64 0) m.cells := by
  rw [BitVec.add_zero]
  exact hm

theorem coveredLines_eq (hc : b.payloadSize = c.size) (hne : c ≠ .bytes256) (hx : Covered c x) :
    coveredLines b c x = storedLines b x := by
  have halign : Aligns b := by
    rw [Aligns, hc]
    cases c with
    | bytes64 => decide
    | bytes128 => decide
    | bytes256 => exact absurd rfl hne
  have hbound := hx.bound
  rw [coveredLines, storedLines, hx.masked, ← hc, alignedAddress_eq halign (by omega)]

theorem agrees_of_ne (hb : Regular b) (hc : b.payloadSize = c.size) (hgate : gate ≠ 0)
    (hm : Holds lay gate (fun _ => 0) 0 m.cells) (hne : c ≠ .bytes256) (hx : ∀ x ∈ xs, Covered c x)
    (hrun : addRedoLogStubs c xs (initialise b.hashSetSize 1) = some h)
    (hnone : h.stats.numberOfResizes = 0) : Agrees c b lay xs m := by
  have hrec := addRedoLogStubs_record hb hc hx (fits_initialise b) hrun hnone
  have hlines : xs.flatMap (coveredLines b c) = xs.flatMap (storedLines b) := by
    rw [List.flatMap_def, List.flatMap_def, List.map_congr_left fun x hxs =>
      coveredLines_eq hc hne (hx x hxs)]
  rw [hlines] at hrec
  obtain ⟨m', hm', hholds, -⟩ :=
    mem_runStores hb (payloadSize_pos hc) (fun x hxs => (hx x hxs).inBounds hc) hgate
    (holds_zero hm) hrec
  refine ⟨h, hrun, m', hm', hholds.slots, ?_⟩
  rw [hholds.counter]
  exact BitVec.zero_add _

theorem alignedAddress_bytes256 (hc : b.payloadSize = Coverage.bytes256.size) (address : Nat) :
    alignedAddress b address = 0 := by
  rw [alignedAddress, hc]
  simp [Coverage.size, alignmentValue, imm8]

theorem length_linesFrom (b : Build) (start k : Nat) : (linesFrom b start k).length = k := by
  induction k generalizing start with
  | zero => rfl
  | succ k ih => rw [linesFrom, List.length_cons, ih]

theorem line_pos (hc : b.payloadSize = c.size) (hx : Covered c x) {line : Nat}
    (h : line ∈ coveredLines b c x) : 0 < line ∧ line < 2 ^ 63 := by
  have hbound := hx.bound
  have haddress := hx.address
  have hlt := (hx.spans hc).lt
  rw [coveredLines, mem_linesFrom] at h
  obtain ⟨i, hi, rfl⟩ := h
  have hmod := Nat.mod_lt x.address (payloadSize_pos hc)
  have hmod_le := Nat.mod_add_div x.address c.size
  refine ⟨?_, (hlt i hi).trans (by omega)⟩
  have hstart : 0 < maskedAddress c x.address := by
    rw [hx.masked]
    rw [hc] at hmod
    omega
  omega

theorem coveredLines_subset (hc : b.payloadSize = Coverage.bytes256.size)
    (hx : Covered .bytes256 x) {line : Nat}
    (h : line ∈ coveredLines b .bytes256 x) : line ∈ storedLines b x := by
  have hspan := spans_storedLines (payloadSize_pos hc) (hx.inBounds hc)
  have hlt := (hx.spans hc).lt
  rw [coveredLines, mem_linesFrom] at h
  obtain ⟨i, hi, rfl⟩ := h
  have hline := hlt i hi
  have hle := hspan.le
  rw [alignedAddress_bytes256 hc] at hle
  rw [storedLines, mem_linesFrom, alignedAddress_bytes256 hc]
  rw [hx.masked, hc] at hline ⊢
  rw [hc] at hle
  simp only [Coverage.size] at hline hle ⊢
  exact ⟨x.address / 256 + i, by omega, by omega⟩

theorem zero_mem_storedLines (hc : b.payloadSize = Coverage.bytes256.size)
    (hx : Covered .bytes256 x) : 0 ∈ storedLines b x := by
  have haddress := hx.address
  rw [storedLines, mem_linesFrom, alignedAddress_bytes256 hc]
  rw [hc]
  simp only [Coverage.size] at haddress ⊢
  exact ⟨0, by omega, rfl⟩

/-- The emitted code counts the line zero, and all lines that the C version
counts. -/
theorem count_lt (hb : Regular b) (hc : b.payloadSize = Coverage.bytes256.size)
    (hx : Covered .bytes256 x)
    {s s' : (Nat → Word) × Nat} (hs : recordLines b (storedLines b x) (fun _ => 0, 0) = some s)
    (hs' : recordLines b (coveredLines b .bytes256 x) (fun _ => 0, 0) = some s') :
    s'.2 < s.2 ∧ s.2 < 2 ^ 64 := by
  have hhold := (holding_start b).recordAll hb.pos (home_lt hb) hs
  have hhold' := (holding_start b).recordAll hb.pos (home_lt hb) hs'
  have hzero : 0 < ((storedLines b x).map (BitVec.ofNat 64)).count 0 :=
    List.count_pos_iff.mpr (List.mem_map.mpr ⟨0, zero_mem_storedLines hc hx, rfl⟩)
  have hzero' : ((coveredLines b .bytes256 x).map (BitVec.ofNat 64)).count 0 = 0 := by
    apply List.count_eq_zero_of_not_mem
    intro hmem
    obtain ⟨line, hline, he⟩ := List.mem_map.mp hmem
    exact ofNat_ne_zero (line_pos hc hx hline) he
  have hsub : ((coveredLines b .bytes256 x).map (BitVec.ofNat 64)).toFinset.erase 0 ⊆
      ((storedLines b x).map (BitVec.ofNat 64)).toFinset.erase 0 := by
    apply Finset.erase_subset_erase
    intro w hw
    obtain ⟨line, hline, rfl⟩ := List.mem_map.mp (List.mem_toFinset.mp hw)
    exact List.mem_toFinset.mpr (List.mem_map.mpr ⟨line, coveredLines_subset hc hx hline, rfl⟩)
  have hcard := Finset.card_le_card hsub
  have hlength : ((storedLines b x).map (BitVec.ofNat 64)).count 0 ≤ x.address + x.size + 255 := by
    refine List.count_le_length.trans ?_
    rw [List.length_map, storedLines, length_linesFrom, alignedAddress_bytes256 hc, hc]
    exact Nat.div_le_self _ _
  have hroom := hhold.card_le
  have hfits := hb.fits
  have hreal := hb.real
  have hbound := hx.bound
  rw [hhold.count, hhold'.count, hzero']
  rw [Finset.empty_union] at hroom ⊢
  rw [Finset.empty_union]
  omega

theorem not_agrees (hb : Regular b) (hc : b.payloadSize = Coverage.bytes256.size) (hgate : gate ≠ 0)
    (hm : Holds lay gate (fun _ => 0) 0 m.cells) (hx : Covered .bytes256 x)
    (hrun : addRedoLogStubs .bytes256 [x] (initialise b.hashSetSize 1) = some h)
    (hnone : h.stats.numberOfResizes = 0) : ¬ Agrees .bytes256 b lay [x] m := by
  rintro ⟨h', hrun', m', hm', -, hcounter⟩
  obtain rfl := Option.some.inj (hrun.symm.trans hrun')
  have hxs : ∀ y ∈ [x], Covered .bytes256 y := by
    intro y hy
    rw [List.mem_singleton.mp hy]
    exact hx
  have hrec := addRedoLogStubs_record hb hc hxs (fits_initialise b) hrun hnone
  have hin : ∀ y ∈ [x], InBounds b y := fun y hy => (hxs y hy).inBounds hc
  cases hs : recordLines b ([x].flatMap (storedLines b)) (fun _ => 0, 0) with
  | none =>
      exact not_dom_runStores hb (payloadSize_pos hc) hin hgate (holds_zero hm) hs
        (Part.dom_iff_mem.mpr ⟨m', hm'⟩)
  | some s =>
      obtain ⟨m₁, hm₁, hholds, -⟩ :=
        mem_runStores hb (payloadSize_pos hc) hin hgate (holds_zero hm) hs
      rw [List.flatMap_singleton] at hs hrec
      obtain ⟨hlt, hbound⟩ := count_lt hb hc hx hs hrec
      rw [Part.mem_unique hm' hm₁, hholds.counter] at hcounter
      have heq := congrArg BitVec.toNat ((BitVec.zero_add _).symm.trans hcounter)
      have hentries : h.contents.2 = h.stats.numberOfEntries := rfl
      rw [BitVec.toNat_ofNat, BitVec.toNat_ofNat, Nat.mod_eq_of_lt hbound,
        Nat.mod_eq_of_lt (by omega)] at heq
      omega

end Agreement

/-- The emitted code and its reference agree at every point of a run that does not
resize the set, unless a line has 256 bytes and there is a write. -/
theorem reference_agrees (c : Coverage) (b : Build) (hb : Regular b) (hc : b.payloadSize = c.size)
    (lay : Layout b) (gate : Word)
    (hgate : gate ≠ 0) (m : Memory) (hm : Holds lay gate (fun _ => 0) 0 m.cells) (xs : List Store)
    (hx : ∀ x ∈ xs, Covered c x) (h : AddressHashSet)
    (hrun : addRedoLogStubs c xs (initialise b.hashSetSize 1) = some h)
    (hnone : h.stats.numberOfResizes = 0) :
    (∀ ys, ys <+: xs → Agrees c b lay ys m) ↔ c ≠ .bytes256 ∨ xs = [] := by
  constructor
  · intro hall
    by_contra hnot
    obtain ⟨hc256, hne⟩ := not_or.mp hnot
    obtain rfl : c = .bytes256 := not_not.mp hc256
    obtain ⟨x, xs, rfl⟩ := List.exists_cons_of_ne_nil hne
    have hfirst : [x] <+: x :: xs := ⟨xs, rfl⟩
    obtain ⟨s₁, hs₁, hnone₁⟩ := exists_prefix hfirst hrun hnone
    exact not_agrees hb hc hgate hm (hx x (by simp)) hs₁ hnone₁ (hall _ hfirst)
  · rintro (hne | rfl) ys hys
    · obtain ⟨s₁, hs₁, hnone₁⟩ := exists_prefix hys hrun hnone
      exact agrees_of_ne hb hc hgate hm hne (fun x hxs => hx x (hys.subset hxs)) hs₁ hnone₁
    · obtain rfl := List.prefix_nil.mp hys
      exact ⟨_, rfl, m, Part.mem_some m, hm.slots, hm.counter⟩

section Small

/-- A table of eight slots. -/
def smallBuild (c : Coverage) : Build := ⟨c.size, 8, 64, false⟩

theorem regular_smallBuild (c : Coverage) : Regular (smallBuild c) := by
  refine ⟨rfl, ⟨3, rfl⟩, rfl, ?_, ?_⟩
  · cases c <;> decide
  · cases c <;> decide

theorem field_low_smallBuild {c : Coverage} {o : Word} (ho : o ∈ fieldOffsets (smallBuild c)) :
    ((4096 : Word) + o).toNat < 32768 := by
  simp only [fieldOffsets, List.mem_cons, List.not_mem_nil, or_false] at ho
  rcases ho with rfl | rfl | rfl
  · decide
  · decide
  · cases c <;> decide

theorem lt_hashSetSize {c : Coverage} {i : Nat} (hi : i < (smallBuild c).hashSetSize) :
    i < shippedBuild.hashSetSize :=
  lt_of_lt_of_le hi (by simp [smallBuild, shippedBuild])

def smallLayout (c : Coverage) : Layout (smallBuild c) where
  threadData := 4096
  table := 1048576
  counter := 32768
  slot_ne_counter _ hi := slot_ne_counter_low (lt_hashSetSize hi)
  field_ne_counter _ ho := ne_counter_low (field_low_smallBuild ho)
  field_ne_slot _ ho _ hi := ne_slot_low (field_low_smallBuild ho) (lt_hashSetSize hi)

def smallMemory (c : Coverage) : Memory where
  cells a :=
    if a = 4096 then 32768 else if a = 4104 then 1048576 else if a = 4096 + combinerOffset
      (smallBuild c) then 1 else 0
  overflow := []

theorem holds_smallMemory (c : Coverage) :
    Holds (smallLayout c) 1 (fun _ => 0) 0 (smallMemory c).cells := by
  constructor <;> cases c <;> decide

/-- A store of one byte. -/
def byteStore : Store := ⟨256, 1, by decide, fun _ => 0, none, 0⟩

theorem covered_byteStore (c : Coverage) : ∀ x ∈ [byteStore], Covered c x := by
  intro x hx
  rw [List.mem_singleton.mp hx]
  refine ⟨?_, by decide⟩
  cases c <;> decide

theorem exists_addRedoLogStubs (c : Coverage) :
    ∃ h, addRedoLogStubs c [byteStore] (initialise 8 1) = some h ∧ h.stats.numberOfResizes = 0 := by
  have hmax : (initialise 8 1).maxElementsBeforeResize = 8 := by simp [initialise]
  have hmask : (BitVec.ofNat 64 byteStore.address &&& bitmask c).toNat = 256 := by
    cases c <;> decide
  have hend : ¬ 256 + c.size < byteStore.address + byteStore.size := by cases c <;> decide
  have hempty : ¬ (initialise 8 1).stats.numberOfEntries =
      (initialise 8 1).maxElementsBeforeResize := by
    rw [hmax]
    decide
  obtain ⟨h, hins⟩ :
    ∃ h, insertAlignedBlockAddress (initialise 8 1) (BitVec.ofNat 64 256) = some h := ⟨_, rfl⟩
  refine ⟨h, ?_, (insertAlignedBlockAddress_framed hins).resizes⟩
  rw [addRedoLogStubs, addRedoLogStub, hmask, addLines, if_pos (by decide), if_neg hempty,
    Option.bind_some, hins, Option.bind_some, addLines, if_neg hend]
  rfl

end Small

theorem reference_agrees_byte :
    Agrees .bytes64 (smallBuild .bytes64) (smallLayout .bytes64) [byteStore]
    (smallMemory .bytes64) := by
  obtain ⟨h, hrun, hnone⟩ := exists_addRedoLogStubs .bytes64
  have hall :=
    (reference_agrees .bytes64 (smallBuild .bytes64) (regular_smallBuild _) rfl
      (smallLayout _) 1 (by decide) _
    (holds_smallMemory _) [byteStore] (covered_byteStore _) h hrun hnone).mpr (.inl (by decide))
  exact hall [byteStore] (List.prefix_refl _)

theorem not_reference_agrees : ¬ ∀ (c : Coverage) (xs : List Store), (∀ x ∈ xs, Covered c x) → ∀ h,
    addRedoLogStubs c xs (initialise 8 1) = some h → h.stats.numberOfResizes = 0 →
      Agrees c (smallBuild c) (smallLayout c) xs (smallMemory c) := by
  intro hall
  obtain ⟨h, hrun, hnone⟩ := exists_addRedoLogStubs .bytes256
  exact not_agrees (regular_smallBuild _) rfl (by decide) (holds_smallMemory _)
    (covered_byteStore _ _ (by simp)) hrun hnone
    (hall .bytes256 [byteStore] (covered_byteStore _) h hrun hnone)

end Mangosteen.ReferenceAgreement
