import Mathlib.Data.Rat.Floor
import Mangosteen.Library.OpenAddressing
import Mangosteen.Library.RegisterMachine

namespace Mangosteen.HashSet

open RegisterMachine (Word)

/-- The values of `HASH_SET_ADDRESS_COVERAGE` for which there is a `MASK_SHIFT`. -/
inductive Coverage
  | bytes64
  | bytes128
  | bytes256
  deriving DecidableEq

def Coverage.size : Coverage → Nat
  | .bytes64 => 64
  | .bytes128 => 128
  | .bytes256 => 256

def Coverage.maskShift : Coverage → Nat
  | .bytes64 => 6
  | .bytes128 => 7
  | .bytes256 => 8

structure Stats where
  numberOfEntries : Nat := 0
  numberOfCollisions : Nat := 0
  numberOfDuplicates : Nat := 0
  numberOfResizes : Nat := 0

structure AddressHashSet where
  size : Nat
  resizeThreshold : ℚ
  maxElementsBeforeResize : Nat
  stats : Stats := {}
  setOfEntries : Nat → Word := fun _ => 0
  lastUsedIndex : Nat := 0

def initialise (size : Nat) (resizeThreshold : ℚ) : AddressHashSet where
  size := size
  resizeThreshold := resizeThreshold
  maxElementsBeforeResize := ⌊size * resizeThreshold⌋₊

variable (s : AddressHashSet)

def elementIsInserted (index : Nat) (alignedAddress : Word) : Bool × AddressHashSet :=
  if s.setOfEntries index = 0 then
    (true, { s with
      setOfEntries := Function.update s.setOfEntries index alignedAddress
      stats := { s.stats with numberOfEntries := s.stats.numberOfEntries + 1 }
      lastUsedIndex := index })
  else
    (false,
      { s with stats := { s.stats with numberOfCollisions := s.stats.numberOfCollisions + 1 } })

def elementIsADuplicate (index : Nat) (alignedAddress : Word) : Bool × AddressHashSet :=
  if s.setOfEntries index = alignedAddress then
    (true,
      { s with stats := { s.stats with numberOfDuplicates := s.stats.numberOfDuplicates + 1 } })
  else (false, s)

def addressIsProcessed (index : Nat) (alignedAddress : Word) : Bool × AddressHashSet :=
  match elementIsInserted s index alignedAddress with
  | (true, s) => (true, s)
  | (false, s) => elementIsADuplicate s index alignedAddress

/-- The loop over the slots. A loop that has seen them all without an end has
none, and there is no result where an assertion fails. -/
def processFrom (alignedAddress : Word) : Nat → Nat → AddressHashSet → Option AddressHashSet
  | 0, _, _ => none
  | fuel + 1, index, s =>
      match addressIsProcessed s index alignedAddress with
      | (true, s) => some s
      | (false, s) =>
          if (index + 1) % s.size < s.size then
            processFrom alignedAddress fuel ((index + 1) % s.size) s else none

def insertAlignedBlockAddress (alignedAddress : Word) : Option AddressHashSet :=
  processFrom alignedAddress s.size (alignedAddress.toNat % s.size) s

/-- The elements of the old set, in the order of their slots. -/
def insertAll : List Word → AddressHashSet → Option AddressHashSet
  | [], s => some s
  | w :: ws, s => (if w = 0 then some s else insertAlignedBlockAddress s w).bind (insertAll ws)

def resize : Option AddressHashSet :=
  let resized := initialise (s.size * 2) s.resizeThreshold
  if resized.size = s.size * 2 ∧ (resized.maxElementsBeforeResize : ℚ) = (s.size * 2 : Nat) *
    s.resizeThreshold then insertAll ((List.range s.size).map s.setOfEntries) { resized with
      stats.numberOfResizes := s.stats.numberOfResizes + 1
      stats.numberOfCollisions := s.stats.numberOfCollisions
      stats.numberOfDuplicates := s.stats.numberOfDuplicates }
  else none

def bitmask (c : Coverage) : Word := BitVec.allOnes 64 <<< c.maskShift

/-- The loop over the lines of a write. -/
def addLines (c : Coverage) (range alignedAddress : Nat) (s : AddressHashSet) :
    Option AddressHashSet :=
  if alignedAddress < range then
    (if s.stats.numberOfEntries = s.maxElementsBeforeResize then resize s else some s).bind fun s =>
      (insertAlignedBlockAddress s (BitVec.ofNat 64 alignedAddress)).bind
        (addLines c range (alignedAddress + c.size))
  else some s
termination_by range - alignedAddress
decreasing_by
  cases c <;> simp only [Coverage.size] <;> omega

def addRedoLogStub (c : Coverage) (address size : Nat) : Option AddressHashSet :=
  addLines c (address + size) (BitVec.ofNat 64 address &&& bitmask c).toNat s

section Insert

variable {s} {s' : AddressHashSet} {w : Word}

/-- What the emitted code keeps of a set. -/
def AddressHashSet.contents (s : AddressHashSet) : (Nat → Word) × Nat :=
  (s.setOfEntries, s.stats.numberOfEntries)

/-- What an insertion does not change. A duplicate is counted as a collision
first. -/
structure Framed (s s' : AddressHashSet) : Prop where
  size : s'.size = s.size
  max : s'.maxElementsBeforeResize = s.maxElementsBeforeResize
  resizes : s'.stats.numberOfResizes = s.stats.numberOfResizes
  threshold : s'.resizeThreshold = s.resizeThreshold
  duplicates : s.stats.numberOfDuplicates ≤ s.stats.numberOfCollisions →
    s'.stats.numberOfDuplicates ≤ s'.stats.numberOfCollisions
  collisions : s.stats.numberOfCollisions ≤ s'.stats.numberOfCollisions

theorem Framed.refl (s : AddressHashSet) : Framed s s := ⟨rfl, rfl, rfl, rfl, id, le_rfl⟩

theorem Framed.trans {s'' : AddressHashSet} (h : Framed s s') (h' : Framed s' s'') : Framed s s'' :=
  ⟨h'.size.trans h.size, h'.max.trans h.max, h'.resizes.trans h.resizes,
    h'.threshold.trans h.threshold, h'.duplicates ∘ h.duplicates, h.collisions.trans h'.collisions⟩

section Slot

variable {index : Nat}

theorem addressIsProcessed_free (h : s.setOfEntries index = 0) : addressIsProcessed s index w =
    (true, { s with
      setOfEntries := Function.update s.setOfEntries index w
      stats := { s.stats with numberOfEntries := s.stats.numberOfEntries + 1 }
      lastUsedIndex := index }) := by
  rw [addressIsProcessed, elementIsInserted, if_pos h]

theorem addressIsProcessed_duplicate (hne : s.setOfEntries index ≠ 0)
    (h : s.setOfEntries index = w) :
    addressIsProcessed s index w = (true, { s with stats := { s.stats with
      numberOfCollisions := s.stats.numberOfCollisions + 1
      numberOfDuplicates := s.stats.numberOfDuplicates + 1 } }) := by
  rw [addressIsProcessed, elementIsInserted, if_neg hne]
  exact if_pos h

theorem addressIsProcessed_taken (hne : s.setOfEntries index ≠ 0) (h : s.setOfEntries index ≠ w) :
    addressIsProcessed s index w =
      (false,
        { s with stats := { s.stats with numberOfCollisions := s.stats.numberOfCollisions + 1 } })
        := by
  rw [addressIsProcessed, elementIsInserted, if_neg hne]
  exact if_neg h

theorem addressIsProcessed_framed (s : AddressHashSet) (index : Nat) (w : Word) :
    Framed s (addressIsProcessed s index w).2 := by
  by_cases hfree : s.setOfEntries index = 0
  · rw [addressIsProcessed_free hfree]
    exact ⟨rfl, rfl, rfl, rfl, id, le_rfl⟩
  · by_cases hdup : s.setOfEntries index = w
    · rw [addressIsProcessed_duplicate hfree hdup]
      exact ⟨rfl, rfl, rfl, rfl, Nat.succ_le_succ, Nat.le_succ _⟩
    · rw [addressIsProcessed_taken hfree hdup]
      exact ⟨rfl, rfl, rfl, rfl, Nat.le_succ_of_le, Nat.le_succ _⟩

end Slot

theorem processFrom_framed {fuel index : Nat} (h : processFrom w fuel index s = some s') :
    Framed s s' := by
  induction fuel generalizing s index with
  | zero => cases h
  | succ fuel ih =>
      have hstep := addressIsProcessed_framed s index w
      rw [processFrom] at h
      split at h
      · rename_i s₁ h₁
        obtain rfl := Option.some.inj h
        rw [h₁] at hstep
        exact hstep
      · rename_i s₁ h₁
        rw [h₁] at hstep
        split at h
        · exact hstep.trans (ih h)
        · cases h

theorem insertAlignedBlockAddress_framed (h : insertAlignedBlockAddress s w = some s') :
    Framed s s' :=
  processFrom_framed h

theorem next_index {n i : Nat} (hi : i < n) : (i + 1) % n = OpenAddressing.next n i := by
  rw [OpenAddressing.next]
  split
  · rename_i h
    exact Nat.mod_eq_of_lt h
  · rename_i h
    rw [show i + 1 = n by omega, Nat.mod_self]

theorem processFrom_contents {fuel index : Nat} (hi : index < s.size) :
    (processFrom w fuel index s).map AddressHashSet.contents =
      (OpenAddressing.probe s.size 0 s.setOfEntries w fuel index).map fun j =>
        (Function.update s.setOfEntries j w,
          if s.setOfEntries j = 0 then s.stats.numberOfEntries + 1
          else s.stats.numberOfEntries) := by
  induction fuel generalizing s index with
  | zero => rfl
  | succ fuel ih =>
      rw [processFrom, OpenAddressing.probe]
      by_cases hfree : s.setOfEntries index = 0
      · rw [addressIsProcessed_free hfree, if_pos (.inl hfree), Option.map_some,
          Option.map_some, if_pos hfree]
        rfl
      · by_cases hdup : s.setOfEntries index = w
        · have hsame : Function.update s.setOfEntries index w = s.setOfEntries := by
            rw [Function.update_eq_self_iff, hdup]
          rw [addressIsProcessed_duplicate hfree hdup, if_pos (.inr hdup), Option.map_some,
            Option.map_some, if_neg hfree, hsame]
          rfl
        · have hlt : (index + 1) % s.size < s.size := Nat.mod_lt _ (Nat.zero_lt_of_lt hi)
          rw [addressIsProcessed_taken hfree hdup, if_neg (not_or.mpr ⟨hfree, hdup⟩),
            ← next_index hi]
          simp only [if_pos hlt]
          exact ih hlt

theorem insertAlignedBlockAddress_contents (hs : 0 < s.size) :
    (insertAlignedBlockAddress s w).map AddressHashSet.contents =
      OpenAddressing.record s.size 0 (fun k => k.toNat % s.size) w s.contents :=
  processFrom_contents (Nat.mod_lt _ hs)

end Insert

section Resize

variable {s} {s' : AddressHashSet}

theorem insertAll_framed {ws : List Word} (h : insertAll ws s = some s') : Framed s s' := by
  induction ws generalizing s with
  | nil =>
      obtain rfl := Option.some.inj h
      exact Framed.refl s
  | cons w ws ih =>
      obtain ⟨s₁, h₁, hrest⟩ := Option.bind_eq_some_iff.mp h
      split at h₁
      · obtain rfl := Option.some.inj h₁
        exact ih hrest
      · exact (insertAlignedBlockAddress_framed h₁).trans (ih hrest)

theorem resize_counts (h : resize s = some s') :
    s'.stats.numberOfResizes = s.stats.numberOfResizes + 1 ∧
    s.stats.numberOfCollisions ≤ s'.stats.numberOfCollisions := by
  rw [resize] at h
  split at h
  · exact ⟨(insertAll_framed h).resizes, (insertAll_framed h).collisions⟩
  · cases h

/-- Sets are never made smaller, so their number of resizes tells whether there
was one. Collisions are counted on over all of them. -/
theorem addLines_counts {c : Coverage} {range line : Nat} (h : addLines c range line s = some s') :
    s.stats.numberOfResizes ≤ s'.stats.numberOfResizes ∧ s.stats.numberOfCollisions ≤
    s'.stats.numberOfCollisions := by
  induction line, s using addLines.induct c range with
  | case1 line s hlt ih =>
      rw [addLines, if_pos hlt] at h
      obtain ⟨s₁, h₁, h⟩ := Option.bind_eq_some_iff.mp h
      obtain ⟨s₂, h₂, h⟩ := Option.bind_eq_some_iff.mp h
      obtain ⟨hrest, hmore⟩ := ih s₂ h
      have hframe := insertAlignedBlockAddress_framed h₂
      have hresizes := hframe.resizes
      have hcollisions := hframe.collisions
      split at h₁
      · obtain ⟨hr, hc⟩ := resize_counts h₁
        omega
      · obtain rfl := Option.some.inj h₁
        omega
  | case2 line s hge =>
      rw [addLines, if_neg hge] at h
      obtain rfl := Option.some.inj h
      exact ⟨le_rfl, le_rfl⟩

end Resize

end Mangosteen.HashSet
