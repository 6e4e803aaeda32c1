import Mathlib.Data.Int.ConditionallyCompleteOrder
import Mathlib.Order.CompletePartialOrder
import Mathlib.Order.ConditionallyCompleteLattice.Basic
import Mathlib.Order.Interval.Set.Disjoint

namespace Mangosteen.Arena

def mangosteenAllocatorArenaSize : Int := 2000

/-- `mangosteen_memory_allocator`, without the bytes of its arena. -/
structure MemoryAllocator where
  offset : BitVec 32

def mangosteenResetMemoryAllocator (mma : MemoryAllocator) : MemoryAllocator :=
  { mma with offset := 0 }

/-- The pointer is returned as an index of `threadLocalArena`. A failed assertion
stops the server. -/
def mangosteenAllocateMemory (mma : MemoryAllocator) (size : BitVec 32) :
    Option (Int × MemoryAllocator) :=
  let returnValue := mma.offset.toInt
  let mma := { mma with offset := mma.offset + size }
  if mma.offset.toInt < mangosteenAllocatorArenaSize then some (returnValue, mma) else none

/-- What a call has handed out. -/
structure Block where
  start : Int
  size : Int

def Block.bytes (b : Block) : Set Int := Set.Ico b.start (b.start + b.size)

inductive Call
  | reset
  | allocate (size : BitVec 32)

/-- The allocator of a client, with the blocks handed out since the last reset. -/
structure Client where
  mma : MemoryAllocator
  handed : List Block := []

def perform : Call → Client → Option Client
  | .reset, c => some { mma := mangosteenResetMemoryAllocator c.mma }
  | .allocate size, c => (mangosteenAllocateMemory c.mma size).map fun r =>
      { mma := r.2, handed := c.handed ++ [⟨r.1, size.toInt⟩] }

def performAll : List Call → Client → Option Client
  | [], c => some c
  | x :: xs, c => (perform x c).bind (performAll xs)

/-- All blocks lie in the arena, and no two of them share a byte. -/
structure Separate (bs : List Block) : Prop where
  inside : ∀ b ∈ bs, b.bytes ⊆ Set.Ico 0 mangosteenAllocatorArenaSize
  disjoint : bs.Pairwise fun b b' => Disjoint b.bytes b'.bytes

/-- No size is negative, and the sizes since the last reset add up to an `int`. -/
def Adds : List Call → Int → Prop
  | [], _ => True
  | .reset :: xs, _ => Adds xs 0
  | .allocate size :: xs, sum =>
    0 ≤ size.toInt ∧ sum + size.toInt < 2 ^ 31 ∧ Adds xs (sum + size.toInt)

/-- The blocks fill the arena from its start up to the offset. -/
structure Stacked (c : Client) (sum : Int) : Prop where
  offset : c.mma.offset.toInt = sum
  nonneg : 0 ≤ sum
  lt_size : sum < mangosteenAllocatorArenaSize
  below : ∀ b ∈ c.handed, b.bytes ⊆ Set.Ico 0 sum
  disjoint : c.handed.Pairwise fun b b' => Disjoint b.bytes b'.bytes

section Runs

variable {c c' : Client} {sum : Int} {x : Call} {xs : List Call} {size : BitVec 32}

theorem stacked_reset (mma : MemoryAllocator) :
    Stacked { mma := mangosteenResetMemoryAllocator mma } 0 :=
  ⟨rfl, le_rfl, by decide, by simp, .nil⟩

theorem Stacked.separate (h : Stacked c sum) : Separate c.handed :=
  ⟨fun b hb => (h.below b hb).trans (Set.Ico_subset_Ico_right h.lt_size.le), h.disjoint⟩

theorem toInt_add (h : c.mma.offset.toInt = sum) (hnonneg : 0 ≤ sum) (hsize : 0 ≤ size.toInt)
    (hsum : sum + size.toInt < 2 ^ 31) : (c.mma.offset + size).toInt = sum + size.toInt := by
  rw [BitVec.toInt_add, h, Int.bmod_eq_of_le] <;> omega

theorem Stacked.allocate (h : Stacked c sum) (hsize : 0 ≤ size.toInt)
    (hsum : sum + size.toInt < 2 ^ 31)
    (hc : perform (.allocate size) c = some c') : Stacked c' (sum + size.toInt) := by
  obtain ⟨⟨p, mma⟩, hr, rfl⟩ := Option.map_eq_some_iff.mp hc
  rw [mangosteenAllocateMemory] at hr
  split at hr
  · rename_i hlt
    obtain ⟨rfl, rfl⟩ := Prod.mk.inj (Option.some.inj hr)
    have hoffset := toInt_add h.offset h.nonneg hsize hsum
    have hnonneg := h.nonneg
    rw [hoffset] at hlt
    have hnew : (⟨c.mma.offset.toInt, size.toInt⟩ : Block).bytes = Set.Ico sum
        (sum + size.toInt) := by
      rw [Block.bytes, h.offset]
    refine ⟨hoffset, by omega, hlt, fun b hb => ?_, ?_⟩
    · rcases List.mem_append.mp hb with hb | hb
      · exact (h.below b hb).trans (Set.Ico_subset_Ico_right (by omega))
      · rw [List.mem_singleton.mp hb, hnew]
        exact Set.Ico_subset_Ico_left hnonneg
    · refine List.pairwise_append.mpr ⟨h.disjoint, List.pairwise_singleton _ _,
        fun b hb b' hb' => ?_⟩
      rw [List.mem_singleton.mp hb', hnew]
      exact (Set.Ico_disjoint_Ico_same).mono_left (h.below b hb)
  · cases hr

theorem Stacked.separate_of_run (h : Stacked c sum) (hxs : Adds xs sum)
    (hc : performAll xs c = some c') : Separate c'.handed := by
  induction xs generalizing c sum with
  | nil =>
      obtain rfl := Option.some.inj hc
      exact h.separate
  | cons x xs ih =>
      obtain ⟨c₁, h₁, hrest⟩ := Option.bind_eq_some_iff.mp hc
      cases x with
      | reset =>
          obtain rfl := Option.some.inj h₁
          exact ih (stacked_reset c.mma) hxs hrest
      | allocate size => exact ih (h.allocate hxs.1 hxs.2.1 h₁) hxs.2.2 hrest

end Runs

/-- Sizes that are not negative and do not add up to more than an `int` are given
separate blocks of the arena, whenever no assertion fails. -/
theorem arena_blocks_separate (mma : MemoryAllocator) (xs : List Call)
    (hxs : Adds xs 0) (c : Client)
    (hc : performAll (.reset :: xs) { mma } = some c) : Separate c.handed := by
  obtain ⟨c₀, h₀, hrest⟩ := Option.bind_eq_some_iff.mp hc
  obtain rfl := Option.some.inj h₀
  exact (stacked_reset mma).separate_of_run hxs hrest

theorem arena_blocks_separate_two : Separate [⟨0, 100⟩, ⟨100, 24⟩] :=
  arena_blocks_separate ⟨7⟩ [.allocate 100, .allocate 24] (by simp [Adds])
  ⟨⟨124⟩, [⟨0, 100⟩, ⟨100, 24⟩]⟩ (by rfl)

/-- A negative size brings the offset back into a block. -/
theorem not_arena_blocks_separate : ¬ ∀ (mma : MemoryAllocator) (xs : List Call) (c : Client),
    performAll (.reset :: xs) { mma } = some c → Separate c.handed := by
  intro hall
  have hrun : performAll [.reset, .allocate 100, .allocate (-50), .allocate 100] { mma := ⟨0⟩ } =
      some ⟨⟨150⟩, [⟨0, 100⟩, ⟨100, -50⟩, ⟨50, 100⟩]⟩ := by rfl
  have hdisjoint := (hall ⟨0⟩ _ _ hrun).disjoint
  simp only [List.pairwise_cons, List.mem_cons, forall_eq_or_imp] at hdisjoint
  have hfirst : (60 : Int) ∈ (⟨0, 100⟩ : Block).bytes := by simp [Block.bytes]
  have hlast : (60 : Int) ∈ (⟨50, 100⟩ : Block).bytes := by simp [Block.bytes]
  exact Set.disjoint_left.mp hdisjoint.1.2.1 hfirst hlast

end Mangosteen.Arena
