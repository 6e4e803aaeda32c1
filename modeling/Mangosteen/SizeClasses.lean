import Mangosteen.BlockPools

namespace Mangosteen.SizeClasses

open ByteMemory TransientAllocator Carving BlockPools

/-- Calls of `alloc` and `free`, with sizes from some set. -/
def Called (sizes : Nat → Prop) (x : Call) (h : Heap) : Prop := Proper sizes x h ∧ ¬ x.Writes

/-- The next `alloc` takes a list of the array whose blocks are large enough but
not twice as large, and the next `free` returns a block to its list. -/
structure Classed (sizes : Nat → Prop) (h : Heap) : Prop where
  alloc : ∀ size, sizes size → ∃ index list, getBlockIndex size = some index ∧ index < maxBlockPow ∧
    h.allocator.pMemoryNodeList[index]? = some list ∧ size ≤ list.blockSize ∧
    (2 ≤ size → list.blockSize < 2 * size)
  free : ∀ ptr index, (ptr, index) ∈ h.live → getBlockIndex (freedSize h.memory ptr) = some index ∧
    ∃ h' list nodes, perform (.free ptr) h = some h' ∧
    h'.allocator.pMemoryNodeList[index]? = some list ∧
      Linked h'.memory list.first (nodes ++ [nodeOf ptr])

/-- The sizes whose lists are carved as they should be. -/
def Sizes (size : Nat) : Prop := 9 ≤ size ∧ size ≤ 16384

section Invariant

variable {p : Pools} {first : Nat → Nat} {h : Heap} {ptr i : Nat}

theorem kept_of_clean (hr : Represents p ∅ first h) (hptr : (ptr, i) ∈ h.live) :
    h.memory.load (ptr + 4) 8 = ptr := by
  obtain ⟨n, hn, rfl⟩ := hr.mem_live hptr
  exact hr.usable (n, i) (hr.carved_live _ hn) (Set.notMem_empty _)

theorem clean_step (p : Pools) (h : Heap) (x : Call) (hr : ∃ first, Represents p ∅ first h)
    (hx : Called Sizes x h) :
    ∃ h', perform x h = some h' ∧ ∃ first, Represents (p.step x) ∅ first h' := by
  obtain ⟨first, hr⟩ := hr
  obtain ⟨hproper, hreads⟩ := hx
  have hkept : Kept x h := by
    cases x with
    | alloc size addr => trivial
    | free ptr =>
        obtain ⟨i, hptr⟩ := hproper
        exact kept_of_clean hr hptr
    | write => trivial
  obtain ⟨h', first', dirty', heq, hclean, hr'⟩ := hr.perform (fun _ => id) hproper hkept
  obtain rfl := Set.subset_empty_iff.mp (hclean hreads)
  exact ⟨h', heq, first', hr'⟩

theorem classed_of_clean (hr : Represents p ∅ first h) : Classed Sizes h where
  alloc := by
    intro size hsize
    have hindex : getBlockIndex size = some (Nat.clog 2 size) := by
      apply getBlockIndex_eq
      rw [Sizes] at hsize
      simp only [maxAlloc, maxBlockPow]
      omega
    have hlt : Nat.clog 2 size < maxBlockPow := by
      have := (index_of_size hsize).2
      simp only [maxBlockPow]
      omega
    refine ⟨_, _, hindex, hlt, hr.list hlt, ?_, fun htwo => ?_⟩
    · rw [Nat.one_shiftLeft]
      exact Nat.le_pow_clog Nat.one_lt_two size
    · have hpos := (index_of_size hsize).1
      have hbelow := Nat.pow_pred_clog_lt_self Nat.one_lt_two (show 1 < size by omega)
      obtain ⟨k, hk⟩ := Nat.exists_eq_succ_of_ne_zero (show Nat.clog 2 size ≠ 0 by omega)
      rw [hk, Nat.pred_succ] at hbelow
      rw [Nat.one_shiftLeft, hk, Nat.pow_succ]
      dsimp only
      omega
  free := by
    intro ptr index hptr
    obtain ⟨hindex, hlt⟩ := hr.freedIndex hptr
    obtain ⟨h', first', dirty', heq, -, hr', hqueue⟩ := hr.free hptr (kept_of_clean hr hptr)
    refine ⟨hindex, h', _, p.free index, heq, hr'.list hlt, ?_⟩
    have hlinked := hr'.linked index
    rwa [hqueue] at hlinked

end Invariant

/-- The lists are chosen and found again as they should be in every run whose
sizes are neither too small nor too large to be carved. -/
theorem size_classes (m : Memory) (xs : List Call) (hxs : Along (Called Sizes) xs (start m)) :
    ∃ h, performAll xs (start m) = some h ∧ Classed Sizes h := by
  obtain ⟨h, heq, first, hr⟩ := performAll_induction ⟨_, represents_start m⟩ clean_step hxs
  exact ⟨h, heq, classed_of_clean hr⟩

theorem size_classes_one :
    ∃ h, performAll [.alloc 16 (2 ^ 46)] (start { bytes := fun _ => 0 }) = some h ∧
    Classed Sizes h := by
  apply size_classes
  have hfresh : Fresh (2 ^ 46) (start { bytes := fun _ => 0 }) :=
    ⟨mapping_far, fun c hc => absurd hc List.not_mem_nil⟩
  exact ⟨⟨⟨⟨by decide, by decide⟩, fun _ => hfresh⟩, id⟩, fun _ _ => trivial⟩

/-- Sizes above half of the limit have an index behind the end of the array. -/
theorem not_size_classes :
    ¬ ∀ (m : Memory) (xs : List Call), Along (Called (· < maxAlloc)) xs (start m) →
    ∃ h, performAll xs (start m) = some h ∧ Classed (· < maxAlloc) h := by
  intro hall
  obtain ⟨h, -, hclassed⟩ := hall { bytes := fun _ => 0 } [] trivial
  obtain ⟨index, list, hindex, hlt, -⟩ := hclassed.alloc 40000 (by decide)
  obtain rfl : index = 16 :=
    Option.some.inj (hindex.symm.trans (by decide : getBlockIndex 40000 = some 16))
  exact absurd hlt (by decide)

end Mangosteen.SizeClasses
