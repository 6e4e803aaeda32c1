import Mathlib.Data.List.Perm.Basic
import Mangosteen.Library.Transition
import Mangosteen.TransientAllocator

namespace Mangosteen.FreeList

open ByteMemory TransientAllocator

/-- A free list, with the pointers that were popped and not pushed back, and all
those popped and pushed so far. -/
structure Pool where
  list : MemoryNodeList
  memory : Memory
  outstanding : List Nat := []
  handed : List Nat := []
  returned : List Nat := []

inductive Step : Pool → Pool → Prop
  | pop {p : Pool} {ptr : Nat} {list : MemoryNodeList}
      (h : popMemoryBlock p.list p.memory = some (ptr, list)) :
      Step p { p with list, outstanding := p.outstanding ++ [ptr], handed := p.handed ++ [ptr] }
  | push {p : Pool} {ptr : Nat} {list : MemoryNodeList} {memory : Memory}
      (hptr : ptr ∈ p.outstanding) (h : pushBlock p.list ptr p.memory = some (list, memory)) :
      Step p { p with
        list, memory, outstanding := p.outstanding.erase ptr, returned := p.returned ++ [ptr] }

def Reachable (start : Pool) : Pool → Prop := Transition.Reachable (· = start) Step

/-- The list before the first call. -/
structure Initial (m : Memory) (first : Nat) (original : List Nat) : Prop where
  linked : Linked m first original
  spaced : Spaced original
  usable : ∀ n ∈ original, usableSpace m n = n + headerSize

/-- The free nodes and the outstanding ones are the original ones, and a node is
handed out after all that were in the list before it. -/
structure Conserved (original : List Nat) (p : Pool) (free : List Nat) : Prop where
  linked : Linked p.memory p.list.first free
  nodup : free.Nodup
  total : (free.map (· + headerSize) ++ p.outstanding).Perm (original.map (· + headerSize))
  push : ∀ ptr ∈ p.outstanding, (pushBlock p.list ptr p.memory).isSome
  length : getListLength p.list p.memory = some ((original.length : Int) - p.outstanding.length)
  order : p.handed ++ free.map (· + headerSize) = original.map (· + headerSize) ++ p.returned

section Runs

variable {original : List Nat} {p p' : Pool}

/-- The invariant, with the outstanding blocks as nodes. -/
structure Balanced (original : List Nat) (p : Pool) (free out : List Nat) : Prop where
  linked : Linked p.memory p.list.first free
  outstanding : p.outstanding = out.map (· + headerSize)
  total : (free ++ out).Perm original
  usable : ∀ n ∈ original, usableSpace p.memory n = n + headerSize
  order : p.handed ++ free.map (· + headerSize) = original.map (· + headerSize) ++ p.returned

variable {free out : List Nat}

theorem Balanced.spaced (h : Balanced original p free out) (hspaced : Spaced original) :
    Spaced free :=
  (hspaced.perm h.total).sublist (List.sublist_append_left free out)

theorem Balanced.spaced_cons (h : Balanced original p free out)
    (hspaced : Spaced original) {node : Nat} (hnode : node ∈ out) : Spaced (node :: free) := by
  have hperm : (node :: (free ++ out.erase node)).Perm original :=
    (List.perm_middle.symm.trans ((List.perm_cons_erase hnode).symm.append_left free)).trans h.total
  exact (hspaced.perm hperm).sublist ((List.sublist_append_left free _).cons_cons node)

theorem Balanced.mem_out (h : Balanced original p free out) {ptr : Nat}
    (hptr : ptr ∈ p.outstanding) : ∃ node ∈ out, ptr = node + headerSize := by
  rw [h.outstanding] at hptr
  obtain ⟨node, hnode, rfl⟩ := List.mem_map.mp hptr
  exact ⟨node, hnode, rfl⟩

theorem Balanced.pop (h : Balanced original p free out) {ptr : Nat} {list : MemoryNodeList}
    (hpop : popMemoryBlock p.list p.memory = some (ptr, list)) : ∃ free' out',
      Balanced original { p with
        list, outstanding := p.outstanding ++ [ptr], handed := p.handed ++ [ptr] } free' out' := by
  cases free with
  | nil =>
      rw [popMemoryBlock, if_pos ((listIsEmpty_iff h.linked).mpr rfl)] at hpop
      cases hpop
  | cons node free =>
      obtain ⟨heq, hlinked⟩ := popMemoryBlock_eq h.linked
      obtain ⟨rfl, rfl⟩ := Prod.mk.inj (Option.some.inj (heq.symm.trans hpop))
      have hnode : usableSpace p.memory node = node + headerSize :=
        h.usable node (h.total.subset (by simp))
      rw [hnode]
      refine ⟨free, out ++ [node], hlinked, ?_, ?_, h.usable, ?_⟩
      · rw [h.outstanding, List.map_append]
        rfl
      · exact ((List.append_assoc free out [node]).symm ▸ List.perm_append_singleton node
          (free ++ out)).trans h.total
      · rw [← h.order, List.append_assoc]
        rfl

theorem Balanced.push (h : Balanced original p free out) (hspaced : Spaced original)
    (hne : ∀ n ∈ original, n ≠ 0) {node : Nat} (hnode : node ∈ out) :
    ∃ list memory, pushBlock p.list (node + headerSize) p.memory = some (list, memory) ∧
      ∃ free' out', Balanced original { p with
        list, memory
        outstanding := p.outstanding.erase (node + headerSize)
        returned := p.returned ++ [node + headerSize] } free' out' := by
  have horiginal : ∀ n ∈ node :: free, n ∈ original := by
    intro n hn
    apply h.total.subset
    rcases List.mem_cons.mp hn with rfl | hn
    · exact List.mem_append_right free hnode
    · exact List.mem_append_left out hn
  obtain ⟨first, m', hpush, hlinked, hlinks⟩ :=
    pushBlock_eq h.linked (h.spaced_cons hspaced hnode)
    (hne node (horiginal node List.mem_cons_self))
  refine ⟨_, m', hpush, free ++ [node], out.erase node, hlinked, ?_, ?_, fun n hn => ?_, ?_⟩
  · rw [h.outstanding, List.map_erase (add_left_injective headerSize)]
  · rw [List.append_assoc]
    exact ((List.perm_cons_erase hnode).symm.append_left free).trans h.total
  · rw [hlinks.usableSpace]
    · exact h.usable n hn
    · intro k hk
      by_cases he : k = n
      · exact .inl he
      · exact .inr (hspaced.apart.forall (horiginal k hk) hn he)
  · rw [List.map_append, ← List.append_assoc, h.order, List.append_assoc]
    rfl

theorem balanced_step (h : Balanced original p free out) (hspaced : Spaced original)
    (hne : ∀ n ∈ original, n ≠ 0)
    (hstep : Step p p') : ∃ free' out', Balanced original p' free' out' := by
  cases hstep with
  | pop hpop => exact h.pop hpop
  | push hptr hpush =>
      obtain ⟨node, hnode, rfl⟩ := h.mem_out hptr
      obtain ⟨list, memory, heq, hbalanced⟩ := h.push hspaced hne hnode
      obtain ⟨rfl, rfl⟩ := Prod.mk.inj (Option.some.inj (heq.symm.trans hpush))
      exact hbalanced

theorem Balanced.getListLength (h : Balanced original p free out) (hspaced : Spaced original) :
    getListLength p.list p.memory = some ((free.length : Int).bmod (2 ^ 32)) := by
  rw [TransientAllocator.getListLength]
  split
  · rename_i hempty
    rw [(listIsEmpty_iff h.linked).mp hempty]
    rfl
  · rw [nodesFrom_eq h.linked (h.spaced hspaced)]
    rfl

theorem Balanced.conserved (h : Balanced original p free out) (hspaced : Spaced original)
    (hne : ∀ n ∈ original, n ≠ 0)
    (hlength : original.length < 2 ^ 31) : Conserved original p free where
  linked := h.linked
  nodup := (h.spaced hspaced).nodup
  total := by
    rw [h.outstanding, ← List.map_append]
    exact h.total.map _
  push := by
    intro ptr hptr
    obtain ⟨node, hnode, rfl⟩ := h.mem_out hptr
    obtain ⟨list, memory, heq, -⟩ := h.push hspaced hne hnode
    rw [heq]
    rfl
  length := by
    have hcount := h.total.length_eq
    rw [List.length_append] at hcount
    rw [h.getListLength hspaced, h.outstanding, List.length_map, Int.bmod_eq_of_le]
    · congr 1
      omega
    · omega
    · omega
  order := h.order

variable {m : Memory} {list : MemoryNodeList}

theorem Initial.balanced (h : Initial m list.first original) :
    Balanced original { list, memory := m } original [] where
  linked := h.linked
  outstanding := rfl
  total := by rw [List.append_nil]
  usable := h.usable
  order := (List.append_nil _).symm

theorem Initial.length_lt (h : Initial m list.first original) {free : List Nat}
    (hconserved : Conserved original { list, memory := m } free) : original.length < 2 ^ 31 := by
  have hlength := hconserved.length
  rw [h.balanced.getListLength h.spaced] at hlength
  have hint : (original.length : Int).bmod (2 ^ 32) = original.length := by
    simpa using Option.some.inj hlength
  have hlt := Int.bmod_lt (m := 2 ^ 32) (x := original.length) (by decide)
  rw [hint] at hlt
  omega

/-- Pops and pushes conserve a list if and only if its length is an `int`. -/
theorem free_list_conserved (h : Initial m list.first original) :
    (∀ p, Reachable { list, memory := m } p → ∃ free, Conserved original p free) ↔
    original.length < 2 ^ 31 := by
  constructor
  · intro hall
    obtain ⟨free, hconserved⟩ := hall _ (Transition.Reachable.start rfl)
    exact h.length_lt hconserved
  · intro hlength p hp
    have hne := h.linked.ne_null
    obtain ⟨free, out, hbalanced⟩ : ∃ free out, Balanced original p free out := by
      apply Transition.Reachable.invariant hp
      · rintro _ rfl
        exact ⟨_, _, h.balanced⟩
      · rintro _ _ ⟨free, out, hbalanced⟩ hstep
        exact balanced_step hbalanced h.spaced hne hstep
    exact ⟨free, hbalanced.conserved h.spaced hne hlength⟩

end Runs

section Row

/-- So many nodes side by side, each linked to the one behind it. The first of
them is at `24 * s`. -/
def row (s n : Nat) : Memory where
  bytes := fun b =>
    if b % 24 < 8 then 0
    else if b % 24 < 16 then
      UInt8.ofNat ((if b / 24 + 1 < s + n then 24 * (b / 24 + 1) else 0) / 256 ^ (b % 24 - 8))
    else UInt8.ofNat ((24 * (b / 24) + headerSize) / 256 ^ (b % 24 - 16))

def rowNodes (s n : Nat) : List Nat := (List.range' s n).map (24 * ·)

variable {s n i : Nat}

theorem next_row (hn : 24 * (s + n) ≤ addressSpace) :
    next (row s n) (24 * i) = if i + 1 < s + n then 24 * (i + 1) else 0 := by
  apply Memory.load_of_bytes
  · intro j hj
    have hmod : (24 * i + 8 + j) % 24 = 8 + j := by omega
    have hdiv : (24 * i + 8 + j) / 24 = i := by omega
    simp only [row, hmod, hdiv]
    rw [if_neg (by omega), if_pos (by omega), Nat.add_sub_cancel_left]
  · simp only [addressSpace] at hn
    split <;> omega

theorem usableSpace_row (hi : 24 * i + headerSize < addressSpace) :
    usableSpace (row s n) (24 * i) = 24 * i + headerSize := by
  apply Memory.load_of_bytes _ hi
  intro j hj
  have hmod : (24 * i + 16 + j) % 24 = 16 + j := by omega
  have hdiv : (24 * i + 16 + j) / 24 = i := by omega
  simp only [row, hmod, hdiv]
  rw [if_neg (by omega), if_neg (by omega), Nat.add_sub_cancel_left]

theorem linked_row (hn : 24 * (s + n) ≤ addressSpace) (hi : 0 < i) {k : Nat} (hk : i + k = s + n) :
    Linked (row s n) (if k = 0 then 0 else 24 * i) ((List.range' i k).map (24 * ·)) := by
  induction k generalizing i with
  | zero => rfl
  | succ k ih =>
      have htail := ih (Nat.succ_pos i) (by omega)
      rw [List.range'_succ, List.map_cons, if_neg (Nat.succ_ne_zero k)]
      refine ⟨rfl, by omega, ?_⟩
      rw [next_row hn]
      by_cases hzero : k = 0
      · rw [if_pos hzero] at htail
        rw [if_neg (by omega)]
        exact htail
      · rw [if_neg hzero] at htail
        rw [if_pos (by omega)]
        exact htail

theorem initial_row (hs : 0 < s) (hpos : 0 < n) (hn : 24 * (s + n) ≤ addressSpace) :
    Initial (row s n) (24 * s) (rowNodes s n) := by
  have hmem : ∀ k ∈ rowNodes s n, ∃ i, i < s + n ∧ k = 24 * i := by
    intro k hk
    obtain ⟨i, hi, rfl⟩ := List.mem_map.mp hk
    have hrange := List.mem_range'_1.mp hi
    exact ⟨i, by omega, rfl⟩
  refine ⟨?_, ⟨?_, fun k hk => ?_⟩, fun k hk => ?_⟩
  · have hlinked := linked_row hn hs rfl
    rwa [if_neg hpos.ne'] at hlinked
  · rw [rowNodes, List.pairwise_map]
    apply (List.pairwise_lt_range' 1).imp
    intro i j hlt
    exact .inl (by omega)
  · obtain ⟨i, hi, rfl⟩ := hmem k hk
    omega
  · obtain ⟨i, hi, rfl⟩ := hmem k hk
    apply usableSpace_row
    simp only [headerSize]
    omega

end Row

theorem free_list_conserved_two : Initial (row (2 ^ 42) 2) (24 * 2 ^ 42) (rowNodes (2 ^ 42) 2) ∧
    ∀ p, Reachable { list := ⟨12, 24 * 2 ^ 42⟩, memory := row (2 ^ 42) 2 } p →
      ∃ free, Conserved (rowNodes (2 ^ 42) 2) p free := by
  have hinitial : Initial (row (2 ^ 42) 2) (24 * 2 ^ 42) (rowNodes (2 ^ 42) 2) :=
    initial_row (by decide) (by decide) (by decide)
  exact ⟨hinitial, (@free_list_conserved _ _ ⟨12, 24 * 2 ^ 42⟩ hinitial).mpr (by decide)⟩

/-- A list too long for the counter of `get_list_length`, before any call. -/
theorem not_free_list_conserved :
    ∃ p, Initial (row (2 ^ 42) (2 ^ 31)) (24 * 2 ^ 42) (rowNodes (2 ^ 42) (2 ^ 31)) ∧
    Reachable { list := ⟨12, 24 * 2 ^ 42⟩, memory := row (2 ^ 42) (2 ^ 31) } p ∧
      ¬ ∃ free, Conserved (rowNodes (2 ^ 42) (2 ^ 31)) p free := by
  have hinitial : Initial (row (2 ^ 42) (2 ^ 31)) (24 * 2 ^ 42) (rowNodes (2 ^ 42) (2 ^ 31)) :=
    initial_row (by decide) (by decide) (by decide)
  refine ⟨_, hinitial, Transition.Reachable.start rfl, ?_⟩
  rintro ⟨free, hconserved⟩
  have hlength := @Initial.length_lt _ _ ⟨12, 24 * 2 ^ 42⟩ hinitial _ hconserved
  rw [rowNodes, List.length_map, List.length_range'] at hlength
  exact absurd hlength (lt_irrefl _)

end Mangosteen.FreeList
