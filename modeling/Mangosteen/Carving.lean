import Mathlib.Tactic.IntervalCases
import Mangosteen.TransientAllocator

namespace Mangosteen.Carving

open ByteMemory TransientAllocator

/-- What `mmap` returns: the address of pages of user memory. -/
structure Mapping (addr : Nat) : Prop where
  aligned : 4096 ∣ addr
  pos : 0 < addr
  bound : addr + mmapBlockSize ≤ 2 ^ 47

/-- Entries of a list in a mapping: no two of them overlap, and each has its size
and the address of its block. -/
structure Entries (blockSize addr : Nat) (m : Memory) (nodes : List Nat) : Prop where
  inside : ∀ n ∈ nodes, addr ≤ n ∧ n + (headerSize + blockSize) ≤ addr + mmapBlockSize
  disjoint : nodes.Pairwise fun n n' => n + (headerSize + blockSize) ≤ n' ∨
    n' + (headerSize + blockSize) ≤ n
  size : ∀ n ∈ nodes, nodeSize m n = blockSize
  usable : ∀ n ∈ nodes, usableSpace m n = n + headerSize

/-- A chunk is carved without a write outside of it. -/
def Carves (list : MemoryNodeList) (addr : Nat) (m : Memory) : Prop :=
  ∃ list' m', addMemoryBlocksToList addr list m = some (list', m') ∧
  m.Within addr (addr + mmapBlockSize) m' ∧
    ∃ nodes, Linked m' list'.first nodes ∧ Entries list.blockSize addr m' nodes

section Loop

variable {blockSize addr offset k : Nat} {m : Memory}

def entry (blockSize addr j : Nat) : Nat := addr + j * (blockSize + headerSize)

/-- The writes of one pass, without the last one. -/
def carveNode (blockSize iterator target : Nat) (m : Memory) : Memory :=
  setUsableSpace (setNext (setNext (setSize m iterator blockSize) iterator target) target 0)
  iterator (iterator + headerSize)

theorem carve_of_ge (h : mmapBlockSize ≤ offset + (blockSize + headerSize)) :
    carve blockSize addr offset m = m := by
  rw [carve, if_neg (by omega)]

theorem carve_of_lt (h : offset + (blockSize + headerSize) < mmapBlockSize)
    (haddr : addr + mmapBlockSize ≤ addressSpace) :
    carve blockSize addr offset m = carve blockSize addr (offset + (blockSize + headerSize))
      (if offset + (blockSize + headerSize) + (blockSize + headerSize) > mmapBlockSize then
        setNext (carveNode blockSize (addr + offset) (addr + offset + (blockSize + headerSize)) m)
        (addr + offset) 0
      else carveNode blockSize (addr + offset) (addr + offset + (blockSize + headerSize)) m) := by
  rw [carve, if_pos h]
  simp only [next_setNext (show addr + offset + (blockSize + headerSize) < addressSpace by omega)]
  rfl

theorem entry_succ (j : Nat) :
    entry blockSize addr (j + 1) = entry blockSize addr j + (blockSize + headerSize) := by
  rw [entry, entry, Nat.succ_mul, Nat.add_assoc]

theorem entry_le {i j : Nat} (h : i ≤ j) : entry blockSize addr i ≤ entry blockSize addr j :=
  Nat.add_le_add_left (Nat.mul_le_mul_right _ h) addr

theorem entry_lt {i j : Nat} (h : i < j) :
    entry blockSize addr i + (blockSize + headerSize) ≤ entry blockSize addr j := by
  rw [← entry_succ]
  exact entry_le h

theorem nodeSize_of_load {node size : Nat} (h : m.load node 4 = size) (hsize : size < 2 ^ 31) :
    nodeSize m node = size := by
  unfold nodeSize
  rw [h, Int.bmod_eq_of_le]
  · omega
  · omega

section Node

variable {iterator target : Nat}

theorem carveNode_within (h : iterator + (12 + headerSize) ≤ target) :
    m.Within iterator (target + 16) (carveNode blockSize iterator target m) := by
  simp only [headerSize] at h
  refine (((Memory.within_store ?_ ?_).trans (Memory.within_store ?_ ?_)).trans
    (Memory.within_store ?_ ?_)).trans (Memory.within_store ?_ ?_) <;> omega

theorem nodeSize_carveNode (h : iterator + (12 + headerSize) ≤ target)
    (hsize : blockSize < 2 ^ 31) :
    nodeSize (carveNode blockSize iterator target m) iterator = blockSize := by
  simp only [headerSize] at h
  apply nodeSize_of_load _ hsize
  rw [carveNode, setUsableSpace, Memory.load_store_of_disjoint (by omega), setNext,
    Memory.load_store_of_disjoint (by omega), setNext, Memory.load_store_of_disjoint (by omega)]
  exact Memory.load_store (by omega)

theorem next_carveNode (h : iterator + (12 + headerSize) ≤ target)
    (htarget : target < addressSpace) :
    next (carveNode blockSize iterator target m) iterator = target := by
  simp only [headerSize] at h
  have hapart : Apart iterator target := .inl (by omega)
  rw [carveNode, next, setUsableSpace, Memory.load_store_of_disjoint (by omega)]
  exact (next_setNext_of_apart hapart).trans (next_setNext htarget)

theorem usableSpace_carveNode (h : iterator + headerSize < addressSpace) :
    usableSpace (carveNode blockSize iterator target m) iterator = iterator + headerSize :=
  Memory.load_store h

theorem zero_carveNode (h : iterator + (12 + headerSize) ≤ target) {b : Nat} (hb : target ≤ b)
    (hzero : m.bytes b = 0) : (carveNode blockSize iterator target m).bytes b = 0 := by
  simp only [headerSize] at h
  rw [carveNode, setUsableSpace, Memory.store_of_not_mem (by omega)]
  by_cases hnext : target + 8 ≤ b ∧ b < target + 16
  · obtain ⟨i, rfl⟩ := Nat.exists_eq_add_of_le hnext.1
    rw [setNext, Memory.store, Memory.overwrite_of_lt (by omega), Nat.zero_div]
    rfl
  · rw [setNext, Memory.store_of_not_mem (by omega), setNext,
      Memory.store_of_not_mem (by omega), setSize, Memory.store_of_not_mem (by omega)]
    exact hzero

end Node

/-- The nodes up to one are in place, this one with some link, and what lies
behind it is untouched. -/
structure CarvedTo (blockSize addr k target : Nat) (m : Memory) : Prop where
  size : ∀ j ≤ k, nodeSize m (entry blockSize addr j) = blockSize
  usable : ∀ j ≤ k, usableSpace m (entry blockSize addr j) = entry blockSize addr j + headerSize
  next : ∀ j < k, next m (entry blockSize addr j) = entry blockSize addr (j + 1)
  last : TransientAllocator.next m (entry blockSize addr k) = target
  zero : ∀ b, entry blockSize addr (k + 1) ≤ b → b < addr + mmapBlockSize → m.bytes b = 0

section Frame

variable {m' : Memory} {lo hi j : Nat} (h : m.Within lo hi m') (hbs : 12 ≤ blockSize)
  (hlo : entry blockSize addr (j + 1) ≤ lo)
include h hbs hlo

theorem nodeSize_entry :
    nodeSize m' (entry blockSize addr j) = nodeSize m (entry blockSize addr j) := by
  rw [entry_succ, headerSize] at hlo
  exact nodeSize_congr (h.load (.inl (by omega)))

theorem next_entry : next m' (entry blockSize addr j) = next m (entry blockSize addr j) := by
  rw [entry_succ, headerSize] at hlo
  exact h.load (.inl (by omega))

theorem usableSpace_entry :
    usableSpace m' (entry blockSize addr j) = usableSpace m (entry blockSize addr j) := by
  rw [entry_succ, headerSize] at hlo
  exact h.load (.inl (by omega))

end Frame

section Passes

variable (hbs : 12 ≤ blockSize) (haddr : addr + mmapBlockSize ≤ addressSpace)
include hbs haddr

theorem CarvedTo.succ (h : CarvedTo blockSize addr k (entry blockSize addr (k + 1)) m)
    (hlt : entry blockSize addr (k + 2) < addr + mmapBlockSize) :
    CarvedTo blockSize addr (k + 1) (entry blockSize addr (k + 2))
      (carveNode blockSize (entry blockSize addr (k + 1)) (entry blockSize addr (k + 2)) m) := by
  have hsucc : entry blockSize addr (k + 2) = entry blockSize addr (k + 1) +
      (blockSize + headerSize) := entry_succ (k + 1)
  have hstep : entry blockSize addr (k + 1) + (12 + headerSize) ≤ entry blockSize addr (k + 2) := by
    omega
  have hwithin := @carveNode_within blockSize m _ _ hstep
  have hsize : blockSize < 2 ^ 31 := by
    have hge : addr ≤ entry blockSize addr (k + 1) := Nat.le_add_right _ _
    simp only [mmapBlockSize] at hlt
    omega
  have hcases : ∀ j ≤ k + 1, j ≤ k ∨ j = k + 1 := by omega
  exact {
    size := by
      intro j hj
      rcases hcases j hj with hj | rfl
      · rw [nodeSize_entry hwithin hbs (entry_le (by omega)), h.size j hj]
      · exact nodeSize_carveNode hstep hsize
    usable := by
      intro j hj
      rcases hcases j hj with hj | rfl
      · rw [usableSpace_entry hwithin hbs (entry_le (by omega)), h.usable j hj]
      · exact usableSpace_carveNode (by omega)
    next := by
      intro j hj
      rw [next_entry hwithin hbs (entry_le (by omega))]
      rcases Nat.lt_succ_iff_lt_or_eq.mp hj with hj | rfl
      · exact h.next j hj
      · exact h.last
    last := next_carveNode hstep (by omega)
    zero := by
      intro b hb hlt'
      have hle : entry blockSize addr (k + 2) ≤ b := hb
      exact zero_carveNode hstep hle (h.zero b (by omega) hlt') }

omit haddr in
theorem CarvedTo.cut {target : Nat} (h : CarvedTo blockSize addr k target m) :
    CarvedTo blockSize addr k 0 (setNext m (entry blockSize addr k) 0) := by
  have hstep := @entry_succ blockSize addr k
  have hlinks : LinksOnly [entry blockSize addr k] m (setNext m (entry blockSize addr k) 0) :=
    linksOnly_setNext (by simp)
  have hwithin : m.Within (entry blockSize addr k) (entry blockSize addr k + 16)
      (setNext m (entry blockSize addr k) 0) :=
    Memory.within_store (by omega) (by omega)
  have hnode : ∀ j ≤ k, ∀ n ∈ [entry blockSize addr k], n = entry blockSize addr j ∨
      Apart n (entry blockSize addr j) := by
    intro j hj n hn
    obtain rfl := List.mem_singleton.mp hn
    rcases hj.lt_or_eq with hlt | rfl
    · have hle := @entry_lt blockSize addr j k hlt
      exact .inr (.inr (by simp only [headerSize] at hle; omega))
    · exact .inl rfl
  exact {
    size := by
      intro j hj
      rw [hlinks.nodeSize (hnode j hj), h.size j hj]
    usable := by
      intro j hj
      rw [hlinks.usableSpace (hnode j hj), h.usable j hj]
    next := by
      intro j hj
      rw [next_entry hwithin hbs (entry_le hj), h.next j hj]
    last := next_setNext (by decide)
    zero := by
      intro b hb hlt
      rw [hwithin.bytes b (.inr (by simp only [headerSize] at hstep; omega)), h.zero b hb hlt] }

omit hbs in
theorem carve_pass (hlt : entry blockSize addr (k + 2) < addr + mmapBlockSize) :
    carve blockSize addr ((k + 1) * (blockSize + headerSize)) m =
      carve blockSize addr ((k + 2) * (blockSize + headerSize))
        (if addr + mmapBlockSize < entry blockSize addr (k + 3) then
          setNext (carveNode blockSize (entry blockSize addr (k + 1))
            (entry blockSize addr (k + 2)) m) (entry blockSize addr (k + 1)) 0
        else carveNode blockSize (entry blockSize addr (k + 1))
        (entry blockSize addr (k + 2)) m) := by
  have htwo : (k + 2) * (blockSize + headerSize) = (k + 1) * (blockSize + headerSize) +
      (blockSize + headerSize) :=
    Nat.succ_mul (k + 1) _
  have hthree : (k + 3) * (blockSize + headerSize) = (k + 2) * (blockSize + headerSize) +
      (blockSize + headerSize) :=
    Nat.succ_mul (k + 2) _
  rw [entry] at hlt
  rw [carve_of_lt (by omega) haddr, ← htwo, ← hthree, Nat.add_assoc addr, ← htwo]
  have hover : (k + 3) * (blockSize + headerSize) > mmapBlockSize ↔
      addr + mmapBlockSize < entry blockSize addr (k + 3) := by
    rw [entry]
    omega
  simp only [hover]
  rfl

/-- All nodes that fit are put in their places. The link of the last one is cut
only where the chunk does not end with an entry. -/
theorem CarvedTo.carve (h : CarvedTo blockSize addr k (entry blockSize addr (k + 1)) m)
    (hlt : entry blockSize addr (k + 2) < addr + mmapBlockSize) :
    ∃ l, k < l ∧ entry blockSize addr (l + 1) < addr + mmapBlockSize ∧
    addr + mmapBlockSize ≤ entry blockSize addr (l + 2) ∧
      CarvedTo blockSize addr l
        (if addr + mmapBlockSize < entry blockSize addr (l + 2) then
          0 else entry blockSize addr (l + 1))
        (carve blockSize addr ((k + 1) * (blockSize + headerSize)) m) ∧
      (entry blockSize addr (l + 1) + 8, 8) ∈
      (carve blockSize addr ((k + 1) * (blockSize + headerSize)) m).written := by
  induction hd : addr + mmapBlockSize - entry blockSize addr (k + 2) using Nat.strong_induction_on
    generalizing k m with
  | _ d ih =>
      have hpass := h.succ hbs haddr hlt
      have hnull : (entry blockSize addr (k + 2) + 8, 8) ∈
          (carveNode blockSize (entry blockSize addr (k + 1))
            (entry blockSize addr (k + 2)) m).written :=
        List.mem_cons_of_mem _ List.mem_cons_self
      have hnext : entry blockSize addr (k + 3) = entry blockSize addr (k + 2) +
          (blockSize + headerSize) :=
        entry_succ (k + 2)
      have hoffset : entry blockSize addr (k + 2) = addr + (k + 2) * (blockSize + headerSize) := rfl
      rw [carve_pass haddr hlt]
      by_cases hmore : entry blockSize addr (k + 3) < addr + mmapBlockSize
      · rw [if_neg (by omega)]
        have hless : addr + mmapBlockSize - entry blockSize addr (k + 3) < d := by
          simp only [headerSize] at hnext
          omega
        obtain ⟨l, hl, hrest⟩ := ih _ hless hpass hmore rfl
        exact ⟨l, by omega, hrest⟩
      · rw [carve_of_ge (by omega)]
        refine ⟨k + 1, Nat.lt_succ_self k, hlt, Nat.not_lt.mp hmore, ?_⟩
        by_cases hover : addr + mmapBlockSize < entry blockSize addr (k + 3)
        · rw [if_pos hover, if_pos hover]
          exact ⟨hpass.cut hbs, List.mem_cons_of_mem _ hnull⟩
        · rw [if_neg hover, if_neg hover]
          exact ⟨hpass, hnull⟩

omit haddr hbs in
theorem room_behind {j : Nat} (hroom : 16 ≤ mmapBlockSize % (blockSize + headerSize))
    (hlt : entry blockSize addr j < addr + mmapBlockSize) :
    entry blockSize addr j + 16 ≤ addr + mmapBlockSize := by
  rw [entry] at hlt ⊢
  have hle : j ≤ mmapBlockSize / (blockSize + headerSize) := by
    rw [Nat.le_div_iff_mul_le (by simp only [headerSize]; omega)]
    omega
  have hmul := Nat.mul_le_mul_right (blockSize + headerSize) hle
  have hdiv := Nat.div_add_mod mmapBlockSize (blockSize + headerSize)
  rw [Nat.mul_comm] at hdiv
  omega

theorem carve_within (hroom : 16 ≤ mmapBlockSize % (blockSize + headerSize)) :
    m.Within addr (addr + mmapBlockSize)
    (carve blockSize addr ((k + 1) * (blockSize + headerSize)) m) := by
  induction hd : addr + mmapBlockSize - entry blockSize addr (k + 1) using Nat.strong_induction_on
    generalizing k m with
  | _ d ih =>
      have hnext : entry blockSize addr (k + 2) = entry blockSize addr (k + 1) +
          (blockSize + headerSize) :=
        entry_succ (k + 1)
      have hoffset : entry blockSize addr (k + 1) = addr + (k + 1) * (blockSize + headerSize) := rfl
      by_cases hlt : entry blockSize addr (k + 2) < addr + mmapBlockSize
      · have hless : addr + mmapBlockSize - entry blockSize addr (k + 2) < d := by
          simp only [headerSize] at hnext
          omega
        have hspace := room_behind hroom hlt
        rw [carve_pass haddr hlt]
        refine Memory.Within.trans ?_ (ih _ hless rfl)
        have hnode : m.Within addr (addr + mmapBlockSize)
            (carveNode blockSize (entry blockSize addr (k + 1))
              (entry blockSize addr (k + 2)) m) := by
          apply (carveNode_within (by omega)).mono
          · omega
          · omega
        split
        · exact hnode.trans (Memory.within_store (by omega) (by omega))
        · exact hnode
      · rw [carve_of_ge (by omega)]
        exact Memory.Within.refl _ _ m

end Passes

end Loop

section Chunk

variable {blockSize addr : Nat} {m : Memory} {list : MemoryNodeList}

/-- The chunk before the loop. -/
def firstNode (blockSize addr : Nat) (m : Memory) : Memory :=
  setUsableSpace (setNext (setSize ((mmap addr m).store addr 4 0x636261) addr blockSize) addr
    (addr + (headerSize + blockSize))) addr (addr + headerSize)

/-- The chunk after the loop. -/
def carvedChunk (blockSize addr : Nat) (m : Memory) : Memory :=
  carve blockSize addr ((0 + 1) * (blockSize + headerSize)) (firstNode blockSize addr m)

theorem addMemoryBlocksToList_eq (addr : Nat) (list : MemoryNodeList) (m : Memory) :
    addMemoryBlocksToList addr list m =
    (nodesFrom (carvedChunk list.blockSize addr m) addr).map fun _ =>
      ({ list with first := addr }, carvedChunk list.blockSize addr m) := by
  rw [carvedChunk, Nat.zero_add, Nat.one_mul, Nat.add_comm list.blockSize headerSize]
  rfl

theorem mmap_within (addr : Nat) (m : Memory) :
    m.Within addr (addr + mmapBlockSize) (mmap addr m) where
  written := fun _ => .inl
  bytes := by
    intro b hb
    simp only [mmap, if_neg (show ¬ (addr ≤ b ∧ b < addr + mmapBlockSize) by omega)]

theorem firstNode_within (blockSize addr : Nat) (m : Memory) :
    (mmap addr m).Within addr (addr + 24) (firstNode blockSize addr m) := by
  refine (((Memory.within_store ?_ ?_).trans (Memory.within_store ?_ ?_)).trans
    (Memory.within_store ?_ ?_)).trans (Memory.within_store ?_ ?_) <;> omega

/-- Block sizes for which the chunk is carved as it should be. -/
structure Room (blockSize : Nat) : Prop where
  large : 12 ≤ blockSize
  twice : 2 * (blockSize + headerSize) < mmapBlockSize
  rest : 16 ≤ mmapBlockSize % (blockSize + headerSize)

/-- The nodes that the loop makes of a chunk. -/
def chunkNodes (blockSize addr : Nat) : List Nat :=
  (List.range (mmapBlockSize / (blockSize + headerSize))).map (entry blockSize addr)

theorem Mapping.space (h : Mapping addr) : addr + mmapBlockSize ≤ addressSpace := by
  have hbound := h.bound
  simp only [addressSpace]
  omega

theorem Mapping.carvedTo (h : Mapping addr) (m : Memory) (hbs : 12 ≤ blockSize)
    (hle : blockSize + headerSize ≤ mmapBlockSize) :
    CarvedTo blockSize addr 0 (entry blockSize addr 1) (firstNode blockSize addr m) := by
  have hbound := h.bound
  have hone : entry blockSize addr 1 = addr + (blockSize + headerSize) := by
    rw [entry, Nat.one_mul]
  have hzero : ∀ j, j ≤ 0 → entry blockSize addr j = addr := by
    intro j hj
    obtain rfl := Nat.le_zero.mp hj
    rw [entry, Nat.zero_mul, Nat.add_zero]
  simp only [headerSize, mmapBlockSize] at hle hone hbound
  exact {
    size := by
      intro j hj
      rw [hzero j hj]
      apply nodeSize_of_load _ (by omega)
      rw [firstNode, setUsableSpace, Memory.load_store_of_disjoint (by omega), setNext,
        Memory.load_store_of_disjoint (by omega)]
      exact Memory.load_store (by omega)
    usable := by
      intro j hj
      rw [hzero j hj]
      exact Memory.load_store (by simp only [headerSize]; omega)
    next := fun j hj => absurd hj (Nat.not_lt_zero j)
    last := by
      rw [hzero 0 le_rfl, firstNode, TransientAllocator.next, setUsableSpace,
        Memory.load_store_of_disjoint (by omega)]
      refine (next_setNext ?_).trans ?_
      · simp only [headerSize, addressSpace]
        omega
      · rw [hone]
        simp only [headerSize]
        omega
    zero := by
      intro b hb hlt
      have hge : addr + (blockSize + (4 + 8)) ≤ b := hone ▸ hb
      rw [(firstNode_within blockSize addr m).bytes b (.inr (by omega))]
      exact if_pos ⟨by omega, hlt⟩ }

theorem linked_of_carvedTo {l j n : Nat} (h : CarvedTo blockSize addr l 0 m)
    (haddr : 0 < addr) (hj : j + n = l) :
    Linked m (entry blockSize addr j) ((List.range' j (n + 1)).map (entry blockSize addr)) := by
  have hne : ∀ j, entry blockSize addr j ≠ 0 := fun j => (Nat.add_pos_left haddr _).ne'
  induction n generalizing j with
  | zero =>
      obtain rfl : j = l := hj
      exact ⟨rfl, hne j, h.last⟩
  | succ n ih =>
      rw [List.range'_succ, List.map_cons]
      refine ⟨rfl, hne j, ?_⟩
      rw [h.next j (by omega)]
      exact ih (by omega)

theorem Mapping.carve (h : Mapping addr) (m : Memory) (hroom : Room blockSize) :
    ∃ l, mmapBlockSize / (blockSize + headerSize) = l + 1 ∧ entry blockSize addr (l + 1) <
    addr + mmapBlockSize ∧
      CarvedTo blockSize addr l 0 (carvedChunk blockSize addr m) := by
  have htwice := hroom.twice
  have hrest := hroom.rest
  have hpos : 0 < blockSize + headerSize := by
    simp only [headerSize]
    omega
  have hfirst := h.carvedTo m hroom.large (by omega)
  obtain ⟨l, -, hlt, hle, hcarved, -⟩ := hfirst.carve hroom.large h.space (by rw [entry]; omega)
  have hover : addr + mmapBlockSize < entry blockSize addr (l + 2) := by
    refine lt_of_le_of_ne hle fun he => ?_
    rw [Nat.add_left_cancel he, Nat.mul_mod_left] at hrest
    omega
  rw [if_pos hover] at hcarved
  refine ⟨l, ?_, hlt, hcarved⟩
  rw [entry] at hlt hover
  exact Nat.div_eq_of_lt_le (by omega)
    (show mmapBlockSize < (l + 2) * (blockSize + headerSize) by omega)

theorem spaced_chunkNodes (h : Mapping addr) (hroom : Room blockSize) :
    Spaced (chunkNodes blockSize addr) := by
  have hlarge := hroom.large
  have hspace := h.space
  obtain ⟨l, hl, hlt, -⟩ := h.carve { bytes := fun _ => 0 } hroom
  rw [chunkNodes, hl]
  refine ⟨?_, fun n hn => ?_⟩
  · rw [List.pairwise_map]
    apply List.pairwise_lt_range.imp
    intro i j hij
    have hle := @entry_lt blockSize addr i j hij
    simp only [headerSize] at hle
    exact .inl (by omega)
  · obtain ⟨j, hj, rfl⟩ := List.mem_map.mp hn
    have hle := @entry_lt blockSize addr j (l + 1) (List.mem_range.mp hj)
    simp only [headerSize] at hle
    omega

theorem addMemoryBlocksToList_room (h : Mapping addr) (hroom : Room list.blockSize) :
    ∃ m', addMemoryBlocksToList addr list m = some ({ list with first := addr }, m') ∧
      m.Within addr (addr + mmapBlockSize) m' ∧ Linked m' addr (chunkNodes list.blockSize addr) ∧
      Entries list.blockSize addr m' (chunkNodes list.blockSize addr) := by
  have hspaced := spaced_chunkNodes h hroom
  obtain ⟨l, hl, hlt, hcarved⟩ := h.carve m hroom
  have hnodes : chunkNodes list.blockSize addr = (List.range' 0 (l + 1)).map
      (entry list.blockSize addr) := by
    rw [chunkNodes, hl, List.range_eq_range']
  have hlinked : Linked (carvedChunk list.blockSize addr m) addr
      (chunkNodes list.blockSize addr) := by
    have hchain := linked_of_carvedTo hcarved h.pos (Nat.zero_add l)
    rwa [entry, Nat.zero_mul, Nat.add_zero, ← hnodes] at hchain
  refine ⟨_, ?_, ?_, hlinked, ?_⟩
  · rw [addMemoryBlocksToList_eq, nodesFrom_eq hlinked hspaced]
    rfl
  · have hfirst : (mmap addr m).Within addr (addr + mmapBlockSize)
        (firstNode list.blockSize addr m) :=
      (firstNode_within list.blockSize addr m).mono le_rfl (Nat.add_le_add_left (by decide) addr)
    rw [carvedChunk]
    exact ((mmap_within addr m).trans hfirst).trans (carve_within hroom.large h.space hroom.rest)
  · rw [chunkNodes, hl]
    exact {
      inside := by
        intro n hn
        obtain ⟨j, hj, rfl⟩ := List.mem_map.mp hn
        have hle := @entry_lt list.blockSize addr j (l + 1) (List.mem_range.mp hj)
        exact ⟨Nat.le_add_right _ _, by omega⟩
      disjoint := by
        rw [List.pairwise_map]
        apply List.pairwise_lt_range.imp
        intro i j hij
        have hle := @entry_lt list.blockSize addr i j hij
        exact .inl (by omega)
      size := by
        intro n hn
        obtain ⟨j, hj, rfl⟩ := List.mem_map.mp hn
        exact hcarved.size j (Nat.lt_succ_iff.mp (List.mem_range.mp hj))
      usable := by
        intro n hn
        obtain ⟨j, hj, rfl⟩ := List.mem_map.mp hn
        exact hcarved.usable j (Nat.lt_succ_iff.mp (List.mem_range.mp hj)) }

theorem Carves.nodes (h : Carves list addr m) (haddr : 0 < addr) :
    m.Within addr (addr + mmapBlockSize) (carvedChunk list.blockSize addr m) ∧
      ∃ nodes, addr ∈ nodes ∧ Linked (carvedChunk list.blockSize addr m) addr nodes ∧
        Entries list.blockSize addr (carvedChunk list.blockSize addr m) nodes := by
  obtain ⟨list', m', heq, hwithin, nodes, hlinked, hentries⟩ := h
  rw [addMemoryBlocksToList_eq] at heq
  obtain ⟨-, -, hresult⟩ := Option.map_eq_some_iff.mp heq
  obtain ⟨rfl, rfl⟩ := Prod.mk.inj hresult
  refine ⟨hwithin, nodes, ?_, hlinked, hentries⟩
  cases nodes with
  | nil => exact absurd hlinked haddr.ne'
  | cons n nodes =>
      obtain ⟨hfirst, -⟩ := hlinked
      exact List.mem_cons.mpr (.inl hfirst)

theorem nodeSize_zero {node : Nat} (h : ∀ i < 4, m.bytes (node + i) = 0) : nodeSize m node = 0 := by
  exact nodeSize_of_load (Memory.load_zero h) (by decide)

/-- The node that the first one links to is not carved where the loop has no
pass. -/
theorem Carves.twice (h : Carves list addr m) (hm : Mapping addr) (hbs : 12 ≤ list.blockSize)
    (hle : list.blockSize + headerSize ≤ mmapBlockSize) :
    2 * (list.blockSize + headerSize) < mmapBlockSize := by
  by_contra hge
  obtain ⟨-, nodes, haddr, hlinked, hentries⟩ := h.nodes hm.pos
  have hfirst := hm.carvedTo m hbs hle
  have hchunk : carvedChunk list.blockSize addr m = firstNode list.blockSize addr m := by
    rw [carvedChunk, carve_of_ge (by omega)]
  have hzero : entry list.blockSize addr 0 = addr := by
    rw [entry, Nat.zero_mul, Nat.add_zero]
  have hone : entry list.blockSize addr 1 = addr + (list.blockSize + headerSize) := by
    rw [entry, Nat.one_mul]
  have hpos := hm.pos
  rw [hchunk] at hlinked hentries
  have hnext : next (firstNode list.blockSize addr m) addr = entry list.blockSize addr 1 := by
    rw [← hfirst.last, hzero]
  have hmem : entry list.blockSize addr 1 ∈ nodes := by
    rw [← hnext]
    exact LinkedList.Chain.next_mem hlinked haddr (by rw [hnext, hone]; omega)
  have hinside := (hentries.inside _ hmem).2
  have hsize := hentries.size _ hmem
  have hbytes : ∀ i < 4, (firstNode list.blockSize addr m).bytes
      (entry list.blockSize addr 1 + i) = 0 := by
    intro i hi
    apply hfirst.zero
    · exact Nat.le_add_right _ i
    · omega
  rw [nodeSize_zero hbytes] at hsize
  omega

/-- Behind the last node there is room for the link that the loop clears, and
more than an entry that it leaves uncarved. -/
theorem Carves.rest (h : Carves list addr m) (hm : Mapping addr) (hwritten : m.written = [])
    (hbs : 12 ≤ list.blockSize)
    (htwice : 2 * (list.blockSize + headerSize) < mmapBlockSize) :
    16 ≤ mmapBlockSize % (list.blockSize + headerSize) := by
  obtain ⟨hwithin, nodes, haddr, hlinked, hentries⟩ := h.nodes hm.pos
  have hfirst := hm.carvedTo m hbs (by omega)
  have hpos := hm.pos
  obtain ⟨l, -, hlt, hle, hcarved, hnull⟩ := hfirst.carve hbs hm.space (by rw [entry]; omega)
  have hroom : entry list.blockSize addr (l + 1) + 16 ≤ addr + mmapBlockSize := by
    rcases hwithin.written _ hnull with hold | hinside
    · rw [hwritten] at hold
      cases hold
    · omega
  rcases hle.lt_or_eq with hover | hfull
  · have hdiv : mmapBlockSize / (list.blockSize + headerSize) = l + 1 := by
      rw [entry] at hlt hover
      exact Nat.div_eq_of_lt_le (by omega)
        (show mmapBlockSize < (l + 2) * (list.blockSize + headerSize) by omega)
    have hmod := Nat.div_add_mod mmapBlockSize (list.blockSize + headerSize)
    rw [hdiv, Nat.mul_comm] at hmod
    rw [entry] at hroom
    omega
  · -- the last node links to one more entry, which was not carved
    rw [if_neg (by omega)] at hcarved
    have hmem : ∀ j ≤ l + 1, entry list.blockSize addr j ∈ nodes := by
      intro j hj
      induction j with
      | zero =>
          rw [entry, Nat.zero_mul, Nat.add_zero]
          exact haddr
      | succ j ih =>
          have hnext : next (carvedChunk list.blockSize addr m) (entry list.blockSize addr j) =
              entry list.blockSize addr (j + 1) := by
            rcases (Nat.lt_succ_iff.mp hj).lt_or_eq with hlt' | rfl
            · exact hcarved.next j hlt'
            · exact hcarved.last
          rw [← hnext]
          refine LinkedList.Chain.next_mem hlinked (ih (by omega)) ?_
          rw [hnext, entry]
          omega
    have hsize := hentries.size _ (hmem (l + 1) le_rfl)
    have hzero := nodeSize_zero fun i hi => hcarved.zero _ (Nat.le_add_right _ i) (by omega)
    rw [carvedChunk, hzero] at hsize
    omega

theorem carve_low {offset b : Nat} (hb : b < addr + offset)
    (hspace : addr + mmapBlockSize ≤ addressSpace) :
    (carve blockSize addr offset m).bytes b = m.bytes b := by
  induction hd : mmapBlockSize - offset using Nat.strong_induction_on generalizing offset m with
  | _ d ih =>
      by_cases hlt : offset + (blockSize + headerSize) < mmapBlockSize
      · have hnode : (carveNode blockSize (addr + offset)
            (addr + offset + (blockSize + headerSize)) m).bytes b = m.bytes b := by
          rw [carveNode, setUsableSpace, Memory.store_of_not_mem (by omega), setNext,
            Memory.store_of_not_mem (by omega),
            setNext, Memory.store_of_not_mem (by omega), setSize,
            Memory.store_of_not_mem (by omega)]
        rw [carve_of_lt hlt hspace, ih _ (by simp only [headerSize] at hlt ⊢; omega) (by omega) rfl]
        split
        · rw [setNext, Memory.store_of_not_mem (by omega), hnode]
        · exact hnode
      · rw [carve_of_ge (by omega)]

/-- The size of the second node is written over the end of the first one when the
blocks are small. -/
theorem carvedChunk_overlap {i : Nat} (hi : i < 4)
    (hsmall : 2 * (blockSize + headerSize) < mmapBlockSize)
    (hspace : addr + mmapBlockSize ≤ addressSpace) :
    (carvedChunk blockSize addr m).bytes (addr + (blockSize + headerSize) + i) = UInt8.ofNat
    (blockSize / 256 ^ i) := by
  have hnode : (carveNode blockSize (addr + (blockSize + headerSize))
      (addr + (blockSize + headerSize) + (blockSize + headerSize))
      (firstNode blockSize addr m)).bytes
        (addr + (blockSize + headerSize) + i) = UInt8.ofNat (blockSize / 256 ^ i) := by
    rw [carveNode, setUsableSpace, Memory.store_of_not_mem (by omega), setNext,
      Memory.store_of_not_mem (by omega),
      setNext, Memory.store_of_not_mem (by omega), setSize, Memory.store, Memory.overwrite_of_lt hi]
  rw [carvedChunk, Nat.zero_add, Nat.one_mul, carve_of_lt (by omega) hspace,
    carve_low (by simp only [headerSize]; omega) hspace]
  split
  · rw [setNext, Memory.store_of_not_mem (by omega), hnode]
  · exact hnode

/-- An address that differs from every small size in the byte that is written
over. -/
theorem mapping_far : Mapping (2 ^ 46) := ⟨by decide, by decide, by decide⟩

theorem Carves.large (h : Carves list (2 ^ 46) m) (hpos : 1 ≤ list.blockSize) :
    12 ≤ list.blockSize := by
  by_contra hsmall
  obtain ⟨-, nodes, haddr, -, hentries⟩ := h.nodes (by decide)
  have hspace := mapping_far.space
  have husable := hentries.usable _ haddr
  have hbyte : ∀ j < 8, ((carvedChunk list.blockSize (2 ^ 46) m).bytes (2 ^ 46 + 16 + j)).toNat =
      (2 ^ 46 + headerSize) / 256 ^ j % 256 := by
    intro j hj
    rw [← husable]
    exact Memory.byte_of_load hj
  have hover : ∀ i < 4, ((carvedChunk list.blockSize (2 ^ 46) m).bytes
      (2 ^ 46 + (list.blockSize + headerSize) + i)).toNat = list.blockSize / 256 ^ i % 256 := by
    intro i hi
    rw [carvedChunk_overlap hi (by simp only [headerSize, mmapBlockSize]; omega) hspace,
      UInt8.toNat_ofNat']
  have hsame : ∀ i < 4, ∀ j < 8, list.blockSize + i = 4 + j →
      list.blockSize / 256 ^ i % 256 = (2 ^ 46 + 12) / 256 ^ j % 256 := by
    intro i hi j hj hij
    have haddress : 2 ^ 46 + (list.blockSize + headerSize) + i = 2 ^ 46 + 16 + j := by
      simp only [headerSize]
      omega
    have := hover i hi
    rw [haddress, hbyte j hj] at this
    exact this.symm
  revert hsame hpos
  generalize list.blockSize = size at hsmall
  intro hpos hsame
  by_cases hfour : size < 4
  · have hfirst := hsame (4 - size) (by omega) 0 (by decide) (by omega)
    interval_cases size <;> simp at hfirst
  · have hlower := hsame 0 (by decide) (size - 4) (by omega) (by omega)
    interval_cases size <;> simp at hlower

/-- A chunk is carved into separate entries, whatever its address, if and only if
there is room in an entry for a `memory_node`, in a chunk for more than two
entries, and behind the last entry for the link that the loop clears. -/
theorem chunk_carved_iff (list : MemoryNodeList) (hpos : 1 ≤ list.blockSize)
    (hle : list.blockSize + headerSize ≤ mmapBlockSize) :
    (∀ addr m, Mapping addr → m.written = [] → Carves list addr m) ↔ Room list.blockSize := by
  constructor
  · intro h
    have hcarves := h _ { bytes := fun _ => 0 } mapping_far rfl
    have hlarge := hcarves.large hpos
    have htwice := hcarves.twice mapping_far hlarge hle
    exact ⟨hlarge, htwice, hcarves.rest mapping_far rfl hlarge htwice⟩
  · intro hroom addr m hm _
    obtain ⟨m', heq, hwithin, hlinked, hentries⟩ := addMemoryBlocksToList_room hm hroom
    exact ⟨_, m', heq, hwithin, _, hlinked, hentries⟩

theorem chunk_carved_iff_largest :
    Room 16384 ∧ ∀ addr m, Mapping addr → m.written = [] → Carves ⟨16384, 0⟩ addr m := by
  have hroom : Room 16384 := ⟨by decide, by decide, by decide⟩
  exact ⟨hroom, (chunk_carved_iff ⟨16384, 0⟩ (by decide) (by decide)).mpr hroom⟩

theorem not_chunk_carved : Mapping (2 ^ 46) ∧ ¬ Carves ⟨8, 0⟩ (2 ^ 46) { bytes := fun _ => 0 } := by
  refine ⟨mapping_far, fun h => ?_⟩
  have hlarge : 12 ≤ 8 := h.large (by decide)
  exact absurd hlarge (by decide)

end Chunk

end Mangosteen.Carving
