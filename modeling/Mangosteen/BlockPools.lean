import Mangosteen.Carving

namespace Mangosteen.BlockPools

open ByteMemory TransientAllocator Carving

/-- What the users of the allocator do. A call of `alloc` comes with the address
that `mmap` returns if it is called. -/
inductive Call
  | alloc (size addr : Nat)
  | free (ptr : Nat)
  | write (ptr offset width : Nat) (contents : Nat → UInt8)

/-- The allocator, with the pointers that are in use and the chunks that were
mapped. Both come with the index of their list. -/
structure Heap where
  allocator : Allocator
  memory : Memory
  live : List (Nat × Nat) := []
  chunks : List (Nat × Nat) := []

def start (m : Memory) : Heap := { allocator := initialiseAllocator, memory := m }

def perform : Call → Heap → Option Heap
  | .alloc size addr, h => do
      let index ← getBlockIndex size
      let list ← h.allocator.pMemoryNodeList[index]?
      let (ptr, allocator, memory) ← alloc h.allocator size addr h.memory
      some { allocator, memory
             live := (ptr, index) :: h.live
             chunks := if listIsEmpty list then (addr, index) :: h.chunks else h.chunks }
  | .free ptr, h => do
      let (allocator, memory) ← free h.allocator ptr h.memory
      some { h with allocator, memory, live := h.live.filter (·.1 ≠ ptr) }
  | .write ptr offset width contents, h =>
      some { h with memory := h.memory.overwrite (ptr + offset) width contents }

def performAll : List Call → Heap → Option Heap
  | [], h => some h
  | x :: xs, h => (perform x h).bind (performAll xs)

/-- Every call of a run meets a condition on the heap before it. -/
def Along (ok : Call → Heap → Prop) : List Call → Heap → Prop
  | [], _ => True
  | x :: xs, h => ok x h ∧ ∀ h', perform x h = some h' → Along ok xs h'

/-- A call of `alloc` for a size has to map a chunk. -/
def Grows (size : Nat) (h : Heap) : Prop :=
  ∃ index list, getBlockIndex size = some index ∧ h.allocator.pMemoryNodeList[index]? = some list ∧
  listIsEmpty list = true

/-- New pages are not among those that were mapped before. -/
def Fresh (addr : Nat) (h : Heap) : Prop :=
  Mapping addr ∧ ∀ c ∈ h.chunks, c.1 + mmapBlockSize ≤ addr ∨ addr + mmapBlockSize ≤ c.1

/-- Sizes from some set, and no use of a block by others than its owner. -/
def Proper (sizes : Nat → Prop) : Call → Heap → Prop
  | .alloc size addr, h => sizes size ∧ (Grows size h → Fresh addr h)
  | .free ptr, h => ∃ index, (ptr, index) ∈ h.live
  | .write ptr offset width _, h => ∃ index list, (ptr, index) ∈ h.live ∧
      h.allocator.pMemoryNodeList[index]? = some list ∧ offset + width ≤ list.blockSize

def Call.Writes : Call → Prop
  | .write .. => True
  | _ => False

/-- A block is freed with its own address in it, behind its first four bytes. -/
def Kept : Call → Heap → Prop
  | .free ptr, h => h.memory.load (ptr + 4) 8 = ptr
  | _, _ => True

/-- The queues of nodes that the lists stand for, and the nodes in use. Nothing
here depends on the contents of a block. -/
structure Pools where
  free : Nat → List Nat := fun _ => []
  live : List (Nat × Nat) := []

def Pools.take (p : Pools) (index : Nat) : Pools :=
  match p.free index with
  | [] => p
  | node :: nodes => { free := Function.update p.free index nodes, live := (node, index) :: p.live }

def Pools.put (p : Pools) (node index : Nat) : Pools where
  free := Function.update p.free index (p.free index ++ [node])
  live := p.live.filter (·.1 ≠ node)

/-- An empty queue is filled with the nodes of a new chunk. -/
def Pools.grow (p : Pools) (index addr : Nat) : Pools :=
  if p.free index = [] then
    { p with free := Function.update p.free index (chunkNodes (2 ^ index) addr) } else p

def Pools.step (p : Pools) : Call → Pools
  | .alloc size addr => (p.grow (Nat.clog 2 size) addr).take (Nat.clog 2 size)
  | .free ptr =>
      match p.live.find? (·.1 + headerSize = ptr) with
      | none => p
      | some x => p.put x.1 x.2
  | .write .. => p

section Queues

variable {p : Pools} {node index i : Nat} {nodes : List Nat}

theorem Pools.take_eq (h : p.free index = node :: nodes) :
    p.take index =
    { free := Function.update p.free index nodes, live := (node, index) :: p.live } := by
  simp only [Pools.take, h]

theorem Pools.put_free_self : (p.put node index).free index = p.free index ++ [node] :=
  Function.update_self index _ _

theorem Pools.put_free_of_ne (h : i ≠ index) : (p.put node index).free i = p.free i :=
  Function.update_of_ne h _ _

theorem Pools.grow_of_ne_nil {addr : Nat} (h : p.free index ≠ []) :
    p.grow index addr = p := if_neg h

theorem Pools.grow_of_eq_nil {addr : Nat} (h : p.free index = []) :
    p.grow index addr =
    { p with free := Function.update p.free index (chunkNodes (2 ^ index) addr) } := if_pos h

end Queues

def Pools.run (p : Pools) (xs : List Call) : Pools := xs.foldl Pools.step p

section Carved

variable {blockSize addr n n' : Nat} {chunks : List (Nat × Nat)} {x y : Nat × Nat}

theorem chunkNodes_inside (h : n ∈ chunkNodes blockSize addr) :
    addr ≤ n ∧ n + (blockSize + headerSize) ≤ addr + mmapBlockSize := by
  obtain ⟨j, hj, rfl⟩ := List.mem_map.mp h
  have hle := @entry_lt blockSize addr j _ (List.mem_range.mp hj)
  have hmul := Nat.div_mul_le_self mmapBlockSize (blockSize + headerSize)
  refine ⟨Nat.le_add_right _ _, hle.trans ?_⟩
  exact Nat.add_le_add_left hmul addr

theorem chunkNodes_apart (h : n ∈ chunkNodes blockSize addr) (h' : n' ∈ chunkNodes blockSize addr)
    (hne : n ≠ n') : n + (blockSize + headerSize) ≤ n' ∨ n' + (blockSize + headerSize) ≤ n := by
  obtain ⟨i, -, rfl⟩ := List.mem_map.mp h
  obtain ⟨j, -, rfl⟩ := List.mem_map.mp h'
  rcases Nat.lt_trichotomy i j with hlt | rfl | hlt
  · exact .inl (entry_lt hlt)
  · exact absurd rfl hne
  · exact .inr (entry_lt hlt)

theorem nodup_chunkNodes : (chunkNodes blockSize addr).Nodup := by
  rw [chunkNodes, List.nodup_map_iff_inj_on List.nodup_range]
  intro i _ j _ he
  by_contra hne
  rcases Nat.lt_or_gt_of_ne hne with hlt | hlt
  · have hle := @entry_lt blockSize addr i j hlt
    simp only [headerSize] at hle
    omega
  · have hle := @entry_lt blockSize addr j i hlt
    simp only [headerSize] at hle
    omega

/-- The nodes of the chunks, each with the index of its list. -/
def Carved (chunks : List (Nat × Nat)) (x : Nat × Nat) : Prop :=
  ∃ addr, (addr, x.2) ∈ chunks ∧ x.1 ∈ chunkNodes (2 ^ x.2) addr

/-- Chunks that are no two the same pages, mapped for lists whose blocks have
room. -/
structure Chunked (chunks : List (Nat × Nat)) : Prop where
  mapping : ∀ c ∈ chunks, Mapping c.1
  index : ∀ c ∈ chunks, 4 ≤ c.2 ∧ c.2 ≤ 14
  disjoint : ∀ c ∈ chunks, ∀ d ∈ chunks, c ≠ d → c.1 + mmapBlockSize ≤ d.1 ∨
    d.1 + mmapBlockSize ≤ c.1

theorem room_pow {i : Nat} (hi : 4 ≤ i ∧ i ≤ 14) : Room (2 ^ i) := by
  obtain ⟨hlow, hhigh⟩ := hi
  interval_cases i <;> exact ⟨by decide, by decide, by decide⟩

theorem Carved.bound (h : Carved chunks x) (hc : Chunked chunks) :
    0 < x.1 ∧ x.1 + 24 ≤ addressSpace := by
  obtain ⟨addr, haddr, hx⟩ := h
  have hmap := hc.mapping _ haddr
  have hpos := hmap.pos
  have hspace := hmap.space
  have hlarge : 12 ≤ 2 ^ x.2 := (room_pow (hc.index _ haddr)).large
  have hinside := chunkNodes_inside hx
  simp only [headerSize] at hinside hpos
  exact ⟨by omega, by omega⟩

theorem Carved.disjoint (hx : Carved chunks x) (hy : Carved chunks y)
    (hc : Chunked chunks) (hne : x ≠ y) :
    x.1 + (2 ^ x.2 + headerSize) ≤ y.1 ∨ y.1 + (2 ^ y.2 + headerSize) ≤ x.1 := by
  obtain ⟨addr, haddr, hx⟩ := hx
  obtain ⟨addr', haddr', hy⟩ := hy
  by_cases hsame : (addr, x.2) = (addr', y.2)
  · obtain ⟨rfl, hindex⟩ := Prod.mk.inj hsame
    rw [← hindex] at hy ⊢
    exact chunkNodes_apart hx hy fun hnode => hne (Prod.ext hnode hindex)
  · have hchunks := hc.disjoint _ haddr _ haddr' hsame
    have hinside := chunkNodes_inside hx
    have hinside' := chunkNodes_inside hy
    dsimp only at hchunks
    omega

theorem Carved.header (hx : Carved chunks x) (hc : Chunked chunks) : 24 ≤ 2 ^ x.2 + headerSize := by
  obtain ⟨addr, haddr, -⟩ := hx
  have hlarge := (room_pow (hc.index _ haddr)).large
  simp only [headerSize] at hlarge ⊢
  omega

theorem Carved.apart (hx : Carved chunks x) (hy : Carved chunks y)
    (hc : Chunked chunks) (hne : x ≠ y) : Apart x.1 y.1 := by
  have hdisjoint := hx.disjoint hy hc hne
  have hheader := hx.header hc
  have hheader' := hy.header hc
  rw [Apart]
  omega

end Carved

/-- The lists of a heap stand for the queues. All nodes know their sizes, and
their blocks too unless these are in use and were written to. -/
structure Represents (p : Pools) (dirty : Set (Nat × Nat)) (first : Nat → Nat) (h : Heap) :
    Prop where
  lists : h.allocator.pMemoryNodeList = (List.range maxBlockPow).map fun i => ⟨1 <<< i, first i⟩
  linked : ∀ i, Linked h.memory (first i) (p.free i)
  live : h.live = p.live.map fun x => (x.1 + headerSize, x.2)
  chunked : Chunked h.chunks
  carved_live : ∀ x ∈ p.live, Carved h.chunks x
  carved_free : ∀ i, ∀ n ∈ p.free i, Carved h.chunks (n, i)
  nodup : ∀ i, (p.free i).Nodup
  unused : ∀ i, ∀ n ∈ p.free i, (n, i) ∉ p.live
  size : ∀ x, Carved h.chunks x → nodeSize h.memory x.1 = (2 ^ x.2 : Nat)
  dirty_live : ∀ x ∈ dirty, x ∈ p.live
  usable : ∀ x, Carved h.chunks x → x ∉ dirty → usableSpace h.memory x.1 = x.1 + headerSize

theorem linked_update {m : Memory} {first : Nat → Nat} {free : Nat → List Nat}
    {i f : Nat} {nodes : List Nat}
    (hi : Linked m f nodes) (hrest : ∀ j, j ≠ i → Linked m (first j) (free j)) (j : Nat) :
    Linked m (Function.update first i f j) (Function.update free i nodes j) := by
  by_cases he : j = i
  · subst he
    rw [Function.update_self, Function.update_self]
    exact hi
  · rw [Function.update_of_ne he, Function.update_of_ne he]
    exact hrest j he

theorem represents_start (m : Memory) : Represents {} ∅ (fun _ => 0) (start m) where
  lists := rfl
  linked := fun _ => rfl
  live := rfl
  chunked := ⟨by simp [start], by simp [start], by simp [start]⟩
  carved_live := by simp
  carved_free := by simp
  nodup := fun _ => .nil
  unused := by simp
  size := by
    rintro x ⟨addr, haddr, -⟩
    cases haddr
  dirty_live := fun x hx => absurd hx (Set.notMem_empty x)
  usable := by
    rintro x ⟨addr, haddr, -⟩
    cases haddr

section Calls

variable {p : Pools} {dirty : Set (Nat × Nat)} {first : Nat → Nat} {h : Heap} {i n : Nat}
  (hr : Represents p dirty first h)
include hr

theorem Represents.list (hi : i < maxBlockPow) :
    h.allocator.pMemoryNodeList[i]? = some ⟨1 <<< i, first i⟩ := by
  rw [hr.lists, List.getElem?_map, List.getElem?_range hi]
  rfl

theorem Represents.set (i f : Nat) :
    h.allocator.pMemoryNodeList.set i ⟨1 <<< i, f⟩ =
      (List.range maxBlockPow).map fun j => ⟨1 <<< j, Function.update first i f j⟩ := by
  rw [hr.lists]
  apply List.ext_getElem?
  intro j
  by_cases hj : j < maxBlockPow
  · by_cases he : i = j
    · subst he
      rw [List.getElem?_set_self (by simpa using hj), List.getElem?_map, List.getElem?_range hj]
      simp
    · rw [List.getElem?_set_ne he, List.getElem?_map, List.getElem?_map, List.getElem?_range hj]
      simp [Function.update_of_ne (Ne.symm he)]
  · rw [List.getElem?_eq_none (by simpa using hj), List.getElem?_eq_none (by simpa using hj)]

theorem Represents.empty_iff (i : Nat) : listIsEmpty ⟨1 <<< i, first i⟩ = true ↔ p.free i = [] :=
  @listIsEmpty_iff _ ⟨1 <<< i, first i⟩ _ (hr.linked i)

theorem Represents.ne_of_free {x : Nat × Nat} (hx : x ∈ p.live) (hn : n ∈ p.free i) :
    (n, i) ≠ x := by
  rintro rfl
  exact hr.unused i n hn hx

theorem Represents.mem_live {ptr : Nat} (hptr : (ptr, i) ∈ h.live) :
    ∃ n, (n, i) ∈ p.live ∧ ptr = n + headerSize := by
  rw [hr.live] at hptr
  obtain ⟨x, hx, he⟩ := List.mem_map.mp hptr
  obtain ⟨rfl, rfl⟩ := Prod.mk.inj he
  exact ⟨x.1, hx, rfl⟩

theorem Represents.not_live (hn : n ∈ p.free i) : ∀ x ∈ h.live, x.1 ≠ n + headerSize := by
  intro x hx he
  obtain ⟨k, hk, hkx⟩ := hr.mem_live hx
  obtain rfl : k = n := Nat.add_right_cancel (hkx.symm.trans he)
  refine (Carved.apart (hr.carved_free i k hn) (hr.carved_live _ hk) hr.chunked ?_).ne rfl
  exact hr.ne_of_free hk hn

theorem Represents.usable_free (hn : n ∈ p.free i) : usableSpace h.memory n = n + headerSize :=
  hr.usable (n, i) (hr.carved_free i n hn) fun hd => hr.unused i n hn (hr.dirty_live _ hd)

theorem Represents.write {offset width : Nat} {contents : Nat → UInt8} (hn : (n, i) ∈ p.live)
    (hwidth : offset + width ≤ 2 ^ i) : Represents p (insert (n, i) dirty) first
      { h with memory := h.memory.overwrite (n + headerSize + offset) width contents } := by
  have hcarved := hr.carved_live _ hn
  have hwithin : h.memory.Within (n + headerSize) (n + (2 ^ i + headerSize))
      (h.memory.overwrite (n + headerSize + offset) width contents) :=
    Memory.within_overwrite (by omega) (by omega)
  -- a block in use is no part of the header of another node
  have houtside : ∀ x, Carved h.chunks x → x ≠ (n, i) → x.1 + 24 ≤ n + headerSize ∨
      n + (2 ^ i + headerSize) ≤ x.1 := by
    intro x hx hne
    have hdisjoint := hx.disjoint hcarved hr.chunked hne
    have hheader := hx.header hr.chunked
    dsimp only at hdisjoint
    omega
  exact {
    lists := hr.lists
    linked := by
      intro j
      refine LinkedList.Chain.congr (hr.linked j) fun k hk => hwithin.load ?_
      have hout := houtside _ (hr.carved_free j k hk) (hr.ne_of_free hn hk)
      dsimp only at hout
      omega
    live := hr.live
    chunked := hr.chunked
    carved_live := hr.carved_live
    carved_free := hr.carved_free
    nodup := hr.nodup
    unused := hr.unused
    size := by
      intro x hx
      rw [← hr.size x hx]
      apply nodeSize_congr
      apply hwithin.load
      by_cases he : x = (n, i)
      · subst he
        simp only [headerSize]
        omega
      · have hout := houtside x hx he
        omega
    dirty_live := by
      rintro x (rfl | hx)
      · exact hn
      · exact hr.dirty_live x hx
    usable := by
      intro x hx hclean
      obtain ⟨hne, hclean⟩ := not_or.mp hclean
      rw [← hr.usable x hx hclean]
      refine hwithin.load ?_
      have hout := houtside x hx hne
      omega }

theorem Represents.take {nodes : List Nat} (hfree : p.free i = n :: nodes) :
    popMemoryBlock ⟨1 <<< i, first i⟩ h.memory = some (n + headerSize, ⟨1 <<< i, next h.memory n⟩) ∧
      Represents (p.take i) dirty (Function.update first i (next h.memory n)) { h with
        allocator := ⟨h.allocator.pMemoryNodeList.set i ⟨1 <<< i, next h.memory n⟩⟩
        live := (n + headerSize, i) :: h.live } := by
  have hn : n ∈ p.free i := by
    rw [hfree]
    exact List.mem_cons_self
  have hlinked := hr.linked i
  have hnodup := hr.nodup i
  rw [hfree] at hlinked hnodup
  obtain ⟨hpop, htail⟩ := @popMemoryBlock_eq _ ⟨1 <<< i, first i⟩ _ _ hlinked
  rw [hr.usable_free hn] at hpop
  -- what is left in a queue was there before, and is not the node that was taken
  have hmem : ∀ j, ∀ k ∈ Function.update p.free i nodes j, k ∈ p.free j ∧ (k, j) ≠ (n, i) := by
    intro j k hk
    by_cases he : j = i
    · subst he
      rw [Function.update_self] at hk
      refine ⟨by rw [hfree]; exact List.mem_cons_of_mem n hk, fun heq => ?_⟩
      obtain rfl := (Prod.mk.inj heq).1
      exact (List.nodup_cons.mp hnodup).1 hk
    · rw [Function.update_of_ne he] at hk
      exact ⟨hk, fun heq => he (Prod.mk.inj heq).2⟩
  refine ⟨hpop, ?_⟩
  rw [Pools.take_eq hfree]
  exact {
    lists := hr.set i _
    linked := linked_update htail fun j _ => hr.linked j
    live := by rw [hr.live]; rfl
    chunked := hr.chunked
    carved_live := List.forall_mem_cons.mpr ⟨hr.carved_free i n hn, hr.carved_live⟩
    carved_free := fun j k hk => hr.carved_free j k (hmem j k hk).1
    nodup := (Function.forall_update_iff p.free fun _ nodes => nodes.Nodup).mpr
      ⟨(List.nodup_cons.mp hnodup).2, fun j _ => hr.nodup j⟩
    unused := by
      intro j k hk hlive
      rcases List.mem_cons.mp hlive with heq | hlive
      · exact (hmem j k hk).2 heq
      · exact hr.unused j k (hmem j k hk).1 hlive
    size := hr.size
    dirty_live := fun x hx => List.mem_cons_of_mem _ (hr.dirty_live x hx)
    usable := hr.usable }

theorem Represents.put (hn : (n, i) ∈ p.live) (hkept : usableSpace h.memory n = n + headerSize) :
    ∃ f m, pushBlock ⟨1 <<< i, first i⟩ (n + headerSize) h.memory = some (⟨1 <<< i, f⟩, m) ∧
      Represents (p.put n i) (dirty \ {(n, i)}) (Function.update first i f) { h with
        allocator := ⟨h.allocator.pMemoryNodeList.set i ⟨1 <<< i, f⟩⟩
        memory := m
        live := h.live.filter (·.1 ≠ n + headerSize) } := by
  have hcarved := hr.carved_live _ hn
  have hentry : ∀ k ∈ n :: p.free i, Carved h.chunks (k, i) :=
    List.forall_mem_cons.mpr ⟨hcarved, hr.carved_free i⟩
  have hspaced : Spaced (n :: p.free i) := by
    refine ⟨List.pairwise_cons.mpr ⟨fun k hk => ?_, ?_⟩,
      fun k hk => ((hentry k hk).bound hr.chunked).2⟩
    · exact hcarved.apart (hr.carved_free i k hk) hr.chunked (hr.ne_of_free hn hk).symm
    · refine (hr.nodup i).imp_of_mem fun hk hl hne => ?_
      exact (hr.carved_free i _ hk).apart (hr.carved_free i _ hl) hr.chunked fun he =>
        hne (Prod.mk.inj he).1
  obtain ⟨f, m, hpush, hlinked, hlinks⟩ :=
    @pushBlock_eq _ ⟨1 <<< i, first i⟩ _ _ (hr.linked i) hspaced (hcarved.bound hr.chunked).1.ne'
  have hsame : ∀ x, Carved h.chunks x → ∀ k ∈ n :: p.free i, k = x.1 ∨ Apart k x.1 := by
    intro x hx k hk
    by_cases he : (k, i) = x
    · exact .inl (congrArg Prod.fst he)
    · exact .inr ((hentry k hk).apart hx hr.chunked he)
  have hmem : ∀ j, ∀ k ∈ (p.put n i).free j, k ∈ p.free j ∨ (k, j) = (n, i) := by
    intro j k hk
    by_cases he : j = i
    · subst he
      rw [Pools.put_free_self] at hk
      rcases List.mem_append.mp hk with hk | hk
      · exact .inl hk
      · rw [List.mem_singleton.mp hk]
        exact .inr rfl
    · rw [Pools.put_free_of_ne he] at hk
      exact .inl hk
  refine ⟨f, m, hpush, {
    lists := hr.set i f
    linked := ?_
    live := ?_
    chunked := hr.chunked
    carved_live := fun x hx => hr.carved_live x (List.mem_of_mem_filter hx)
    carved_free := fun j k hk => ?_
    nodup := ?_
    unused := ?_
    size := fun x hx => (hlinks.nodeSize (hsame x hx)).trans (hr.size x hx)
    dirty_live := ?_
    usable := fun x hx hclean => ?_ }⟩
  · refine linked_update hlinked fun j he => ?_
    refine LinkedList.Chain.congr (hr.linked j) fun k hk => hlinks.next fun l hl => ?_
    exact (hentry l hl).apart (hr.carved_free j k hk) hr.chunked fun heq =>
      he (Prod.mk.inj heq).2.symm
  · dsimp only
    rw [hr.live, Pools.put, List.filter_map]
    apply congrArg
    apply List.filter_congr
    intro x _
    simp
  · rcases hmem j k hk with hk | he
    · exact hr.carved_free j k hk
    · rw [he]
      exact hcarved
  · refine (Function.forall_update_iff p.free fun _ nodes => nodes.Nodup).mpr
      ⟨?_, fun j _ => hr.nodup j⟩
    refine List.nodup_append.mpr ⟨hr.nodup i, List.nodup_singleton n, fun k hk l hl he => ?_⟩
    rw [he, List.mem_singleton.mp hl] at hk
    exact hr.unused i n hk hn
  · intro j k hk hlive
    obtain ⟨hlive, hne⟩ := List.mem_filter.mp hlive
    rcases hmem j k hk with hk | he
    · exact hr.unused j k hk hlive
    · obtain rfl := (Prod.mk.inj he).1
      simp at hne
  · rintro x ⟨hx, hne⟩
    refine List.mem_filter.mpr ⟨hr.dirty_live x hx, decide_eq_true fun he => ?_⟩
    have hapart := (hr.carved_live x (hr.dirty_live x hx)).apart hcarved hr.chunked hne
    exact hapart.ne he
  · rw [hlinks.usableSpace (hsame x hx)]
    by_cases he : x = (n, i)
    · rw [he]
      exact hkept
    · exact hr.usable x hx fun hd => hclean ⟨hd, he⟩

theorem Represents.grow {addr : Nat} (hi : 4 ≤ i ∧ i ≤ 14) (hempty : p.free i = [])
    (hmap : Mapping addr)
    (hfresh : ∀ c ∈ h.chunks, c.1 + mmapBlockSize ≤ addr ∨ addr + mmapBlockSize ≤ c.1) :
    ∃ m, addMemoryBlocksToList addr ⟨1 <<< i, first i⟩ h.memory = some (⟨1 <<< i, addr⟩, m) ∧
      Represents (p.grow i addr) dirty (Function.update first i addr) { h with
        allocator := ⟨h.allocator.pMemoryNodeList.set i ⟨1 <<< i, addr⟩⟩
        memory := m
        chunks := (addr, i) :: h.chunks } := by
  have hshift : 1 <<< i = 2 ^ i := Nat.one_shiftLeft i
  have hroom := room_pow hi
  obtain ⟨m, hadd, hwithin, hlinked, hentries⟩ :=
    @addMemoryBlocksToList_room _ h.memory ⟨1 <<< i, first i⟩ hmap
    (by dsimp only; rw [hshift]; exact hroom)
  dsimp only at hadd hlinked hentries
  rw [hshift] at hlinked hentries
  have hchunked : Chunked ((addr, i) :: h.chunks) := by
    refine ⟨List.forall_mem_cons.mpr ⟨hmap, hr.chunked.mapping⟩,
      List.forall_mem_cons.mpr ⟨hi, hr.chunked.index⟩, ?_⟩
    intro c hc d hd hne
    rcases List.mem_cons.mp hc with rfl | hc
    · rcases List.mem_cons.mp hd with rfl | hd
      · exact absurd rfl hne
      · exact (hfresh d hd).symm
    · rcases List.mem_cons.mp hd with rfl | hd
      · exact hfresh c hc
      · exact hr.chunked.disjoint c hc d hd hne
  have hmono : ∀ x, Carved h.chunks x → Carved ((addr, i) :: h.chunks) x := by
    rintro x ⟨c, hc, hx⟩
    exact ⟨c, List.mem_cons_of_mem _ hc, hx⟩
  -- the nodes of the other chunks are out of reach
  have houtside : ∀ x, Carved h.chunks x → x.1 + 24 ≤ addr ∨ addr + mmapBlockSize ≤ x.1 := by
    rintro x hx
    have hheader := hx.header hr.chunked
    obtain ⟨c, hc, hx⟩ := hx
    have hinside := chunkNodes_inside hx
    have hdisjoint := hfresh _ hc
    dsimp only at hdisjoint
    omega
  have hframe : ∀ x, Carved h.chunks x → next m x.1 = next h.memory x.1 ∧
      usableSpace m x.1 = usableSpace h.memory x.1 ∧ nodeSize m x.1 = nodeSize h.memory x.1 := by
    intro x hx
    have hout := houtside x hx
    exact ⟨hwithin.load (by omega), hwithin.load (by omega),
      nodeSize_congr (hwithin.load (by omega))⟩
  have hnew : ∀ n ∈ chunkNodes (2 ^ i) addr, Carved ((addr, i) :: h.chunks) (n, i) :=
    fun n hn => ⟨addr, List.mem_cons_self, hn⟩
  refine ⟨m, hadd, ?_⟩
  rw [Pools.grow_of_eq_nil hempty]
  exact {
    lists := hr.set i addr
    linked := by
      refine linked_update hlinked fun j _ => ?_
      exact LinkedList.Chain.congr (hr.linked j) fun n hn => (hframe _ (hr.carved_free j n hn)).1
    live := hr.live
    chunked := hchunked
    carved_live := fun x hx => hmono x (hr.carved_live x hx)
    carved_free :=
      (Function.forall_update_iff p.free fun j nodes => ∀ n ∈ nodes, Carved _ (n, j)).mpr
      ⟨hnew, fun j _ n hn => hmono _ (hr.carved_free j n hn)⟩
    nodup := (Function.forall_update_iff p.free fun _ nodes => nodes.Nodup).mpr
      ⟨nodup_chunkNodes, fun j _ => hr.nodup j⟩
    unused := by
      refine (Function.forall_update_iff p.free fun j nodes => ∀ n ∈ nodes, (n, j) ∉ p.live).mpr
        ⟨?_, fun j _ => hr.unused j⟩
      intro n hn hlive
      have hinside := chunkNodes_inside hn
      have hout := houtside _ (hr.carved_live _ hlive)
      dsimp only at hout
      have hsize : 0 < 2 ^ i := Nat.two_pow_pos i
      omega
    size := by
      rintro x ⟨c, hc, hx⟩
      rcases List.mem_cons.mp hc with he | hc
      · obtain ⟨rfl, hindex⟩ := Prod.mk.inj he
        rw [hindex] at hx ⊢
        exact hentries.size _ hx
      · have hcarved : Carved h.chunks x := ⟨c, hc, hx⟩
        exact (hframe x hcarved).2.2.trans (hr.size x hcarved)
    dirty_live := hr.dirty_live
    usable := by
      rintro x ⟨c, hc, hx⟩ hclean
      rcases List.mem_cons.mp hc with he | hc
      · obtain ⟨rfl, hindex⟩ := Prod.mk.inj he
        rw [hindex] at hx
        exact hentries.usable _ hx
      · have hcarved : Carved h.chunks x := ⟨c, hc, hx⟩
        exact (hframe x hcarved).2.1.trans (hr.usable x hcarved hclean) }

end Calls

section Performed

variable {p : Pools} {dirty : Set (Nat × Nat)} {first : Nat → Nat} {h : Heap}
  {size addr ptr i : Nat}

theorem alloc_eq {a : Allocator} {m : Memory} {list : MemoryNodeList}
    (hindex : getBlockIndex size = some i) (hlist : a.pMemoryNodeList[i]? = some list) :
    alloc a size addr m =
      (if listIsEmpty list then addMemoryBlocksToList addr list m else some (list, m)).bind fun r =>
        (popMemoryBlock r.1 r.2).bind fun q => some (q.1, ⟨a.pMemoryNodeList.set i q.2⟩, r.2) := by
  rw [alloc, hindex]
  simp only [Option.bind_eq_bind, Option.bind_some, hlist]
  split <;> rfl

theorem perform_alloc {list : MemoryNodeList} (hindex : getBlockIndex size = some i)
    (hlist : h.allocator.pMemoryNodeList[i]? = some list) :
    perform (.alloc size addr) h = (alloc h.allocator size addr h.memory).map fun r =>
      { allocator := r.2.1, memory := r.2.2, live := (r.1, i) :: h.live
        chunks := if listIsEmpty list then (addr, i) :: h.chunks else h.chunks } := by
  rw [perform, hindex]
  simp only [Option.bind_eq_bind, Option.bind_some, hlist, Option.map_eq_bind]
  rfl

theorem perform_alloc_linked {list : MemoryNodeList} {n : Nat} {nodes : List Nat}
    (hindex : getBlockIndex size = some i)
    (hlist : h.allocator.pMemoryNodeList[i]? = some list)
    (hlinked : Linked h.memory list.first (n :: nodes)) :
    perform (.alloc size addr) h = some { h with
      allocator := ⟨h.allocator.pMemoryNodeList.set i { list with first := next h.memory n }⟩
      live := (usableSpace h.memory n, i) :: h.live } := by
  have hsome : ¬ listIsEmpty list = true := by
    rw [listIsEmpty_iff hlinked]
    exact List.cons_ne_nil n nodes
  rw [perform_alloc hindex hlist, alloc_eq hindex hlist, if_neg hsome,
    if_neg hsome, Option.bind_some, (popMemoryBlock_eq hlinked).1]
  rfl

theorem index_of_size (hsize : 9 ≤ size ∧ size ≤ 16384) :
    4 ≤ Nat.clog 2 size ∧ Nat.clog 2 size ≤ 14 := by
  constructor
  · exact (Nat.lt_clog_iff_pow_lt Nat.one_lt_two).mpr (show 2 ^ 3 < size by omega)
  · exact Nat.clog_le_of_le_pow (show size ≤ 2 ^ 14 by omega)

theorem chunkNodes_ne_nil (hi : 4 ≤ i ∧ i ≤ 14) : chunkNodes (2 ^ i) addr ≠ [] := by
  have htwice := (room_pow hi).twice
  have hpos : 0 < mmapBlockSize / (2 ^ i + headerSize) :=
    Nat.div_pos (by omega) (Nat.add_pos_left (Nat.two_pow_pos i) _)
  rw [chunkNodes, Ne, List.map_eq_nil_iff, List.range_eq_nil]
  omega

theorem Represents.alloc (hr : Represents p dirty first h) (hsize : 9 ≤ size ∧ size ≤ 16384)
    (hfresh : Grows size h → Fresh addr h) :
    ∃ h' first' n, perform (.alloc size addr) h = some h' ∧
    Represents (p.step (.alloc size addr)) dirty first' h' ∧
      h'.live = (n + headerSize, Nat.clog 2 size) :: h.live ∧
      Carved h'.chunks (n, Nat.clog 2 size) ∧ ∀ x ∈ h.live, x.1 ≠ n + headerSize := by
  have hindex : getBlockIndex size = some (Nat.clog 2 size) :=
    getBlockIndex_eq (by simp only [maxAlloc, maxBlockPow]; omega)
  have hi := index_of_size hsize
  obtain ⟨i, hclog⟩ : ∃ i, Nat.clog 2 size = i := ⟨_, rfl⟩
  have hlist := @Represents.list _ _ _ _ i hr (by simp only [maxBlockPow]; omega)
  rw [Pools.step, hclog]
  rw [hclog] at hindex hi
  by_cases hempty : p.free i = []
  · have hnone := (hr.empty_iff i).mpr hempty
    obtain ⟨hmap, hdisjoint⟩ := hfresh ⟨i, _, hindex, hlist, hnone⟩
    obtain ⟨m, hadd, hgrown⟩ := hr.grow hi hempty hmap hdisjoint
    obtain ⟨n, nodes, hnodes⟩ := List.exists_cons_of_ne_nil (@chunkNodes_ne_nil addr i hi)
    have hfree : (p.grow i addr).free i = n :: nodes := by
      rw [Pools.grow_of_eq_nil hempty, ← hnodes]
      exact Function.update_self i _ _
    have hn : n ∈ (p.grow i addr).free i := by
      rw [hfree]
      exact List.mem_cons_self
    obtain ⟨hpop, htaken⟩ := hgrown.take hfree
    rw [Function.update_self] at hpop
    have halloc : TransientAllocator.alloc h.allocator size addr h.memory =
        some (n + headerSize, ⟨h.allocator.pMemoryNodeList.set i ⟨1 <<< i, next m n⟩⟩, m) := by
      rw [alloc_eq hindex hlist, if_pos hnone, hadd, Option.bind_some, hpop]
      rfl
    refine ⟨_, _, n, ?_, htaken, rfl, hgrown.carved_free i n hn, hgrown.not_live hn⟩
    rw [perform_alloc hindex hlist, halloc, Option.map_some, if_pos hnone]
    simp only [List.set_set]
  · obtain ⟨n, nodes, hfree⟩ := List.exists_cons_of_ne_nil hempty
    have hn : n ∈ p.free i := by
      rw [hfree]
      exact List.mem_cons_self
    obtain ⟨-, htaken⟩ := hr.take hfree
    have hlinked := hr.linked i
    rw [hfree] at hlinked
    rw [Pools.grow_of_ne_nil hempty]
    refine ⟨_, _, n, ?_, htaken, rfl, hr.carved_free i n hn, hr.not_live hn⟩
    rw [perform_alloc_linked hindex hlist hlinked, hr.usable_free hn]

theorem free_eq {a : Allocator} {m : Memory} {list : MemoryNodeList}
    (hindex : getBlockIndex (freedSize m ptr) = some i)
    (hlist : a.pMemoryNodeList[i]? = some list) :
    free a ptr m = (pushBlock list ptr m).bind fun r =>
    some (⟨a.pMemoryNodeList.set i r.1⟩, r.2) := by
  rw [free, hindex]
  simp only [Option.bind_eq_bind, Option.bind_some, hlist]

theorem Represents.freedIndex (hr : Represents p dirty first h) (hptr : (ptr, i) ∈ h.live) :
    getBlockIndex (freedSize h.memory ptr) = some i ∧ i < maxBlockPow := by
  obtain ⟨n, hn, rfl⟩ := hr.mem_live hptr
  have hcarved := hr.carved_live _ hn
  have hbound := (hcarved.bound hr.chunked).2
  have hsize := hr.size _ hcarved
  obtain ⟨c, hc, -⟩ := hcarved
  have hi := hr.chunked.index _ hc
  dsimp only at hbound hsize hi
  have hpow : 2 ^ i ≤ 2 ^ 14 := Nat.pow_le_pow_right (by decide) hi.2
  have hfreed : freedSize h.memory (n + headerSize) = 2 ^ i := by
    rw [freedSize, nodeOf_add (by omega), hsize, Int.emod_eq_of_lt (Int.natCast_nonneg _)
      (by omega), Int.toNat_natCast]
  rw [hfreed, getBlockIndex_eq (by simp only [maxAlloc, maxBlockPow]; omega),
    Nat.clog_pow 2 i Nat.one_lt_two]
  exact ⟨rfl, by simp only [maxBlockPow]; omega⟩

/-- A block whose owner has left the address in it goes to the end of its
queue. -/
theorem Represents.free (hr : Represents p dirty first h) (hptr : (ptr, i) ∈ h.live)
    (hkept : h.memory.load (ptr + 4) 8 = ptr) :
    ∃ h' first' dirty', perform (.free ptr) h = some h' ∧ dirty' ⊆ dirty ∧
      Represents (p.step (.free ptr)) dirty' first' h' ∧
      (p.step (.free ptr)).free i = p.free i ++ [nodeOf ptr] := by
  obtain ⟨hindex, hi⟩ := hr.freedIndex hptr
  obtain ⟨n, hn, rfl⟩ := hr.mem_live hptr
  have hlist := hr.list hi
  have hcarved := hr.carved_live _ hn
  obtain ⟨f, m, hpush, hput⟩ := hr.put hn hkept
  have hfree : TransientAllocator.free h.allocator (n + headerSize) h.memory =
      some (⟨h.allocator.pMemoryNodeList.set i ⟨1 <<< i, f⟩⟩, m) := by
    rw [free_eq hindex hlist, hpush]
    rfl
  have hstep : p.step (.free (n + headerSize)) = p.put n i := by
    rw [Pools.step]
    split
    · rename_i hnone
      have hmiss := List.find?_eq_none.mp hnone _ hn
      simp at hmiss
    · rename_i x hfound
      have hx := hr.carved_live x (List.mem_of_find?_eq_some hfound)
      have hnode : x.1 = n := by simpa using List.find?_some hfound
      obtain rfl : x = (n, i) := by
        by_contra hne
        exact (hx.apart hcarved hr.chunked hne).ne hnode
      rfl
  refine ⟨_, _, _, ?_, Set.sdiff_subset, hstep ▸ hput, ?_⟩
  · rw [perform, hfree]
    rfl
  · rw [hstep, Pools.put_free_self,
      nodeOf_add (by have := (hcarved.bound hr.chunked).2; dsimp only at this; omega)]

theorem Represents.perform {sizes : Nat → Prop} {x : Call} (hr : Represents p dirty first h)
    (hsizes : ∀ size, sizes size → 9 ≤ size ∧ size ≤ 16384) (hproper : Proper sizes x h)
    (hkept : Kept x h) : ∃ h' first' dirty', perform x h = some h' ∧ (¬ x.Writes → dirty' ⊆ dirty) ∧
      Represents (p.step x) dirty' first' h' := by
  cases x with
  | alloc size addr =>
      obtain ⟨h', first', n, heq, hr', -⟩ := hr.alloc (hsizes size hproper.1) hproper.2
      exact ⟨h', first', dirty, heq, fun _ => le_rfl, hr'⟩
  | free ptr =>
      obtain ⟨i, hptr⟩ := hproper
      obtain ⟨h', first', dirty', heq, hsub, hr', -⟩ := hr.free hptr hkept
      exact ⟨h', first', dirty', heq, fun _ => hsub, hr'⟩
  | write ptr offset width contents =>
      obtain ⟨i, list, hptr, hlist, hwidth⟩ := hproper
      obtain ⟨hindex, hi⟩ := hr.freedIndex hptr
      obtain ⟨n, hn, rfl⟩ := hr.mem_live hptr
      obtain rfl := Option.some.inj ((hr.list hi).symm.trans hlist)
      dsimp only at hwidth
      rw [Nat.one_shiftLeft] at hwidth
      exact ⟨_, first, _, rfl, fun hno => absurd trivial hno, hr.write hn hwidth⟩

theorem performAll_cons {x : Call} {xs : List Call} {h' : Heap}
    (heq : BlockPools.perform x h = some h') : performAll (x :: xs) h = performAll xs h' := by
  rw [performAll, heq, Option.bind_some]

theorem performAll_induction {ok : Call → Heap → Prop} {I : Pools → Heap → Prop}
    {xs : List Call} (hI : I p h)
    (hstep : ∀ p h x, I p h → ok x h → ∃ h', BlockPools.perform x h = some h' ∧ I (p.step x) h')
    (hxs : Along ok xs h) : ∃ h', performAll xs h = some h' ∧ I (p.run xs) h' := by
  induction xs generalizing p h with
  | nil => exact ⟨h, rfl, hI⟩
  | cons x xs ih =>
      obtain ⟨h₁, heq, hI₁⟩ := hstep p h x hI hxs.1
      obtain ⟨h', hrest, hI'⟩ := ih hI₁ (hxs.2 h₁ heq)
      exact ⟨h', (performAll_cons heq).trans hrest, hI'⟩

end Performed

end Mangosteen.BlockPools
