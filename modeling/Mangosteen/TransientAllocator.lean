import Mathlib.Data.List.Perm.Basic
import Mathlib.Data.Nat.Log
import Mathlib.Order.Interval.Finset.Nat
import Mangosteen.Library.ByteMemory
import Mangosteen.Library.LinkedList

namespace Mangosteen.TransientAllocator

open ByteMemory

def mmapBlockSize : Nat := 65536

def maxBlockPow : Nat := 16

def maxAlloc : Nat := 2 ^ maxBlockPow

/-- What an entry has in front of its block: an `int` and a pointer. -/
def headerSize : Nat := 4 + 8

/-- There are as many addresses, so a walk over more nodes goes round for ever. -/
def addressSpace : Nat := 2 ^ 64

/-- The field `size` of a `memory_node`, at offset 0. -/
def nodeSize (m : Memory) (node : Nat) : Int := (m.load node 4 : Int).bmod (2 ^ 32)

/-- The field `next`, at offset 8. -/
def next (m : Memory) (node : Nat) : Nat := m.load (node + 8) 8

/-- The field `usable_space`, at offset 16. -/
def usableSpace (m : Memory) (node : Nat) : Nat := m.load (node + 16) 8

def setSize (m : Memory) (node size : Nat) : Memory := m.store node 4 size

def setNext (m : Memory) (node target : Nat) : Memory := m.store (node + 8) 8 target

def setUsableSpace (m : Memory) (node target : Nat) : Memory := m.store (node + 16) 8 target

structure MemoryNodeList where
  blockSize : Nat
  first : Nat
  deriving DecidableEq

structure Allocator where
  pMemoryNodeList : List MemoryNodeList

def initialiseAllocator : Allocator := ⟨(List.range maxBlockPow).map fun i => ⟨1 <<< i, 0⟩⟩

/-- The doubling loop of `get_block_index`. -/
def blockIndexFrom (size : Nat) : Nat → Nat → Nat → Option Nat
  | 0, _, _ => none
  | fuel + 1, sizeAligned, index =>
      if sizeAligned < size then blockIndexFrom size fuel (sizeAligned * 2) (index + 1)
        else some index

def getBlockIndex (size : Nat) : Option Nat :=
  if size < maxAlloc then blockIndexFrom size (size + 1) 1 0 else none

/-- The walk over the nodes from one on. -/
def nodesFrom (m : Memory) (node : Nat) : Option (List Nat) :=
  LinkedList.nodes (next m) 0 addressSpace node

/-- The loop of `add_memory_blocks_to_list`. -/
def carve (blockSize addr offset : Nat) (m : Memory) : Memory :=
  if offset + (blockSize + headerSize) < mmapBlockSize then
    let iterator := addr + offset
    let m := setSize m iterator blockSize
    let m := setNext m iterator (addr + offset + (blockSize + headerSize))
    let m := setNext m (next m iterator) 0
    let m := setUsableSpace m iterator (iterator + headerSize)
    let offset := offset + (blockSize + headerSize)
    let m := if offset + (blockSize + headerSize) > mmapBlockSize then setNext m iterator 0 else m
    carve blockSize addr offset m
  else m
termination_by mmapBlockSize - offset
decreasing_by
  simp only [headerSize] at *
  omega

/-- The pages of an anonymous mapping are filled with zeros. -/
def mmap (addr : Nat) (m : Memory) : Memory :=
  { m with bytes := fun b => if addr ≤ b ∧ b < addr + mmapBlockSize then 0 else m.bytes b }

/-- The first argument is the address that `mmap` returns. The text is written to
the start of the mapping, and in the end the list is printed. -/
def addMemoryBlocksToList (addr : Nat) (list : MemoryNodeList) (m : Memory) :
    Option (MemoryNodeList × Memory) :=
  let m := (mmap addr m).store addr 4 0x636261
  let list := { list with first := addr }
  let m := setSize m list.first list.blockSize
  let offset := headerSize + list.blockSize
  let m := setNext m list.first (addr + offset)
  let m := setUsableSpace m list.first (addr + headerSize)
  let m := carve list.blockSize addr offset m
  (nodesFrom m list.first).map fun _ => (list, m)

def listIsEmpty (list : MemoryNodeList) : Bool := list.first == 0

/-- There is nothing to pop behind the null pointer. -/
def popMemoryBlock (list : MemoryNodeList) (m : Memory) : Option (Nat × MemoryNodeList) :=
  if listIsEmpty list then none
  else some (usableSpace m list.first, { list with first := next m list.first })

def alloc (a : Allocator) (size addr : Nat) (m : Memory) : Option (Nat × Allocator × Memory) := do
  let listIndex ← getBlockIndex size
  let list ← a.pMemoryNodeList[listIndex]?
  let (list, m) ← if listIsEmpty list then addMemoryBlocksToList addr list m else some (list, m)
  let (returnAddress, list) ← popMemoryBlock list m
  some (returnAddress, ⟨a.pMemoryNodeList.set listIndex list⟩, m)

/-- The node of a block, in the arithmetic of pointers. -/
def nodeOf (ptr : Nat) : Nat := (ptr + (addressSpace - headerSize)) % addressSpace

/-- The walk of `push_block` to the last node. -/
def lastNode (m : Memory) (iterator : Nat) : Option Nat :=
  LinkedList.last (next m) 0 addressSpace iterator

def pushBlock (list : MemoryNodeList) (ptr : Nat) (m : Memory) : Option (MemoryNodeList × Memory) :=
  let node := nodeOf ptr
  if listIsEmpty list then some ({ list with first := node }, setNext m node 0)
  else (lastNode m list.first).map fun iterator => (list, setNext (setNext m iterator node) node 0)

/-- The `int` in a node as the `size_t` that `get_block_index` takes. -/
def freedSize (m : Memory) (ptr : Nat) : Nat := (nodeSize m (nodeOf ptr) % 2 ^ 64).toNat

def free (a : Allocator) (ptr : Nat) (m : Memory) : Option (Allocator × Memory) := do
  let listIndex ← getBlockIndex (freedSize m ptr)
  let list ← a.pMemoryNodeList[listIndex]?
  let (list, m) ← pushBlock list ptr m
  some (⟨a.pMemoryNodeList.set listIndex list⟩, m)

/-- The counter is an `int`. -/
def getListLength (list : MemoryNodeList) (m : Memory) : Option Int :=
  if listIsEmpty list then some 0
  else (nodesFrom m list.first).map fun nodes => (nodes.length : Int).bmod (2 ^ 32)

section Index

variable {size : Nat}

theorem blockIndexFrom_eq {fuel index : Nat} (hindex : index ≤ Nat.clog 2 size)
    (hfuel : Nat.clog 2 size < fuel + index) :
    blockIndexFrom size fuel (2 ^ index) index = some (Nat.clog 2 size) := by
  induction fuel generalizing index with
  | zero => omega
  | succ fuel ih =>
      rw [blockIndexFrom]
      by_cases hlt : 2 ^ index < size
      · have hnext : index + 1 ≤ Nat.clog 2 size := (Nat.lt_clog_iff_pow_lt Nat.one_lt_two).mpr hlt
        rw [if_pos hlt, ← Nat.pow_succ]
        exact ih hnext (by omega)
      · have hle : Nat.clog 2 size ≤ index := Nat.clog_le_of_le_pow (Nat.not_lt.mp hlt)
        rw [if_neg hlt, Nat.le_antisymm hindex hle]

theorem getBlockIndex_eq (h : size < maxAlloc) : getBlockIndex size = some (Nat.clog 2 size) := by
  have hclog : Nat.clog 2 size ≤ size := Nat.clog_le_of_le_pow Nat.lt_two_pow_self.le
  rw [getBlockIndex, if_pos h]
  exact blockIndexFrom_eq (Nat.zero_le _) (by omega)

end Index

section Nodes

variable {m m' : Memory} {node node' target : Nat}

/-- Nodes that do not share a byte of a `memory_node`. -/
def Apart (node node' : Nat) : Prop := node + 24 ≤ node' ∨ node' + 24 ≤ node

theorem Apart.symm (h : Apart node node') : Apart node' node := Or.symm h

instance : Std.Symm Apart := ⟨fun _ _ => Apart.symm⟩

theorem Apart.ne (h : Apart node node') : node ≠ node' := by
  rintro rfl
  rw [Apart] at h
  omega

/-- Nothing but the links of some nodes differs between two memories. -/
def LinksOnly (nodes : List Nat) (m m' : Memory) : Prop :=
  ∀ b, (∀ n ∈ nodes, b < n + 8 ∨ n + 16 ≤ b) → m'.bytes b = m.bytes b

theorem next_setNext (h : target < addressSpace) : next (setNext m node target) node = target :=
  Memory.load_store h

theorem next_setNext_of_apart (h : Apart node node') :
    next (setNext m node' target) node = next m node := by
  apply Memory.load_store_of_disjoint
  rw [Apart] at h
  omega

theorem linksOnly_setNext {nodes : List Nat} (h : node ∈ nodes) :
    LinksOnly nodes m (setNext m node target) := by
  intro b hb
  have houtside := hb node h
  rw [setNext, Memory.store_of_not_mem]
  omega

theorem LinksOnly.trans {nodes : List Nat} {m'' : Memory} (h : LinksOnly nodes m m')
    (h' : LinksOnly nodes m' m'') : LinksOnly nodes m m'' := fun b hb => (h' b hb).trans (h b hb)

theorem nodeSize_congr (h : m'.load node 4 = m.load node 4) : nodeSize m' node = nodeSize m node :=
  congrArg (fun v : Nat => (v : Int).bmod (2 ^ 32)) h

section Frame

variable {nodes : List Nat} (h : LinksOnly nodes m m')
  (hnode : ∀ n ∈ nodes, n = node ∨ Apart n node)
include h hnode

theorem LinksOnly.usableSpace : usableSpace m' node = usableSpace m node := by
  apply Memory.load_congr
  intro i hi
  apply h
  intro n hn
  rcases hnode n hn with rfl | hapart
  · omega
  · rw [Apart] at hapart
    omega

theorem LinksOnly.nodeSize : nodeSize m' node = nodeSize m node := by
  apply nodeSize_congr
  apply Memory.load_congr
  intro i hi
  apply h
  intro n hn
  rcases hnode n hn with rfl | hapart
  · omega
  · rw [Apart] at hapart
    omega

end Frame

theorem LinksOnly.next {nodes : List Nat} (h : LinksOnly nodes m m')
    (hnode : ∀ n ∈ nodes, Apart n node) :
    next m' node = next m node := by
  apply Memory.load_congr
  intro i hi
  apply h
  intro n hn
  have hapart := hnode n hn
  rw [Apart] at hapart
  omega

end Nodes

section Lists

variable {m : Memory} {list : MemoryNodeList} {nodes : List Nat} {node : Nat}

/-- The nodes of a free list. -/
def Linked (m : Memory) (first : Nat) (nodes : List Nat) : Prop :=
  LinkedList.Chain (next m) 0 first nodes

/-- Nodes in the address space, of which no two overlap. -/
structure Spaced (nodes : List Nat) : Prop where
  apart : nodes.Pairwise Apart
  bound : ∀ n ∈ nodes, n + 24 ≤ addressSpace

theorem Spaced.nodup (h : Spaced nodes) : nodes.Nodup := h.apart.imp Apart.ne

theorem Spaced.perm {nodes nodes' : List Nat} (h : Spaced nodes) (hperm : nodes'.Perm nodes) :
    Spaced nodes' where
  apart := hperm.symm.pairwise h.apart Apart.symm
  bound := fun n hn => h.bound n (hperm.mem_iff.mp hn)

theorem Spaced.sublist {nodes nodes' : List Nat} (h : Spaced nodes) (hsub : nodes'.Sublist nodes) :
    Spaced nodes' where
  apart := h.apart.sublist hsub
  bound := fun n hn => h.bound n (hsub.subset hn)

theorem Spaced.length_lt (h : Spaced nodes) (hpos : ∀ n ∈ nodes, n ≠ 0) :
    nodes.length < addressSpace := by
  have hsub : nodes.toFinset ⊆ Finset.Ico 1 addressSpace := by
    intro n hn
    have hmem := List.mem_toFinset.mp hn
    have hbound := h.bound n hmem
    have hne := hpos n hmem
    rw [Finset.mem_Ico]
    omega
  have hcard := Finset.card_le_card hsub
  rw [List.toFinset_card_of_nodup h.nodup, Nat.card_Ico] at hcard
  have hspace : 0 < addressSpace := by decide
  omega

theorem listIsEmpty_iff (h : Linked m list.first nodes) : listIsEmpty list = true ↔ nodes = [] := by
  rw [listIsEmpty, beq_iff_eq]
  exact h.eq_nil_iff

theorem nodesFrom_eq {first : Nat} (h : Linked m first nodes) (hspaced : Spaced nodes) :
    nodesFrom m first = some nodes :=
  LinkedList.Chain.nodes h (hspaced.length_lt h.ne_null)

theorem popMemoryBlock_eq (h : Linked m list.first (node :: nodes)) :
    popMemoryBlock list m = some (usableSpace m node, { list with first := next m node }) ∧
      Linked m (next m node) nodes := by
  have hfull : ¬ listIsEmpty list = true := by
    rw [listIsEmpty_iff h]
    exact List.cons_ne_nil node nodes
  obtain ⟨hfirst, -, htail⟩ := h
  rw [popMemoryBlock, if_neg hfull, hfirst]
  exact ⟨rfl, htail⟩

theorem nodeOf_add (h : node < addressSpace) : nodeOf (node + headerSize) = node := by
  have hsum : node + headerSize + (addressSpace - headerSize) = node + addressSpace := by
    simp only [headerSize, addressSpace]
    omega
  rw [nodeOf, hsum, Nat.add_mod_right, Nat.mod_eq_of_lt h]

theorem pushBlock_eq (h : Linked m list.first nodes) (hspaced : Spaced (node :: nodes))
    (hne : node ≠ 0) :
    ∃ first m', pushBlock list (node + headerSize) m = some ({ list with first }, m') ∧
      Linked m' first (nodes ++ [node]) ∧ LinksOnly (node :: nodes) m m' := by
  have hbound : node < addressSpace := by
    have := hspaced.bound node List.mem_cons_self
    omega
  rw [pushBlock, nodeOf_add hbound]
  rcases nodes.eq_nil_or_concat with rfl | ⟨rest, l, rfl⟩
  · rw [if_pos ((listIsEmpty_iff h).mpr rfl)]
    refine ⟨node, _, rfl, ⟨rfl, hne, ?_⟩, linksOnly_setNext List.mem_cons_self⟩
    exact next_setNext (by decide)
  · rw [List.concat_eq_append] at h hspaced ⊢
    obtain ⟨hnode, happart⟩ := List.pairwise_cons.mp hspaced.apart
    have hl : Apart node l := hnode l (by simp)
    have hrest : ∀ n ∈ rest, Apart node n ∧ Apart l n := by
      intro n hn
      exact ⟨hnode n (by simp [hn]), ((List.pairwise_append.mp happart).2.2 n hn l (by simp)).symm⟩
    have hlength : rest.length < addressSpace := by
      have htotal :=
        Spaced.length_lt ⟨happart, fun n hn => hspaced.bound n (List.mem_cons_of_mem _ hn)⟩
        h.ne_null
      rw [List.length_append] at htotal
      omega
    have hfull : ¬ listIsEmpty list = true := by
      rw [listIsEmpty_iff h]
      simp
    rw [if_neg hfull, lastNode, LinkedList.Chain.last h hlength]
    refine ⟨list.first, _, rfl, ?_, ?_⟩
    · refine LinkedList.Chain.snoc h (fun n hn => ?_) ?_ hne (next_setNext (by decide))
      · rw [next_setNext_of_apart (hrest n hn).1.symm, next_setNext_of_apart (hrest n hn).2.symm]
      · rw [next_setNext_of_apart hl.symm, next_setNext hbound]
    · exact (linksOnly_setNext (by simp)).trans (linksOnly_setNext (by simp))

end Lists

end Mangosteen.TransientAllocator
