import Mathlib.Data.Fintype.Pi
import Mangosteen.Library.Program

namespace Mangosteen.Memory

open PersistentMemory

inductive Actor
  | frontEnd
  | backEnd
  deriving DecidableEq

theorem Actor.eq_frontEnd {a : Actor} (h : a ≠ .backEnd) : a = .frontEnd := by
  cases a with
  | frontEnd => rfl
  | backEnd => exact absurd rfl h

theorem Actor.eq_backEnd {a : Actor} (h : a ≠ .frontEnd) : a = .backEnd := by
  cases a with
  | frontEnd => exact absurd rfl h
  | backEnd => rfl

inductive EntryType
  | redo
  | mmap
  | commit
  | transientMmap
  deriving DecidableEq

def payloadSize : Nat := 32

abbrev Payload := Fin payloadSize → UInt8

/-- What an enqueued slot stands for. The fields that the kind of an entry does
not use keep whatever the slot held before. -/
inductive Entry
  | redo (addr : Nat) (payload : Payload)
  | mmap (addr size : Nat)
  | transientMmap (addr size : Nat)
  | commit
  deriving DecidableEq

def Entry.entryType : Entry → EntryType
  | .redo _ _ => .redo
  | .mmap _ _ => .mmap
  | .transientMmap _ _ => .transientMmap
  | .commit => .commit

structure AtomicPmemCommit where
  numberOfRegions : Nat
  ringBufferHead : Nat
  deriving DecidableEq

inductive Backing
  | file (index : Nat)
  | anonymous
  deriving DecidableEq

structure Mapping where
  start : Nat
  size : Nat
  backing : Backing
  deriving DecidableEq

/-- The byte behind an address: an offset of a region file, or memory of the
process itself. -/
inductive Cell
  | file (index offset : Nat)
  | anonymous (addr : Nat)
  deriving DecidableEq

def Mapping.covers (m : Mapping) (addr : Nat) : Bool := m.start ≤ addr && addr < m.start + m.size

/-- A later fixed mapping shadows the earlier ones. -/
def translate (ms : List Mapping) (addr : Nat) : Cell :=
  match ms.find? (·.covers addr) with
  | some ⟨start, _, .file index⟩ => .file index (addr - start)
  | some ⟨_, _, .anonymous⟩ | none => .anonymous addr

/-- The fields of `ring_buffer` and `region_table`, the back end's globals and
its address space, and the semaphore on which the two sides start. The size of
a map entry shares its bytes with a payload, and no entry reads the one after
the other was written. -/
inductive Loc
  | entryType (slot : Nat)
  | entryAddr (slot : Nat)
  | entrySize (slot : Nat)
  | payload (slot : Nat) (k : Fin payloadSize)
  | lastPersistedHead
  | lastPersistedTail
  | remoteHead
  | remoteTail
  | commitMetadata
  | globalLocalHead
  | globalLocalTail
  | tableCommitIndex
  | numberOfEntries
  | uncommitedNumberOfEntries
  | recordAddress (index : Nat)
  | recordSize (index : Nat)
  | recordFileIndex (index : Nat)
  | recordCommitIndex (index : Nat)
  | sequenceNumber
  | semaphore
  | addressMap
  | byte (cell : Cell)
  deriving DecidableEq

abbrev Val : Loc → Type
  | .entryType _ => EntryType
  | .payload _ _ | .byte _ => UInt8
  | .commitMetadata => AtomicPmemCommit
  | .addressMap => List Mapping
  | _ => Nat

instance : (l : Loc) → DecidableEq (Val l)
  | .entryType _ => inferInstanceAs (DecidableEq EntryType)
  | .payload _ _ | .byte _ => inferInstanceAs (DecidableEq UInt8)
  | .commitMetadata => inferInstanceAs (DecidableEq AtomicPmemCommit)
  | .addressMap => inferInstanceAs (DecidableEq (List Mapping))
  | .entryAddr _ | .entrySize _ | .lastPersistedHead | .lastPersistedTail
  | .remoteHead | .remoteTail
  | .globalLocalHead | .globalLocalTail | .tableCommitIndex | .numberOfEntries
  | .uncommitedNumberOfEntries | .recordAddress _ | .recordSize _ | .recordFileIndex _
  | .recordCommitIndex _ | .sequenceNumber | .semaphore => inferInstanceAs (DecidableEq Nat)

/-- One execution of `commit_rb_batch`: the pair it stores, the entries dequeued
and the bytes written to memory before it. -/
structure CommitRecord where
  metadata : AtomicPmemCommit
  dequeued : Nat
  writes : Nat

/-- One producer session: the entries enqueued before it, the batches it logs and
the memory of the front end when it starts. -/
structure SessionRecord where
  start : Nat
  batches : List (List Entry)
  memory : Nat → UInt8

/-- History variables of the front end. Counts are of entries since the ring was
created, so that the ring indices are these counts modulo the capacity. -/
structure FrontLog where
  enqueued : List Entry := []
  /-- Entries that `remote_tail` covers, and that its previous value covered. -/
  published : Nat := 0
  publishedBefore : Nat := 0
  /-- Entries that `last_persisted_tail` shows to the consumer. -/
  visible : Nat := 0
  /-- Entries of the calls of `ring_buffer_commit_enqueued_entries` that have returned. -/
  acknowledged : Nat := 0
  sessions : List SessionRecord := []

structure BackLog where
  dequeued : List Entry := []
  /-- Entries that `remote_head` has passed, and that its previous value had. -/
  committed : Nat := 0
  committedBefore : Nat := 0

structure ImageLog where
  /-- Executions of `commit_rb_batch`, the latest first. -/
  commits : List CommitRecord := []
  writes : List (Cell × UInt8) := []
  regions : List (Nat × Nat) := []

structure Log extends FrontLog, BackLog, ImageLog

abbrev State := World Actor Loc Val Log

abbrev Code := Prog Actor Loc Val Log

end Mangosteen.Memory
