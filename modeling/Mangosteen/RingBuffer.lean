import Mangosteen.Memory

namespace Mangosteen.RingBuffer

open PersistentMemory Prog Memory

def ringBufferSize : Nat := 65536

variable (N : Nat)

def nextIndex (i : Nat) : Nat := if i + 1 = N then 0 else i + 1

/-- The assignments that put an entry into a slot, in their order. A commit
entry is marked by its type alone. -/
def entryStores (slot : Nat) : Entry → List (Sigma Val)
  | .redo addr payload =>
      ⟨.entryType slot, .redo⟩ :: ⟨.entryAddr slot, addr⟩ ::
        (List.finRange payloadSize).map (fun k => ⟨.payload slot k, payload k⟩)
  | .mmap addr size => [⟨.entryAddr slot, addr⟩, ⟨.entrySize slot, size⟩, ⟨.entryType slot, .mmap⟩]
  | .transientMmap addr size =>
      [⟨.entryAddr slot, addr⟩, ⟨.entrySize slot, size⟩, ⟨.entryType slot, .transientMmap⟩]
  | .commit => [⟨.entryType slot, .commit⟩]

/-- The cache lines of a slot: `pmem_flush(entry, 64)` covers all 48 bytes. -/
def slotLocs (slot : Nat) : List Loc :=
  .entryType slot :: .entryAddr slot :: .entrySize slot ::
    (List.finRange payloadSize).map (.payload slot)

def storeEntry (slot : Nat) (e : Entry) : Code Unit := do
  storeAll (fun _ => id) (entryStores slot e)
  flush (slotLocs slot)
  record (fun g => { g with enqueued := g.enqueued ++ [e] })

/-- The full-ring loop: the local head is read again, from the place given, for
as long as it equals the next tail. -/
def waitForSpace (refresh : Code Nat) (nextTail threadLocalHead : Nat) : Code Nat :=
  if nextTail = threadLocalHead then refresh else pure threadLocalHead

/-- The common body of the two enqueue functions, which refresh the local head
from `remote_head`. -/
def enqueueEntry (e : Entry) (threadLocalHead threadLocalTail : Nat) : Code (Nat × Nat) := do
  let nextTail := nextIndex N threadLocalTail
  let head ← waitForSpace (await Loc.remoteHead nextTail) nextTail threadLocalHead
  storeEntry threadLocalTail e
  pure (head, nextTail)

def ringBufferEnqueueRedoLogEntry (memory : Nat → UInt8) (addr : Nat) :
    Nat → Nat → Code (Nat × Nat) :=
  enqueueEntry N (.redo addr (fun k => memory (addr + k.val)))

def ringBufferEnqueueMmapEntry (entry : Entry) : Nat → Nat → Code (Nat × Nat) :=
  enqueueEntry N entry

/-- Here the local head is refreshed from `last_persisted_head`. -/
def ringBufferCommitEnqueuedEntries (threadLocalHead threadLocalTail : Nat) : Code (Nat × Nat) := do
  let nextTail := nextIndex N threadLocalTail
  let head ← waitForSpace (await Loc.lastPersistedHead nextTail) nextTail threadLocalHead
  storeEntry threadLocalTail .commit
  fence
  storeRecord .remoteTail nextTail
    (fun g => { g with published := g.enqueued.length, publishedBefore := g.published })
  flush [.remoteTail]
  fence
  let tail ← load .remoteTail
  storeRecord .lastPersistedTail tail (fun g => { g with visible := g.published })
  record (fun g => { g with acknowledged := g.published })
  pure (head, nextTail)

/-- The empty-ring loop of `ring_buffer_dequeue`. -/
def waitForEntry (head tail : Nat) : Code Unit :=
  if head = tail then do
    let tail ← await .lastPersistedTail head
    store .globalLocalTail tail
  else pure ()

def ringBufferDequeue : Code Nat := do
  let head ← load .globalLocalHead
  let tail ← load .globalLocalTail
  waitForEntry head tail
  store .globalLocalHead (nextIndex N head)
  pure head

def ringBufferCommitDequeuedEntries : Code Unit := do
  let head ← load .globalLocalHead
  storeRecord .remoteHead head
    (fun g => { g with committed := g.dequeued.length, committedBefore := g.committed })
  flush [.remoteHead]
  fence
  let head ← load .remoteHead
  store .lastPersistedHead head

def getGlobalHeadValue : Code Nat := load Loc.lastPersistedHead

def getGlobalTailValue : Code Nat := load Loc.lastPersistedTail

def setGlobalHeadValue (threadLocalHead : Nat) : Code Unit :=
  store .lastPersistedHead threadLocalHead

def setGlobalTailValue (threadLocalTail : Nat) : Code Unit :=
  storeRecord .lastPersistedTail threadLocalTail (fun g => { g with visible := g.enqueued.length })

end Mangosteen.RingBuffer
