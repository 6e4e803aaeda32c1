import Mangosteen.Library.OpenAddressing
import Mangosteen.Session

namespace Mangosteen.Instrumentation

open PersistentMemory Prog Memory RingBuffer BackEnd Session

def hashSetSize : Nat := 1024

def maxNumOfMemcpy : Nat := 100

structure MemcpyEntry where
  start : Nat
  finish : Nat

/-- What a thread records between `instrument_start` and `instrument_stop`. A
slot of the hash set that holds zero is empty. -/
structure PerThread where
  combiner : Nat := 0
  hashSetEntries : Nat → Nat := fun _ => 0
  numberOfHashSetEntries : Nat := 0
  memcpyArray : List MemcpyEntry := []

/-- `a & (HASH_SET_SIZE - 1)`, for a capacity that is a power of two. -/
def homeSlot (line : Nat) : Nat := line % hashSetSize

def insertLine (line : Nat) (data : PerThread) : Option PerThread :=
  (OpenAddressing.probe hashSetSize 0 data.hashSetEntries line hashSetSize (homeSlot line)).map
  fun i =>
    { data with
      hashSetEntries := Function.update data.hashSetEntries i line
      numberOfHashSetEntries :=
        if data.hashSetEntries i = 0 then data.numberOfHashSetEntries + 1
          else data.numberOfHashSetEntries }

def insertLines : List Nat → PerThread → Option PerThread
  | [], data => some data
  | line :: lines, data => (insertLine line data).bind (insertLines lines)

/-- The aligned lines from `addr` up to `addr + size`. -/
def coveredLines (addr size : Nat) : List Nat :=
  (List.range ((addr % payloadSize + size + payloadSize - 1) / payloadSize)).map
    (fun i => addr - addr % payloadSize + payloadSize * i)

/-- What the code inserted before every store does. Without a place for a new
line its probe loop does not end. -/
def storeAddressInHashSet (addr size : Nat) (data : PerThread) : Option PerThread :=
  if data.combiner = 0 then some data else insertLines (coveredLines addr size) data

def instrumentStart (data : PerThread) : PerThread := { data with combiner := 1 }

/-- A write of the application. Stores whose base register is the stack pointer
are not instrumented, and are not among these. -/
inductive Access
  | store (addr : Nat) (bytes : List UInt8)
  | memcpy (dest src size : Nat)

/-- The front end between two of its writes. -/
structure FrontEnd where
  memory : Nat → UInt8
  data : PerThread := {}

def write (memory : Nat → UInt8) (addr : Nat) (bytes : List UInt8) (a : Nat) : UInt8 :=
  if addr ≤ a then bytes.getD (a - addr) (memory a) else memory a

def copy (memory : Nat → UInt8) (dest src size a : Nat) : UInt8 :=
  if dest ≤ a ∧ a < dest + size then memory (src + (a - dest)) else memory a

/-- `instrumented_memcpy` copies only inside a transaction. With the array full it
writes behind it, and over the fields that follow. -/
def perform : Access → FrontEnd → Option FrontEnd
  | .store addr bytes, s =>
      (storeAddressInHashSet addr bytes.length s.data).map fun data =>
        ⟨write s.memory addr bytes, data⟩
  | .memcpy dest src size, s =>
      if s.data.combiner = 1 then
        if s.data.memcpyArray.length < maxNumOfMemcpy then
          some ⟨copy s.memory dest src size,
            { s.data with memcpyArray := s.data.memcpyArray ++ [⟨dest, dest + size⟩] }⟩
        else none
      else some s

def performAll : List Access → FrontEnd → Option FrontEnd
  | [], s => some s
  | x :: xs, s => (perform x s).bind (performAll xs)

variable (N : Nat) (memory : Nat → UInt8)

/-- The offsets of the chunk loop, `j = 0, 32, ...` while below the distance. A
copy whose entries fit in the ring keeps `j` far below the range of `int`. -/
def chunkOffsets (distance : Int) : List Nat :=
  (List.range ((distance.toNat + payloadSize - 1) / payloadSize)).map (payloadSize * ·)

/-- `int distance = end - start`. -/
def MemcpyEntry.distance (e : MemcpyEntry) : Int := ((e.finish : Int) - e.start).bmod (2 ^ 32)

def enqueueLines : List Nat → Nat × Nat → Code (Nat × Nat)
  | [], ht => pure ht
  | addr :: addrs, ht => do
      let ht ← ringBufferEnqueueRedoLogEntry N memory addr ht.1 ht.2
      enqueueLines addrs ht

def MemcpyEntry.lines (e : MemcpyEntry) : List Nat := (chunkOffsets e.distance).map (e.start + ·)

def logMemcpys : List MemcpyEntry → Nat × Nat → Code (Nat × Nat)
  | [], ht => pure ht
  | e :: es, ht => do
      let ht ← enqueueLines N memory e.lines ht
      let ht ← ringBufferCommitEnqueuedEntries N ht.1 ht.2
      logMemcpys es ht

/-- The lines of the hash set in the order of its slots. -/
def PerThread.lines (data : PerThread) : List Nat :=
  ((List.range hashSetSize).map data.hashSetEntries).filter (1000 < ·)

/-- The overflow buffer is not used in this build: nothing is put into it. -/
def collectPayloadAndStoreToPmem (data : PerThread) (ht : Nat × Nat) : Code Unit := do
  let ht ← enqueueLines N memory data.lines ht
  let ht ← ringBufferCommitEnqueuedEntries N ht.1 ht.2
  setGlobalHeadValue ht.1
  setGlobalTailValue ht.2

def redoEntry (addr : Nat) : Entry := .redo addr (fun k => memory (addr + k.val))

/-- One batch for every `memcpy`, then one for the hash set. -/
def loggedBatches (data : PerThread) : List (List Entry) :=
  data.memcpyArray.map (fun e => e.lines.map (redoEntry memory)) ++
  [data.lines.map (redoEntry memory)]

def instrumentStop (data : PerThread) : Code PerThread := do
  recordSession (loggedBatches memory data) memory
  let head ← getGlobalHeadValue
  let tail ← getGlobalTailValue
  let ht ← logMemcpys N memory data.memcpyArray (head, tail)
  collectPayloadAndStoreToPmem N memory data ht
  pure {}

section Session

variable {N memory} {β : Type}

theorem enqueueLines_eq (addrs : List Nat) (ht : Nat × Nat) :
    enqueueLines N memory addrs ht = enqueueAll N (addrs.map (redoEntry memory)) ht := by
  induction addrs generalizing ht with
  | nil => rfl
  | cons addr addrs ih => simp only [enqueueLines, List.map_cons, enqueueAll, ih]; rfl

theorem logMemcpys_eq (es : List MemcpyEntry) (ht : Nat × Nat) :
    logMemcpys N memory es ht = batches N
    (es.map (fun e => e.lines.map (redoEntry memory))) ht := by
  induction es generalizing ht with
  | nil => rfl
  | cons e es ih =>
    simp only [logMemcpys, List.map_cons, batches, batch, enqueueLines_eq, ih, Prog.bind_assoc]

theorem instrumentStop_eq (data : PerThread) :
    instrumentStop N memory data = (do session N (loggedBatches memory data) memory; pure {}) := by
  simp only [instrumentStop, session, loggedBatches, collectPayloadAndStoreToPmem,
    batches_append, batches, batch, logMemcpys_eq, enqueueLines_eq, Prog.bind_assoc, Prog.pure_bind]

theorem commit_not_mem_loggedBatches (data : PerThread) :
    ∀ es ∈ loggedBatches memory data, Entry.commit ∉ es := by
  have hplain : ∀ lines : List Nat, Entry.commit ∉ lines.map (redoEntry memory) := by
    simp [redoEntry]
  intro es hes
  rcases List.mem_append.mp hes with h | h
  · obtain ⟨e, -, rfl⟩ := List.mem_map.mp h
    exact hplain e.lines
  · rw [List.mem_singleton.mp h]
    exact hplain data.lines

end Session

end Mangosteen.Instrumentation
