import Mangosteen.RegionTable
import Mangosteen.RingBuffer

namespace Mangosteen.BackEnd

open PersistentMemory Prog Memory RingBuffer RegionTable

variable (N : Nat) (held : Nat → Bool)

def commitBatch : Code Unit := do
  fence
  ringBufferCommitDequeuedEntries

def commitRbBatch : Code Unit := do
  let numberOfRegions ← load .uncommitedNumberOfEntries
  let ringBufferHead ← load .globalLocalHead
  -- `pmem_memcpy_persist` of the 8-byte pair
  storeRecord .commitMetadata ⟨numberOfRegions, ringBufferHead⟩
    (fun g => { g with
      commits :=
        ⟨⟨numberOfRegions, ringBufferHead⟩, g.dequeued.length, g.writes.length⟩ :: g.commits })
  flush [.commitMetadata]
  fence
  regionTableCommit
  commitBatch

/-- `commit_rb_batch` up to the store to `remote_head`. -/
def prepareCommit : Code Unit := do
  let numberOfRegions ← load .uncommitedNumberOfEntries
  let ringBufferHead ← load .globalLocalHead
  storeRecord .commitMetadata ⟨numberOfRegions, ringBufferHead⟩
    (fun g => { g with
      commits :=
        ⟨⟨numberOfRegions, ringBufferHead⟩, g.dequeued.length, g.writes.length⟩ :: g.commits })
  flush [.commitMetadata]
  fence
  regionTableCommit
  fence

theorem commitRbBatch_eq : commitRbBatch = (do prepareCommit; ringBufferCommitDequeuedEntries) := by
  simp only [commitRbBatch, prepareCommit, commitBatch, Prog.bind_assoc]

def recordDequeued (e : Entry) : Code Unit :=
  record (fun g => { g with dequeued := g.dequeued ++ [e] })

/-- The bytes that `memcpy(entry->addr, entry->payload, PAYLOAD_SIZE)` writes. -/
def redoStores (ms : List Mapping) (addr : Nat) (payload : Payload) : List (Sigma Val) :=
  (List.finRange payloadSize).map (fun k => ⟨.byte (translate ms (addr + k.val)), payload k⟩)

def noteWrite : Sigma Val → Log → Log
  | ⟨.byte cell, v⟩, g => { g with writes := g.writes ++ [(cell, v)] }
  | _, g => g

/-- Whether a process can store a payload at an address: every byte has to lie in
one of its fixed mappings, or where it holds memory of its own. -/
def accessible (ms : List Mapping) (addr : Nat) : Bool :=
  (List.finRange payloadSize).all fun k => held (addr + k.val) || ms.any (·.covers (addr + k.val))

variable {held} in
theorem accessible_of_mapped {ms : List Mapping} {addr : Nat}
    (h : accessible (fun _ => false) ms addr = true) : accessible held ms addr = true := by
  simp only [accessible, List.all_eq_true, Bool.false_or] at h ⊢
  exact fun k hk => by rw [h k hk, Bool.or_true]

/-- The memory of its own of a back end that consumes what its own incarnation
logs: it was forked from the front end, and has memory wherever that writes. -/
def forked (_ : Nat) : Bool := true

@[simp] theorem accessible_forked (ms : List Mapping) (addr : Nat) :
    accessible forked ms addr = true := by
  simp [accessible, forked]

/-- The `memcpy` of a line, which faults as a whole. -/
def applyRedo (addr : Nat) (payload : Payload) : Code Unit := do
  let ms ← load .addressMap
  if accessible held ms addr then
    storeAll noteWrite (redoStores ms addr payload)
    flush ((redoStores ms addr payload).map (·.1))
  else
    abort

/-- Anonymous pages read zero when they are mapped. -/
def zeroPages (addr size : Nat) (w : State) : State :=
  { w with
    cur := fun l => match l with
      | .byte (.anonymous a) =>
        if addr ≤ a ∧ a < addr + size then (0 : UInt8) else w.cur (.byte (.anonymous a))
      | l => w.cur l }

/-- The branches of `process_entry`. -/
def handleEntry (slot : Nat) : EntryType → Code Unit
  | .mmap => do
      let addr ← load (.entryAddr slot)
      let size ← load (.entrySize slot)
      recordDequeued (.mmap addr size)
      regionTableCreateMemoryRegion addr size
  | .transientMmap => do
      let addr ← load (.entryAddr slot)
      let size ← load (.entrySize slot)
      recordDequeued (.transientMmap addr size)
      kernel (fun w => some (zeroPages addr size w))
      mapFixed ⟨addr, size, .anonymous⟩
  | .redo => do
      let addr ← load (.entryAddr slot)
      let payload : Payload ← loads (Loc.payload slot)
      recordDequeued (.redo addr payload)
      applyRedo held addr payload
  | .commit => do
      recordDequeued .commit
      commitRbBatch
      fence

def processEntry : Code Unit := do
  let slot ← ringBufferDequeue N
  let type ← load (.entryType slot)
  handleEntry held slot type

/-- One round of the loop of `run_consumer`. -/
def runConsumer : Code Unit := do
  let tmp ← load .lastPersistedHead
  let tail ← load .lastPersistedTail
  if tail = tmp then pure () else processEntry N forked

/-- One round of the replay loop of `start_back_end`; false once the loop ends. -/
def replay : Code Bool := do
  let head ← load .remoteHead
  let tail ← load .remoteTail
  if head = tail then
    pure false
  else
    processEntry N held
    pure true

end Mangosteen.BackEnd
