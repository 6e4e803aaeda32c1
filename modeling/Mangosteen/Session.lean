import Mangosteen.BackEnd

namespace Mangosteen.Session

open PersistentMemory Prog Memory RingBuffer BackEnd

variable (N : Nat)

def enqueueAll : List Entry → Nat × Nat → Code (Nat × Nat)
  | [], ht => pure ht
  | e :: es, ht => do
      let ht ← enqueueEntry N e ht.1 ht.2
      enqueueAll es ht

def batch (es : List Entry) (ht : Nat × Nat) : Code (Nat × Nat) := do
  let ht ← enqueueAll N es ht
  ringBufferCommitEnqueuedEntries N ht.1 ht.2

def batches : List (List Entry) → Nat × Nat → Code (Nat × Nat)
  | [], ht => pure ht
  | es :: bs, ht => do
      let ht ← batch N es ht
      batches bs ht

def recordSession (bs : List (List Entry)) (memory : Nat → UInt8) : Code Unit :=
  record (fun g => { g with sessions := ⟨g.enqueued.length, bs, memory⟩ :: g.sessions })

/-- What a producer does while it holds the writer lock: it takes over the
shared head and tail, logs its batches, and writes both values back. -/
def session (bs : List (List Entry)) (memory : Nat → UInt8) : Code Unit := do
  recordSession bs memory
  let head ← getGlobalHeadValue
  let tail ← getGlobalTailValue
  let ht ← batches N bs (head, tail)
  setGlobalHeadValue ht.1
  setGlobalTailValue ht.2

/-- A session up to the point where it has its local head and tail. -/
def starting (bs : List (List Entry)) (memory : Nat → UInt8) : Code (Nat × Nat) := do
  recordSession bs memory
  let head ← getGlobalHeadValue
  let tail ← getGlobalTailValue
  pure (head, tail)

theorem session_eq_starting (bs : List (List Entry)) (memory : Nat → UInt8) :
    session N bs memory = (do
      let ht ← starting bs memory
      let ht ← batches N bs ht
      setGlobalHeadValue ht.1
      setGlobalTailValue ht.2) := by
  simp only [session, starting, Prog.bind_assoc, Prog.pure_bind]

/-- A session up to the point where it writes the head and tail back. -/
def opening (bs : List (List Entry)) (memory : Nat → UInt8) : Code (Nat × Nat) := do
  recordSession bs memory
  let head ← getGlobalHeadValue
  let tail ← getGlobalTailValue
  batches N bs (head, tail)

def closing (ht : Nat × Nat) : Code Unit := do
  setGlobalHeadValue ht.1
  setGlobalTailValue ht.2

theorem session_eq (bs : List (List Entry)) (memory : Nat → UInt8) :
    session N bs memory = opening N bs memory >>= closing := by
  simp only [session, opening, Prog.bind_assoc]
  rfl

/-- The part of `event_post_syscall` that writes to the ring: one map entry,
persistent when the caller is the combiner, transient otherwise. -/
def eventPostSyscall (memory : Nat → UInt8) (combiner : Bool) (addr size : Nat) : Code Unit := do
  let entry := if combiner then Entry.mmap addr size else .transientMmap addr size
  recordSession [[entry]] memory
  let head ← getGlobalHeadValue
  let tail ← getGlobalTailValue
  let ht ← ringBufferEnqueueMmapEntry N entry head tail
  let ht ← ringBufferCommitEnqueuedEntries N ht.1 ht.2
  setGlobalHeadValue ht.1
  setGlobalTailValue ht.2

theorem eventPostSyscall_eq (memory : Nat → UInt8) (combiner : Bool) (addr size : Nat) :
    eventPostSyscall N memory combiner addr size =
      session N [[if combiner then .mmap addr size else .transientMmap addr size]] memory := by
  simp only [eventPostSyscall, session, batches, batch, enqueueAll, ringBufferEnqueueMmapEntry,
    bind_assoc, pure_bind]

/-- All entries of a batch, the closing one included. -/
def closed (es : List Entry) : List Entry := es ++ [.commit]

def entries (bs : List (List Entry)) : List Entry := bs.flatMap closed

/-- The batches of all sessions, in order. -/
def logged : List SessionRecord → List (List Entry)
  | [] => []
  | s :: ss => logged ss ++ s.batches

/-- Every session starts where the one before it ended. -/
def Aligned : List SessionRecord → Prop
  | [] => True
  | s :: ss => s.start = (entries (logged ss)).length ∧ Aligned ss

theorem entries_append (bs cs : List (List Entry)) :
    entries (bs ++ cs) = entries bs ++ entries cs :=
  List.flatMap_append

theorem length_entries_cons (es : List Entry) (bs : List (List Entry)) :
    (entries (es :: bs)).length = es.length + 1 + (entries bs).length := by
  rw [entries, List.flatMap_cons, List.length_append, closed, List.length_append]
  rfl

theorem batches_append (bs cs : List (List Entry)) (ht : Nat × Nat) :
    batches N (bs ++ cs) ht = (do let ht ← batches N bs ht; batches N cs ht) := by
  induction bs generalizing ht with
  | nil => rfl
  | cons es bs ih => simp only [List.cons_append, batches, bind_assoc, ih]

theorem enqueueAll_append (es fs : List Entry) (ht : Nat × Nat) :
    enqueueAll N (es ++ fs) ht = (do let ht ← enqueueAll N es ht; enqueueAll N fs ht) := by
  induction es generalizing ht with
  | nil => rfl
  | cons e es ih => simp only [List.cons_append, enqueueAll, bind_assoc, ih]

/-- The ring between any producers and the consumer. Sessions follow each other
in any order and number, as the writer lock makes them, and only the end of a
batch is a commit entry; the consumer repeats the loop of `run_consumer`. -/
def ringSystem (admits : State → Label Actor Loc Val Log → Prop) :
    System Actor Loc Val Log Unit where
  next a _ p := match a with
    | .frontEnd => ∃ bs memory, (∀ es ∈ bs, Entry.commit ∉ es) ∧ p = session N bs memory
    | .backEnd => p = runConsumer N
  boot _ := .ret ()
  reboot w := w
  admits w label := label ≠ .crash ∧ admits w label

/-- Each region of the initial synchronisation is mapped to a file of its own. -/
def initialMappings (regions : List (Nat × Nat)) : List Mapping :=
  (regions.mapIdx (fun i r => ⟨r.1, r.2, .file i⟩)).reverse

/-- The ring as `ring_buffer_create_and_initialise` makes it, and the memory,
address space and region table of the back end after its initial
synchronisation. -/
def initialValue (bytes : Cell → UInt8) (regions : List (Nat × Nat)) : (l : Loc) → Val l
  | .entryType _ => .redo
  | .payload _ _ => 0
  | .byte cell => bytes cell
  | .commitMetadata => ⟨0, 0⟩
  | .addressMap => initialMappings regions
  | .numberOfEntries | .uncommitedNumberOfEntries | .sequenceNumber => regions.length
  | .recordAddress i => (regions.getD i (0, 0)).1
  | .recordSize i => (regions.getD i (0, 0)).2
  | .recordFileIndex i => i
  | .recordCommitIndex _ => 1
  | .entryAddr _ | .entrySize _ | .lastPersistedHead | .lastPersistedTail
  | .remoteHead | .remoteTail
  | .globalLocalHead | .globalLocalTail | .tableCommitIndex | .semaphore => 0

def initial (bytes : Cell → UInt8) (regions : List (Nat × Nat)) : State where
  cur := initialValue bytes regions
  per := initialValue bytes regions
  pending _ _ := none
  log := { toFrontLog := {}, toBackLog := {}, regions }

end Mangosteen.Session
