import Mathlib.Logic.Function.Basic
import Mangosteen.Library.Transition
import Mangosteen.RegionTable

namespace Mangosteen.Deployment

open Memory RegionTable

structure Bytes where
  files : Nat → Nat → UInt8
  memory : Nat → UInt8

namespace Bytes

def read (b : Bytes) (ms : List Mapping) (addr : Nat) : UInt8 :=
  match translate ms addr with
  | .file index offset => b.files index offset
  | .anonymous a => b.memory a

/-- A store through a shared mapping of a file changes the file, any other store
the memory of the process. -/
def write (b : Bytes) (ms : List Mapping) (addr : Nat) (v : UInt8) : Bytes :=
  match translate ms addr with
  | .file index offset =>
    { b with files := Function.update b.files index (Function.update (b.files index) offset v) }
  | .anonymous a => { b with memory := Function.update b.memory a v }

def writePayload (b : Bytes) (ms : List Mapping) (addr : Nat) (payload : Payload) : Bytes :=
  (List.finRange payloadSize).foldl (fun b k => b.write ms (addr + k.val) (payload k)) b

end Bytes

structure Region where
  address : Nat
  size : Nat

structure Words where
  uncommitedNumberOfEntries : Nat := 0
  numberOfRegions : Nat := 0
  remoteHead : Nat := 0

inductive BackPc
  | ended
  -- `synchronize_address_space`
  | synchronize
  | copyRegion (r : Region) (file : Nat)
  | addRecord (r : Region)
  -- `remap_backend`
  | remap (i : Nat)
  -- `process_entry`
  | processEntry
  | createFile (r : Region) (record : Nat)
  | mapRegion (r : Region) (file : Nat)
  | commitMetadata
  | regionTableCommit
  | commitDequeuedEntries

inductive FrontPc
  | ended
  | restoreMemory (i : Nat)
  | running

structure State where
  files : Nat → Nat → UInt8
  /-- What the creation of regions and the redo entries that were applied have
  written to the files. -/
  image : Nat → Nat → UInt8
  words : Words := {}
  durable : Words := {}
  /-- Set from `numberOfRegions` whenever the region table is opened. -/
  numberOfEntries : Nat := 0
  table : Nat → Region := fun _ => ⟨0, 0⟩
  published : List Entry := []
  back : BackPc := .ended
  sequenceNumber : Nat := 0
  globalLocalHead : Nat := 0
  backMap : List Mapping := []
  backMemory : Nat → UInt8 := fun _ => 0
  front : FrontPc := .ended
  frontMap : List Mapping := []
  frontMemory : Nat → UInt8 := fun _ => 0
  /-- The lines recorded by the transaction in progress. -/
  lines : List Nat := []
  /-- `number_of_entries` and `uncommited_number_of_entries` when the processes
  were launched. -/
  launchedWith : Nat × Nat := (0, 0)

def State.backBytes (s : State) : Bytes := ⟨s.files, s.backMemory⟩

def State.frontBytes (s : State) : Bytes := ⟨s.files, s.frontMemory⟩

def State.redoEntries (s : State) : List Entry :=
  s.lines.map fun line => .redo line fun k => s.frontBytes.read s.frontMap (line + k.val)

inductive Event
  | create (record file : Nat)
  | copy (file : Nat)
  | redo (addr : Nat)
  | store (addr : Nat)
  | other

/-- `open` with `O_TRUNC`, and `ftruncate`. -/
def truncateFile (files : Nat → Nat → UInt8) (file : Nat) : Nat → Nat → UInt8 :=
  Function.update files file fun _ => 0

def copyTo (files : Nat → Nat → UInt8) (file : Nat) (r : Region) (memory : Nat → UInt8) :
    Nat → Nat → UInt8 :=
  Function.update files file fun o => if o < r.size then memory (r.address + o) else files file o

inductive BackStep : State → Event → State → Prop
  | syncCreate {s : State} (r : Region) (h : s.back = .synchronize) :
      BackStep s (.create s.words.uncommitedNumberOfEntries s.sequenceNumber) { s with
        files := truncateFile s.files s.sequenceNumber
        image := truncateFile s.image s.sequenceNumber
        sequenceNumber := s.sequenceNumber + 1
        back := .copyRegion r s.sequenceNumber }
  | syncCopy {s : State} {r file} (h : s.back = .copyRegion r file) :
      BackStep s (.copy file) { s with
        files := copyTo s.files file r s.backMemory
        image := copyTo s.image file r s.backMemory
        backMap := ⟨r.address, r.size, .file file⟩ :: s.backMap
        back := .addRecord r }
  | syncRecord {s : State} {r} (h : s.back = .addRecord r)
      (hroom : s.words.uncommitedNumberOfEntries < initialTableSize) : BackStep s .other { s with
        table := Function.update s.table s.words.uncommitedNumberOfEntries r
        words := { s.words with uncommitedNumberOfEntries := s.words.uncommitedNumberOfEntries + 1 }
        back := .synchronize }
  | syncDone {s : State} (h : s.back = .synchronize) :
      BackStep s .other { s with
        numberOfEntries := s.words.uncommitedNumberOfEntries, back := .processEntry }
  | remap {s : State} {i} (h : s.back = .remap i) (hi : i < s.numberOfEntries) :
      BackStep s .other { s with
        backMap := ⟨(s.table i).address, (s.table i).size, .file i⟩ :: s.backMap
        back := .remap (i + 1) }
  | remapDone {s : State} {i} (h : s.back = .remap i) (hi : ¬ i < s.numberOfEntries) :
      BackStep s .other { s with numberOfEntries := s.words.numberOfRegions, back := .processEntry }
  | mmap {s : State} {addr size} (h : s.back = .processEntry)
      (he : s.published[s.globalLocalHead]? = some (.mmap addr size))
      (hroom : s.words.uncommitedNumberOfEntries < initialTableSize) :
      BackStep s .other { s with
        globalLocalHead := s.globalLocalHead + 1
        table := Function.update s.table s.words.uncommitedNumberOfEntries ⟨addr, size⟩
        words := { s.words with uncommitedNumberOfEntries := s.words.uncommitedNumberOfEntries + 1 }
        back := .createFile ⟨addr, size⟩ s.words.uncommitedNumberOfEntries }
  | createFile {s : State} {r record} (h : s.back = .createFile r record) :
      BackStep s (.create record s.sequenceNumber) { s with
        files := truncateFile s.files s.sequenceNumber
        image := truncateFile s.image s.sequenceNumber
        sequenceNumber := s.sequenceNumber + 1
        back := .mapRegion r s.sequenceNumber }
  | mapRegion {s : State} {r file} (h : s.back = .mapRegion r file) :
      BackStep s .other { s with
        backMap := ⟨r.address, r.size, .file file⟩ :: s.backMap, back := .processEntry }
  | transientMmap {s : State} {addr size} (h : s.back = .processEntry)
      (he : s.published[s.globalLocalHead]? = some (.transientMmap addr size)) :
      BackStep s .other { s with
        globalLocalHead := s.globalLocalHead + 1
        backMap := ⟨addr, size, .anonymous⟩ :: s.backMap
        backMemory := fun a => if addr ≤ a ∧ a < addr + size then 0 else s.backMemory a }
  | redo {s : State} {addr payload} (h : s.back = .processEntry)
      (he : s.published[s.globalLocalHead]? = some (.redo addr payload)) :
      BackStep s (.redo addr) { s with
        globalLocalHead := s.globalLocalHead + 1
        files := (s.backBytes.writePayload s.backMap addr payload).files
        image := (Bytes.writePayload ⟨s.image, s.backMemory⟩ s.backMap addr payload).files
        backMemory := (s.backBytes.writePayload s.backMap addr payload).memory }
  | commit {s : State} (h : s.back = .processEntry)
      (he : s.published[s.globalLocalHead]? = some .commit) :
      BackStep s .other { s with globalLocalHead := s.globalLocalHead + 1, back := .commitMetadata }
  | commitMetadata {s : State} (h : s.back = .commitMetadata) :
      BackStep s .other { s with
        words := { s.words with numberOfRegions := s.words.uncommitedNumberOfEntries },
        back := .regionTableCommit }
  | regionTableCommit {s : State} (h : s.back = .regionTableCommit) :
      BackStep s .other { s with
        numberOfEntries := s.words.uncommitedNumberOfEntries, back := .commitDequeuedEntries }
  | commitDequeuedEntries {s : State} (h : s.back = .commitDequeuedEntries) :
      BackStep s .other { s with
        words := { s.words with remoteHead := s.globalLocalHead }, back := .processEntry }

inductive FrontStep : State → Event → State → Prop
  | restoreMemory {s : State} {i} (h : s.front = .restoreMemory i) (hi : i < s.numberOfEntries) :
      FrontStep s .other { s with
        frontMap := ⟨(s.table i).address, (s.table i).size, .file i⟩ :: s.frontMap
        front := .restoreMemory (i + 1) }
  | restored {s : State} {i} (h : s.front = .restoreMemory i) (hi : ¬ i < s.numberOfEntries) :
      FrontStep s .other { s with front := .running }
  /-- A store, recorded if it belongs to a transaction. -/
  | store {s : State} (addr : Nat) (v : UInt8) (lines : List Nat) (h : s.front = .running) :
      FrontStep s (.store addr) { s with
        files := (s.frontBytes.write s.frontMap addr v).files
        frontMemory := (s.frontBytes.write s.frontMap addr v).memory
        lines := s.lines ++ lines }
  /-- `instrument_stop`, up to the publication of its batch. -/
  | publish {s : State} (h : s.front = .running) :
      FrontStep s .other
        { s with published := s.published ++ s.redoEntries ++ [.commit], lines := [] }
  | mmap {s : State} (addr size : Nat) (combiner : Bool) (h : s.front = .running) :
      FrontStep s .other { s with
        published :=
          s.published ++ [if combiner then .mmap addr size else .transientMmap addr size, .commit]
        frontMap := ⟨addr, size, .anonymous⟩ :: s.frontMap }

/-- `launch_mangosteen` in a process with the given memory. What the processes
had for themselves is gone. -/
def launchMangosteen (s : State) (image : Nat → UInt8) : State :=
  { s with
    numberOfEntries := s.words.numberOfRegions
    back := if s.words.numberOfRegions = 0 then .synchronize else .remap 0
    front := if s.words.numberOfRegions = 0 then .running else .restoreMemory 0
    sequenceNumber := 0
    globalLocalHead := s.words.remoteHead
    backMap := []
    backMemory := image
    frontMap := []
    frontMemory := image
    lines := []
    launchedWith := (s.words.numberOfRegions, s.words.uncommitedNumberOfEntries) }

/-- One step of a history. A write-back, asked for by a flush or not, makes words
durable; a crash ends both processes and leaves what is durable. -/
inductive Step (admits : State → Event → Prop) : State → Event → State → Prop
  | back {s e s'} (ha : admits s e) (h : BackStep s e s') : Step admits s e s'
  | front {s e s'} (ha : admits s e) (h : FrontStep s e s') : Step admits s e s'
  | writeBack {s : State} (d : Words)
      (hu : d.uncommitedNumberOfEntries = s.durable.uncommitedNumberOfEntries ∨
        d.uncommitedNumberOfEntries = s.words.uncommitedNumberOfEntries)
      (hr : d.numberOfRegions = s.durable.numberOfRegions ∨
        d.numberOfRegions = s.words.numberOfRegions)
      (hh : d.remoteHead = s.durable.remoteHead ∨ d.remoteHead = s.words.remoteHead) :
      Step admits s .other { s with durable := d }
  | crash {s : State} :
      Step admits s .other { s with words := s.durable, back := .ended, front := .ended }
  | launch {s : State} (image : Nat → UInt8) (hb : s.back = .ended) (hf : s.front = .ended) :
      Step admits s .other (launchMangosteen s image)

def Steps (admits : State → Event → Prop) (s s' : State) : Prop := ∃ e, Step admits s e s'

/-- Before the first launch there is neither a ring nor a region table. -/
def Initial (s : State) : Prop := ∃ files, s = { files, image := files }

def Occurs (s : State) : Prop := Transition.Reachable Initial (Steps fun _ _ => True) s

namespace Occurs

variable {s s' : State} {e : Event}

theorem back (h : Occurs s) (hb : BackStep s e s') : Occurs s' := h.next ⟨e, .back trivial hb⟩

theorem front (h : Occurs s) (hf : FrontStep s e s') : Occurs s' := h.next ⟨e, .front trivial hf⟩

theorem launch (h : Occurs s) (image : Nat → UInt8) (hb : s.back = .ended) (hf : s.front = .ended) :
    Occurs (launchMangosteen s image) :=
  h.next ⟨_, .launch image hb hf⟩

theorem crash (h : Occurs s) :
    Occurs { s with durable := s.words, back := .ended, front := .ended } :=
  (h.next ⟨_, .writeBack s.words (.inr rfl) (.inr rfl) (.inr rfl)⟩).next ⟨_, .crash⟩

end Occurs

def blank : State := { files := fun _ _ => 0, image := fun _ _ => 0 }

/-- A first run that has synchronised one region and committed an empty batch,
and the recovery after it, up to the point where both processes run. -/
theorem occurs_recovered :
    ∃ s, Occurs s ∧ s.back = .processEntry ∧ s.front = .running ∧ s.numberOfEntries = 1 ∧
    s.words.uncommitedNumberOfEntries = 1 ∧ s.sequenceNumber = 0 ∧
    s.globalLocalHead = s.published.length ∧
    s.frontMap = [⟨4096, 4096, .file 0⟩] ∧ s.files = s.image := by
  have hstart : Occurs blank := .start ⟨_, rfl⟩
  have hfirst := hstart.launch (fun _ => 0) rfl rfl
  have hregion := ((hfirst.back (.syncCreate ⟨4096, 4096⟩ rfl)).back (.syncCopy rfl)).back
    (.syncRecord rfl (by decide))
  have hbatch := (hregion.back (.syncDone rfl)).front (.publish rfl)
  have hcommit :=
    (((hbatch.back (.commit rfl rfl)).back (.commitMetadata rfl)).back
      (.regionTableCommit rfl)).back
    (.commitDequeuedEntries rfl)
  have hagain := hcommit.crash.launch (fun _ => 0) rfl rfl
  have hremapped := (hagain.back (.remap rfl (by decide))).back (.remapDone rfl (by decide))
  have hrestored :=
    (hremapped.front (.restoreMemory rfl (by decide))).front (.restored rfl (by decide))
  exact ⟨_, hrestored, rfl, rfl, rfl, rfl, rfl, rfl, rfl, rfl⟩

end Mangosteen.Deployment
