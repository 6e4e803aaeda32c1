import Mangosteen.Memory

namespace Mangosteen.RegionTable

open PersistentMemory Prog Memory

def initialTableSize : Nat := 65536

/-- A failed assertion stops the process. -/
def abort : Code Unit := kernel (fun _ => none)

def recordLocs (index : Nat) : List Loc :=
  [.recordAddress index, .recordSize index, .recordFileIndex index, .recordCommitIndex index]

def regionTableAddRegionRecord (addr size : Nat) : Code Unit := do
  let index ← load .uncommitedNumberOfEntries
  if index < initialTableSize then
    let commitIndex ← load .tableCommitIndex
    storeAll (fun _ => id)
      [⟨.recordAddress index, addr⟩, ⟨.recordSize index, size⟩, ⟨.recordFileIndex index, index⟩,
        ⟨.recordCommitIndex index, commitIndex + 1⟩]
    flush (recordLocs index)
    storeRecord .uncommitedNumberOfEntries (index + 1)
      (fun g => { g with regions := g.regions ++ [(addr, size)] })
  else
    abort

/-- `open` with `O_TRUNC`, then `ftruncate`: every byte of the file reads zero. -/
def truncate (index : Nat) (w : State) : State :=
  { w with
    cur := fun l => match l with
      | .byte (.file i o) => if i = index then (0 : UInt8) else w.cur (.byte (.file i o))
      | l => w.cur l
    per := fun l => match l with
      | .byte (.file i o) => if i = index then (0 : UInt8) else w.per (.byte (.file i o))
      | l => w.per l
    pending := fun a l => match l with
      | .byte (.file i o) => if i = index then none else w.pending a (.byte (.file i o))
      | l => w.pending a l }

def createPmemFile : Code Nat := do
  let sequenceNumber ← load .sequenceNumber
  kernel (fun w => some (truncate sequenceNumber w))
  store .sequenceNumber (sequenceNumber + 1)
  pure sequenceNumber

def mapFixed (m : Mapping) : Code Unit := do
  let ms ← load .addressMap
  store .addressMap (m :: ms)

def regionTableCreateMemoryRegion (addr size : Nat) : Code Unit := do
  regionTableAddRegionRecord addr size
  let index ← createPmemFile
  mapFixed ⟨addr, size, .file index⟩

/-- The flush writes back the line of `number_of_entries`, which also holds
`uncommited_number_of_entries`. -/
def regionTableCommit : Code Unit := do
  fence
  let entries ← load .uncommitedNumberOfEntries
  store .numberOfEntries entries
  flush [.numberOfEntries, .uncommitedNumberOfEntries]
  fence

end Mangosteen.RegionTable
