import Mangosteen.BackEnd

namespace Mangosteen.Restart

open PersistentMemory Prog Memory RingBuffer RegionTable BackEnd

/-- What belongs to the processes, and the value it has when they are started
again. -/
def volatileValue : (l : Loc) → Option (Val l)
  | .globalLocalHead | .globalLocalTail | .sequenceNumber | .semaphore => some (0 : Nat)
  | .addressMap => some []
  | .byte (.anonymous _) => some (0 : UInt8)
  | _ => none

/-- A power failure leaves what is durable. -/
def powerFailure (w : State) : State where
  cur l := (volatileValue l).getD (w.per l)
  per l := (volatileValue l).getD (w.per l)
  pending _ _ := none
  log := w.log

/-- The branch that finds the file of the ring. -/
def ringBufferCreateAndInitialise (w : State) : State :=
  (((w.store .globalLocalTail (w.cur .remoteTail) id).store .globalLocalHead
    (w.cur .remoteHead) id).store
    .lastPersistedHead (w.cur .remoteHead) id).store .lastPersistedTail (w.cur .remoteTail) id

/-- The branch that finds the file of the region table. -/
def regionTableCreateOrOpen (w : State) : State :=
  w.store .numberOfEntries (w.cur .commitMetadata).numberOfRegions id

/-- What `launch_mangosteen` does before it forks, with no other process
running. -/
def launchMangosteen (w : State) : State :=
  regionTableCreateOrOpen (ringBufferCreateAndInitialise (powerFailure w))

/-- Decided by `launch_mangosteen` before it forks. -/
def newProcess (w : State) : Bool := w.cur .numberOfEntries == 0

/-- The loop of `remap_backend`, with `n` regions left from the `i`-th on. -/
def remapRegions : (n i : Nat) → Code Unit
  | 0, _ => pure ()
  | n + 1, i => do
      let address ← load (.recordAddress i)
      let size ← load (.recordSize i)
      mapFixed ⟨address, size, .file i⟩
      remapRegions n (i + 1)

def remapBackend : Code Unit := do
  let entries ← load .numberOfEntries
  remapRegions entries 0

/-- `start_back_end` in a process that is not new, up to its replay loop. -/
def startBackEnd : Code Unit := do
  remapBackend
  let metadata : AtomicPmemCommit ← load Loc.commitMetadata
  store .numberOfEntries metadata.numberOfRegions
  flush [.numberOfEntries, .uncommitedNumberOfEntries]
  fence

theorem launchMangosteen_cur {l : Loc} (w : State) (h₁ : l ≠ .globalLocalTail)
    (h₂ : l ≠ .globalLocalHead)
    (h₃ : l ≠ .lastPersistedHead) (h₄ : l ≠ .lastPersistedTail) (h₅ : l ≠ .numberOfEntries) :
    (launchMangosteen w).cur l = (volatileValue l).getD (w.per l) := by
  rw [launchMangosteen, regionTableCreateOrOpen, World.store_cur_of_ne _ _ _ _ _ h₅,
    ringBufferCreateAndInitialise,
    World.store_cur_of_ne _ _ _ _ _ h₄, World.store_cur_of_ne _ _ _ _ _ h₃,
    World.store_cur_of_ne _ _ _ _ _ h₂, World.store_cur_of_ne _ _ _ _ _ h₁]
  rfl

@[simp] theorem launchMangosteen_globalLocalHead (w : State) :
    (launchMangosteen w).cur .globalLocalHead = w.per .remoteHead := by
  simp [launchMangosteen, regionTableCreateOrOpen, ringBufferCreateAndInitialise,
    World.store_cur_of_ne, powerFailure, volatileValue]

@[simp] theorem launchMangosteen_numberOfEntries (w : State) :
    (launchMangosteen w).cur .numberOfEntries = (w.per .commitMetadata).numberOfRegions := by
  simp [launchMangosteen, regionTableCreateOrOpen, ringBufferCreateAndInitialise,
    World.store_cur_of_ne, powerFailure, volatileValue]

end Mangosteen.Restart
