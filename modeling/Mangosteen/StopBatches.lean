import Mangosteen.Transactions

namespace Mangosteen.StopBatches

open PersistentMemory Prog Memory RingBuffer Session Instrumentation Transactions

section Program

variable (N : Nat) (memory : Nat → UInt8) (overflow : List Nat)

/-- `collect_payload_and_store_to_pmem` with the addresses of an overflow buffer. -/
def collectPayload (data : PerThread) (ht : Nat × Nat) : Code Unit := do
  let ht ← enqueueLines N memory overflow ht
  let ht ← enqueueLines N memory data.lines ht
  let ht ← ringBufferCommitEnqueuedEntries N ht.1 ht.2
  setGlobalHeadValue ht.1
  setGlobalTailValue ht.2

/-- One batch for every `memcpy`, then one for the overflow buffer and the hash
set. -/
def stopBatches (data : PerThread) : List (List Entry) :=
  data.memcpyArray.map (fun e => e.lines.map (redoEntry memory)) ++
  [(overflow ++ data.lines).map (redoEntry memory)]

def stopWith (data : PerThread) : Code PerThread := do
  recordSession (stopBatches memory overflow data) memory
  let head ← getGlobalHeadValue
  let tail ← getGlobalTailValue
  let ht ← logMemcpys N memory data.memcpyArray (head, tail)
  collectPayload N memory overflow data ht
  pure {}

theorem stopWith_eq (data : PerThread) :
    stopWith N memory overflow data =
    (do session N (stopBatches memory overflow data) memory; pure {}) := by
  simp only [stopWith, session, stopBatches, collectPayload, batches_append, batches,
    batch, logMemcpys_eq,
    enqueueLines_eq, List.map_append, enqueueAll_append, Prog.bind_assoc, Prog.pure_bind]

/-- Where nothing is put into the overflow buffer this is the code of the C build. -/
theorem stopWith_nil (data : PerThread) :
    stopWith N memory [] data = instrumentStop N memory data := by
  rw [stopWith_eq, instrumentStop_eq, stopBatches, loggedBatches, List.nil_append]

end Program

section Snapshot

variable {memory : Nat → UInt8} {overflow : List Nat} {data : PerThread} {e : Entry}

theorem exists_redoEntry (h : e ∈ (stopBatches memory overflow data).flatten) :
    ∃ addr, e = redoEntry memory addr := by
  obtain ⟨es, hes, he⟩ := List.mem_flatten.mp h
  have hmap : ∀ lines : List Nat, e ∈ lines.map (redoEntry memory) →
      ∃ addr, e = redoEntry memory addr := by
    intro lines hmem
    obtain ⟨addr, -, rfl⟩ := List.mem_map.mp hmem
    exact ⟨addr, rfl⟩
  rcases List.mem_append.mp hes with h | h
  · obtain ⟨c, -, rfl⟩ := List.mem_map.mp h
    exact hmap _ he
  · rw [List.mem_singleton.mp h] at he
    exact hmap _ he

theorem writes_snapshot {w : Nat × UInt8}
    (h : w ∈ writes (stopBatches memory overflow data).flatten) : w.2 = memory w.1 := by
  obtain ⟨e, he, hw⟩ := List.mem_flatMap.mp h
  obtain ⟨addr, rfl⟩ := exists_redoEntry he
  obtain ⟨k, -, rfl⟩ := List.mem_map.mp hw
  rfl

end Snapshot

/-- The redo entries of a transaction give one image, in whatever order and
however often they are applied, and the image is the snapshot wherever they
write. -/
theorem stop_entries_commute (memory : Nat → UInt8) (overflow : List Nat)
    (data : PerThread) (es : List Entry)
    (hes : ∀ e, e ∈ es ↔ e ∈ (stopBatches memory overflow data).flatten) (m : Nat → UInt8) :
    RedoLog.apply (writes es) m = RedoLog.apply
    (writes (stopBatches memory overflow data).flatten) m ∧
      ∀ e ∈ es, ∀ w ∈ entryWrites e, RedoLog.apply (writes es) m w.1 = memory w.1 := by
  have hsnapshot : ∀ w ∈ writes (stopBatches memory overflow data).flatten, w.2 = memory w.1 :=
    fun w => writes_snapshot
  have hmem : ∀ w, w ∈ writes es ↔ w ∈ writes (stopBatches memory overflow data).flatten := by
    intro w
    rw [writes, writes, List.mem_flatMap, List.mem_flatMap]
    simp only [hes]
  refine ⟨RedoLog.apply_snapshot_congr hsnapshot hmem m, fun e he w hw => ?_⟩
  have hw : w ∈ writes es := List.mem_flatMap.mpr ⟨e, he, hw⟩
  exact RedoLog.apply_snapshot_of_mem (fun v hv => hsnapshot v ((hmem v).mp hv)) m ⟨w, hw, rfl⟩

/-- A copy of 40 bytes to an unaligned address, beside a line of the hash set that
it overlaps. -/
def overlapping : PerThread where
  hashSetEntries := fun i => if i = 0 then 4096 else 0
  memcpyArray := [⟨4100, 4140⟩]

/-- The entries of a transaction, backwards and then once more. -/
def shuffled : List Entry :=
  (stopBatches (fun a => UInt8.ofNat a) [] overlapping).flatten.reverse ++
    (stopBatches (fun a => UInt8.ofNat a) [] overlapping).flatten

theorem stop_entries_commute_overlap : RedoLog.apply (writes shuffled) (fun _ => 0) =
      RedoLog.apply (writes (stopBatches (fun a => UInt8.ofNat a) [] overlapping).flatten)
      (fun _ => 0) ∧
    ∀ e ∈ shuffled, ∀ w ∈ entryWrites e, RedoLog.apply (writes shuffled) (fun _ => 0) w.1 =
    UInt8.ofNat w.1 := by
  refine stop_entries_commute (fun a => UInt8.ofNat a) [] overlapping shuffled
    (fun e => ?_) (fun _ => 0)
  rw [shuffled, List.mem_append, List.mem_reverse, or_self_iff]

end Mangosteen.StopBatches
