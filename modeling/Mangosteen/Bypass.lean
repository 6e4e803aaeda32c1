import Mangosteen.Transactions

namespace Mangosteen.Bypass

open Memory Session Instrumentation Transactions OpenAddressing

def bypassBufferSize : Nat := 4096

structure HashSetBypassEntry where
  addr : Nat
  size : Nat

/-- What a thread records where the deduplication buffer is not built in. The
count is set to zero by `instrument_stop`, not by `event_thread_init`. -/
structure BypassThread where
  combiner : Nat
  numberOfHashSetEntries : Nat
  entryBuffer : Nat → HashSetBypassEntry

/-- Every store takes the next place of the buffer. A store beyond its end is
undefined. -/
def storeAddressInBuffer (addr size : Nat) (data : BypassThread) : Option BypassThread :=
  if data.combiner = 0 then some data
  else if data.numberOfHashSetEntries < bypassBufferSize then
    some { data with
      entryBuffer := Function.update data.entryBuffer data.numberOfHashSetEntries ⟨addr, size⟩
      numberOfHashSetEntries := data.numberOfHashSetEntries + 1 }
  else none

/-- The addresses of `while (addr < entry_boundary)`, in steps of a payload. -/
def HashSetBypassEntry.lines (e : HashSetBypassEntry) : List Nat :=
  (List.range ((e.size + payloadSize - 1) / payloadSize)).map (e.addr + payloadSize * ·)

def BypassThread.lines (data : BypassThread) : List Nat :=
  (List.range data.numberOfHashSetEntries).flatMap fun i => (data.entryBuffer i).lines

/-- The redo entries of the bypass branch of `collect_payload_and_store_to_pmem`. -/
def bypassEntries (memory : Nat → UInt8) (data : BypassThread) : List Entry :=
  data.lines.map (redoEntry memory)

/-- The redo entries of its hash-set branch. -/
def hashSetEntries (memory : Nat → UInt8) (data : PerThread) : List Entry :=
  data.lines.map (redoEntry memory)

/-- A plain store: its address and the bytes it writes. -/
structure PlainStore where
  addr : Nat
  bytes : List UInt8

def storeAll : List PlainStore → (Nat → UInt8) → Nat → UInt8
  | [], memory => memory
  | x :: xs, memory => storeAll xs (write memory x.addr x.bytes)

/-- The stores of a transaction, seen by the deduplicating path. -/
def recordInHashSet : List PlainStore → PerThread → Option PerThread
  | [], data => some data
  | x :: xs, data => (storeAddressInHashSet x.addr x.bytes.length data).bind (recordInHashSet xs)

/-- The same stores, seen by the bypass path. -/
def recordInBuffer : List PlainStore → BypassThread → Option BypassThread
  | [], data => some data
  | x :: xs, data => (storeAddressInBuffer x.addr x.bytes.length data).bind (recordInBuffer xs)

def storedLines (xs : List PlainStore) : List Nat :=
  xs.flatMap fun x => coveredLines x.addr x.bytes.length

section Replay

variable {m memory : Nat → UInt8}

theorem storeAll_changed (xs : List PlainStore) (m : Nat → UInt8) (a : Nat) :
    storeAll xs m a = m a ∨ ∃ x ∈ xs, x.addr ≤ a ∧ a < x.addr + x.bytes.length := by
  induction xs generalizing m with
  | nil => exact .inl rfl
  | cons x xs ih =>
      rcases ih (write m x.addr x.bytes) with h | ⟨y, hy, hin⟩
      · by_cases ha : x.addr ≤ a ∧ a < x.addr + x.bytes.length
        · exact .inr ⟨x, by simp, ha⟩
        · left
          rw [storeAll, h, write]
          split
          · rw [List.getD_eq_getElem?_getD, List.getElem?_eq_none (by omega), Option.getD_none]
          · rfl
      · exact .inr ⟨y, by simp [hy], hin⟩

theorem replay_lines {lines : List Nat}
    (h : ∀ a, memory a = m a ∨ ∃ line ∈ lines, line ≤ a ∧ a < line + payloadSize) :
    RedoLog.apply (writes (lines.map (redoEntry memory))) m = memory := by
  refine RedoLog.apply_snapshot (fun w hw => ?_) fun a => ?_
  · obtain ⟨e, he, hw⟩ := List.mem_flatMap.mp hw
    obtain ⟨line, -, rfl⟩ := List.mem_map.mp he
    obtain ⟨k, -, rfl⟩ := List.mem_map.mp hw
    rfl
  · rcases h a with hsame | ⟨line, hline, hle, hlt⟩
    · exact .inr hsame.symm
    · exact .inl (mem_writes_redoEntry hle hlt (List.mem_map_of_mem hline))

end Replay

section HashSet

variable {data : PerThread} {keys : Finset Nat}

theorem exists_recordInHashSet {xs : List PlainStore} (hc : data.combiner = 1)
    (hp : Placed hashSetSize 0 homeSlot data.hashSetEntries) (hcard : keys.card ≤ hashSetSize)
    (hkeys : ∀ line ∈ storedLines xs, line ∈ keys ∧ line ≠ 0)
    (hkept : ∀ k, Stores hashSetSize 0 data.hashSetEntries k → k ∈ keys) :
    ∃ data', recordInHashSet xs data = some data' ∧ ∀ k,
    Stores hashSetSize 0 data'.hashSetEntries k ↔
      k ∈ storedLines xs ∨ Stores hashSetSize 0 data.hashSetEntries k := by
  induction xs generalizing data with
  | nil => exact ⟨data, rfl, by simp [storedLines]⟩
  | cons x xs ih =>
      have hhead : ∀ line ∈ coveredLines x.addr x.bytes.length, line ∈ keys ∧ line ≠ 0 :=
        fun line hl => hkeys line (List.mem_append_left _ hl)
      obtain ⟨d, hd, hp', hs, hc', -⟩ := exists_insertLines hp hcard hhead hkept
      have hkept' : ∀ k, Stores hashSetSize 0 d.hashSetEntries k → k ∈ keys := fun k hk =>
        ((hs k).mp hk).elim (fun hl => (hhead k hl).1) (hkept k)
      obtain ⟨data', hr, hs'⟩ :=
        ih (hc'.trans hc) hp' (fun line hl => hkeys line (List.mem_append_right _ hl)) hkept'
      refine ⟨data', ?_, fun k => ?_⟩
      · rw [recordInHashSet, storeAddressInHashSet, if_neg (by rw [hc]; decide), hd,
          Option.bind_some, hr]
      · rw [hs', hs, storedLines, storedLines, List.flatMap_cons, List.mem_append]
        tauto

end HashSet

section Buffer

variable {data : BypassThread}

theorem exists_recordInBuffer {xs : List PlainStore} (hc : data.combiner = 1)
    (hlen : data.numberOfHashSetEntries + xs.length ≤ bypassBufferSize) :
    ∃ data', recordInBuffer xs data = some data' ∧ data.numberOfHashSetEntries ≤
    data'.numberOfHashSetEntries ∧
      (∀ i, i < data.numberOfHashSetEntries → data'.entryBuffer i = data.entryBuffer i) ∧
      ∀ x ∈ xs, ∃ i, i < data'.numberOfHashSetEntries ∧
      data'.entryBuffer i = ⟨x.addr, x.bytes.length⟩ := by
  induction xs generalizing data with
  | nil => exact ⟨data, rfl, le_rfl, fun _ _ => rfl, by simp⟩
  | cons x xs ih =>
      rw [List.length_cons] at hlen
      obtain ⟨data', hr, hle, hold, hnew⟩ := @ih { data with
        entryBuffer :=
          Function.update data.entryBuffer data.numberOfHashSetEntries ⟨x.addr, x.bytes.length⟩
        numberOfHashSetEntries := data.numberOfHashSetEntries + 1 } hc (by simp only; omega)
      simp only at hle hold
      refine ⟨data', ?_, by omega, fun i hi => ?_, fun y hy => ?_⟩
      · rw [recordInBuffer, storeAddressInBuffer, if_neg (by rw [hc]; decide), if_pos (by omega),
          Option.bind_some, hr]
      · rw [hold i (by omega), Function.update_of_ne (by omega)]
      · rcases List.mem_cons.mp hy with rfl | hy
        · refine ⟨data.numberOfHashSetEntries, by omega, ?_⟩
          rw [hold _ (by omega), Function.update_self]
        · exact hnew y hy

theorem exists_bypassLine {e : HashSetBypassEntry} {a : Nat} (ha : e.addr ≤ a)
    (ha' : a < e.addr + e.size) : ∃ line ∈ e.lines, line ≤ a ∧ a < line + payloadSize := by
  refine ⟨e.addr + payloadSize * ((a - e.addr) / payloadSize),
    List.mem_map.mpr ⟨_, List.mem_range.mpr ?_, rfl⟩, ?_, ?_⟩
  all_goals simp only [payloadSize]; omega

end Buffer

/-- What both paths agree on: the log of either turns the memory before the
transaction into the memory after it. -/
structure Agree (xs : List PlainStore) (m : Nat → UInt8) (data : PerThread)
    (bypass : BypassThread) : Prop where
  hashSet : RedoLog.apply (writes (hashSetEntries (storeAll xs m) data)) m = storeAll xs m
  buffer : RedoLog.apply (writes (bypassEntries (storeAll xs m) bypass)) m = storeAll xs m

/-- The transactions that both paths have room for. -/
structure Room (xs : List PlainStore) : Prop where
  above : ∀ x ∈ xs, 4096 < x.addr
  lines : (storedLines xs).toFinset.card ≤ hashSetSize
  stores : xs.length ≤ bypassBufferSize

theorem le_of_mem_storedLines {xs : List PlainStore} (h : ∀ x ∈ xs, 4096 < x.addr) {line : Nat}
    (hl : line ∈ storedLines xs) : 1000 < line := by
  obtain ⟨x, hx, hl⟩ := List.mem_flatMap.mp hl
  have haddr := h x hx
  have hle := le_of_mem_coveredLines hl
  have hmod := Nat.mod_lt x.addr (show 0 < payloadSize by decide)
  simp only [payloadSize] at hle hmod
  omega

/-- However the stores of a transaction overlap, logging each line once and
logging every store give the same image. -/
theorem logging_paths_agree (xs : List PlainStore) (hx : Room xs) (m : Nat → UInt8)
    (before : BypassThread) (hbefore : before.numberOfHashSetEntries = 0) :
    ∃ data bypass, recordInHashSet xs (instrumentStart {}) = some data ∧
      recordInBuffer xs { before with combiner := 1 } = some bypass ∧ Agree xs m data bypass := by
  have hkeys : ∀ line ∈ storedLines xs, line ∈ (storedLines xs).toFinset ∧ line ≠ 0 :=
    fun line hl =>
    ⟨by simpa using hl, by have := le_of_mem_storedLines hx.above hl; omega⟩
  obtain ⟨data, hd, hs⟩ :=
    exists_recordInHashSet (show (instrumentStart {}).combiner = 1 from rfl) placed_blank
    hx.lines hkeys
    (by rintro k ⟨hne, j, -, rfl⟩; exact absurd rfl hne)
  obtain ⟨bypass, hb, -, -, hbuf⟩ :=
    exists_recordInBuffer
      (show ({ before with combiner := 1 } : BypassThread).combiner = 1 from rfl)
      (show before.numberOfHashSetEntries + xs.length ≤ _ by
        rw [hbefore, Nat.zero_add]; exact hx.stores)
  refine ⟨data, bypass, hd, hb, replay_lines fun a => ?_, replay_lines fun a => ?_⟩
  · refine (storeAll_changed xs m a).imp_right ?_
    rintro ⟨x, hmem, hle, hlt⟩
    obtain ⟨line, hline, hl, hl'⟩ := exists_coveredLine hle hlt
    have hstored : line ∈ storedLines xs := List.mem_flatMap.mpr ⟨x, hmem, hline⟩
    obtain ⟨-, j, hj, hslot⟩ := (hs line).mpr (.inl hstored)
    refine ⟨line, ?_, hl, hl'⟩
    simp only [PerThread.lines, List.mem_filter, List.mem_map, List.mem_range, decide_eq_true_eq]
    exact ⟨⟨j, hj, hslot⟩, le_of_mem_storedLines hx.above hstored⟩
  · refine (storeAll_changed xs m a).imp_right ?_
    rintro ⟨x, hmem, hle, hlt⟩
    obtain ⟨i, hi, he⟩ := hbuf x hmem
    obtain ⟨line, hline, hl, hl'⟩ :=
      exists_bypassLine (e := bypass.entryBuffer i) (a := a) (by rw [he]; exact hle)
      (by rw [he]; exact hlt)
    exact ⟨line, List.mem_flatMap.mpr ⟨i, List.mem_range.mpr hi, hline⟩, hl, hl'⟩

theorem logging_paths_agree_overlap :
    ∃ data bypass, recordInHashSet [⟨8190, [1, 2, 3, 4]⟩, ⟨8188, [5, 6, 7]⟩]
    (instrumentStart {}) = some data ∧
      recordInBuffer [⟨8190, [1, 2, 3, 4]⟩, ⟨8188, [5, 6, 7]⟩] ⟨1, 0, fun _ => ⟨0, 0⟩⟩ =
      some bypass ∧ Agree [⟨8190, [1, 2, 3, 4]⟩, ⟨8188, [5, 6, 7]⟩] (fun _ => 0) data bypass :=
  logging_paths_agree _ ⟨by simp, by decide, by decide⟩ _ ⟨0, 0, fun _ => ⟨0, 0⟩⟩ rfl

end Mangosteen.Bypass
