import Mangosteen.Transactions

namespace Mangosteen.ThreadMemory

open Memory Session Instrumentation Transactions OpenAddressing

/-- The memory of a `per_thread_t` and its hash set, as far as recording and
logging read it. `padding` is the four bytes that follow the `int combiner`, and
`memcpyArray` the places of an array of `MAX_NUM_OF_MEMCPY`. -/
structure ThreadData where
  combiner : Nat
  padding : Nat
  hashSetEntries : Nat → Nat
  numberOfHashSetEntries : Nat
  memcpyCount : Int
  memcpyArray : Nat → MemcpyEntry

/-- What `event_thread_init` sets in the memory that it is given. -/
def eventThreadInit (data : ThreadData) : ThreadData :=
  { data with hashSetEntries := fun _ => 0, combiner := 0 }

/-- The load that `check_combiner_state` compares with zero is eight bytes wide. -/
def checkCombinerState (data : ThreadData) : Nat := data.combiner + 2 ^ 32 * data.padding

def ThreadData.hashSet (data : ThreadData) : PerThread where
  hashSetEntries := data.hashSetEntries
  numberOfHashSetEntries := data.numberOfHashSetEntries

def storeLines (lines : List Nat) (data : ThreadData) : Option ThreadData :=
  (insertLines lines data.hashSet).map fun d =>
    { data with
      hashSetEntries := d.hashSetEntries
      numberOfHashSetEntries := d.numberOfHashSetEntries }

def storeAddress (addr size : Nat) (data : ThreadData) : Option ThreadData :=
  if checkCombinerState data = 0 then some data else storeLines (coveredLines addr size) data

/-- `instrumented_memcpy` does not look at the end of its array; an access
outside of it is undefined. -/
def instrumentedMemcpy (dest size : Nat) (data : ThreadData) : Option ThreadData :=
  if data.combiner = 1 then
    if 0 ≤ data.memcpyCount ∧ data.memcpyCount < maxNumOfMemcpy then
      some { data with
        memcpyArray := Function.update data.memcpyArray data.memcpyCount.toNat ⟨dest, dest + size⟩
        memcpyCount := data.memcpyCount + 1 }
    else none
  else some data

def start (data : ThreadData) : ThreadData := { data with combiner := 1 }

def resetHashSet (data : ThreadData) : ThreadData :=
  { data with combiner := 0, hashSetEntries := fun _ => 0 }

/-- The batches that `instrument_stop` enqueues, and the memory it leaves. -/
def stop (memory : Nat → UInt8) (data : ThreadData) : Option (List (List Entry) × ThreadData) :=
  if data.memcpyCount ≤ maxNumOfMemcpy then
    some
      ((List.range data.memcpyCount.toNat).map
        (fun i => (data.memcpyArray i).lines.map (redoEntry memory)) ++
          [(((List.range hashSetSize).map data.hashSetEntries).filter (1000 < ·)).map
            (redoEntry memory)],
        { data with
          combiner := 0
          hashSetEntries := fun _ => 0
          numberOfHashSetEntries := 0
          memcpyCount := 0 })
  else none

/-- What the instrumentation sees of a write of the application. -/
inductive Recorded
  | store (addr size : Nat)
  | memcpy (dest size : Nat)

inductive Outside
  | access (r : Recorded)
  | resetHashSet

/-- One transaction of a thread: what it does before `instrument_start`, what it
records until `instrument_stop`, and the memory at that moment. -/
structure Transaction where
  before : List Outside
  inside : List Recorded
  memory : Nat → UInt8

def see : Recorded → ThreadData → Option ThreadData
  | .store addr size, data => storeAddress addr size data
  | .memcpy dest size, data => instrumentedMemcpy dest size data

def seeOutside : Outside → ThreadData → Option ThreadData
  | .access r, data => see r data
  | .resetHashSet, data => some (resetHashSet data)

def seeAll : List Recorded → ThreadData → Option ThreadData
  | [], data => some data
  | r :: rs, data => (see r data).bind (seeAll rs)

def seeAllOutside : List Outside → ThreadData → Option ThreadData
  | [], data => some data
  | o :: os, data => (seeOutside o data).bind (seeAllOutside os)

def transact (t : Transaction) (data : ThreadData) : Option (List (List Entry) × ThreadData) :=
  (seeAllOutside t.before data).bind fun data => (seeAll t.inside (start data)).bind (stop t.memory)

/-- What the calls of `instrument_stop` enqueue, up to one that is not reached. -/
def outputs : List Transaction → ThreadData → List (List (List Entry))
  | [], _ => []
  | t :: ts, data =>
      match transact t data with
      | none => []
      | some (batches, data) => batches :: outputs ts data

section Own

/-- What a transaction records, with nothing before it. -/
def record : Recorded → PerThread → Option PerThread
  | .store addr size, data => storeAddressInHashSet addr size data
  | .memcpy dest size, data =>
      if data.combiner = 1 then
        some { data with memcpyArray := data.memcpyArray ++ [⟨dest, dest + size⟩] }
      else some data

def recordAll : List Recorded → PerThread → Option PerThread
  | [], data => some data
  | r :: rs, data => (record r data).bind (recordAll rs)

/-- The batches that a transaction's own lines and copies determine. -/
def ownBatches (t : Transaction) : Option (List (List Entry)) :=
  (recordAll t.inside (instrumentStart {})).map (loggedBatches t.memory)

def ownOutputs : List Transaction → List (List (List Entry))
  | [] => []
  | t :: ts =>
      match ownBatches t with
      | none => []
      | some batches => batches :: ownOutputs ts

end Own

/-- Every `instrument_stop` of the thread logs its own transaction. -/
def Isolated (data : ThreadData) (ts : List Transaction) : Prop :=
  outputs ts (eventThreadInit data) = ownOutputs ts

def copies (rs : List Recorded) : Nat :=
  rs.countP fun r => match r with
    | .memcpy _ _ => true
    | .store _ _ => false

/-- No transaction makes more copies than the array has places. -/
def FewCopies (ts : List Transaction) : Prop := ∀ t ∈ ts, copies t.inside ≤ maxNumOfMemcpy

/-- Memory that stands for what a transaction has recorded so far. -/
structure Represents (data : ThreadData) (own : PerThread) : Prop where
  combiner : data.combiner = own.combiner
  padding : data.padding = 0
  hashSet : data.hashSetEntries = own.hashSetEntries
  count : data.memcpyCount = own.memcpyArray.length
  copies : ∀ i e, own.memcpyArray[i]? = some e → data.memcpyArray i = e

section Represents

variable {data : ThreadData} {own : PerThread}

theorem insertLines_congr {d e : PerThread} (h : d.hashSetEntries = e.hashSetEntries)
    (lines : List Nat) :
    (insertLines lines d).map (·.hashSetEntries) = (insertLines lines e).map
    (·.hashSetEntries) := by
  induction lines generalizing d e with
  | nil => simp [insertLines, h]
  | cons line lines ih =>
      simp only [insertLines, insertLine, h]
      cases OpenAddressing.probe hashSetSize 0 e.hashSetEntries line
        hashSetSize (homeSlot line) with
      | none => rfl
      | some i =>
          simp only [Option.map_some, Option.bind_some]
          exact ih rfl

theorem Represents.checkCombinerState (h : Represents data own) :
    checkCombinerState data = own.combiner := by
  rw [ThreadMemory.checkCombinerState, h.padding, Nat.mul_zero, Nat.add_zero, h.combiner]

theorem Represents.storeLines (h : Represents data own) (lines : List Nat) :
    Option.Rel Represents (storeLines lines data) (insertLines lines own) := by
  have hcongr := insertLines_congr (d := data.hashSet) (e := own) h.hashSet lines
  rw [ThreadMemory.storeLines]
  cases hd : insertLines lines data.hashSet with
  | none =>
      rw [hd, Option.map_none, eq_comm, Option.map_eq_none_iff] at hcongr
      rw [hcongr]
      exact .none
  | some d =>
      rw [hd, Option.map_some, eq_comm, Option.map_eq_some_iff] at hcongr
      obtain ⟨e, he, hslots⟩ := hcongr
      rw [he]
      refine .some ⟨?_, h.padding, hslots.symm, ?_, ?_⟩
      · rw [combiner_insertLines he]; exact h.combiner
      · rw [memcpyArray_insertLines he]; exact h.count
      · rw [memcpyArray_insertLines he]; exact h.copies

theorem Represents.see (h : Represents data own) (r : Recorded)
    (hroom : own.memcpyArray.length + ThreadMemory.copies [r] ≤ maxNumOfMemcpy) :
    Option.Rel Represents (see r data) (record r own) := by
  cases r with
  | store addr size =>
      rw [ThreadMemory.see, storeAddress, h.checkCombinerState, record, storeAddressInHashSet]
      split
      · exact .some h
      · exact h.storeLines _
  | memcpy dest size =>
      have hlt : own.memcpyArray.length + 1 ≤ maxNumOfMemcpy := by
        simpa [ThreadMemory.copies] using hroom
      rw [ThreadMemory.see, instrumentedMemcpy, record]
      by_cases hc : own.combiner = 1
      · rw [if_pos hc, if_pos (h.combiner.trans hc), if_pos (by rw [h.count]; omega)]
        refine .some ⟨h.combiner, h.padding, h.hashSet, by simp [h.count], fun i e he => ?_⟩
        simp only [h.count, Int.toNat_natCast]
        by_cases hi : i = own.memcpyArray.length
        · subst hi
          rw [Function.update_self]
          simpa using he
        · have hi' : i < own.memcpyArray.length := by
            have := (List.getElem?_eq_some_iff.mp he).1
            rw [List.length_append, List.length_singleton] at this
            omega
          rw [Function.update_of_ne hi]
          rw [List.getElem?_append_left hi'] at he
          exact h.copies i e he
      · rw [if_neg hc, if_neg (by rw [h.combiner]; exact hc)]
        exact .some h

theorem copies_cons (r : Recorded) (rs : List Recorded) :
    copies (r :: rs) = copies [r] + copies rs := by
  simp [copies, List.countP_cons, Nat.add_comm]

theorem length_record {r : Recorded} {own own' : PerThread} (h : record r own = some own') :
    own'.memcpyArray.length ≤ own.memcpyArray.length + copies [r] := by
  cases r with
  | store addr size =>
      rw [record, storeAddressInHashSet] at h
      split at h
      · cases h; exact Nat.le_add_right _ _
      · rw [memcpyArray_insertLines h]; exact Nat.le_add_right _ _
  | memcpy dest size =>
      rw [record] at h
      split at h
      · cases h; simp [copies]
      · cases h; exact Nat.le_add_right _ _

theorem Represents.seeAll (h : Represents data own) (rs : List Recorded)
    (hroom : own.memcpyArray.length + ThreadMemory.copies rs ≤ maxNumOfMemcpy) :
    Option.Rel Represents (seeAll rs data) (recordAll rs own) := by
  induction rs generalizing data own with
  | nil => exact .some h
  | cons r rs ih =>
      rw [copies_cons] at hroom
      have hstep := h.see r (by omega)
      rw [ThreadMemory.seeAll, recordAll]
      cases ho : record r own with
      | none =>
          rw [ho] at hstep
          cases hd : ThreadMemory.see r data with
          | none => exact .none
          | some d => rw [hd] at hstep; cases hstep
      | some own' =>
          rw [ho] at hstep
          cases hd : ThreadMemory.see r data with
          | none => rw [hd] at hstep; cases hstep
          | some data' =>
              rw [hd] at hstep
              cases hstep with
              | some hr => exact ih hr (by have := length_record ho; omega)

theorem Represents.stop (h : Represents data own) (hroom : own.memcpyArray.length ≤ maxNumOfMemcpy)
    (memory : Nat → UInt8) :
    ∃ data', stop memory data = some (loggedBatches memory own, data') ∧ Represents data' {} := by
  have hcopies : (List.range data.memcpyCount.toNat).map
      (fun i => (data.memcpyArray i).lines.map (redoEntry memory)) =
      own.memcpyArray.map fun e => e.lines.map (redoEntry memory) := by
    rw [h.count, Int.toNat_natCast]
    refine List.ext_getElem (by simp) fun i hi hi' => ?_
    have hi'' : i < own.memcpyArray.length := by simpa using hi
    rw [List.getElem_map, List.getElem_map, List.getElem_range,
      h.copies i _ (List.getElem?_eq_getElem hi'')]
  rw [ThreadMemory.stop, if_pos (by rw [h.count]; omega), hcopies, h.hashSet]
  exact ⟨_, rfl, rfl, h.padding, rfl, rfl, by simp⟩

theorem Represents.seeOutside (h : Represents data {}) (o : Outside) :
    ∃ data', seeOutside o data = some data' ∧ Represents data' {} := by
  cases o with
  | resetHashSet => exact ⟨_, rfl, rfl, h.padding, rfl, h.count, h.copies⟩
  | access r =>
      cases r with
      | store addr size => exact ⟨data, if_pos h.checkCombinerState, h⟩
      | memcpy dest size => exact ⟨data, if_neg (by rw [h.combiner]; decide), h⟩

theorem Represents.seeAllOutside (h : Represents data {}) (os : List Outside) :
    ∃ data', seeAllOutside os data = some data' ∧ Represents data' {} := by
  induction os generalizing data with
  | nil => exact ⟨data, rfl, h⟩
  | cons o os ih =>
      obtain ⟨d, hd, hr⟩ := h.seeOutside o
      obtain ⟨data', hd', hr'⟩ := ih hr
      exact ⟨data', by rw [ThreadMemory.seeAllOutside, hd, Option.bind_some, hd'], hr'⟩

theorem length_recordAll {rs : List Recorded} {own own' : PerThread}
    (h : recordAll rs own = some own') :
    own'.memcpyArray.length ≤ own.memcpyArray.length + copies rs := by
  induction rs generalizing own with
  | nil => cases h; exact Nat.le_add_right _ _
  | cons r rs ih =>
      obtain ⟨x, hx, h⟩ := Option.bind_eq_some_iff.mp h
      have := length_record hx
      have := ih h
      rw [copies_cons]
      omega

/-- One transaction, from memory that stands for nothing recorded to such memory
again. -/
theorem Represents.transact {t : Transaction} (h : Represents data {})
    (hroom : ThreadMemory.copies t.inside ≤ maxNumOfMemcpy) :
    (transact t data = none ∧ ownBatches t = none) ∨
      ∃ batches data', transact t data = some (batches, data') ∧ ownBatches t = some batches ∧
      Represents data' {} := by
  obtain ⟨d, hd, hr⟩ := h.seeAllOutside t.before
  have hstart : Represents (start d) (instrumentStart {}) :=
    ⟨rfl, hr.padding, hr.hashSet, hr.count, hr.copies⟩
  have hsee := hstart.seeAll t.inside (by simpa [instrumentStart] using hroom)
  rw [ThreadMemory.transact, hd, Option.bind_some, ownBatches]
  cases ho : recordAll t.inside (instrumentStart {}) with
  | none =>
      rw [ho] at hsee
      cases hs : ThreadMemory.seeAll t.inside (start d) with
      | none => exact .inl ⟨rfl, rfl⟩
      | some x => rw [hs] at hsee; cases hsee
  | some own =>
      rw [ho] at hsee
      cases hs : ThreadMemory.seeAll t.inside (start d) with
      | none => rw [hs] at hsee; cases hsee
      | some x =>
          rw [hs] at hsee
          cases hsee with
          | some hx =>
              have hlen : own.memcpyArray.length ≤ 0 + ThreadMemory.copies t.inside :=
                length_recordAll ho
              obtain ⟨data', hstop, hdata'⟩ := hx.stop (by omega) t.memory
              exact .inr ⟨_, data', hstop, rfl, hdata'⟩

theorem Represents.outputs {ts : List Transaction} (h : Represents data {}) (hroom : FewCopies ts) :
    outputs ts data = ownOutputs ts := by
  induction ts generalizing data with
  | nil => rfl
  | cons t ts ih =>
      rcases h.transact (hroom t (by simp)) with ⟨hn, ho⟩ | ⟨batches, data', hs, ho, hd⟩
      · rw [ThreadMemory.outputs, hn, ownOutputs, ho]
      · rw [ThreadMemory.outputs, hs, ownOutputs, ho]
        exact congrArg _ (ih hd fun x hx => hroom x (by simp [hx]))

end Represents

section Garbage

variable {data : ThreadData}

/-- Transactions that show what the memory held before: one that records nothing,
one that makes a copy, and one after a store outside. -/
def idle : Transaction := ⟨[], [], fun _ => 0⟩

def copying : Transaction := ⟨[], [.memcpy 4096 32], fun _ => 0⟩

def storedBefore : Transaction := ⟨[.access (.store 4096 1)], [], fun _ => 0⟩

theorem outputs_singleton (t : Transaction) (data : ThreadData) :
    outputs [t] data = ((transact t data).map (·.1)).toList := by
  rw [outputs]
  cases transact t data <;> rfl

theorem ownOutputs_of_idle {t : Transaction} (h : t.inside = []) : ownOutputs [t] = [[[]]] := by
  have hlines : (instrumentStart {}).lines = [] := by simp [PerThread.lines, instrumentStart]
  have hbatches : ownBatches t = some [[]] := by
    simp only [ownBatches, h, recordAll, Option.map_some, loggedBatches, hlines]
    rfl
  rw [ownOutputs, hbatches]
  rfl

theorem count_nonpos (h : Isolated data [idle]) : data.memcpyCount ≤ 0 := by
  rw [Isolated, ownOutputs_of_idle rfl, outputs_singleton] at h
  have hrun : transact idle (eventThreadInit data) = stop (fun _ => 0)
      (start (eventThreadInit data)) := rfl
  by_contra hpos
  rw [hrun, stop] at h
  split at h
  · have hlen := congrArg (fun l => (l.map List.length).sum) h
    simp only [Option.map_some, Option.toList_some, List.map_cons, List.map_nil,
      List.sum_cons, List.sum_nil,
      List.length_append, List.length_map, List.length_range, List.length_cons,
      List.length_nil] at hlen
    have : (start (eventThreadInit data)).memcpyCount = data.memcpyCount := rfl
    omega
  · cases h

theorem count_nonneg (h : Isolated data [copying]) : 0 ≤ data.memcpyCount := by
  by_contra hneg
  have hsee : seeAll [.memcpy 4096 32] (start (eventThreadInit data)) = none := by
    rw [seeAll, see, instrumentedMemcpy, if_pos (show (start _).combiner = 1 from rfl),
      if_neg fun hc => hneg hc.1, Option.bind_none]
  have hrun : transact copying (eventThreadInit data) = none := by
    rw [transact, copying, seeAllOutside, Option.bind_some, hsee, Option.bind_none]
  rw [Isolated, outputs_singleton, hrun, ownOutputs] at h
  cases h

/-- Bytes behind the combiner flag make a store outside of any transaction
appear in the next one. -/
theorem padding_eq_zero (hcount : data.memcpyCount = 0) (h : Isolated data [storedBefore]) :
    data.padding = 0 := by
  rw [Isolated, ownOutputs_of_idle rfl, outputs_singleton] at h
  by_contra hpad
  have hcheck : checkCombinerState (eventThreadInit data) ≠ 0 := by
    rw [checkCombinerState]
    have : 0 < (eventThreadInit data).padding := Nat.pos_of_ne_zero hpad
    omega
  have hlines : coveredLines 4096 1 = [4096] := by decide
  obtain ⟨d, hd, -, hs, -⟩ := @exists_insertLines (eventThreadInit data).hashSet {4096} [4096]
    placed_blank (by decide) (by simp) (by rintro k ⟨hne, j, -, rfl⟩; exact absurd rfl hne)
  obtain ⟨-, j, hj, hslot⟩ := (hs 4096).mpr (.inl (by simp))
  have hrun : transact storedBefore (eventThreadInit data) = stop (fun _ => 0)
      (start { eventThreadInit data with
      hashSetEntries := d.hashSetEntries,
      numberOfHashSetEntries := d.numberOfHashSetEntries }) := by
    rw [transact, storedBefore, seeAllOutside, seeOutside, see, storeAddress, if_neg hcheck,
      storeLines, hlines, hd]
    rfl
  have hmem : 4096 ∈ ((List.range hashSetSize).map d.hashSetEntries).filter (1000 < ·) := by
    simp only [List.mem_filter, List.mem_map, List.mem_range, decide_eq_true_eq]
    exact ⟨⟨j, hj, hslot⟩, by decide⟩
  rw [hrun, stop, if_pos (by simp [start, eventThreadInit, hcount, maxNumOfMemcpy])] at h
  simp only [start, eventThreadInit, hcount, Int.toNat_zero, List.range_zero,
    List.map_nil, List.nil_append,
    Option.map_some, Option.toList_some, List.cons.injEq, List.map_eq_nil_iff, and_true] at h
  rw [h] at hmem
  cases hmem

end Garbage

theorem represents_init (hcount : data.memcpyCount = 0) (hpad : data.padding = 0) :
    Represents (eventThreadInit data) {} :=
  ⟨rfl, hpad, rfl, hcount, by simp⟩

/-- Whatever a thread does, each of its transactions logs its own lines and
copies and no others, exactly if the memory that the thread was given has zeros
in the two places that are read and were never set. -/
theorem transactions_isolated (data : ThreadData) :
    (∀ ts, FewCopies ts → Isolated data ts) ↔ data.memcpyCount = 0 ∧ data.padding = 0 := by
  constructor
  · intro h
    have hcount : data.memcpyCount = 0 := by
      have hle := count_nonpos (h [idle] (by simp [FewCopies, idle, copies]))
      have hge := count_nonneg (h [copying] (by simp [FewCopies, copying, copies, maxNumOfMemcpy]))
      omega
    exact ⟨hcount, padding_eq_zero hcount
      (h [storedBefore] (by simp [FewCopies, storedBefore, copies]))⟩
  · rintro ⟨hcount, hpad⟩ ts hts
    exact (represents_init hcount hpad).outputs hts

/-- Memory whose count of copies happens to be one. -/
def garbage : ThreadData := ⟨0, 0, fun _ => 0, 0, 1, fun _ => ⟨4096, 4128⟩⟩

theorem not_transactions_isolated : ¬ ∀ data ts, FewCopies ts → Isolated data ts := by
  intro h
  have hle := count_nonpos (h garbage [idle] (by simp [FewCopies, idle, copies]))
  exact absurd hle (by decide)

end Mangosteen.ThreadMemory
