import Mangosteen.ThreadMemory

namespace Mangosteen.MemcpyRecord

open Memory Instrumentation ThreadMemory

/-- `size_t size_of_copy = (int)...`, for an argument of 64 bits. -/
def sizeOfCopy (size : Nat) : Nat := ((BitVec.ofNat 32 size).signExtend 64).toNat

/-- The range is put at the end of the record, inside a transaction. Neither hook
looks at the end of the array. -/
def recordRange (e : MemcpyEntry) (data : ThreadData) : Option ThreadData :=
  if data.combiner = 1 then
    if 0 ≤ data.memcpyCount ∧ data.memcpyCount < maxNumOfMemcpy then
      some { data with
        memcpyArray := Function.update data.memcpyArray data.memcpyCount.toNat e
        memcpyCount := data.memcpyCount + 1 }
    else none
  else some data

theorem instrumentedMemcpy_eq (dest size : Nat) :
    instrumentedMemcpy dest size = recordRange ⟨dest, dest + size⟩ := rfl

/-- `wrap_pre` records the range of the copy that it makes itself. -/
def wrapPre (dst size : Nat) : ThreadData → Option ThreadData :=
  recordRange ⟨dst, (dst + sizeOfCopy size) % 2 ^ 64⟩

inductive Call
  | start
  | instrumentedMemcpy (dest size : Nat)
  | wrapPre (dst size : Nat)
  | stop (memory : Nat → UInt8)

def perform : Call → ThreadData → Option ThreadData
  | .start, data => some (ThreadMemory.start data)
  | .instrumentedMemcpy dest size, data => ThreadMemory.instrumentedMemcpy dest size data
  | .wrapPre dst size, data => MemcpyRecord.wrapPre dst size data
  | .stop memory, data => (ThreadMemory.stop memory data).map Prod.snd

def performAll : List Call → ThreadData → Option ThreadData
  | [], data => some data
  | c :: cs, data => (perform c data).bind (performAll cs)

/-- The ranges of the copies that are made while the flag is set, since the last
`instrument_stop`. -/
def madeSince : List Call → Nat → List MemcpyEntry → List MemcpyEntry
  | [], _, es => es
  | .start :: cs, _, es => madeSince cs 1 es
  | .instrumentedMemcpy dest size :: cs, combiner, es =>
      madeSince cs combiner (if combiner = 1 then es ++ [⟨dest, dest + size⟩] else es)
  | .wrapPre dst size :: cs, combiner, es =>
      madeSince cs combiner (if combiner = 1 then es ++ [⟨dst, dst + size⟩] else es)
  | .stop _ :: cs, _, _ => madeSince cs 0 []

/-- The next range goes to a place of the array, and the places before it hold the
given ranges. -/
structure Records (es : List MemcpyEntry) (data : ThreadData) : Prop where
  nonneg : 0 ≤ data.memcpyCount
  below : data.memcpyCount < maxNumOfMemcpy
  ranges : (List.range data.memcpyCount.toNat).map data.memcpyArray = es

/-- In every state that the calls lead to the record is as it should be. -/
def AlwaysRecords (cs : List Call) (data : ThreadData) (es : List MemcpyEntry) : Prop :=
  ∀ ys, ys <+: cs → ∃ d, performAll ys data = some d ∧ Records (madeSince ys data.combiner es) d

/-- Fewer than `MAX_NUM_OF_MEMCPY` copies between two stops, and those of the
wrapped function of sizes that an `int` can hold. -/
def Within : List Call → Nat → Nat → Prop
  | [], _, _ => True
  | .start :: cs, _, n => Within cs 1 n
  | .instrumentedMemcpy _ _ :: cs, combiner, n =>
      if combiner = 1 then n + 1 < maxNumOfMemcpy ∧ Within cs combiner (n + 1)
        else Within cs combiner n
  | .wrapPre _ size :: cs, combiner, n =>
      if combiner = 1 then (size < 2 ^ 31 ∧ n + 1 < maxNumOfMemcpy) ∧ Within cs combiner (n + 1)
      else Within cs combiner n
  | .stop _ :: cs, _, _ => Within cs 0 0

/-- Copies in user memory. -/
def Call.Valid : Call → Prop
  | .instrumentedMemcpy dest size => dest + size < 2 ^ 47
  | .wrapPre dst size => dst + size < 2 ^ 47
  | .start | .stop _ => True

section Steps

variable {c : Call} {cs : List Call} {data data' : ThreadData}
  {es : List MemcpyEntry} {e : MemcpyEntry}

theorem sizeOfCopy_eq {size : Nat} (h : size < 2 ^ 47) :
    sizeOfCopy size = size ↔ size < 2 ^ 31 := by
  rw [sizeOfCopy, BitVec.toNat_signExtend, BitVec.toNat_setWidth,
    BitVec.msb_eq_decide, BitVec.toNat_ofNat]
  constructor
  · intro hs
    by_contra hge
    split at hs
    · omega
    · rename_i hm
      simp only [decide_eq_true_eq] at hm
      omega
  · intro hlt
    rw [Nat.mod_eq_of_lt (by omega)]
    rw [if_neg (by simp; omega)]
    omega

theorem length_of_records (h : Records es data) : data.memcpyCount.toNat = es.length := by
  rw [← h.ranges, List.length_map, List.length_range]

/-- What an entry that is put at the end of the record leaves. -/
def pushEntry (e : MemcpyEntry) (data : ThreadData) : ThreadData :=
  { data with
    memcpyArray := Function.update data.memcpyArray data.memcpyCount.toNat e
    memcpyCount := data.memcpyCount + 1 }

theorem ranges_pushEntry (h : Records es data) :
    (List.range (pushEntry e data).memcpyCount.toNat).map
    (pushEntry e data).memcpyArray = es ++ [e] := by
  have hnonneg := h.nonneg
  have hcount : (pushEntry e data).memcpyCount.toNat = data.memcpyCount.toNat + 1 := by
    simp only [pushEntry]
    omega
  rw [hcount, List.range_succ, List.map_append, ← h.ranges]
  congr 1
  · refine List.map_congr_left fun i hi => ?_
    exact Function.update_of_ne (List.mem_range.mp hi).ne _ _
  · simp [pushEntry]

theorem alwaysRecords_nil (h : Records es data) : AlwaysRecords [] data es := by
  intro ys hys
  obtain rfl := List.prefix_nil.mp hys
  exact ⟨data, rfl, h⟩

theorem alwaysRecords_cons (h : Records es data) {data' : ThreadData} {es' : List MemcpyEntry}
    (hd : perform c data = some data')
    (hes : ∀ ys, madeSince (c :: ys) data.combiner es = madeSince ys data'.combiner es') :
    AlwaysRecords (c :: cs) data es ↔ AlwaysRecords cs data' es' := by
  constructor
  · intro hall ys hys
    obtain ⟨d, hrun, hrec⟩ := hall (c :: ys) (List.cons_prefix_cons.mpr ⟨rfl, hys⟩)
    rw [performAll, hd, Option.bind_some] at hrun
    rw [hes] at hrec
    exact ⟨d, hrun, hrec⟩
  · intro hall ys hys
    rcases List.prefix_cons_iff.mp hys with rfl | ⟨zs, rfl, hzs⟩
    · exact ⟨data, rfl, h⟩
    · obtain ⟨d, hrun, hrec⟩ := hall zs hzs
      refine ⟨d, by rw [performAll, hd, Option.bind_some, hrun], ?_⟩
      rw [hes]
      exact hrec

theorem recordRange_push (h : Records es data) (hc : data.combiner = 1) :
    recordRange e data = some (pushEntry e data) := by
  rw [recordRange, if_pos hc, if_pos ⟨h.nonneg, h.below⟩]
  rfl

theorem recordRange_outside (hc : data.combiner ≠ 1) : recordRange e data = some data := if_neg hc

theorem records_pushEntry {e' : MemcpyEntry} (h : Records es data) :
    Records (es ++ [e']) (pushEntry e data) ↔ es.length + 1 < maxNumOfMemcpy ∧ e = e' := by
  have hlength := length_of_records h
  have hnonneg := h.nonneg
  constructor
  · intro hpush
    have hbelow := hpush.below
    have hranges := (ranges_pushEntry h).symm.trans hpush.ranges
    simp only [pushEntry] at hbelow
    exact ⟨by omega, List.singleton_inj.mp (List.append_cancel_left hranges)⟩
  · rintro ⟨hlt, rfl⟩
    refine ⟨?_, ?_, ranges_pushEntry h⟩
    · simp only [pushEntry]
      omega
    · simp only [pushEntry]
      omega

/-- A copy inside a transaction that is recorded as the range `e`, and whose range
is `e'`. -/
theorem alwaysRecords_push {e' : MemcpyEntry} (h : Records es data)
    (hd : perform c data = some (pushEntry e data))
    (hes : ∀ ys, madeSince (c :: ys) data.combiner es = madeSince ys data.combiner (es ++ [e'])) :
    AlwaysRecords (c :: cs) data es ↔ (es.length + 1 < maxNumOfMemcpy ∧ e = e') ∧
    AlwaysRecords cs (pushEntry e data) (es ++ [e']) := by
  rw [alwaysRecords_cons h hd hes, ← records_pushEntry h]
  refine ⟨fun hall => ⟨?_, hall⟩, fun hall => hall.2⟩
  obtain ⟨d, hrun, hrec⟩ := hall [] List.nil_prefix
  obtain rfl := Option.some.inj hrun
  exact hrec

theorem range_wrapPre {dst size : Nat} (h : dst + size < 2 ^ 47) :
    (⟨dst, (dst + sizeOfCopy size) % 2 ^ 64⟩ : MemcpyEntry) = ⟨dst, dst + size⟩ ↔
    size < 2 ^ 31 := by
  rw [MemcpyEntry.mk.injEq, ← sizeOfCopy_eq (show size < 2 ^ 47 by omega)]
  have hlt : sizeOfCopy size < 2 ^ 64 := BitVec.isLt _
  constructor
  · rintro ⟨-, he⟩
    omega
  · intro he
    rw [he]
    exact ⟨rfl, Nat.mod_eq_of_lt (by omega)⟩

theorem records_stop (h : Records es data) (memory : Nat → UInt8) :
    ∃ d, perform (.stop memory) data = some d ∧ d.combiner = 0 ∧ Records [] d := by
  have hempty : (0 : Int) < maxNumOfMemcpy := by decide
  exact ⟨_, by rw [perform, ThreadMemory.stop, if_pos h.below.le, Option.map_some],
    rfl, le_rfl, hempty, rfl⟩

theorem alwaysRecords_copy {e' : MemcpyEntry} (h : Records es data)
    (hd : perform c data = recordRange e data)
    (hes : ∀ ys, madeSince (c :: ys) data.combiner es = madeSince ys data.combiner
      (if data.combiner = 1 then es ++ [e'] else es))
    (ih : ∀ {data es}, Records es data →
      (AlwaysRecords cs data es ↔ Within cs data.combiner es.length)) :
    AlwaysRecords (c :: cs) data es ↔
      if data.combiner = 1 then (es.length + 1 < maxNumOfMemcpy ∧ e = e') ∧
      Within cs data.combiner (es.length + 1)
      else Within cs data.combiner es.length := by
  by_cases hc : data.combiner = 1
  · rw [if_pos hc]
    rw [recordRange_push h hc] at hd
    rw [alwaysRecords_push h hd fun ys => by rw [hes, if_pos hc]]
    refine and_congr_right fun hfits => ?_
    have hlength : (es ++ [e']).length = es.length + 1 := by simp
    rw [ih ((records_pushEntry h).mpr hfits), hlength]
    rfl
  · rw [if_neg hc]
    rw [recordRange_outside hc] at hd
    rw [alwaysRecords_cons h hd fun ys => by rw [hes, if_neg hc]]
    exact ih h

theorem alwaysRecords_iff (h : Records es data) (hcs : ∀ c ∈ cs, c.Valid) :
    AlwaysRecords cs data es ↔ Within cs data.combiner es.length := by
  induction cs generalizing data es with
  | nil => exact iff_of_true (alwaysRecords_nil h) trivial
  | cons c cs ih =>
      have ih : ∀ {data es}, Records es data →
          (AlwaysRecords cs data es ↔ Within cs data.combiner es.length) :=
        fun h => ih h fun d hd => hcs d (by simp [hd])
      have hvalid := hcs c (by simp)
      cases c with
      | start =>
          have hstart : AlwaysRecords (.start :: cs) data es ↔
              AlwaysRecords cs (ThreadMemory.start data) es :=
            alwaysRecords_cons h rfl fun _ => rfl
          have hrec : Records es (ThreadMemory.start data) := ⟨h.nonneg, h.below, h.ranges⟩
          rw [hstart, ih hrec]
          rfl
      | instrumentedMemcpy dest size =>
          have hcopy :=
            @alwaysRecords_copy (.instrumentedMemcpy dest size) cs data es ⟨dest, dest + size⟩
            ⟨dest, dest + size⟩ h (congrFun (instrumentedMemcpy_eq dest size) data)
            (fun _ => rfl) ih
          rw [hcopy, Within]
          simp only [and_true]
      | wrapPre dst size =>
          have hcopy := @alwaysRecords_copy (.wrapPre dst size) cs data es
            ⟨dst, (dst + sizeOfCopy size) % 2 ^ 64⟩ ⟨dst, dst + size⟩ h rfl (fun _ => rfl) ih
          rw [hcopy, Within, range_wrapPre hvalid, and_comm (a := es.length + 1 < maxNumOfMemcpy)]
      | stop memory =>
          obtain ⟨d, hd, hzero, hrec⟩ := records_stop h memory
          have hstop : AlwaysRecords (.stop memory :: cs) data es ↔ AlwaysRecords cs d [] :=
            alwaysRecords_cons h hd fun ys => by rw [madeSince, hzero]
          rw [hstop, ih hrec, hzero]
          rfl

end Steps

/-- From an empty record on, the record is in bounds and exact after every call
exactly if fewer copies are made between two stops than it has places, and the
wrapped ones are of sizes that an `int` can hold. -/
theorem memcpy_record_in_bounds (data : ThreadData) (hempty : data.memcpyCount = 0) (cs : List Call)
    (hcs : ∀ c ∈ cs, c.Valid) : AlwaysRecords cs data [] ↔ Within cs data.combiner 0 := by
  refine alwaysRecords_iff ⟨by rw [hempty], by rw [hempty]; decide, by rw [hempty]; rfl⟩ hcs

/-- A thread as `event_thread_init` leaves it, in memory that was zero. -/
def fresh : ThreadData := ⟨0, 0, fun _ => 0, 0, 0, fun _ => ⟨0, 0⟩⟩

def oneTransaction : List Call :=
  [.start, .instrumentedMemcpy 4096 32, .wrapPre 8192 64, .stop fun _ => 0]

theorem memcpy_record_in_bounds_transaction : AlwaysRecords oneTransaction fresh [] :=
  (memcpy_record_in_bounds fresh rfl oneTransaction (by simp [oneTransaction, Call.Valid])).mpr
    (by simp [oneTransaction, Within, maxNumOfMemcpy, fresh])

/-- A transaction that makes as many copies as the array has places. -/
def hundredCopies : List Call := .start :: List.replicate 100 (.instrumentedMemcpy 4096 32)

theorem within_replicate {dest size k n : Nat}
    (h : Within (List.replicate k (.instrumentedMemcpy dest size)) 1 n)
    (hk : k ≠ 0) : n + k < maxNumOfMemcpy := by
  induction k generalizing n with
  | zero => exact absurd rfl hk
  | succ k ih =>
      rw [List.replicate_succ, Within, if_pos rfl] at h
      by_cases hlast : k = 0
      · subst hlast
        exact h.1
      · have hrest := ih h.2 hlast
        omega

theorem not_memcpy_record_in_bounds :
    ¬ ∀ cs, (∀ c ∈ cs, Call.Valid c) → AlwaysRecords cs fresh [] := by
  intro hall
  have hvalid : ∀ c ∈ hundredCopies, Call.Valid c := by
    intro c hc
    rcases List.mem_cons.mp hc with rfl | hc
    · trivial
    · obtain rfl := List.eq_of_mem_replicate hc
      simp [Call.Valid]
  have hempty : Records [] fresh := ⟨le_rfl, by decide, rfl⟩
  have hwithin := (alwaysRecords_iff hempty hvalid).mp (hall hundredCopies hvalid)
  have hcount := within_replicate hwithin (by decide)
  simp [maxNumOfMemcpy] at hcount

end Mangosteen.MemcpyRecord
