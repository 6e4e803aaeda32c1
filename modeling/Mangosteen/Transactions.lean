import Mangosteen.Library.RedoLog
import Mangosteen.Instrumentation

namespace Mangosteen.Transactions

open Memory Session Instrumentation OpenAddressing

/-- The bytes that applying an entry writes. -/
def entryWrites : Entry → List (Nat × UInt8)
  | .redo addr payload => (List.finRange payloadSize).map (fun k => (addr + k.val, payload k))
  | .mmap _ _ | .transientMmap _ _ | .commit => []

def writes (es : List Entry) : List (Nat × UInt8) := es.flatMap entryWrites

def touchedLines : List Access → List Nat
  | [] => []
  | .store addr bytes :: xs => coveredLines addr bytes.length ++ touchedLines xs
  | .memcpy _ _ _ :: xs => touchedLines xs

def InRange : Access → Prop
  | .store addr bytes => 4096 ≤ addr ∧ addr + bytes.length ≤ 2 ^ 47
  | .memcpy _ _ size => size < 2 ^ 31

def isMemcpy : Access → Bool
  | .memcpy _ _ _ => true
  | .store _ _ => false

/-- The transactions that the recording structures have room for. -/
structure Fits (xs : List Access) : Prop where
  inRange : ∀ x ∈ xs, InRange x
  lines : (touchedLines xs).toFinset.card ≤ hashSetSize
  memcpys : (xs.filter isMemcpy).length ≤ maxNumOfMemcpy

section Lines

variable {addr size a : Nat}

theorem le_of_mem_coveredLines {line : Nat} (h : line ∈ coveredLines addr size) :
    addr - addr % payloadSize ≤ line := by
  obtain ⟨i, -, rfl⟩ := List.mem_map.mp h
  exact Nat.le_add_right _ _

theorem exists_coveredLine (ha : addr ≤ a) (ha' : a < addr + size) :
    ∃ line ∈ coveredLines addr size, line ≤ a ∧ a < line + payloadSize := by
  refine ⟨addr - addr % payloadSize + payloadSize *
    ((a - (addr - addr % payloadSize)) / payloadSize),
    List.mem_map.mpr ⟨_, List.mem_range.mpr ?_, rfl⟩, ?_, ?_⟩
  all_goals simp only [payloadSize]; omega

theorem exists_memcpyLine {e : MemcpyEntry} (he : e.finish < e.start + 2 ^ 31) (ha : e.start ≤ a)
    (ha' : a < e.finish) : ∃ line ∈ e.lines, line ≤ a ∧ a < line + payloadSize := by
  have hd : e.distance.toNat = e.finish - e.start := by
    rw [MemcpyEntry.distance, Int.bmod_def]
    split <;> omega
  refine ⟨e.start + payloadSize * ((a - e.start) / payloadSize),
    List.mem_map.mpr ⟨_, List.mem_map.mpr ⟨_, List.mem_range.mpr ?_, rfl⟩, rfl⟩, ?_, ?_⟩
  · rw [hd]; simp only [payloadSize]; omega
  all_goals simp only [payloadSize]; omega

end Lines

/-- What is recorded while a transaction runs: every byte that has changed lies
in a line of the hash set or in a recorded copy. -/
structure Recording (keys : Finset Nat) (m : Nat → UInt8) (s : FrontEnd) : Prop where
  active : s.data.combiner = 1
  placed : Placed hashSetSize 0 homeSlot s.data.hashSetEntries
  kept : ∀ line, Stores hashSetSize 0 s.data.hashSetEntries line → line ∈ keys
  copies : ∀ e ∈ s.data.memcpyArray, e.finish < e.start + 2 ^ 31
  changed : ∀ a, s.memory a = m a ∨
    (∃ line, Stores hashSetSize 0 s.data.hashSetEntries line ∧ 1000 < line ∧ line ≤ a ∧
      a < line + payloadSize) ∨
    ∃ e ∈ s.data.memcpyArray, e.start ≤ a ∧ a < e.finish

section Insert

variable {data data' : PerThread} {keys : Finset Nat}

theorem homeSlot_lt (line : Nat) : homeSlot line < hashSetSize := Nat.mod_lt _ (by decide)

theorem insertLine_eq_some {line : Nat} (h : insertLine line data = some data') :
    OpenAddressing.insert hashSetSize 0 homeSlot data.hashSetEntries line =
    some data'.hashSetEntries ∧
      data'.combiner = data.combiner ∧ data'.memcpyArray = data.memcpyArray := by
  obtain ⟨i, hi, rfl⟩ := Option.map_eq_some_iff.mp h
  exact ⟨by rw [OpenAddressing.insert, hi]; rfl, rfl, rfl⟩

theorem memcpyArray_insertLines {lines : List Nat} (h : insertLines lines data = some data') :
    data'.memcpyArray = data.memcpyArray := by
  induction lines generalizing data with
  | nil => cases h; rfl
  | cons line lines ih =>
      obtain ⟨d, hd, h⟩ := Option.bind_eq_some_iff.mp h
      rw [ih h, (insertLine_eq_some hd).2.2]

theorem insertLine_isSome {line : Nat} (hp : Placed hashSetSize 0 homeSlot data.hashSetEntries)
    (hcard : keys.card ≤ hashSetSize) (hline : line ∈ keys)
    (hkept : ∀ k, Stores hashSetSize 0 data.hashSetEntries k → k ∈ keys) :
    (insertLine line data).isSome := by
  have h := hp.insert_isSome hcard hline hkept (homeSlot_lt line)
  rw [OpenAddressing.insert, Option.isSome_map] at h
  rwa [insertLine, Option.isSome_map]

theorem exists_insertLines {lines : List Nat}
    (hp : Placed hashSetSize 0 homeSlot data.hashSetEntries)
    (hcard : keys.card ≤ hashSetSize) (hlines : ∀ line ∈ lines, line ∈ keys ∧ line ≠ 0)
    (hkept : ∀ k, Stores hashSetSize 0 data.hashSetEntries k → k ∈ keys) :
    ∃ data', insertLines lines data = some data' ∧
    Placed hashSetSize 0 homeSlot data'.hashSetEntries ∧
      (∀ k, Stores hashSetSize 0 data'.hashSetEntries k ↔
        k ∈ lines ∨ Stores hashSetSize 0 data.hashSetEntries k) ∧
      data'.combiner = data.combiner ∧ data'.memcpyArray = data.memcpyArray := by
  induction lines generalizing data with
  | nil => exact ⟨data, rfl, hp, by simp, rfl, rfl⟩
  | cons line lines ih =>
      obtain ⟨hline, hzero⟩ := hlines line (by simp)
      obtain ⟨d, hd⟩ := Option.isSome_iff_exists.mp (insertLine_isSome hp hcard hline hkept)
      obtain ⟨hins, hc, hm⟩ := insertLine_eq_some hd
      have hstores := stores_insert (by decide) (homeSlot_lt line) hzero hins
      have hkept' : ∀ k, Stores hashSetSize 0 d.hashSetEntries k → k ∈ keys := by
        intro k hk
        rcases (hstores k).mp hk with rfl | hk
        · exact hline
        · exact hkept k hk
      obtain ⟨data', h', hp', hs', hc', hm'⟩ := ih (hp.insert (by decide) (homeSlot_lt line) hins)
        (fun l hl => hlines l (by simp [hl])) hkept'
      refine ⟨data', by rw [insertLines, hd, Option.bind_some, h'], hp', fun k => ?_,
        hc'.trans hc, hm'.trans hm⟩
      rw [hs', hstores, List.mem_cons, or_left_comm, or_assoc]

end Insert

section Perform

variable {keys : Finset Nat} {m : Nat → UInt8} {s : FrontEnd}

theorem Recording.store {addr : Nat} {bytes : List UInt8} (h : Recording keys m s)
    (hcard : keys.card ≤ hashSetSize)
    (hkeys : ∀ line ∈ coveredLines addr bytes.length, line ∈ keys) (haddr : 4096 ≤ addr) :
    ∃ s', perform (.store addr bytes) s = some s' ∧ s'.data.memcpyArray = s.data.memcpyArray ∧
    Recording keys m s' := by
  have hlow : ∀ line ∈ coveredLines addr bytes.length, 1000 < line := by
    intro line hline
    have hle := le_of_mem_coveredLines hline
    have hmod := Nat.mod_lt addr (show 0 < payloadSize by decide)
    simp only [payloadSize] at hle hmod
    omega
  obtain ⟨data', hd, hp, hs, hc, hm⟩ := exists_insertLines h.placed hcard
    (fun line hline => ⟨hkeys line hline, by have := hlow line hline; omega⟩) h.kept
  have hperform : perform (.store addr bytes) s = some ⟨write s.memory addr bytes, data'⟩ := by
    rw [perform, storeAddressInHashSet, if_neg (by rw [h.active]; decide), hd]
    rfl
  refine ⟨_, hperform, hm, hc.trans h.active, hp, fun line hline => ?_, ?_, fun a => ?_⟩
  · rcases (hs line).mp hline with hl | hl
    · exact hkeys line hl
    · exact h.kept line hl
  · rw [hm]; exact h.copies
  · rw [hm]
    by_cases ha : addr ≤ a ∧ a < addr + bytes.length
    · obtain ⟨line, hline, hle, hlt⟩ := exists_coveredLine ha.1 ha.2
      exact .inr (.inl ⟨line, (hs line).mpr (.inl hline), hlow line hline, hle, hlt⟩)
    · have hsame : write s.memory addr bytes a = s.memory a := by
        rw [write]
        split
        · rw [List.getD_eq_getElem?_getD, List.getElem?_eq_none (by omega), Option.getD_none]
        · rfl
      show write s.memory addr bytes a = m a ∨ _
      rw [hsame]
      refine (h.changed a).imp_right (Or.imp_left ?_)
      rintro ⟨line, hline, hrest⟩
      exact ⟨line, (hs line).mpr (.inr hline), hrest⟩

theorem Recording.memcpy {dest src size : Nat} (h : Recording keys m s) (hsize : size < 2 ^ 31)
    (hroom : s.data.memcpyArray.length < maxNumOfMemcpy) :
    ∃ s', perform (.memcpy dest src size) s = some s' ∧
      s'.data.memcpyArray.length = s.data.memcpyArray.length + 1 ∧ Recording keys m s' := by
  refine ⟨_, (if_pos h.active).trans (if_pos hroom), List.length_append, h.active, h.placed, h.kept,
    fun e he => ?_, fun a => ?_⟩
  · rcases List.mem_append.mp he with he | he
    · exact h.copies e he
    · obtain rfl := List.mem_singleton.mp he
      exact Nat.add_lt_add_left hsize dest
  · by_cases ha : dest ≤ a ∧ a < dest + size
    · exact .inr (.inr ⟨⟨dest, dest + size⟩, by simp, ha⟩)
    · have hsame : copy s.memory dest src size a = s.memory a := if_neg ha
      show copy s.memory dest src size a = m a ∨ _
      rw [hsame]
      refine (h.changed a).imp_right (Or.imp_right ?_)
      rintro ⟨e, he, hrest⟩
      exact ⟨e, by simp [he], hrest⟩

/-- A transaction that fits runs to its end, and all that it changes is
recorded. -/
theorem Recording.performAll {xs : List Access} (h : Recording keys m s)
    (hcard : keys.card ≤ hashSetSize)
    (hx : ∀ x ∈ xs, InRange x) (hkeys : ∀ line ∈ touchedLines xs, line ∈ keys)
    (hroom : s.data.memcpyArray.length + (xs.filter isMemcpy).length ≤ maxNumOfMemcpy) :
    ∃ s', performAll xs s = some s' ∧ Recording keys m s' := by
  induction xs generalizing s with
  | nil => exact ⟨s, rfl, h⟩
  | cons x xs ih =>
      have hstep : ∃ s', perform x s = some s' ∧
          s'.data.memcpyArray.length + (xs.filter isMemcpy).length ≤ maxNumOfMemcpy ∧
          Recording keys m s' := by
        cases x with
        | store addr bytes =>
            have hlines : ∀ line ∈ coveredLines addr bytes.length, line ∈ keys := fun line hl =>
              hkeys line (by simp [touchedLines, hl])
            obtain ⟨s', hs', hm, hr⟩ := h.store hcard hlines (hx (.store addr bytes) (by simp)).1
            exact ⟨s', hs', by simpa [hm, isMemcpy] using hroom, hr⟩
        | memcpy dest src size =>
            rw [List.filter_cons_of_pos rfl, List.length_cons] at hroom
            obtain ⟨s', hs', hm, hr⟩ := h.memcpy (hx (.memcpy dest src size) (by simp)) (by omega)
            exact ⟨s', hs', by omega, hr⟩
      obtain ⟨s₁, h₁, hroom, hr₁⟩ := hstep
      obtain ⟨s₂, h₂, hr₂⟩ := ih hr₁ (fun y hy => hx y (by simp [hy])) (fun line hl => by
        refine hkeys line ?_
        cases x <;> simp [touchedLines, hl]) hroom
      exact ⟨s₂, by rw [Instrumentation.performAll, h₁, Option.bind_some, h₂], hr₂⟩

end Perform

theorem recording_start (keys : Finset Nat) (m : Nat → UInt8) :
    Recording keys m ⟨m, instrumentStart {}⟩ := by
  refine ⟨rfl, placed_blank, ?_, ?_, fun a => .inl rfl⟩
  · rintro line ⟨hne, j, -, rfl⟩
    exact absurd rfl hne
  · simp [instrumentStart]

theorem exists_performAll {xs : List Access} (h : Fits xs) (m : Nat → UInt8) :
    ∃ s, performAll xs ⟨m, instrumentStart {}⟩ = some s ∧
    Recording (touchedLines xs).toFinset m s :=
  (recording_start _ m).performAll h.lines h.inRange (by simp)
  (by simpa [instrumentStart] using h.memcpys)

theorem mem_writes_redoEntry {memory : Nat → UInt8} {line a : Nat} (h : line ≤ a)
    (h' : a < line + payloadSize)
    {es : List Entry} (he : redoEntry memory line ∈ es) : ∃ w ∈ writes es, w.1 = a := by
  refine ⟨(line + (a - line), memory (line + (a - line))),
    List.mem_flatMap.mpr ⟨_, he, ?_⟩, by simp; omega⟩
  exact List.mem_map.mpr ⟨⟨a - line, by omega⟩, List.mem_finRange _, rfl⟩

theorem mem_entries_loggedBatches {memory : Nat → UInt8} {data : PerThread} {e : Entry} :
    e ∈ entries (loggedBatches memory data) ↔
      e = .commit ∨ (∃ c ∈ data.memcpyArray, ∃ line ∈ c.lines, e = redoEntry memory line) ∨
        ∃ line ∈ data.lines, e = redoEntry memory line := by
  have hbatch : ∀ lines : List Nat, e ∈ closed (lines.map (redoEntry memory)) ↔
      e = .commit ∨ ∃ line ∈ lines, e = redoEntry memory line := by
    intro lines
    simp only [closed, List.mem_append, List.mem_map, List.mem_singleton, eq_comm (b := e)]
    exact or_comm
  rw [entries, loggedBatches, List.mem_flatMap]
  constructor
  · rintro ⟨es, hes, he⟩
    rcases List.mem_append.mp hes with h | h
    · obtain ⟨c, hc, rfl⟩ := List.mem_map.mp h
      exact ((hbatch c.lines).mp he).imp_right fun hl => .inl ⟨c, hc, hl⟩
    · rw [List.mem_singleton.mp h] at he
      exact ((hbatch data.lines).mp he).imp_right .inr
  · have hlast : data.lines.map (redoEntry memory) ∈ data.memcpyArray.map
        (fun e => e.lines.map (redoEntry memory)) ++ [data.lines.map (redoEntry memory)] :=
      List.mem_append_right _ (List.mem_singleton_self _)
    rintro (he | ⟨c, hc, hl⟩ | hl)
    · exact ⟨_, hlast, (hbatch data.lines).mpr (.inl he)⟩
    · exact ⟨_, List.mem_append_left _ (List.mem_map.mpr ⟨c, hc, rfl⟩),
        (hbatch c.lines).mpr (.inr hl)⟩
    · exact ⟨_, hlast, (hbatch data.lines).mpr (.inr hl)⟩

section Recorded

variable {xs : List Access} {s s' : FrontEnd}

/-- The copies of a transaction. -/
def copiesOf : List Access → List MemcpyEntry
  | [] => []
  | .store _ _ :: xs => copiesOf xs
  | .memcpy dest _ size :: xs => ⟨dest, dest + size⟩ :: copiesOf xs

theorem mem_copiesOf {e : MemcpyEntry} :
    e ∈ copiesOf xs ↔ ∃ dest src size, .memcpy dest src size ∈ xs ∧ e = ⟨dest, dest + size⟩ := by
  induction xs with
  | nil => simp [copiesOf]
  | cons x xs ih =>
      cases x with
      | store addr bytes => simp [copiesOf, ih]
      | memcpy dest src size =>
          rw [copiesOf, List.mem_cons, ih]
          constructor
          · rintro (rfl | ⟨d, r, n, h, rfl⟩)
            · exact ⟨dest, src, size, by simp, rfl⟩
            · exact ⟨d, r, n, by simp [h], rfl⟩
          · rintro ⟨d, r, n, h, rfl⟩
            rcases List.mem_cons.mp h with h | h
            · obtain ⟨rfl, rfl, rfl⟩ := Access.memcpy.inj h
              exact .inl rfl
            · exact .inr ⟨d, r, n, h, rfl⟩

theorem insertLines_slots {lines : List Nat} {data data' : PerThread}
    (h : insertLines lines data = some data') (i : Nat) :
    data'.hashSetEntries i = data.hashSetEntries i ∨ data'.hashSetEntries i ∈ lines := by
  induction lines generalizing data with
  | nil =>
      cases h
      exact .inl rfl
  | cons line lines ih =>
      obtain ⟨d, hd, h⟩ := Option.bind_eq_some_iff.mp h
      obtain ⟨j, -, rfl⟩ := Option.map_eq_some_iff.mp hd
      rcases ih h with he | he
      · rw [he]
        by_cases hij : i = j
        · subst hij
          exact .inr (by simp)
        · exact .inl (Function.update_of_ne hij _ _)
      · exact .inr (List.mem_cons_of_mem _ he)

theorem combiner_insertLines {lines : List Nat} {data data' : PerThread}
    (h : insertLines lines data = some data') : data'.combiner = data.combiner := by
  induction lines generalizing data with
  | nil =>
      cases h
      rfl
  | cons line lines ih =>
      obtain ⟨d, hd, h⟩ := Option.bind_eq_some_iff.mp h
      rw [ih h, (insertLine_eq_some hd).2.1]

theorem perform_record {x : Access} (h : perform x s = some s') (hc : s.data.combiner = 1) :
    s'.data.combiner = 1 ∧ s'.data.memcpyArray = s.data.memcpyArray ++ copiesOf [x] ∧
      ∀ i, s'.data.hashSetEntries i = s.data.hashSetEntries i ∨
      s'.data.hashSetEntries i ∈ touchedLines [x] := by
  cases x with
  | store addr bytes =>
      rw [perform, storeAddressInHashSet, if_neg (by rw [hc]; decide)] at h
      obtain ⟨d, hd, rfl⟩ := Option.map_eq_some_iff.mp h
      refine ⟨(combiner_insertLines hd).trans hc, ?_, fun i => ?_⟩
      · exact (memcpyArray_insertLines hd).trans (List.append_nil _).symm
      · rw [touchedLines, touchedLines, List.append_nil]
        exact insertLines_slots hd i
  | memcpy dest src size =>
      rw [perform, if_pos hc] at h
      split at h
      · obtain rfl := Option.some.inj h
        exact ⟨hc, rfl, fun i => .inl rfl⟩
      · cases h

theorem performAll_record (h : Instrumentation.performAll xs s = some s')
    (hc : s.data.combiner = 1) : s'.data.memcpyArray = s.data.memcpyArray ++ copiesOf xs ∧
      ∀ i, s'.data.hashSetEntries i = s.data.hashSetEntries i ∨
      s'.data.hashSetEntries i ∈ touchedLines xs := by
  induction xs generalizing s with
  | nil =>
      cases h
      exact ⟨(List.append_nil _).symm, fun i => .inl rfl⟩
  | cons x xs ih =>
      obtain ⟨s₁, h₁, hrest⟩ := Option.bind_eq_some_iff.mp h
      obtain ⟨hc₁, hm₁, hl₁⟩ := perform_record h₁ hc
      obtain ⟨hm, hl⟩ := ih hrest hc₁
      have hcopies : copiesOf (x :: xs) = copiesOf [x] ++ copiesOf xs := by cases x <;> rfl
      have hlines : touchedLines (x :: xs) = touchedLines [x] ++ touchedLines xs := by
        cases x with
        | store addr bytes => simp [touchedLines]
        | memcpy dest src size => rfl
      refine ⟨by rw [hm, hm₁, List.append_assoc, hcopies], fun i => ?_⟩
      rw [hlines, List.mem_append]
      rcases hl i with he | he
      · rw [he]
        exact (hl₁ i).imp_right .inl
      · exact .inr (.inr he)

theorem performAll_start {m : Nat → UInt8}
    (h : Instrumentation.performAll xs ⟨m, instrumentStart {}⟩ = some s) :
    s.data.memcpyArray = copiesOf xs ∧ ∀ line ∈ s.data.lines, line ∈ touchedLines xs := by
  obtain ⟨hm, hl⟩ := performAll_record h rfl
  refine ⟨hm, fun line hline => ?_⟩
  obtain ⟨hmem, hlow⟩ := List.mem_filter.mp hline
  obtain ⟨i, -, rfl⟩ := List.mem_map.mp hmem
  refine (hl i).resolve_left fun he => ?_
  have hzero : s.data.hashSetEntries i = 0 := he
  rw [hzero] at hlow
  exact absurd hlow (by decide)

end Recorded

/-- The log of a transaction turns the memory before it into the memory at its
end. -/
theorem Recording.replay {keys : Finset Nat} {m : Nat → UInt8} {s : FrontEnd}
    (h : Recording keys m s) :
    RedoLog.apply (writes (entries (loggedBatches s.memory s.data))) m = s.memory := by
  refine RedoLog.apply_snapshot (fun w hw => ?_) fun a => ?_
  · obtain ⟨e, he, hw⟩ := List.mem_flatMap.mp hw
    rcases mem_entries_loggedBatches.mp he with rfl | ⟨c, -, line, -, rfl⟩ | ⟨line, -, rfl⟩
    · cases hw
    · obtain ⟨k, -, rfl⟩ := List.mem_map.mp hw
      rfl
    · obtain ⟨k, -, rfl⟩ := List.mem_map.mp hw
      rfl
  · rcases h.changed a with hsame | ⟨line, hline, hlow, hle, hlt⟩ | ⟨c, hc, hle, hlt⟩
    · exact .inr hsame.symm
    · refine .inl (mem_writes_redoEntry hle hlt
        (mem_entries_loggedBatches.mpr (.inr (.inr ⟨line, ?_, rfl⟩))))
      obtain ⟨-, j, hj, rfl⟩ := hline
      simp only [PerThread.lines, List.mem_filter, List.mem_map, List.mem_range, decide_eq_true_eq]
      exact ⟨⟨j, hj, rfl⟩, hlow⟩
    · obtain ⟨line, hl, hle', hlt'⟩ := exists_memcpyLine (h.copies c hc) hle hlt
      exact .inl (mem_writes_redoEntry hle' hlt'
        (mem_entries_loggedBatches.mpr (.inr (.inl ⟨c, hc, line, hl, rfl⟩))))

end Mangosteen.Transactions
