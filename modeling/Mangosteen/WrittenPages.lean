import Mangosteen.Transactions

namespace Mangosteen.WrittenPages

open Memory Session Instrumentation Transactions

def pageSize : Nat := 4096

/-- The bytes that an access writes. -/
def Writes : Access → Nat → Prop
  | .store addr bytes, a => addr ≤ a ∧ a < addr + bytes.length
  | .memcpy dest _ size, a => dest ≤ a ∧ a < dest + size

/-- The transaction writes a byte of the page on which the address lies. -/
def OnWrittenPage (xs : List Access) (a : Nat) : Prop :=
  ∃ x ∈ xs, ∃ b, Writes x b ∧ b / pageSize = a / pageSize

/-- All bytes that the entries cover are on pages that the transaction writes. -/
def StaysOnPages (xs : List Access) (es : List Entry) : Prop :=
  ∀ e ∈ es, ∀ w ∈ entryWrites e, OnWrittenPage xs w.1

/-- The length of a copy as an `int`. -/
def intSize (size : Nat) : Int := MemcpyEntry.distance ⟨0, size⟩

/-- The last byte of the last chunk of a copy. -/
def lastByte (dest size : Nat) : Nat :=
  dest + payloadSize * (((intSize size).toNat + payloadSize - 1) / payloadSize) - 1

section Lines

variable {xs : List Access} {memory : Nat → UInt8} {line dest src size : Nat}

theorem mem_entryWrites {w : Nat × UInt8} :
    w ∈ entryWrites (redoEntry memory line) ↔ line ≤ w.1 ∧ w.1 < line + payloadSize ∧
    w.2 = memory w.1 := by
  rw [redoEntry, entryWrites, List.mem_map]
  constructor
  · rintro ⟨k, -, rfl⟩
    exact ⟨Nat.le_add_right _ _, Nat.add_lt_add_left k.isLt _, rfl⟩
  · rintro ⟨hle, hlt, hw⟩
    refine ⟨⟨w.1 - line, by omega⟩, List.mem_finRange _, ?_⟩
    rw [Prod.ext_iff, hw, Nat.add_sub_cancel' hle]
    exact ⟨rfl, rfl⟩

theorem onWrittenPage_of_touched (hxs : ∀ addr, .store addr [] ∉ xs)
    (hline : line ∈ touchedLines xs) {a : Nat}
    (hle : line ≤ a) (hlt : a < line + payloadSize) : OnWrittenPage xs a := by
  induction xs with
  | nil => exact absurd hline List.not_mem_nil
  | cons x xs ih =>
      have hrest : line ∈ touchedLines xs → OnWrittenPage (x :: xs) a := by
        intro hmem
        obtain ⟨y, hy, hb⟩ := ih (fun addr h => hxs addr (by simp [h])) hmem
        exact ⟨y, by simp [hy], hb⟩
      cases x with
      | memcpy dest src size => exact hrest hline
      | store addr bytes =>
          rcases List.mem_append.mp hline with hmem | hmem
          · have hpos : 0 < bytes.length := by
              refine List.length_pos_of_ne_nil ?_
              rintro rfl
              exact hxs addr (by simp)
            obtain ⟨i, hi, rfl⟩ := List.mem_map.mp hmem
            rw [List.mem_range] at hi
            refine ⟨.store addr bytes, by simp,
              max addr (addr - addr % payloadSize + payloadSize * i), ?_, ?_⟩
            · simp only [Writes, payloadSize] at *
              omega
            · simp only [pageSize, payloadSize] at *
              omega
          · exact hrest hmem

theorem distance_eq (dest size : Nat) :
    MemcpyEntry.distance ⟨dest, dest + size⟩ = intSize size := by
  have hsub : ((dest + size : Nat) : Int) - dest = (size : Int) - (0 : Nat) := by omega
  rw [intSize, MemcpyEntry.distance, MemcpyEntry.distance, hsub]

theorem toNat_intSize_le (size : Nat) : (intSize size).toNat ≤ size := by
  simp only [intSize, MemcpyEntry.distance, Int.bmod_def]
  split <;> omega

theorem mem_lines_copy : line ∈ MemcpyEntry.lines ⟨dest, dest + size⟩ ↔
    ∃ j < ((intSize size).toNat + payloadSize - 1) / payloadSize,
    line = dest + payloadSize * j := by
  rw [MemcpyEntry.lines, distance_eq, chunkOffsets, List.map_map, List.mem_map]
  constructor
  · rintro ⟨j, hj, rfl⟩
    exact ⟨j, List.mem_range.mp hj, rfl⟩
  · rintro ⟨j, hj, rfl⟩
    exact ⟨j, List.mem_range.mpr hj, rfl⟩

theorem onWrittenPage_of_copy (hmem : .memcpy dest src size ∈ xs)
    (hlast : 0 < intSize size → OnWrittenPage xs (lastByte dest size))
    (hline : line ∈ MemcpyEntry.lines ⟨dest, dest + size⟩) {a : Nat} (hle : line ≤ a)
    (hlt : a < line + payloadSize) : OnWrittenPage xs a := by
  have hsize := toNat_intSize_le size
  obtain ⟨j, hj, rfl⟩ := mem_lines_copy.mp hline
  have hpos : 0 < intSize size := by
    by_contra hneg
    rw [Int.toNat_of_nonpos (by omega)] at hj
    simp [payloadSize] at hj
  have hdistance : 0 < (intSize size).toNat := by omega
  by_cases hin : a < dest + size
  · exact ⟨_, hmem, a, ⟨by omega, hin⟩, rfl⟩
  · -- past its end the copy has at most one page boundary before the last byte of its chunks
    by_cases hpage : (dest + size - 1) / pageSize = a / pageSize
    · exact ⟨_, hmem, dest + size - 1, ⟨by omega, by omega⟩, hpage⟩
    · obtain ⟨x, hx, b, hb, he⟩ := hlast hpos
      refine ⟨x, hx, b, hb, he.trans ?_⟩
      simp only [lastByte, pageSize, payloadSize] at *
      omega

end Lines

section Entries

variable {xs : List Access} {m : Nat → UInt8} {s : FrontEnd}

theorem staysOnPages_of_last (hxs : ∀ addr, .store addr [] ∉ xs)
    (h : performAll xs ⟨m, instrumentStart {}⟩ = some s)
    (hlast : ∀ dest src size, .memcpy dest src size ∈ xs → 0 < intSize size →
      OnWrittenPage xs (lastByte dest size)) :
    StaysOnPages xs (entries (loggedBatches s.memory s.data)) := by
  obtain ⟨hcopies, hlines⟩ := performAll_start h
  intro e he w hw
  rcases mem_entries_loggedBatches.mp he with rfl | ⟨c, hc, line, hline, rfl⟩ | ⟨line, hline, rfl⟩
  · cases hw
  · rw [hcopies] at hc
    obtain ⟨dest, src, size, hmem, rfl⟩ := mem_copiesOf.mp hc
    obtain ⟨hle, hlt, -⟩ := mem_entryWrites.mp hw
    exact onWrittenPage_of_copy hmem (hlast dest src size hmem) hline hle hlt
  · obtain ⟨hle, hlt, -⟩ := mem_entryWrites.mp hw
    exact onWrittenPage_of_touched hxs (hlines line hline) hle hlt

theorem exists_lastByte (h : performAll xs ⟨m, instrumentStart {}⟩ = some s) {dest src size : Nat}
    (hmem : .memcpy dest src size ∈ xs) (hpos : 0 < intSize size) :
    ∃ e ∈ entries (loggedBatches s.memory s.data), ∃ w ∈ entryWrites e,
    w.1 = lastByte dest size := by
  have hdistance : 0 < (intSize size).toNat := by omega
  have hcopy : ⟨dest, dest + size⟩ ∈ s.data.memcpyArray := by
    rw [(performAll_start h).1]
    exact mem_copiesOf.mpr ⟨dest, src, size, hmem, rfl⟩
  have hline : dest + payloadSize * (((intSize size).toNat + payloadSize - 1) / payloadSize - 1) ∈
      MemcpyEntry.lines ⟨dest, dest + size⟩ := by
    refine mem_lines_copy.mpr ⟨_, ?_, rfl⟩
    simp only [payloadSize]
    omega
  refine ⟨_, mem_entries_loggedBatches.mpr (.inr (.inl ⟨_, hcopy, _, hline, rfl⟩)),
    (lastByte dest size, s.memory (lastByte dest size)), mem_entryWrites.mpr ⟨?_, ?_, rfl⟩, rfl⟩
  · simp only [lastByte, payloadSize]
    omega
  · simp only [lastByte, payloadSize]
    omega

end Entries

/-- The entries of a transaction stay on the pages that it writes exactly if the
last chunk of every copy does. -/
theorem entries_stay_on_pages (xs : List Access) (hxs : ∀ addr, .store addr [] ∉ xs)
    (m : Nat → UInt8) (s : FrontEnd) (h : performAll xs ⟨m, instrumentStart {}⟩ = some s) :
    StaysOnPages xs (entries (loggedBatches s.memory s.data)) ↔
      ∀ dest src size, .memcpy dest src size ∈ xs → 0 < intSize size →
      OnWrittenPage xs (lastByte dest size) := by
  constructor
  · intro hstays dest src size hmem hpos
    obtain ⟨e, he, w, hw, hlast⟩ := exists_lastByte h hmem hpos
    rw [← hlast]
    exact hstays e he w hw
  · exact staysOnPages_of_last hxs h

/-- A copy of whole lines. -/
def alignedCopy : List Access := [.memcpy 4096 8192 32]

theorem entries_stay_on_pages_line :
    ∃ s, performAll alignedCopy ⟨fun _ => 0, instrumentStart {}⟩ = some s ∧
    StaysOnPages alignedCopy (entries (loggedBatches s.memory s.data)) := by
  refine ⟨_, rfl, (entries_stay_on_pages alignedCopy (by simp [alignedCopy]) (fun _ => 0) _ rfl).mpr
    ?_⟩
  intro dest src size hmem hpos
  obtain ⟨rfl, rfl, rfl⟩ := Access.memcpy.inj (List.mem_singleton.mp hmem)
  exact ⟨_, hmem, 4096, by simp [Writes], by decide⟩

/-- A copy of one byte to the end of a page. -/
def lastByteCopy : List Access := [.memcpy 8191 4096 1]

theorem not_entries_stay_on_pages : ¬ ∀ xs, (∀ addr, .store addr [] ∉ xs) → ∀ s,
    performAll xs ⟨fun _ => 0, instrumentStart {}⟩ = some s →
    StaysOnPages xs (entries (loggedBatches s.memory s.data)) := by
  intro h
  have hmem : Access.memcpy 8191 4096 1 ∈ lastByteCopy := List.mem_singleton_self _
  obtain ⟨e, he, w, hw, hlast⟩ :=
    @exists_lastByte lastByteCopy (fun _ => 0) _ rfl _ _ _ hmem (by decide)
  obtain ⟨x, hx, b, hb, hpage⟩ := h lastByteCopy (by simp [lastByteCopy]) _ rfl e he w hw
  rw [List.mem_singleton.mp hx] at hb
  have hbyte : b = 8191 := by
    simp only [Writes] at hb
    omega
  rw [hbyte, hlast] at hpage
  exact absurd hpage (by decide)

end Mangosteen.WrittenPages
