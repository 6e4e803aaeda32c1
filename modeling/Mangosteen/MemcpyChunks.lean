import Mangosteen.MemcpyRecord

namespace Mangosteen.MemcpyChunks

open Memory Instrumentation ThreadMemory MemcpyRecord

/-- The offsets of `for (int j = 0; j < distance; j = j + PAYLOAD_SIZE)`, from one
value of `j` on. A sum that is no `int` is undefined. -/
def chunkLoop (distance j : Int) : Option (List Int) :=
  if j < distance then
    if j + payloadSize < 2 ^ 31 then (chunkLoop distance (j + payloadSize)).map (j :: ·) else none
  else some []
termination_by (distance - j).toNat
decreasing_by
  simp only [payloadSize]
  omega

/-- The addresses of the redo entries that `instrument_stop` enqueues for a copy. -/
def chunkAddresses (e : MemcpyEntry) : Option (List Nat) :=
  (chunkLoop e.distance 0).map fun js => js.map fun j => e.start + j.toNat

/-- The functions that record copies. -/
inductive Hook
  | instrumentedMemcpy
  | wrapPre

def recorded : Hook → Nat → Nat → MemcpyEntry
  | .instrumentedMemcpy, dest, size => ⟨dest, dest + size⟩
  | .wrapPre, dest, size => ⟨dest, (dest + sizeOfCopy size) % 2 ^ 64⟩

def Hook.call : Hook → Nat → Nat → ThreadData → Option ThreadData
  | .instrumentedMemcpy, dest, size => ThreadMemory.instrumentedMemcpy dest size
  | .wrapPre, dest, size => MemcpyRecord.wrapPre dest size

theorem call_eq (hook : Hook) (dest size : Nat) :
    hook.call dest size = recordRange (recorded hook dest size) := by
  cases hook <;> rfl

/-- One entry for every chunk of a copy, from its start on. -/
structure Chunked (dest size : Nat) (addrs : List Nat) : Prop where
  starts : addrs = (List.range ((size + payloadSize - 1) / payloadSize)).map
    (dest + payloadSize * ·)
  covers : ∀ a, dest ≤ a → a < dest + size → ∃ x ∈ addrs, x ≤ a ∧ a < x + payloadSize

/-- The stop makes all chunks of the copy from what the hook records of it. -/
def CoversCopy (hook : Hook) (dest size : Nat) (data : ThreadData) : Prop :=
  ∃ d, hook.call dest size data = some d ∧
    ∃ addrs, chunkAddresses (d.memcpyArray data.memcpyCount.toNat) = some addrs ∧
    Chunked dest size addrs

/-- A transaction with a place for one more copy. -/
structure Recording (data : ThreadData) : Prop where
  combiner : data.combiner = 1
  nonneg : 0 ≤ data.memcpyCount
  below : data.memcpyCount < maxNumOfMemcpy

theorem Recording.coversCopy_iff {data : ThreadData} (h : Recording data)
    (hook : Hook) (dest size : Nat) : CoversCopy hook dest size data ↔
      ∃ addrs, chunkAddresses (recorded hook dest size) = some addrs ∧ Chunked dest size addrs := by
  have hcall : hook.call dest size data = some (pushEntry (recorded hook dest size) data) := by
    rw [call_eq, recordRange, if_pos h.combiner, if_pos ⟨h.nonneg, h.below⟩]
    rfl
  have hlast : (pushEntry (recorded hook dest size) data).memcpyArray data.memcpyCount.toNat =
      recorded hook dest size :=
    Function.update_self _ _ _
  constructor
  · rintro ⟨d, hd, haddrs⟩
    obtain rfl := Option.some.inj (hcall.symm.trans hd)
    rwa [hlast] at haddrs
  · intro haddrs
    exact ⟨_, hcall, by rwa [hlast]⟩

section Loop

variable {distance j : Int}

theorem chunkLoop_eq (hj : 0 ≤ j) (h : distance ≤ 2 ^ 31 - payloadSize) :
    chunkLoop distance j =
    some ((List.range (((distance - j).toNat + payloadSize - 1) / payloadSize)).map
      fun i => j + ((payloadSize * i : Nat) : Int)) := by
  induction j using chunkLoop.induct distance with
  | case1 j hlt hfit ih =>
      rw [chunkLoop, if_pos hlt, if_pos hfit, ih (by omega), Option.map_some]
      have hcount : ((distance - j).toNat + payloadSize - 1) / payloadSize =
          ((distance - (j + payloadSize)).toNat + payloadSize - 1) / payloadSize + 1 := by
        simp only [payloadSize]
        omega
      rw [hcount, List.range_succ_eq_map, List.map_cons, List.map_map]
      refine congrArg some (List.cons_eq_cons.mpr ⟨by simp, List.map_congr_left fun i _ => ?_⟩)
      simp only [Function.comp_apply, Nat.mul_succ, Int.natCast_add]
      omega
  | case2 j hlt hover =>
      simp only [payloadSize] at h hover
      omega
  | case3 j hge =>
      rw [chunkLoop, if_neg hge, show (distance - j).toNat = 0 by omega]
      rfl

theorem chunkLoop_eq_none {i : Nat} (h : 2 ^ 31 - payloadSize < distance)
    (hi : payloadSize * (i + 1) ≤ 2 ^ 31) :
    chunkLoop distance ((payloadSize * i : Nat) : Int) = none := by
  generalize hj : ((payloadSize * i : Nat) : Int) = j
  induction j using chunkLoop.induct distance generalizing i with
  | case1 j hlt hfit ih =>
      have hnext : ((payloadSize * (i + 1) : Nat) : Int) = j + payloadSize := by
        rw [← hj, Nat.mul_succ, Int.natCast_add]
      have hmore : payloadSize * (i + 1 + 1) ≤ 2 ^ 31 := by
        simp only [payloadSize] at hnext hfit ⊢
        omega
      rw [chunkLoop, if_pos hlt, if_pos hfit, ih hmore hnext, Option.map_none]
  | case2 j hlt hover => rw [chunkLoop, if_pos hlt, if_neg hover]
  | case3 j hge =>
      simp only [payloadSize] at h hi hj
      omega

theorem chunkAddresses_eq_lines {e : MemcpyEntry} (h : e.distance ≤ 2 ^ 31 - payloadSize) :
    chunkAddresses e = some e.lines := by
  rw [chunkAddresses, chunkLoop_eq le_rfl h, Option.map_some, MemcpyEntry.lines, chunkOffsets,
    List.map_map, List.map_map, Int.sub_zero]
  refine congrArg some (List.map_congr_left fun i _ => ?_)
  simp only [Function.comp_apply, Int.zero_add, Int.toNat_natCast]

end Loop

section Sizes

variable {hook : Hook} {dest size : Nat}

theorem sizeOfCopy_mod (size : Nat) : sizeOfCopy size % 2 ^ 32 = size % 2 ^ 32 := by
  rw [sizeOfCopy, BitVec.toNat_signExtend, BitVec.toNat_setWidth, BitVec.toNat_ofNat]
  split <;> omega

theorem distance_recorded (hook : Hook) (dest size : Nat) :
    (recorded hook dest size).distance = (size : Int).bmod (2 ^ 32) := by
  have hmod : (((recorded hook dest size).finish : Int) - (recorded hook dest size).start) %
      (2 ^ 32 : Nat) = (size : Int) % (2 ^ 32 : Nat) := by
    have hcopy := sizeOfCopy_mod size
    cases hook <;> simp only [recorded] <;> omega
  rw [MemcpyEntry.distance, ← Int.emod_bmod, hmod, Int.emod_bmod]

theorem distance_of_le (h : size ≤ 2 ^ 31 - payloadSize) :
    (recorded hook dest size).distance = size := by
  simp only [payloadSize] at h
  rw [distance_recorded, Int.bmod_eq_of_le] <;> omega

theorem chunked_lines (h : size ≤ 2 ^ 31 - payloadSize) :
    Chunked dest size (recorded hook dest size).lines := by
  have hstart : (recorded hook dest size).start = dest := by cases hook <;> rfl
  have hlines : (recorded hook dest size).lines =
      (List.range ((size + payloadSize - 1) / payloadSize)).map (dest + payloadSize * ·) := by
    rw [MemcpyEntry.lines, chunkOffsets, distance_of_le h, hstart, Int.toNat_natCast, List.map_map]
    rfl
  refine ⟨hlines, fun a hle hlt => ?_⟩
  rw [hlines]
  refine ⟨dest + payloadSize * ((a - dest) / payloadSize),
    List.mem_map.mpr ⟨_, List.mem_range.mpr ?_, rfl⟩, ?_, ?_⟩
  all_goals simp only [payloadSize]; omega

theorem not_chunked_lines (h : 2 ^ 31 - payloadSize < size)
    (hd : (recorded hook dest size).distance ≤ 2 ^ 31 - payloadSize) :
    ¬ Chunked dest size (recorded hook dest size).lines := by
  intro hc
  have hlength := congrArg List.length hc.starts
  rw [MemcpyEntry.lines, chunkOffsets, List.length_map, List.length_map,
    List.length_range, List.length_map, List.length_range] at hlength
  simp only [payloadSize] at h hd hlength
  omega

end Sizes

/-- The chunks of a copy cover it, one after the other, exactly if the loop counter
can come to their end as an `int`. -/
theorem memcpy_chunks_cover (data : ThreadData) (hdata : Recording data)
    (hook : Hook) (dest size : Nat) :
    CoversCopy hook dest size data ↔ size ≤ 2 ^ 31 - payloadSize := by
  rw [hdata.coversCopy_iff]
  constructor
  · rintro ⟨addrs, haddrs, hc⟩
    by_contra hlt
    rcases Int.lt_or_le (2 ^ 31 - payloadSize) (recorded hook dest size).distance with hd | hd
    · have hnone := chunkLoop_eq_none (i := 0) hd (by decide)
      rw [Nat.mul_zero, Int.natCast_zero] at hnone
      rw [chunkAddresses, hnone] at haddrs
      cases haddrs
    · rw [chunkAddresses_eq_lines hd] at haddrs
      obtain rfl := Option.some.inj haddrs
      exact not_chunked_lines (by omega) hd hc
  · intro h
    have hd : (recorded hook dest size).distance ≤ 2 ^ 31 - payloadSize := by
      rw [distance_of_le h]
      simp only [payloadSize] at h ⊢
      omega
    exact ⟨_, chunkAddresses_eq_lines hd, chunked_lines h⟩

/-- A thread inside its first transaction. -/
def inTransaction : ThreadData := ThreadMemory.start fresh

theorem recording_inTransaction : Recording inTransaction := ⟨rfl, le_rfl, by decide⟩

theorem memcpy_chunks_cover_two : CoversCopy .wrapPre 65536 33 inTransaction :=
  (memcpy_chunks_cover inTransaction recording_inTransaction .wrapPre 65536 33).mpr (by decide)

/-- A copy of 4 GiB has no chunks at all. -/
theorem not_memcpy_chunks_cover :
    ¬ ∀ data, Recording data → ∀ hook dest size, dest + size < 2 ^ 64 →
    CoversCopy hook dest size data := by
  intro hall
  have hcovers :=
    hall inTransaction recording_inTransaction .instrumentedMemcpy 65536 (2 ^ 32) (by decide)
  obtain ⟨addrs, haddrs, hc⟩ := (recording_inTransaction.coversCopy_iff _ _ _).mp hcovers
  have hd : (recorded .instrumentedMemcpy 65536 (2 ^ 32)).distance = 0 := by
    rw [distance_recorded]
    decide
  rw [chunkAddresses, hd, chunkLoop, if_neg (by decide)] at haddrs
  obtain rfl := Option.some.inj haddrs
  obtain ⟨x, hx, -⟩ := hc.covers 65536 le_rfl (by decide)
  cases hx

end Mangosteen.MemcpyChunks
