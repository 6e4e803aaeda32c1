import Mangosteen.Atomicity
import Mangosteen.Image

namespace Mangosteen.Refinement

open PersistentMemory Prog Memory RingBuffer BackEnd Session Channel Delivery Isolation
  Instrumentation Transactions Image Atomicity SoloRing Overrun SoloBackEnd

variable {N : Nat} {bytes : Cell → UInt8} {regions : List (Nat × Nat)} {memory : Nat → UInt8}

theorem applied_initial (h : ∀ a, bytes (translate (initialMappings regions) a) = memory a) :
    Applied (initialMappings regions) memory (initial bytes regions) :=
  fun _ => ⟨rfl, funext h⟩

/-- Whatever the ring does, the image is the log that the back end has read,
applied to the memory at the start. -/
theorem imageInv_of_reachable {Phase : Type} {S : System Actor Loc Val Log Phase}
    {I : List SessionRecord → Prop}
    {J : Phase → List SessionRecord → Prop} {c : Config Actor Loc Val Log Phase}
    (hs : Serves S N I J) (hstart : ∀ a, bytes (translate (initialMappings regions) a) = memory a)
    (h : S.Reachable (initial bytes regions) c) :
    ImageInv (initialMappings regions) memory c.world := by
  have hinj := (separate_initialMappings regions).injective
  have hinit := applied_initial hstart
  refine inv_of_reachable (P := imageProtocol (initialMappings regions) memory) hs
    not_false hinit.imageInv hinit
    (fun u v hu hr => hu.congr hr.1 hr.2) (fun u v hu hf => Image.allows_frontEnd hu hf)
    (fun w l hw _ => ?_) (fun w hw => Image.ensures_runConsumer hinj hw) h
  refine ⟨hw.congr (fun _ _ => rfl) rfl, fun a => ?_⟩
  cases a with
  | frontEnd => trivial
  | backEnd => exact ⟨fun _ _ => rfl, rfl⟩

/-- Every session logs, batch by batch, what turns the memory of the one before
into its own. -/
def Chained (memory : Nat → UInt8) : List SessionRecord → Prop
  | [] => True
  | s :: ss => s.batches ≠ [] ∧ Plain (entries s.batches) ∧
      RedoLog.apply (writes (entries (logged (s :: ss)))) memory = s.memory ∧ Chained memory ss

theorem entries_ne_nil {bs : List (List Entry)} (h : bs ≠ []) :
    (entries bs).getLast? = some .commit := by
  obtain ⟨cs, es, rfl⟩ := (List.eq_nil_or_concat' bs).resolve_left h
  simp [entries, closed]

theorem Chained.plain {ss : List SessionRecord} (h : Chained memory ss) :
    Plain (entries (logged ss)) := by
  induction ss with
  | nil => intro e he; cases he
  | cons s ss ih =>
      intro e he
      rw [logged, entries_append] at he
      rcases List.mem_append.mp he with he | he
      · exact ih h.2.2.2 e he
      · exact h.2.1 e he

theorem Chained.exists_history {ss : List SessionRecord} {s : SessionRecord}
    (h : Chained memory ss) (ha : Aligned ss)
    (hs : s ∈ ss) : ∃ es, es <+: entries (logged ss) ∧
    es.length = s.start + (entries s.batches).length ∧
      es.getLast? = some .commit ∧ RedoLog.apply (writes es) memory = s.memory := by
  induction ss with
  | nil => cases hs
  | cons r ss ih =>
      rcases List.mem_cons.mp hs with rfl | hs
      · refine ⟨_, List.prefix_refl _, ?_, ?_, h.2.2.1⟩
        · rw [logged, entries_append, List.length_append, ha.1]
        · rw [logged, entries_append, List.getLast?_append, entries_ne_nil h.1]
          rfl
      · obtain ⟨es, hpre, hrest⟩ := ih h.2.2.2 ha.2 hs
        refine ⟨es, ?_, hrest⟩
        rw [logged, entries_append]
        exact hpre.trans (List.prefix_append _ _)

/-- Whenever the last entry of a transaction has been processed and nothing
after it, the back end has the memory that the front end had at its end. -/
def Refines (w : State) : Prop :=
  ∀ s ∈ w.log.sessions, w.log.dequeued.length = s.start + (entries s.batches).length →
    ∀ a, image w a = s.memory a

theorem refines_of_inv {w : State} (hr : RingInv N false (Chained memory) w)
    (hi : ImageInv (initialMappings regions) memory w) : Refines w := by
  intro s hs hlen a
  obtain ⟨es, hpre, hes, hlast, happly⟩ := hr.extra.exists_history hr.history.aligned hs
  have hdeq := hr.history.dequeued.trans hr.history.enqueued
  obtain rfl : w.log.dequeued = es :=
    (List.prefix_of_prefix_length_le hdeq hpre (by omega)).eq_of_length (by omega)
  have hplain : Plain w.log.dequeued := fun e he => hr.extra.plain e (hdeq.subset he)
  rw [(hi.applied hlast hplain).2, happly]

theorem plain_loggedBatches (m : Nat → UInt8) (data : PerThread) :
    Plain (entries (loggedBatches m data)) := by
  intro e he
  rcases mem_entries_loggedBatches.mp he with rfl | ⟨_, _, line, _, rfl⟩ | ⟨line, _, rfl⟩
  · exact .inl rfl
  · exact .inr ⟨_, _, rfl⟩
  · exact .inr ⟨_, _, rfl⟩

theorem serves_fits (admits : State → Label Actor Loc Val Log → Prop) :
    Serves (transactionSystem N Fits admits memory) N (Chained memory)
      (fun x ss => x.data = {} ∧ RedoLog.apply (writes (entries (logged ss))) memory =
        x.memory) := by
  refine serves_transactionSystem
    (J := fun m ss => RedoLog.apply (writes (entries (logged ss))) memory = m) rfl ?_
  intro m xs s start ss hxs hs hI hJ
  obtain ⟨s', hs', hrec⟩ := exists_performAll hxs m
  obtain rfl : s' = s := Option.some.inj (hs'.symm.trans hs)
  have happly : RedoLog.apply (writes (entries (logged
      (⟨start, loggedBatches s'.memory s'.data, s'.memory⟩ :: ss)))) memory = s'.memory := by
    rw [logged, entries_append, writes, List.flatMap_append, RedoLog.apply_append]
    exact (congrArg _ hJ).trans hrec.replay
  exact ⟨⟨by simp [loggedBatches], plain_loggedBatches _ _, happly, hI⟩, happly⟩

/-- The image of the back end refines the memory of the front end, in every run
in which a producer that refreshes its head from `last_persisted_head` finds
there a value between the head it had and `remote_head`. -/
theorem image_refines (N : Nat) (hN : 2 ≤ N) (bytes : Cell → UInt8) (regions : List (Nat × Nat))
    (memory : Nat → UInt8) (hstart : ∀ a, bytes (translate (initialMappings regions) a) = memory a)
    (c : Config Actor Loc Val Log FrontEnd)
    (h : (transactionSystem N Fits (admitsHead N false) memory).Reachable
      (initial bytes regions) c) :
    Refines c.world :=
  refines_of_inv (ringInv_of_reachable (serves_fits _) hN trivial (fun _ _ h => h.2) h)
    (imageInv_of_reachable (serves_fits _) hstart h)

theorem fits_store : Fits [.store 8192 [1]] := ⟨by simp [InRange], by decide +kernel, by decide⟩

/-- A transaction has been logged, and the consumer has applied it and committed. -/
theorem image_refines_logged : ∃ c,
    (transactionSystem ringBufferSize Fits (admitsHead ringBufferSize false) fun _ => 0).Reachable
      (initial (fun _ => 0) [(4096, 8192)]) c ∧ c.world.log.committed = 2 ∧ Refines c.world ∧
    image c.world 8192 = 1 := by
  obtain ⟨u, hu, ht⟩ := transfer_move (N := ringBufferSize) (lenient_transactionSystem false)
    (unrestricted_transactionSystem false) (by decide) (by decide)
    (level_initial (fun _ => 0) [(4096, 8192)]) reachable_transactionSystem
    (opens_store fits_store) rfl
  have hr := image_refines ringBufferSize (by decide) (fun _ => 0) [(4096, 8192)] (fun _ => 0)
    (fun _ => rfl) _ hu
  refine ⟨_, hu, ?_, hr, ?_⟩
  · show u.log.committed = 2
    rw [ht.committed, ht.dequeued]
    rfl
  · refine (hr _ (by rw [ht.sessions]; exact List.mem_cons_self) ?_ 8192).trans rfl
    show u.log.dequeued.length = _
    rw [ht.dequeued]
    rfl

section Lost

theorem fits_memcpy {dest src size : Nat} (h : size < 2 ^ 31) : Fits [.memcpy dest src size] := by
  refine ⟨by simpa [InRange] using h, Nat.zero_le _, ?_⟩
  show 1 ≤ maxNumOfMemcpy
  decide

theorem lines_start (es : List MemcpyEntry) :
    ({ instrumentStart {} with memcpyArray := es } : PerThread).lines = [] :=
  List.filter_eq_nil_iff.mpr (by simp [instrumentStart])

theorem opens_memcpy {m₀ m : Nat → UInt8} {dest src size : Nat} (h : size < 2 ^ 31) :
    Opens (anyTransactions N m₀) N ⟨m, {}⟩
      [(⟨dest, dest + size⟩ : MemcpyEntry).lines.map (redoEntry (copy m dest src size)), []]
      (copy m dest src size) ⟨copy m dest src size, {}⟩ := by
  have hs : performAll [.memcpy dest src size] ⟨m, instrumentStart {}⟩ =
      some ⟨copy m dest src size,
        { instrumentStart {} with memcpyArray := [⟨dest, dest + size⟩] }⟩ := rfl
  have hn := next_anyTransactions (N := N) m₀ (fits_memcpy h) hs
  simp only [loggedBatches, lines_start] at hn
  exact hn

theorem opens_memcpy_line {m₀ m : Nat → UInt8} {src : Nat} :
    Opens (anyTransactions N m₀) N ⟨m, {}⟩ [[redoEntry (copy m (2 ^ 20) src 32) (2 ^ 20)], []]
      (copy m (2 ^ 20) src 32) ⟨copy m (2 ^ 20) src 32, {}⟩ := by
  have hline : (⟨2 ^ 20, 2 ^ 20 + 32⟩ : MemcpyEntry).lines = [2 ^ 20] := by decide +kernel
  have ho := @opens_memcpy N m₀ m (2 ^ 20) src 32 (show 32 < 2 ^ 31 by decide)
  rw [hline] at ho
  exact ho

theorem opens_empty {m₀ m : Nat → UInt8} :
    Opens (anyTransactions N m₀) N ⟨m, {}⟩ [[]] m ⟨m, {}⟩ := by
  have hfits : Fits [] := ⟨by simp, by simp [touchedLines], by simp⟩
  have hs : performAll [] ⟨m, instrumentStart {}⟩ =
      some ⟨m, { instrumentStart {} with memcpyArray := [] }⟩ := rfl
  have hn := next_anyTransactions (N := N) m₀ hfits hs
  simp only [loggedBatches, lines_start] at hn
  exact hn

theorem length_memcpyLines {dest n : Nat} (h : 32 * n < 2 ^ 31) :
    (⟨dest, dest + 32 * n⟩ : MemcpyEntry).lines.length = n := by
  have hd : (⟨dest, dest + 32 * n⟩ : MemcpyEntry).distance.toNat = 32 * n := by
    have hsub : ((dest + 32 * n : Nat) : Int) - dest = 32 * n := by omega
    show ((((dest + 32 * n : Nat) : Int) - dest).bmod (2 ^ 32)).toNat = 32 * n
    rw [hsub, Int.bmod_def]
    split <;> omega
  rw [MemcpyEntry.lines, chunkOffsets, hd, List.length_map, List.length_map,
    List.length_range, payloadSize]
  omega

/-- The front end's memory after each of the first five transactions. -/
def lostMemory (N : Nat) : Nat → Nat → UInt8
  | 0 | 1 | 2 => fun _ => 0
  | 3 => write (fun _ => 0) 8192 [1]
  | 4 => copy (write (fun _ => 0) 8192 [1]) (2 ^ 20) (2 ^ 30) (32 * (N - 7))
  | _ =>
    copy (copy (write (fun _ => 0) 8192 [1]) (2 ^ 20) (2 ^ 30) (32 * (N - 7))) (2 ^ 20) (2 ^ 30) 32

-- The kernel would unfold `2 ^ 20` to compare these by computation.
theorem lostMemory_four :
    lostMemory N 4 = copy (lostMemory N 3) (2 ^ 20) (2 ^ 30) (32 * (N - 7)) := by
  rw [lostMemory, lostMemory]

theorem lostMemory_five : lostMemory N 5 = copy (lostMemory N 4) (2 ^ 20) (2 ^ 30) 32 := by
  rw [lostMemory, lostMemory] <;> simp

theorem opens_fourth (hfit : 32 * N < 2 ^ 31) :
    Opens (anyTransactions N (fun _ => 0)) N ⟨lostMemory N 3, {}⟩
    [(⟨2 ^ 20, 2 ^ 20 + 32 * (N - 7)⟩ : MemcpyEntry).lines.map (redoEntry (lostMemory N 4)), []]
    (lostMemory N 4)
      ⟨lostMemory N 4, {}⟩ := by
  rw [lostMemory_four]
  exact opens_memcpy (by omega)

theorem opens_fifth : Opens (anyTransactions N (fun _ => 0)) N ⟨lostMemory N 4, {}⟩
    [[redoEntry (lostMemory N 5) (2 ^ 20)], []] (lostMemory N 5) ⟨lostMemory N 5, {}⟩ := by
  rw [lostMemory_five]
  exact opens_memcpy_line

theorem exists_lost (hN : 9 ≤ N) (hfit : 32 * N < 2 ^ 31) :
    ∃ c, (anyTransactions N (fun _ => 0)).Reachable (initial (fun _ => 0) []) c ∧
    c.world.log.dequeued.length = 4 ∧
      (∀ a, image c.world a = 0) ∧
      ∃ s ∈ c.world.log.sessions, s.start + (entries s.batches).length = 4 ∧ s.memory 8192 = 1 := by
  have hF := unrestricted_anyTransactions (N := N) (fun _ => 0) .frontEnd
  have hB := unrestricted_anyTransactions (N := N) (fun _ => 0) .backEnd
  have hlen : 2 + (entries [[redoEntry (lostMemory N 3) 8192]]).length +
      (entries [(⟨2 ^ 20, 2 ^ 20 + 32 * (N - 7)⟩ : MemcpyEntry).lines.map
        (redoEntry (lostMemory N 4)), []]).length = N - 1 := by
    simp only [length_entries_cons, List.length_map,
      length_memcpyLines (show 32 * (N - 7) < 2 ^ 31 by omega)]
    simp [entries]
    omega
  obtain ⟨w, hw, hl⟩ := exists_lapped (x := fun i => ⟨lostMemory N i, {}⟩) (m := lostMemory N) hF hB
    (fresh_initial _ _) (reachable_anyTransactions _ (fun _ => 0) []) rfl opens_empty opens_empty
    (opens_store fits_store) (opens_fourth hfit) opens_fifth (by simp) (by simp) (by omega) hlen
  obtain ⟨u, hu, hm⟩ := exists_misread hF hB (by omega) hw hl rfl opens_empty opens_empty
  refine ⟨_, hu, by rw [hm.dequeued]; rfl, fun a => ?_, _, hm.third, rfl, rfl⟩
  rw [image, hm.kept _ (by simp [Kept, Slots.slotOf]), hm.kept _ (by simp [Kept, Slots.slotOf])]
  rfl

theorem not_image_refines : ¬ ∀ c, (anyTransactions ringBufferSize (fun _ => 0)).Reachable
    (initial (fun _ => 0) []) c → Refines c.world := by
  intro h
  obtain ⟨c, hc, hd, hi, s, hs, hlen, hm⟩ :=
    exists_lost (N := ringBufferSize) (by decide) (by decide)
  have := h c hc s hs (hd.trans hlen.symm) 8192
  rw [hi, hm] at this
  exact absurd this (by decide)

end Lost

end Mangosteen.Refinement
