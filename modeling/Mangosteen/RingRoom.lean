import Mangosteen.Consumer
import Mangosteen.WrittenPages

namespace Mangosteen.RingRoom

open PersistentMemory Prog Memory RingBuffer BackEnd Session Slots Channel Consumer Instrumentation
  Transactions WrittenPages

/-- One call of `instrument_stop` beside the consumer. -/
def stopSystem (N : Nat) (memory : Nat → UInt8) (data : PerThread) :
    System Actor Loc Val Log Unit where
  next a _ p := match a with
    | .frontEnd => False
    | .backEnd => p = runConsumer N
  boot a := match a with
    | .frontEnd => do
        let _ ← instrumentStop N memory data
        pure ()
    | .backEnd => .ret ()
  reboot w := w
  admits _ label := label ≠ .crash

/-- All that was ever put into the ring, `n` entries, has been consumed. -/
structure Drained (N n : Nat) (w : State) : Prop where
  remoteHead : w.cur .remoteHead = n % N
  remoteTail : w.cur .remoteTail = n % N
  persistedHead : w.cur .lastPersistedHead = n % N
  persistedTail : w.cur .lastPersistedTail = n % N
  localHead : w.cur .globalLocalHead = n % N
  localTail : w.cur .globalLocalTail = n % N

/-- The producer waits for a head other than the published tail. The consumer gets
no further than that tail, so the entries in the way are the producer's own. -/
def WaitsForOwn (c : Config Actor Loc Val Log Unit) : Prop :=
  (∃ next, c.prog .frontEnd = .op (.await .remoteHead (c.world.cur .remoteTail)) next) ∨
    ∃ next, c.prog .frontEnd = .op (.await .lastPersistedHead (c.world.cur .remoteTail)) next

/-- The batches of a transaction, with their closing entries, leave one slot of the
ring free, and no wait is for the transaction's own entries. -/
structure KeepsRoom (N : Nat) (memory : Nat → UInt8) (data : PerThread) : Prop where
  count : ∀ es ∈ loggedBatches memory data, (closed es).length ≤ N - 1
  waits : ∀ n w, Drained N n w → ∀ c, (stopSystem N memory data).Reachable w c → ¬ WaitsForOwn c

variable {α β : Type}

/-- None of the waits of a program is for a head other than the published tail,
where it starts with these values of `remote_tail` and `last_persisted_tail`. -/
def NeverOwn : Nat → Nat → Code α → Prop
  | _, _, .ret _ => True
  | tail, shown, .op (.load .remoteTail) next => NeverOwn tail shown (next tail)
  | tail, shown, .op (.load .lastPersistedTail) next => NeverOwn tail shown (next shown)
  | tail, shown, .op (.await .remoteHead busy) next =>
    busy ≠ tail ∧ ∀ r, NeverOwn tail shown (next r)
  | tail, shown, .op (.await .lastPersistedHead busy) next =>
    busy ≠ tail ∧ ∀ r, NeverOwn tail shown (next r)
  | _, shown, .op (.store .remoteTail v _) next => NeverOwn v shown (next ())
  | tail, _, .op (.store .lastPersistedTail v _) next => NeverOwn tail v (next ())
  | _, _, .op (.kernel _) _ => False
  | tail, shown, .op _ next => ∀ r, NeverOwn tail shown (next r)

section Steps

variable {w u : State}

theorem NeverOwn.step {o : Op Actor Loc Val Log} {next : o.Result → Code α} {r : o.Result}
    (h : NeverOwn (w.cur .remoteTail) (w.cur .lastPersistedTail) (.op o next))
    (he : o.exec .frontEnd w = some (r, u)) :
    NeverOwn (u.cur .remoteTail) (u.cur .lastPersistedTail) (next r) := by
  cases o with
  | load l =>
      cases he
      cases l with
      | remoteTail => exact h
      | lastPersistedTail => exact h
      | _ => exact h _
  | await l busy =>
      by_cases hb : w.cur l = busy
      · simp [Op.exec, hb] at he
      · simp only [Op.exec, hb, if_false, Option.some.injEq] at he
        cases he
        cases l with
        | remoteHead => exact h.2 _
        | lastPersistedHead => exact h.2 _
        | _ => exact h _
  | store l v f =>
      cases he
      cases l with
      | remoteTail =>
          rw [World.store_cur_self, World.store_cur_of_ne _ _ _ _ _ (by decide)]
          exact h
      | lastPersistedTail =>
          rw [World.store_cur_self, World.store_cur_of_ne _ _ _ _ _ (by decide)]
          exact h
      | _ =>
          rw [World.store_cur_of_ne _ _ _ _ _ (by simp), World.store_cur_of_ne _ _ _ _ _ (by simp)]
          exact h ()
  | flush ls =>
      cases he
      exact h ()
  | fence =>
      cases he
      exact h ()
  | record f =>
      cases he
      exact h ()
  | kernel f => exact h.elim

end Steps

section Session

variable {N tail shown : Nat} {f : α → Code β}

theorem neverOwn_storeEntry {f : Unit → Code β} (slot : Nat) (e : Entry)
    (h : NeverOwn tail shown (f ())) : NeverOwn tail shown (storeEntry slot e >>= f) := by
  have hstores : ∀ (ss : List (Sigma Val)) (g : Unit → Code β), (∀ s ∈ ss, slotOf s.1 = some slot) →
      NeverOwn tail shown (g ()) → NeverOwn tail shown (storeAll (fun _ => id) ss >>= g) := by
    intro ss g hss hg
    induction ss with
    | nil => exact hg
    | cons s ss ih =>
        have hrest := ih fun t ht => hss t (by simp [ht])
        obtain ⟨l, v⟩ := s
        have hslot := hss ⟨l, v⟩ (by simp)
        cases l with
        | entryType | entryAddr | entrySize | payload => exact fun _ => hrest
        | _ => cases hslot
  rw [storeEntry, Prog.bind_assoc]
  exact hstores _ _ (fun s hs => slotOf_of_mem hs) fun _ _ => h

theorem neverOwn_waitForSpace {f : Nat → Code β} {refresh : Code Nat} (nextTail head : Nat)
    (hr : (∀ head, NeverOwn tail shown (f head)) → NeverOwn tail shown (refresh >>= f))
    (h : ∀ head, NeverOwn tail shown (f head)) :
    NeverOwn tail shown (waitForSpace refresh nextTail head >>= f) := by
  rw [waitForSpace]
  split
  · exact hr h
  · exact h head

variable {q k : Nat} {es : List Entry} {ht : Nat × Nat} {f : Nat × Nat → Code β}

/-- While the entries since the last publication leave room for one more, the next
tail is not the published one. -/
theorem neverOwn_enqueueAll (htail : ht.2 = (q + k) % N) (hlt : k + es.length < N)
    (h : ∀ ht, ht.2 = (q + k + es.length) % N → NeverOwn (q % N) shown (f ht)) :
    NeverOwn (q % N) shown (enqueueAll N es ht >>= f) := by
  induction es generalizing k ht with
  | nil => exact h ht htail
  | cons e es ih =>
      rw [List.length_cons] at hlt
      have hnext : nextIndex N ht.2 = (q + (k + 1)) % N := by
        rw [htail, nextIndex_mod (by omega), Nat.add_assoc]
      have hne : (q + (k + 1)) % N ≠ q % N := (Cyclic.mod_ne_of_lt (by omega) (by omega)).symm
      simp only [enqueueAll, enqueueEntry, Prog.bind_assoc]
      rw [hnext]
      refine neverOwn_waitForSpace _ _ (fun hwait => ⟨hne, hwait⟩) fun head => ?_
      refine neverOwn_storeEntry _ _ (ih rfl (by omega) fun ht hht => h ht ?_)
      rw [hht, List.length_cons]
      congr 1
      omega

theorem neverOwn_commit (htail : ht.2 = (q + k) % N) (hlt : k + 1 < N)
    (h : ∀ ht, ht.2 = (q + k + 1) % N → NeverOwn ((q + k + 1) % N) ((q + k + 1) % N) (f ht)) :
    NeverOwn (q % N) shown (ringBufferCommitEnqueuedEntries N ht.1 ht.2 >>= f) := by
  have hnext : nextIndex N ht.2 = (q + k + 1) % N := by rw [htail, nextIndex_mod (by omega)]
  have hne : (q + k + 1) % N ≠ q % N := (Cyclic.mod_ne_of_lt (by omega) (by omega)).symm
  simp only [ringBufferCommitEnqueuedEntries, Prog.bind_assoc]
  rw [hnext]
  refine neverOwn_waitForSpace _ _ (fun hwait => ⟨hne, hwait⟩) fun head => ?_
  exact neverOwn_storeEntry _ _ fun _ _ _ _ => h _ rfl

theorem neverOwn_batches {bs : List (List Entry)} (htail : ht.2 = q % N)
    (hbs : ∀ es ∈ bs, (closed es).length ≤ N - 1)
    (h : ∀ ht tail, NeverOwn tail tail (f ht)) :
    NeverOwn (q % N) (q % N) (batches N bs ht >>= f) := by
  induction bs generalizing q ht with
  | nil => exact h ht _
  | cons es bs ih =>
      have hes := hbs es (by simp)
      rw [closed, List.length_append, List.length_singleton] at hes
      simp only [batches, batch, Prog.bind_assoc]
      refine neverOwn_enqueueAll (k := 0) htail (by omega) fun ht hht => ?_
      rw [Nat.add_zero] at hht
      refine neverOwn_commit hht (by omega) fun ht hht => ?_
      exact ih hht fun es hes => hbs es (by simp [hes])

theorem neverOwn_session {bs : List (List Entry)} (memory : Nat → UInt8)
    (hbs : ∀ es ∈ bs, (closed es).length ≤ N - 1)
    {f : Unit → Code β} (h : ∀ tail shown, NeverOwn tail shown (f ())) :
    NeverOwn (q % N) (q % N) (session N bs memory >>= f) := by
  simp only [session, Prog.bind_assoc]
  intro _ head
  exact neverOwn_batches rfl hbs fun ht tail _ => h _ _

end Session

section Runs

variable {N : Nat} {memory : Nat → UInt8} {data : PerThread}

/-- What every run keeps: the producer's waits, and that the consumer leaves the
indices of the producer alone. -/
structure Apart (c : Config Actor Loc Val Log Unit) : Prop where
  front : NeverOwn (c.world.cur .remoteTail) (c.world.cur .lastPersistedTail) (c.prog .frontEnd)
  back : (c.prog .backEnd).Confined Served SameFront .backEnd

theorem Apart.not_waitsForOwn {c : Config Actor Loc Val Log Unit} (h : Apart c) :
    ¬ WaitsForOwn c := by
  have hfront := h.front
  rintro (⟨next, hp⟩ | ⟨next, hp⟩)
  · rw [hp] at hfront
    exact hfront.1 rfl
  · rw [hp] at hfront
    exact hfront.1 rfl

theorem apart_step {c d : Config Actor Loc Val Log Unit} (h : Apart c)
    (hs : (stopSystem N memory data).Step c d) : Apart d := by
  cases hs with
  | @op w p a o k r w' hp ha he =>
      cases a with
      | frontEnd =>
          have hfront := h.front
          dsimp only at hfront
          rw [hp] at hfront
          refine ⟨?_, ?_⟩
          · simpa using hfront.step he
          · simpa using h.back
      | backEnd =>
          have hback := h.back
          dsimp only at hback
          rw [hp] at hback
          have hframe := hback.1.frame sameFront_refl he
          refine ⟨?_, ?_⟩
          · have htail := hframe.cur .remoteTail (by simp [Served, Owned, owner])
            have hshown := hframe.cur .lastPersistedTail (by simp [Served, Owned, owner])
            simpa [htail, hshown] using h.front
          · simpa using hback.2 r
  | @begin w p a x q hp hq =>
      cases a with
      | frontEnd => exact hq.elim
      | backEnd =>
          obtain rfl := hq
          refine ⟨?_, ?_⟩
          · simpa using h.front
          · simpa using confined_runConsumer N
  | writeBack l ha => exact ⟨h.front, h.back⟩
  | crash ha => exact absurd rfl ha

theorem apart_start {n : Nat} {w : State} (hw : Drained N n w)
    (hbs : ∀ es ∈ loggedBatches memory data, (closed es).length ≤ N - 1) :
    Apart ⟨w, (stopSystem N memory data).boot⟩ := by
  refine ⟨?_, trivial⟩
  dsimp only [stopSystem]
  rw [hw.remoteTail, hw.persistedTail, instrumentStop_eq, Prog.bind_assoc]
  exact neverOwn_session memory hbs fun _ _ => trivial

theorem apart_of_reachable {n : Nat} {w : State} {c : Config Actor Loc Val Log Unit}
    (hw : Drained N n w) (hbs : ∀ es ∈ loggedBatches memory data, (closed es).length ≤ N - 1)
    (h : (stopSystem N memory data).Reachable w c) : Apart c := by
  induction h with
  | refl => exact apart_start hw hbs
  | tail _ hs ih => exact apart_step ih hs

end Runs

section Counts

variable {xs : List Access} {m : Nat → UInt8} {s : FrontEnd}

theorem length_lines_copy (dest size : Nat) : (MemcpyEntry.lines ⟨dest, dest + size⟩).length =
    ((intSize size).toNat + payloadSize - 1) / payloadSize := by
  rw [MemcpyEntry.lines, distance_eq, chunkOffsets, List.length_map,
    List.length_map, List.length_range]

theorem length_lines_le (data : PerThread) : data.lines.length ≤ hashSetSize := by
  refine (List.length_filter_le _ _).trans ?_
  rw [List.length_map, List.length_range]

theorem length_closed_map (memory : Nat → UInt8) (lines : List Nat) :
    (closed (lines.map (redoEntry memory))).length = lines.length + 1 := by
  rw [closed, List.length_append, List.length_map, List.length_singleton]

theorem count_iff (h : performAll xs ⟨m, instrumentStart {}⟩ = some s) :
    (∀ es ∈ loggedBatches s.memory s.data, (closed es).length ≤ ringBufferSize - 1) ↔
      ∀ dest src size, .memcpy dest src size ∈ xs →
      intSize size ≤ (payloadSize * (ringBufferSize - 2) : Nat) := by
  have hcopy : ∀ dest size,
      (closed ((MemcpyEntry.lines ⟨dest, dest + size⟩).map (redoEntry s.memory))).length ≤
      ringBufferSize - 1 ↔ intSize size ≤ (payloadSize * (ringBufferSize - 2) : Nat) := by
    intro dest size
    rw [length_closed_map, length_lines_copy]
    simp only [payloadSize, ringBufferSize]
    omega
  have hcopies := (performAll_start h).1
  constructor
  · intro hall dest src size hmem
    refine (hcopy dest size).mp (hall _ (List.mem_append_left _ (List.mem_map.mpr ⟨_, ?_, rfl⟩)))
    rw [hcopies]
    exact mem_copiesOf.mpr ⟨dest, src, size, hmem, rfl⟩
  · intro hall es hes
    rcases List.mem_append.mp hes with hes | hes
    · obtain ⟨e, he, rfl⟩ := List.mem_map.mp hes
      rw [hcopies] at he
      obtain ⟨dest, src, size, hmem, rfl⟩ := mem_copiesOf.mp he
      exact (hcopy dest size).mpr (hall dest src size hmem)
    · rw [List.mem_singleton.mp hes, length_closed_map]
      have hle := length_lines_le s.data
      simp only [hashSetSize] at hle
      simp only [ringBufferSize]
      omega

end Counts

/-- A transaction never has to wait for entries of its own exactly if each of its
copies is short enough for its chunks and their closing entry to fit into the
ring. -/
theorem batches_keep_room (xs : List Access) (m : Nat → UInt8) (s : FrontEnd)
    (h : performAll xs ⟨m, instrumentStart {}⟩ = some s) :
    KeepsRoom ringBufferSize s.memory s.data ↔
      ∀ dest src size, .memcpy dest src size ∈ xs →
      intSize size ≤ (payloadSize * (ringBufferSize - 2) : Nat) := by
  constructor
  · exact fun hroom => (count_iff h).mp hroom.count
  · intro hall
    have hcount := (count_iff h).mpr hall
    exact ⟨hcount, fun n w hw c hc => (apart_of_reachable hw hcount hc).not_waitsForOwn⟩

theorem batches_keep_room_line :
    ∃ s, performAll alignedCopy ⟨fun _ => 0, instrumentStart {}⟩ = some s ∧
    KeepsRoom ringBufferSize s.memory s.data := by
  refine ⟨_, rfl, (batches_keep_room alignedCopy (fun _ => 0) _ rfl).mpr ?_⟩
  intro dest src size hmem
  obtain ⟨rfl, rfl, rfl⟩ := Access.memcpy.inj (List.mem_singleton.mp hmem)
  decide

/-- A copy of one chunk more than the ring has room for. -/
def longCopy : List Access := [.memcpy 4096 1073741824 2097089]

theorem not_batches_keep_room : ¬ ∀ xs s, performAll xs ⟨fun _ => 0, instrumentStart {}⟩ = some s →
    KeepsRoom ringBufferSize s.memory s.data := by
  intro h
  have hmem : Access.memcpy 4096 1073741824 2097089 ∈ longCopy := List.mem_singleton_self _
  have hroom := (@count_iff longCopy (fun _ => 0) _ rfl).mp (h longCopy _ rfl).count _ _ _ hmem
  exact absurd hroom (by decide)

end Mangosteen.RingRoom
