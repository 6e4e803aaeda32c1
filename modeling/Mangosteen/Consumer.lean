import Mangosteen.Dequeue

namespace Mangosteen.Consumer

open PersistentMemory Prog Memory RingBuffer RegionTable BackEnd Session Slots Channel Dequeue

section Confined

theorem confined_addRegionRecord (addr size : Nat) :
    (regionTableAddRegionRecord addr size).Confined Aside SameRing .backEnd := by
  refine .op trivial fun index => ?_
  split
  · refine .op trivial fun _ => .bind (.storeAll ?_ ?_) fun _ => .op ?_ fun _ =>
      ⟨⟨?_, ?_⟩, fun _ => trivial⟩
    all_goals simp [Op.Confined, Aside, Owned, owner, SameRing, recordLocs]
  · exact ⟨fun w u h => (by cases h), fun _ => trivial⟩

section Work

variable {own : Loc → Prop} {same : Log → Log → Prop}

theorem frame_truncate (hbyte : ∀ c, own (.byte c)) (hr : ∀ g, same g g) (index : Nat) (w : State) :
    Frame own same .backEnd w (truncate index w) := by
  refine ⟨fun l hl => ?_, fun l hl _ => ?_, fun l b hl _ => ?_, fun l v hl _ => ?_,
    fun l b _ => ?_, hr _⟩
  · cases l with
    | byte cell => exact absurd (hbyte cell) hl
    | _ => rfl
  · cases l with
    | byte cell => exact absurd (hbyte cell) hl
    | _ => rfl
  · cases l with
    | byte cell => exact absurd (hbyte cell) hl
    | _ => rfl
  · cases l with
    | byte cell => exact absurd (hbyte cell) hl
    | _ => exact .inl ⟨rfl, fun _ => rfl⟩
  · cases l with
    | byte cell =>
        cases cell with
        | file i o => by_cases hi : i = index <;> simp [truncate, hi]
        | anonymous a => exact .inl rfl
    | _ => exact .inl rfl

theorem frame_zeroPages (hbyte : ∀ c, own (.byte c)) (hr : ∀ g, same g g)
    (addr size : Nat) (w : State) : Frame own same .backEnd w (zeroPages addr size w) := by
  refine ⟨fun l hl => ?_, fun _ _ _ => rfl, fun _ _ _ _ => rfl,
    fun _ _ _ _ => .inl ⟨rfl, fun _ => rfl⟩, fun _ _ _ => .inl rfl, hr _⟩
  cases l with
  | byte cell => exact absurd (hbyte cell) hl
  | _ => rfl

theorem confined_mapFixed (hmap : own .addressMap) (hr : ∀ g, same g g) (m : Mapping) :
    (mapFixed m).Confined own same .backEnd :=
  .op trivial fun _ => ⟨⟨hmap, hr⟩, fun _ => trivial⟩

theorem confined_createPmemFile (hbyte : ∀ c, own (.byte c)) (hseq : own .sequenceNumber)
    (hr : ∀ g, same g g) : createPmemFile.Confined own same .backEnd := by
  refine .op trivial fun n => .op (fun w u h => ?_) fun _ => .op ⟨hseq, hr⟩ fun _ => trivial
  obtain rfl := Option.some.inj h
  exact frame_truncate hbyte hr n w

theorem confined_transientMmap (hbyte : ∀ c, own (.byte c))
    (hmap : own .addressMap) (hr : ∀ g, same g g) (addr size : Nat) :
    (do kernel (fun w => some (zeroPages addr size w)); mapFixed ⟨addr, size,
      .anonymous⟩ : Code Unit).Confined own same .backEnd := by
  refine .op (fun w u h => ?_) fun _ => confined_mapFixed hmap hr _
  obtain rfl := Option.some.inj h
  exact frame_zeroPages hbyte hr addr size w

theorem confined_applyRedo (hbyte : ∀ c, own (.byte c)) (hnote : ∀ s g, same g (noteWrite s g))
    (held : Nat → Bool) (addr : Nat) (payload : Payload) :
    (applyRedo held addr payload).Confined own same .backEnd := by
  refine .op trivial fun ms => ?_
  split
  · refine .bind (.storeAll ?_ fun s _ => hnote s) fun _ => ⟨?_, fun _ => trivial⟩
    · simpa [redoStores] using fun k => hbyte _
    · simpa [Op.Confined, redoStores] using fun k => hbyte _
  · exact ⟨fun _ _ h => (by cases h), fun _ => trivial⟩

theorem confined_waitForEntry (htail : own .globalLocalTail)
    (hr : ∀ g, same g g) (head tail : Nat) :
    (waitForEntry head tail).Confined own same .backEnd := by
  rw [waitForEntry]
  split
  · exact .op trivial fun _ => ⟨⟨htail, hr⟩, fun _ => trivial⟩
  · trivial

theorem confined_ringBufferDequeue (hhead : own .globalLocalHead) (htail : own .globalLocalTail)
    (hr : ∀ g, same g g) (N : Nat) : (ringBufferDequeue N).Confined own same .backEnd :=
  .op trivial fun head => .op trivial fun tail =>
  .bind (confined_waitForEntry htail hr head tail) fun _ =>
    .op ⟨hhead, hr⟩ fun _ => trivial

theorem confined_prepareCommit (hmetadata : own .commitMetadata) (hnumber : own .numberOfEntries)
    (huncommited : own .uncommitedNumberOfEntries)
    (hcommits : ∀ g cs, same g { g with commits := cs })
    (hr : ∀ g, same g g) : prepareCommit.Confined own same .backEnd := by
  refine .op trivial fun n => .op trivial fun h => .op ⟨hmetadata, fun g => hcommits g _⟩ fun _ =>
    .op ?_ fun _ =>
    .op trivial fun _ => .bind ?_ fun _ => ⟨trivial, fun _ => trivial⟩
  · simpa [Op.Confined] using hmetadata
  · refine .op trivial fun _ => .op trivial fun n => .op ⟨hnumber, hr⟩ fun _ => .op ?_ fun _ =>
      ⟨trivial, fun _ => trivial⟩
    simpa [Op.Confined] using And.intro hnumber huncommited

theorem confined_ringBufferCommitDequeuedEntries (hhead : own .remoteHead)
    (hshown : own .lastPersistedHead)
    (hcommitted : ∀ g n k, same g { g with committed := n, committedBefore := k })
    (hr : ∀ g, same g g) : ringBufferCommitDequeuedEntries.Confined own same .backEnd := by
  refine .op trivial fun _ => .op ⟨hhead, fun g => hcommitted g _ _⟩ fun _ =>
    .op ?_ fun _ => .op trivial fun _ =>
    .op trivial fun _ => ⟨⟨hshown, hr⟩, fun _ => trivial⟩
  simpa [Op.Confined] using hhead

end Work

theorem aside_byte (c : Cell) : Aside (.byte c) := by simp [Aside, Owned, owner]

theorem aside_addressMap : Aside .addressMap := by simp [Aside, Owned, owner]

theorem sameRing_refl (g : Log) : SameRing g g := ⟨rfl, rfl⟩

theorem sameRing_noteWrite (s : Sigma Val) (g : Log) : SameRing g (noteWrite s g) := by
  obtain ⟨l, v⟩ := s
  cases l <;> exact ⟨rfl, rfl⟩

theorem confined_createMemoryRegion (addr size : Nat) :
    (regionTableCreateMemoryRegion addr size).Confined Aside SameRing .backEnd := by
  refine (confined_addRegionRecord addr size).bind fun _ => .bind ?_ fun _ => ?_
  · exact confined_createPmemFile aside_byte (by simp [Aside, Owned, owner]) sameRing_refl
  · exact confined_mapFixed aside_addressMap sameRing_refl _

theorem aside_prepareCommit : prepareCommit.Confined Aside SameRing .backEnd := by
  refine confined_prepareCommit ?_ ?_ ?_ (fun _ _ => ⟨rfl, rfl⟩) sameRing_refl
  all_goals simp [Aside, Owned, owner]

/-- The locations that the back end stores to. -/
def Served (l : Loc) : Prop := Owned .backEnd l ∨ l = .lastPersistedHead

def SameFront (g g' : Log) : Prop := g'.toFrontLog = g.toFrontLog

theorem sameFront_refl (g : Log) : SameFront g g := rfl

theorem Prog.Confined.served {α : Type} {p : Code α} (h : p.Confined Aside SameRing .backEnd) :
    p.Confined Served SameFront .backEnd :=
  (h.of_own fun _ hl => .inl hl.1).mono fun _ _ hs => hs.1

theorem confined_handleEntry (held : Nat → Bool) (slot : Nat) (type : EntryType) :
    (handleEntry held slot type).Confined Served SameFront .backEnd := by
  have hbyte : ∀ c, Served (.byte c) := fun c => .inl rfl
  have hmap : Served .addressMap := .inl rfl
  have hhead : Served .remoteHead := .inl rfl
  have hshown : Served .lastPersistedHead := .inr rfl
  cases type with
  | mmap =>
      exact .op trivial fun _ => .op trivial fun _ => .op (fun _ => rfl) fun _ =>
        Prog.Confined.served (confined_createMemoryRegion _ _)
  | transientMmap =>
      exact .op trivial fun _ => .op trivial fun _ => .op (fun _ => rfl) fun _ =>
        confined_transientMmap hbyte hmap sameFront_refl _ _
  | redo =>
      exact .op trivial fun _ => (Prog.Confined.loads _).bind fun _ => .op (fun _ => rfl) fun _ =>
        confined_applyRedo hbyte (fun s g => (sameRing_noteWrite s g).1) _ _ _
  | commit =>
      simp only [handleEntry, commitRbBatch_eq, Prog.bind_assoc]
      exact .op (fun _ => rfl) fun _ => (Prog.Confined.served aside_prepareCommit).bind fun _ =>
        (confined_ringBufferCommitDequeuedEntries hhead hshown (fun _ _ _ => rfl)
          sameFront_refl).bind fun _ =>
        ⟨trivial, fun _ => trivial⟩

theorem confined_processEntry (N : Nat) (held : Nat → Bool) :
    (processEntry N held).Confined Served SameFront .backEnd :=
  (confined_ringBufferDequeue (.inl rfl) (.inl rfl) sameFront_refl N).bind fun slot =>
    .op trivial fun type => confined_handleEntry held slot type

theorem confined_runConsumer (N : Nat) : (runConsumer N).Confined Served SameFront .backEnd := by
  refine .op trivial fun _ => .op trivial fun _ => ?_
  split
  · trivial
  · exact confined_processEntry N _

end Confined

variable {N : Nat} {dur : Bool} {I : List SessionRecord → Prop}
variable {α β Phase : Type} {S : System Actor Loc Val Log Phase} {Q : β → State → Prop} {w : State}

theorem ensures_aside {p : Code α} {f : α → Code β} (hp : p.Confined Aside SameRing .backEnd)
    (hw : RingInv N dur I w) (hrest : Resting N w)
    (h : ∀ x u, RingInv N dur I u → Resting N u → u.log.dequeued = w.log.dequeued →
      w.log.enqueued <+: u.log.enqueued → Ensures S (ringProtocol N dur I) .backEnd (f x) Q u) :
    Ensures S (ringProtocol N dur I) .backEnd (p >>= f) Q w := by
  have hc := Ensures.confined (S := S) (P := ringProtocol N dur I)
    (A := fun u => Resting N u ∧ u.log.dequeued = w.log.dequeued ∧
      w.log.enqueued <+: u.log.enqueued)
    hp (fun _ => ⟨rfl, rfl⟩) False.elim ⟨hrest, rfl, List.prefix_refl _⟩ ?_ ?_
  · exact Ensures.bind hw (hc.mono fun x u hu ⟨hr, hd, he⟩ => h x u hu hr hd he)
  · rintro u v ⟨hr, hd, he⟩ huv _
    refine ⟨hr.stable huv, ?_, he.trans huv.enqueued⟩
    rw [show v.log.toBackLog = _ from huv.log]
    exact hd
  · rintro u v hf hu ⟨hr, hd, he⟩
    refine ⟨allows_frame hu hr.durable hf, ?_, ?_, ?_⟩
    · rw [Resting, hf.log.2]; exact taken_frame hr hf
    · rw [hf.log.2]; exact hd
    · rw [hf.log.1]; exact he

theorem exists_next {u : State} (hi : RingInv N dur I u)
    (hlt : u.log.dequeued.length < u.log.visible) :
    ∃ e, u.log.enqueued[u.log.dequeued.length]? = some e ∧
    Holds u.cur (u.log.dequeued.length % N) e := by
  have hc := hi.counts
  have hvis := hc.visible_le.trans (hc.tail_le.trans hc.published_le)
  have he := List.getElem?_eq_getElem (hlt.trans_le hvis)
  exact ⟨_, he, hi.filled.holds (hc.base_le.trans hc.committed_le) he⟩

/-- The entry that has been taken but not yet read. -/
structure Reading (N : Nat) (e : Entry) (slot : Nat) (w : State) : Prop
    extends Taken N (w.log.dequeued.length + 1) (w.log.dequeued.length + 1) w where
  slot_eq : slot = w.log.dequeued.length % N
  entry : w.log.enqueued[w.log.dequeued.length]? = some e

section Reading

variable {e : Entry} {slot : Nat} {u v : State}

theorem Reading.stable (h : Reading N e slot u) (hr : BackRely u v) : Reading N e slot v := by
  refine ⟨?_, ?_, ?_⟩
  · rw [hr.log]; exact h.toTaken.stable hr
  · rw [hr.log]; exact h.slot_eq
  · obtain ⟨es, hes⟩ := hr.enqueued
    rw [hr.log, ← hes, List.getElem?_append_left (List.getElem?_eq_some_iff.mp h.entry).1]
    exact h.entry

theorem Reading.holds (h : Reading N e slot u) (hi : RingInv N dur I u) : Holds u.cur slot e :=
  h.slot_eq ▸ hi.filled.holds (hi.counts.base_le.trans hi.counts.committed_le) h.entry

theorem ensures_recordDequeued {f : Unit → Code β} (hread : Reading N e slot w)
    (h : ∀ u, RingInv N dur I u → Resting N u → u.log.dequeued = w.log.dequeued ++ [e] →
      Ensures S (ringProtocol N dur I) .backEnd (f ()) Q u) :
    Ensures S (ringProtocol N dur I) .backEnd (recordDequeued e >>= f) Q w := by
  refine Ensures.record fun u hr hu => ?_
  have hread := hread.stable hr
  obtain ⟨k, hk, hv, ht⟩ := hread.tail
  have hg := allows_dequeue hu hread.entry (by omega)
  refine ⟨hg, h _ hg.1 ⟨⟨?_, k, ?_, hv, ht⟩, hread.durable⟩ ?_⟩
  · rw [List.length_append]; exact hread.head
  · rw [List.length_append]; exact hk
  · exact congrArg (·.dequeued ++ [e]) hr.log

end Reading

theorem taken_storeTail {n m k : Nat} {u : State} (h : Taken N n n u) (hm : m ≤ k)
    (hk : k ≤ u.log.visible) : Taken N n m (u.store .globalLocalTail (k % N) id) := by
  refine ⟨⟨?_, k, hm, hk, World.store_cur_self u _ _ _⟩, h.durable⟩
  exact (World.store_cur_of_ne u _ _ _ _ (by decide)).trans h.head

theorem ensures_waitForEntry {f : Unit → Code β} {tail : Nat} (hw : RingInv N dur I w)
    (hrest : Resting N w) (htail : w.cur .globalLocalTail = tail)
    (h : ∀ u, RingInv N dur I u → Taken N w.log.dequeued.length (w.log.dequeued.length + 1) u →
      u.log.toBackLog = w.log.toBackLog → Ensures S (ringProtocol N dur I) .backEnd (f ()) Q u) :
    Ensures S (ringProtocol N dur I) .backEnd
      (waitForEntry (w.log.dequeued.length % N) tail >>= f) Q w := by
  by_cases he : w.log.dequeued.length % N = tail
  · rw [waitForEntry, if_pos he, Prog.bind_assoc]
    refine Ensures.await False.elim fun u hr hu _ hne => ?_
    rw [hu.shown] at hne ⊢
    have hlog := congrArg BackLog.dequeued hr.log
    have hlt : w.log.dequeued.length + 1 ≤ u.log.visible := by
      have hle := hu.counts.dequeued_le
      rw [hlog] at hle
      rcases hle.lt_or_eq with hlt | heq
      · exact hlt
      · rw [heq] at hne
        exact absurd rfl hne
    refine Ensures.store fun v hv hvi => ⟨allows_storeLocal hvi (.inr rfl), ?_⟩
    have ht := (Taken.stable hrest hr).stable hv
    refine h _ (allows_storeLocal hvi (.inr rfl)).1 (taken_storeTail ht hlt hv.visible) ?_
    exact (show v.log.toBackLog = _ from hv.log).trans hr.log
  · rw [waitForEntry, if_neg he]
    obtain ⟨k, hk, hv, ht⟩ := hrest.tail
    refine h w hw ⟨⟨hrest.head, k, ?_, hv, ht⟩, hrest.durable⟩ rfl
    rcases hk.lt_or_eq with hlt | heq
    · exact hlt
    · exact absurd (by rw [heq, ← ht, htail]) he

theorem ensures_ringBufferDequeue (hN : 1 < N) {f : Nat → Code β} (hrest : Resting N w)
    (h : ∀ e slot u, RingInv N dur I u → Reading N e slot u → u.log.dequeued = w.log.dequeued →
      Ensures S (ringProtocol N dur I) .backEnd (f slot) Q u) :
    Ensures S (ringProtocol N dur I) .backEnd (ringBufferDequeue N >>= f) Q w := by
  simp only [ringBufferDequeue, Prog.bind_assoc]
  refine Ensures.load fun u hr hu => ?_
  have hrest := hrest.stable hr
  have hlog : u.log.dequeued = w.log.dequeued := congrArg BackLog.dequeued hr.log
  rw [hrest.head]
  refine Ensures.load fun v hr hv => ?_
  have hrest := hrest.stable hr
  have hlog : v.log.dequeued = w.log.dequeued := (congrArg BackLog.dequeued hr.log).trans hlog
  rw [show u.log.dequeued = v.log.dequeued from (congrArg BackLog.dequeued hr.log).symm]
  refine ensures_waitForEntry hv hrest rfl fun x hx ht hbl => ?_
  have hdeq : x.log.dequeued = v.log.dequeued := congrArg BackLog.dequeued hbl
  rw [nextIndex_mod hN]
  refine Ensures.store fun y hr hy => ?_
  have ht := ht.stable hr
  have hdeq : y.log.dequeued = v.log.dequeued := (congrArg BackLog.dequeued hr.log).trans hdeq
  refine ⟨allows_storeLocal hy (.inl rfl), ?_⟩
  obtain ⟨k, hk, hkv, htl⟩ := ht.tail
  obtain ⟨e, he, -⟩ := exists_next hy (by rw [hdeq]; omega)
  have hread : Reading N e (v.log.dequeued.length % N)
      (y.store .globalLocalHead ((v.log.dequeued.length + 1) % N) id) := by
    refine ⟨⟨⟨?_, k, ?_, hkv, ?_⟩, ht.durable⟩, by rw [World.store_log, id, hdeq], he⟩
    · rw [World.store_cur_self, World.store_log, id, hdeq]
    · rw [World.store_log, id, hdeq]; exact hk
    · exact (World.store_cur_of_ne y _ _ _ _ (by decide)).trans htl
  exact h e _ _ (allows_storeLocal hy (.inl rfl)).1 hread (hdeq.trans hlog)

theorem ensures_ringBufferCommitDequeuedEntries (hN : 1 < N) {f : Unit → Code β}
    (hrest : Resting N w) (hb : AtBoundary w.log.dequeued w.log.dequeued.length)
    (h : ∀ u, RingInv N dur I u → Resting N u →
      Ensures S (ringProtocol N dur I) .backEnd (f ()) Q u) :
    Ensures S (ringProtocol N dur I) .backEnd (ringBufferCommitDequeuedEntries >>= f) Q w := by
  simp only [ringBufferCommitDequeuedEntries, Prog.bind_assoc]
  refine Ensures.load fun u hr hu => ?_
  have hrest := hrest.stable hr
  rw [← congrArg BackLog.dequeued hr.log] at hb
  rw [hrest.head]
  refine Ensures.storeRecord fun v hr hv => ?_
  have hrest := hrest.stable hr
  rw [← congrArg BackLog.dequeued hr.log] at hb ⊢
  refine ⟨allows_commit hv hrest.durable (hb.of_isPrefix hv.history.dequeued), ?_⟩
  have hc : Copies N v.log.dequeued.length v.log.dequeued.length
      (v.store .remoteHead (v.log.dequeued.length % N)
        (fun g => { g with committed := g.dequeued.length, committedBefore := g.committed })) :=
    hrest.toCopies.congr rfl rfl le_rfl
  generalize hx : v.store .remoteHead (v.log.dequeued.length % N) _ = x at hc
  have hlen : x.log.dequeued.length = v.log.dequeued.length := by rw [← hx]; rfl
  rw [← hlen] at hc
  refine Ensures.flush fun y hr hy => ⟨allows_flushHead hy, ?_⟩
  have hc := hc.stable hr
  rw [← congrArg BackLog.dequeued hr.log] at hc
  have hset : (y.flush .backEnd [.remoteHead]).Settled .backEnd .remoteHead :=
    World.settled_flush_of_mem (by simp)
  refine Ensures.fence fun z hr hz => ⟨allows_fence hz, ?_⟩
  have hc := (hc.congr (v := y.flush .backEnd [.remoteHead]) rfl rfl le_rfl).stable hr
  have hrest : Resting N (z.fence .backEnd) := by
    refine ⟨?_, World.durable_fence (hr.own.settled .remoteHead rfl hset)⟩
    rw [show (z.fence .backEnd).log = z.log from rfl, show z.log.dequeued = y.log.dequeued from
      congrArg BackLog.dequeued hr.log]
    exact hc.congr rfl rfl le_rfl
  refine Ensures.load fun u hr hu => ?_
  have hrest := hrest.stable hr
  refine Ensures.store fun v hr hv => ?_
  have hrest := hrest.stable hr
  have hcur : u.cur .remoteHead = v.log.committed % N :=
    (hr.own.cur .remoteHead rfl).symm.trans hv.head.cur
  have hg := allows_showHead hv (by omega) hrest.durable hcur
  refine ⟨hg, h _ hg.1 ⟨hrest.toCopies.congr ?_ ?_ le_rfl, hrest.durable⟩⟩
  · exact World.store_cur_of_ne v _ _ _ _ (by decide)
  · exact World.store_cur_of_ne v _ _ _ _ (by decide)

/-- The consumer reads the very entry that was enqueued, and moves the head only
at the end of a batch. -/
theorem ensures_processEntry {held : Nat → Bool} (hN : 1 < N) {f : Unit → Code β}
    (hrest : Resting N w)
    (h : ∀ u, RingInv N dur I u → Resting N u →
      Ensures S (ringProtocol N dur I) .backEnd (f ()) Q u) :
    Ensures S (ringProtocol N dur I) .backEnd (processEntry N held >>= f) Q w := by
  simp only [processEntry, Prog.bind_assoc]
  refine ensures_ringBufferDequeue hN hrest fun e slot u hu hread _ => ?_
  refine Ensures.load fun u hr hu => ?_
  have hread := hread.stable hr
  rw [(hread.holds hu).entryType]
  cases e with
  | mmap addr size =>
      simp only [Entry.entryType, handleEntry, Prog.bind_assoc]
      refine Ensures.load fun u hr hu => ?_
      have hread := hread.stable hr
      rw [(hread.holds hu).mmap.1]
      refine Ensures.load fun u hr hu => ?_
      have hread := hread.stable hr
      rw [(hread.holds hu).mmap.2]
      refine ensures_recordDequeued hread fun u hu hrest _ => ?_
      exact ensures_aside (confined_createMemoryRegion addr size) hu hrest
        fun _ u hu hrest _ _ => h u hu hrest
  | transientMmap addr size =>
      simp only [Entry.entryType, handleEntry, Prog.bind_assoc]
      refine Ensures.load fun u hr hu => ?_
      have hread := hread.stable hr
      rw [(hread.holds hu).transientMmap.1]
      refine Ensures.load fun u hr hu => ?_
      have hread := hread.stable hr
      rw [(hread.holds hu).transientMmap.2]
      refine ensures_recordDequeued hread fun u hu hrest _ => ?_
      rw [← Prog.bind_assoc]
      exact ensures_aside (confined_transientMmap aside_byte aside_addressMap sameRing_refl addr
        size) hu hrest fun _ u hu hrest _ _ => h u hu hrest
  | redo addr payload =>
      simp only [Entry.entryType, handleEntry, Prog.bind_assoc]
      refine Ensures.load fun u hr hu => ?_
      have hread := hread.stable hr
      rw [(hread.holds hu).redo.1]
      refine Ensures.loads (R := fun k v => v = payload k)
        (fun k v hr hv => ((hread.stable hr).holds hv).redo.2 k) hu fun p u hp hr hu => ?_
      obtain rfl : p = payload := funext hp
      refine ensures_recordDequeued (hread.stable hr) fun u hu hrest _ => ?_
      exact ensures_aside (confined_applyRedo aside_byte sameRing_noteWrite held addr p) hu hrest
        fun _ u hu hrest _ _ => h u hu hrest
  | commit =>
      simp only [Entry.entryType, handleEntry, Prog.bind_assoc, commitRbBatch_eq]
      refine ensures_recordDequeued hread fun u hu hrest hdeq => ?_
      refine ensures_aside aside_prepareCommit hu hrest fun _ v hv hrest hdeq' _ => ?_
      have hb : AtBoundary v.log.dequeued v.log.dequeued.length := by
        rw [hdeq', hdeq]; exact atBoundary_concat _
      refine ensures_ringBufferCommitDequeuedEntries hN hrest hb fun u hu hrest => ?_
      refine Ensures.fence fun u hr hu => ⟨allows_fence hu, ?_⟩
      have hrest := hrest.stable hr
      exact h _ (allows_fence hu).1 ⟨hrest.toCopies.congr rfl rfl le_rfl,
        World.durable_fence hrest.durable.settled⟩

theorem ensures_runConsumer (hN : 1 < N) (hrest : Resting N w) :
    Ensures S (ringProtocol N dur I) .backEnd (runConsumer N) (fun _ u => Resting N u) w := by
  simp only [runConsumer]
  refine Ensures.load fun u hr hu => ?_
  have hrest := hrest.stable hr
  refine Ensures.load fun u hr hu => ?_
  have hrest := hrest.stable hr
  split
  · exact Ensures.pure fun v hr _ => hrest.stable hr
  · rw [← Prog.bind_ret (processEntry N forked)]
    exact ensures_processEntry hN hrest fun u hu hrest => Ensures.ret fun v hr _ => hrest.stable hr

end Mangosteen.Consumer
