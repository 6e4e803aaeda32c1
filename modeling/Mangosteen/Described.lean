import Mangosteen.Library.RedoLog
import Mangosteen.Metadata
import Mangosteen.Relaunch

namespace Mangosteen.Described

open PersistentMemory Prog Memory RingBuffer RegionTable BackEnd Session Slots Channel
  Dequeue Consumer Delivery Isolation Metadata

variable {N : Nat} {u v w : State}

/-- Some redo entry wrote the byte. -/
def Written (ws : List (Cell × UInt8)) (c : Cell) : Prop := ∃ x ∈ ws, x.1 = c

theorem Written.append {ws xs : List (Cell × UInt8)} {c : Cell} (h : Written ws c) :
    Written (ws ++ xs) c := by
  obtain ⟨x, hx, hc⟩ := h
  exact ⟨x, List.mem_append_left _ hx, hc⟩

theorem Written.of_take {ws : List (Cell × UInt8)} {k : Nat} {c : Cell}
    (h : Written (ws.take k) c) : Written ws c := by
  obtain ⟨x, hx, hc⟩ := h
  exact ⟨x, List.mem_of_mem_take hx, hc⟩

/-- The byte that the writes have left. The memory before them does not matter
where they have written. -/
def lastWritten (ws : List (Cell × UInt8)) : Cell → UInt8 := RedoLog.apply ws (fun _ => 0)

/-- What a record of the table holds. -/
structure IsRecord (mem : (l : Loc) → Val l) (i : Nat) (r : Nat × Nat) : Prop where
  address : mem (.recordAddress i) = r.1
  size : mem (.recordSize i) = r.2
  fileIndex : mem (.recordFileIndex i) = i
  commitIndex : mem (.recordCommitIndex i) = 1

theorem IsRecord.congr {mem mem' : (l : Loc) → Val l} {i : Nat} {r : Nat × Nat}
    (h : IsRecord mem i r) (hl : ∀ l ∈ recordLocs i, mem' l = mem l) : IsRecord mem' i r := by
  refine ⟨?_, ?_, ?_, ?_⟩
  · rw [hl _ (by simp [recordLocs])]; exact h.address
  · rw [hl _ (by simp [recordLocs])]; exact h.size
  · rw [hl _ (by simp [recordLocs])]; exact h.fileIndex
  · rw [hl _ (by simp [recordLocs])]; exact h.commitIndex

/-- What the back end has stored for the table and for the files: region records
and the bytes of redo entries. -/
inductive Noted (g : Log) : Loc → Prop
  | byte {i o : Nat} (h : Written g.writes (.file i o)) : Noted g (.byte (.file i o))
  | record {i : Nat} {l : Loc} (hi : i < g.regions.length) (hl : l ∈ recordLocs i) : Noted g l

/-- Memory shows what has been noted, and every file that is mapped or written
has been created. -/
structure Shown (w : State) : Prop where
  bytes : ∀ i o, Written w.log.writes (.file i o) →
    w.cur (.byte (.file i o)) = lastWritten w.log.writes (.file i o)
  created : ∀ i o, Written w.log.writes (.file i o) → i < w.cur .sequenceNumber
  mapped : ∀ m ∈ w.cur .addressMap, ∀ i, m.backing = .file i → i < w.cur .sequenceNumber
  counted : w.cur .uncommitedNumberOfEntries = w.log.regions.length
  commitIndex : w.cur .tableCommitIndex = 0
  records : ∀ i r, w.log.regions[i]? = some r → IsRecord w.cur i r

/-- All that the first `k` writes and the first `n` records stand for is durable:
of a byte that is written again later, one of the later values may be. -/
structure Describes (k n : Nat) (w : State) : Prop where
  writes_le : k ≤ w.log.writes.length
  regions_le : n ≤ w.log.regions.length
  bytes : ∀ i o, Written (w.log.writes.take k) (.file i o) →
    RedoLog.Since w.log.writes (fun _ => 0) k (.file i o) (w.per (.byte (.file i o))) ∧
    ∀ v, w.pending .backEnd (.byte (.file i o)) = some v →
      RedoLog.Since w.log.writes (fun _ => 0) k (.file i o) v
  records : ∀ i l, i < n → l ∈ recordLocs i →
    w.per l = w.cur l ∧ (w.pending .backEnd l = none ∨ w.pending .backEnd l = some (w.cur l))

/-- Everything noted will be durable after the next fence, up to the locations
that are still being written. -/
def SettledBut (dirty : List Loc) (w : State) : Prop :=
  ∀ l, Noted w.log l → l ∉ dirty → w.Settled .backEnd l

/-- The pair last stored describes all that has been noted. -/
structure Ready (w : State) : Prop where
  writes : (latest w.log).writes = w.log.writes.length
  regions : (latest w.log).metadata.numberOfRegions = w.log.regions.length
  settled : SettledBut [] w

def DescribesCommit (r : CommitRecord) (w : State) : Prop :=
  Describes r.writes r.metadata.numberOfRegions w

def redos (es : List Entry) : Nat := es.countP (fun e => e.entryType = .redo)

/-- A commit record covers the writes of the redo entries before its head. -/
structure Covers (ds : List Entry) (r : CommitRecord) : Prop where
  dequeued : r.dequeued ≤ ds.length
  writes : r.writes = payloadSize * redos (ds.take r.dequeued)

theorem Covers.append {ds es : List Entry} {r : CommitRecord} (h : Covers ds r) :
    Covers (ds ++ es) r := by
  refine ⟨h.dequeued.trans (by simp), ?_⟩
  rw [List.take_append_of_le_length h.dequeued]
  exact h.writes

structure DescribedInv (w : State) : Prop where
  quiet : BackQuiet w
  covers : ∀ r ∈ w.log.commits, Covers w.log.dequeued r
  shown : Shown w
  stored : w.cur .commitMetadata = (latest w.log).metadata
  durable : w.per .commitMetadata = (latest w.log).metadata ∧ DescribesCommit (latest w.log) w ∨
    w.per .commitMetadata = (previous w.log).metadata ∧ DescribesCommit (previous w.log) w ∧ Ready w
  pending : w.pending .backEnd .commitMetadata = none ∨
    w.pending .backEnd .commitMetadata = some (latest w.log).metadata ∧ Ready w

def describedProtocol : Protocol Actor Loc Val Log where
  inv := DescribedInv
  rely a u v := match a with
    | .frontEnd => True
    | .backEnd => Undisturbed (Owned .backEnd) .backEnd u v ∧ SameBack u.log v.log ∧ ∀ k n,
        Describes k n u → Describes k n v
  live := False
  rely_refl a w := by
    cases a with
    | frontEnd => trivial
    | backEnd => exact ⟨.refl _ _ _, .refl _, fun _ _ h => h⟩
  rely_trans a u v w h h' := by
    cases a with
    | frontEnd => trivial
    | backEnd =>
        exact ⟨h.1.trans h'.1, ⟨h'.2.1.1.trans h.2.1.1, h'.2.1.2.trans h.2.1.2⟩,
          fun k n hd => h'.2.2 k n (h.2.2 k n hd)⟩

theorem allows_backEnd (h : DescribedInv v) : describedProtocol.Allows .backEnd u v :=
  Protocol.allows_of_other Actor.eq_frontEnd h trivial

theorem owned_record {i : Nat} {l : Loc} (hl : l ∈ recordLocs i) : Owned .backEnd l := by
  simp only [recordLocs, List.mem_cons, List.not_mem_nil, or_false] at hl
  rcases hl with rfl | rfl | rfl | rfl <;> rfl

theorem Noted.owned {g : Log} {l : Loc} (h : Noted g l) : Owned .backEnd l := by
  cases h with
  | byte _ => rfl
  | record _ hl => exact owned_record hl

section Congr

variable (hn : ∀ l, Noted u.log l → Untouched u v l) (hw : v.log.writes = u.log.writes)
  (hr : v.log.regions = u.log.regions)
include hn hw hr

theorem Shown.congr (h : Shown u)
    (hun : v.cur .uncommitedNumberOfEntries = u.cur .uncommitedNumberOfEntries)
    (hti : v.cur .tableCommitIndex = u.cur .tableCommitIndex)
    (hseq : u.cur .sequenceNumber ≤ v.cur .sequenceNumber)
    (hmap : ∀ m ∈ v.cur .addressMap, ∀ i, m.backing = .file i → i < v.cur .sequenceNumber) :
    Shown v := by
  refine ⟨fun i o hi => ?_, fun i o hi => ?_, hmap, ?_, hti.trans h.commitIndex, fun i r hi => ?_⟩
  · rw [hw] at hi ⊢
    rw [(hn _ (.byte hi)).cur]
    exact h.bytes i o hi
  · rw [hw] at hi
    exact (h.created i o hi).trans_le hseq
  · rw [hun, hr]; exact h.counted
  · rw [hr] at hi
    exact (h.records i r hi).congr fun l hl =>
      (hn l (.record (List.getElem?_eq_some_iff.mp hi).1 hl)).cur

theorem Describes.congr {k n : Nat} (h : Describes k n u) : Describes k n v := by
  refine ⟨by rw [hw]; exact h.writes_le, by rw [hr]; exact h.regions_le, fun i o hi => ?_,
    fun i l hi hmem => ?_⟩
  · rw [hw] at hi ⊢
    obtain ⟨-, hp, hpend⟩ := hn _ (.byte hi.of_take)
    rw [hp, hpend]
    exact h.bytes i o hi
  · obtain ⟨hc, hp, hpend⟩ := hn _ (.record (hi.trans_le h.regions_le) hmem)
    rw [hc, hp, hpend]
    exact h.records i l hi hmem

theorem SettledBut.congr {dirty : List Loc} (h : SettledBut dirty u) : SettledBut dirty v := by
  intro l hnote hd
  have hnote : Noted u.log l := by
    cases hnote with
    | byte hi => exact .byte (by rwa [hw] at hi)
    | record hi hmem => exact .record (by rwa [hr] at hi) hmem
  obtain ⟨hc, hp, hpend⟩ := hn l hnote
  rw [World.Settled, hc, hp, hpend]
  exact h l hnote hd

end Congr

theorem Ready.congr (hn : ∀ l, Noted u.log l → Untouched u v l)
    (hl : v.log.toImageLog = u.log.toImageLog) (h : Ready u) : Ready v := by
  have hlat : latest v.log = latest u.log := by rw [latest, hl, latest]
  exact ⟨by rw [hlat, hl]; exact h.writes, by rw [hlat, hl]; exact h.regions,
    h.settled.congr hn (by rw [hl]) (by rw [hl])⟩

theorem DescribedInv.congr (hn : ∀ l, Noted u.log l → Untouched u v l)
    (hl : v.log.toImageLog = u.log.toImageLog)
    (h : DescribedInv u) (hq : BackQuiet v) (hd : u.log.dequeued <+: v.log.dequeued)
    (hm : Untouched u v .commitMetadata) (hshown : Shown v) : DescribedInv v := by
  have hlat : latest v.log = latest u.log := by rw [latest, hl, latest]
  have hprev : previous v.log = previous u.log := by rw [previous, hl, previous]
  refine ⟨hq, ?_, hshown, ?_, ?_, ?_⟩
  · obtain ⟨es, hes⟩ := hd
    rw [hl, ← hes]
    exact fun r hr => (h.covers r hr).append
  · rw [hm.cur, hlat]; exact h.stored
  · rw [hm.per, hlat, hprev]
    have hdes : ∀ r, DescribesCommit r u → DescribesCommit r v :=
      fun r hd => hd.congr hn (by rw [hl]) (by rw [hl])
    exact h.durable.imp (fun hd => ⟨hd.1, hdes _ hd.2⟩) fun hd =>
      ⟨hd.1, hdes _ hd.2.1, hd.2.2.congr hn hl⟩
  · rw [hm.pending, hlat]
    exact h.pending.imp_right fun hd => ⟨hd.1, hd.2.congr hn hl⟩

theorem allows_frontEnd (hi : DescribedInv u) (hf : Frame FrontSide SameBack .frontEnd u v) :
    describedProtocol.Allows .frontEnd u v := by
  have hun : ∀ l, Owned .backEnd l → Untouched u v l := fun l hl => hi.quiet.untouched hf hl
  have hn : ∀ l, Noted u.log l → Untouched u v l := fun l hl => hun l hl.owned
  have hq : BackQuiet v := fun l hl => by rw [(hun l hl).pending]; exact hi.quiet l hl
  have hshown : Shown v := by
    refine hi.shown.congr hn (by rw [hf.log.2]) (by rw [hf.log.2])
      (hun .uncommitedNumberOfEntries rfl).cur (hun .tableCommitIndex rfl).cur
      (hun .sequenceNumber rfl).cur.ge ?_
    rw [(hun .addressMap rfl).cur, (hun .sequenceNumber rfl).cur]
    exact hi.shown.mapped
  refine Protocol.allows_of_other Actor.eq_backEnd
    (hi.congr hn hf.log.2 hq (by rw [hf.log.1]) (hun _ rfl) hshown) ?_
  exact ⟨hi.quiet.undisturbed hf, hf.log,
    fun k n hd => hd.congr hn (by rw [hf.log.2]) (by rw [hf.log.2])⟩

section Durability

variable {k n : Nat}

theorem Shown.since (h : Shown w) (hk : k ≤ w.log.writes.length) {i o : Nat}
    (hw : Written (w.log.writes.take k) (.file i o)) :
    RedoLog.Since w.log.writes (fun _ => 0) k (.file i o) (w.cur (.byte (.file i o))) := by
  rw [h.bytes i o hw.of_take]
  exact .now hk _ _

theorem Describes.fence (h : Describes k n w) : Describes k n (w.fence .backEnd) := by
  refine ⟨h.writes_le, h.regions_le, fun i o hw => ⟨?_, fun v hv => ?_⟩,
    fun i l hi hl => ⟨?_, .inl ?_⟩⟩
  · obtain ⟨hper, hpend⟩ := h.bytes i o hw
    cases hp : w.pending .backEnd (.byte (.file i o)) with
    | none => rw [(World.fence_of_none w .backEnd .backEnd _ hp).1]; exact hper
    | some v =>
        have : (w.fence .backEnd).per (.byte (.file i o)) = v := by simp [World.fence, hp]
        rw [this]
        exact hpend v hp
  · rw [World.fence_pending_self] at hv
    cases hv
  · obtain ⟨hper, hpend⟩ := h.records i l hi hl
    rcases hpend with hp | hp
    · rw [(World.fence_of_none w .backEnd .backEnd l hp).1]; exact hper
    · simp [World.fence, hp]
  · exact World.fence_pending_self w .backEnd l

theorem Describes.writeBack (h : Describes k n w) (hs : Shown w) (m : Loc) :
    Describes k n (w.writeBack m) := by
  refine ⟨h.writes_le, h.regions_le, fun i o hw => ?_, fun i l hi hl => ?_⟩
  · by_cases hm : Loc.byte (.file i o) = m
    · subst hm
      rw [World.writeBack_per_self, World.writeBack_pending_self]
      exact ⟨hs.since h.writes_le hw, fun v hv => by cases hv⟩
    · obtain ⟨hp, hn⟩ := World.writeBack_of_ne w .backEnd _ m hm
      rw [hp, hn]
      exact h.bytes i o hw
  · by_cases hm : l = m
    · subst hm
      rw [World.writeBack_per_self, World.writeBack_pending_self]
      exact ⟨rfl, .inl rfl⟩
    · obtain ⟨hp, hn⟩ := World.writeBack_of_ne w .backEnd _ m hm
      rw [hp, hn]
      exact h.records i l hi hl

theorem Describes.flush (h : Describes k n w) (hs : Shown w) (ls : List Loc) :
    Describes k n (w.flush .backEnd ls) := by
  refine ⟨h.writes_le, h.regions_le, fun i o hw => ⟨(h.bytes i o hw).1, fun v hv => ?_⟩,
    fun i l hi hl =>
    ⟨(h.records i l hi hl).1, ?_⟩⟩
  · by_cases hm : Loc.byte (.file i o) ∈ ls
    · rw [World.flush_pending_of_mem w _ _ _ hm] at hv
      rw [← Option.some.inj hv]
      exact hs.since h.writes_le hw
    · rw [World.flush_pending_of_not_mem w _ _ _ _ hm] at hv
      exact (h.bytes i o hw).2 v hv
  · by_cases hm : l ∈ ls
    · exact .inr (World.flush_pending_of_mem w _ _ _ hm)
    · rw [World.flush_pending_of_not_mem w _ _ _ _ hm]
      exact (h.records i l hi hl).2

theorem describes_of_durable (hs : Shown w) (hk : k ≤ w.log.writes.length)
    (hn : n ≤ w.log.regions.length) (hd : ∀ l, Noted w.log l → w.per l = w.cur l ∧
      (w.pending .backEnd l = none ∨ w.pending .backEnd l = some (w.cur l))) : Describes k n w := by
  refine ⟨hk, hn, fun i o hw => ?_, fun i l hi hl => hd l (.record (hi.trans_le hn) hl)⟩
  obtain ⟨hp, hpend⟩ := hd _ (.byte hw.of_take)
  refine ⟨by rw [hp]; exact hs.since hk hw, fun v hv => ?_⟩
  rcases hpend with hpend | hpend
  · rw [hpend] at hv; cases hv
  · rw [hpend] at hv
    rw [← Option.some.inj hv]
    exact hs.since hk hw

theorem SettledBut.fence {dirty : List Loc} (h : SettledBut dirty w) :
    SettledBut dirty (w.fence .backEnd) :=
  fun l hn hd => (World.durable_fence (h l hn hd)).settled

theorem SettledBut.writeBack {dirty : List Loc} (h : SettledBut dirty w) (m : Loc) :
    SettledBut dirty (w.writeBack m) :=
  fun l hn hd => World.settled_writeBack m (h l hn hd)

theorem SettledBut.flush {dirty : List Loc} (h : SettledBut dirty w) (ls : List Loc) :
    SettledBut dirty (w.flush .backEnd ls) :=
  fun l hn hd => World.settled_flush (h l hn hd)

theorem SettledBut.flush_dirty {dirty : List Loc} (h : SettledBut dirty w) :
    SettledBut [] (w.flush .backEnd dirty) := by
  intro l hn _
  by_cases hd : l ∈ dirty
  · exact World.settled_flush_of_mem hd
  · exact World.settled_flush (h l hn hd)

theorem Ready.describes_fence (h : Ready w) (hs : Shown w) :
    DescribesCommit (latest w.log) (w.fence .backEnd) := by
  have hs : Shown (w.fence .backEnd) :=
    ⟨hs.bytes, hs.created, hs.mapped, hs.counted, hs.commitIndex, hs.records⟩
  refine describes_of_durable hs h.writes.le h.regions.le fun l hn => ?_
  have hd := World.durable_fence (h.settled l hn (by simp))
  exact ⟨hd.2, .inl hd.1⟩

end Durability

theorem Ready.fence (h : Ready w) : Ready (w.fence .backEnd) :=
  ⟨h.writes, h.regions, h.settled.fence⟩

theorem Shown.of_cur (h : Shown u) (hc : v.cur = u.cur) (hl : v.log = u.log) : Shown v := by
  obtain ⟨cur, per, pending, log⟩ := v
  obtain rfl : cur = u.cur := hc
  obtain rfl : log = u.log := hl
  exact ⟨h.bytes, h.created, h.mapped, h.counted, h.commitIndex, h.records⟩

theorem DescribedInv.fence (h : DescribedInv w) : DescribedInv (w.fence .backEnd) := by
  refine ⟨h.quiet.fence, h.covers, h.shown.of_cur rfl rfl, h.stored, ?_,
    .inl (World.fence_pending_self w _ _)⟩
  rcases h.pending with hp | ⟨hp, hready⟩
  · rw [(World.fence_of_none w .backEnd .backEnd _ hp).1]
    exact h.durable.imp (fun hd => ⟨hd.1, hd.2.fence⟩) fun hd => ⟨hd.1, hd.2.1.fence, hd.2.2.fence⟩
  · exact .inl ⟨by simp [World.fence, hp], hready.describes_fence h.shown⟩

/-- The write-backs that keep the order: the cache does not write `commit_metadata`
back while a record or a byte that was flushed before is still on its way. That
everything it describes has been flushed with its last value by then, and that
the fence after its own flush makes all of this durable with it, is left to show
of `commit_rb_batch`. -/
def admitsMetadata (w : State) : Label Actor Loc Val Log → Prop
  | .writeBack .commitMetadata => w.per .commitMetadata = w.cur .commitMetadata ∨
      (∀ i l, l ∈ recordLocs i → w.pending .backEnd l = none ∨ w.per l = w.cur l) ∧
      ∀ i o, w.pending .backEnd (.byte (.file i o)) = none ∨
      w.per (.byte (.file i o)) = w.cur (.byte (.file i o))
  | _ => True

theorem DescribedInv.writeBack (h : DescribedInv w) {l : Loc}
    (ha : admitsMetadata w (.writeBack l)) : DescribedInv (w.writeBack l) := by
  have hshown : Shown (w.writeBack l) := h.shown.of_cur rfl rfl
  have hready : Ready w → Ready (w.writeBack l) :=
    fun hr => ⟨hr.writes, hr.regions, hr.settled.writeBack l⟩
  by_cases hl : l = .commitMetadata
  · subst hl
    refine ⟨h.quiet.writeBack _, h.covers, hshown, h.stored, ?_,
      .inl (World.writeBack_pending_self w _ _)⟩
    rw [World.writeBack_per_self]
    rcases h.durable with ⟨-, hd⟩ | ⟨hp, hd, hr⟩
    · exact .inl ⟨h.stored, hd.writeBack h.shown _⟩
    · rcases ha with heq | ⟨hrec, hbyte⟩
      · exact .inr ⟨heq.symm.trans hp, hd.writeBack h.shown _, hready hr⟩
      · -- everything described is durable by now
        refine .inl ⟨h.stored, Describes.writeBack ?_ h.shown _⟩
        refine describes_of_durable h.shown hr.writes.le hr.regions.le fun l hn => ?_
        have hdone : w.pending .backEnd l = none ∨ w.per l = w.cur l := by
          cases hn with
          | byte hw => exact hbyte _ _
          | record hi hl => exact hrec _ _ hl
        rcases hr.settled l hn (by simp) with hs | hs
        · rcases hdone with hd | hd
          · rw [hd] at hs; cases hs
          · exact ⟨hd, .inr hs⟩
        · exact ⟨hs.2, .inl hs.1⟩
  · obtain ⟨hp, hn⟩ := World.writeBack_of_ne w .backEnd .commitMetadata l (Ne.symm hl)
    refine ⟨h.quiet.writeBack _, h.covers, hshown, h.stored, ?_, ?_⟩
    · rw [hp]
      exact h.durable.imp (fun hd => ⟨hd.1, hd.2.writeBack h.shown l⟩)
        fun hd => ⟨hd.1, hd.2.1.writeBack h.shown l, hready hd.2.2⟩
    · rw [hn]
      exact h.pending.imp_right fun hd => ⟨hd.1, hready hd.2⟩

/-- Between two commits, with some locations still being written. -/
structure Tidy (dirty : List Loc) (w : State) : Prop where
  metadata : w.Durable .backEnd .commitMetadata
  described : DescribesCommit (latest w.log) w
  settled : SettledBut dirty w

theorem Tidy.stable {dirty : List Loc} (h : Tidy dirty u)
    (hr : describedProtocol.rely .backEnd u v) : Tidy dirty v := by
  obtain ⟨hu, hl, hd⟩ := hr
  refine ⟨hu.durable _ rfl h.metadata, ?_, fun l hn hdirty => ?_⟩
  · rw [latest, hl.2]; exact hd _ _ h.described
  · have hn : Noted u.log l := by
      cases hn with
      | byte hw => exact .byte (by rwa [hl.2] at hw)
      | record hi hmem => exact .record (by rwa [hl.2] at hi) hmem
    exact hu.settled l hn.owned (h.settled l hn hdirty)

theorem Tidy.inv {dirty : List Loc} (h : Tidy dirty w) (hq : BackQuiet w)
    (hc : ∀ r ∈ w.log.commits, Covers w.log.dequeued r)
    (hs : Shown w) (hst : w.cur .commitMetadata = (latest w.log).metadata) : DescribedInv w :=
  ⟨hq, hc, hs, hst, .inl ⟨h.metadata.2.trans hst, h.described⟩, .inl h.metadata.1⟩

theorem Tidy.fence {dirty : List Loc} (ht : Tidy dirty w) : Tidy dirty (w.fence .backEnd) :=
  ⟨World.durable_fence ht.metadata.settled, Describes.fence ht.described, ht.settled.fence⟩

theorem Ready.stable (h : Ready u) (hr : describedProtocol.rely .backEnd u v) : Ready v := by
  have hlat : latest v.log = latest u.log := by rw [latest, hr.2.1.2, latest]
  refine ⟨by rw [hlat, hr.2.1.2]; exact h.writes, by rw [hlat, hr.2.1.2]; exact h.regions,
    fun l hn _ => ?_⟩
  have hn : Noted u.log l := by
    cases hn with
    | byte hi => exact .byte (by rwa [hr.2.1.2] at hi)
    | record hi hmem => exact .record (by rwa [hr.2.1.2] at hi) hmem
  exact hr.1.settled l hn.owned (h.settled l hn (by simp))

end Mangosteen.Described
