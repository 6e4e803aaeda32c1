import Mangosteen.Isolation
import Mangosteen.Restart

namespace Mangosteen.Metadata

open PersistentMemory Prog Memory RingBuffer RegionTable BackEnd Session Slots Channel
  Dequeue Consumer Delivery Isolation Restart

/-- The pair that the ring is created with, as if it were a commit of nothing. -/
def creation : CommitRecord := ⟨⟨0, 0⟩, 0, 0⟩

def latest (g : Log) : CommitRecord := g.commits.headD creation

def previous (g : Log) : CommitRecord := g.commits.tail.headD creation

def isMmap : Entry → Bool
  | .mmap _ _ => true
  | _ => false

/-- The regions that entries add to the table. -/
def mmaps (es : List Entry) : Nat := es.countP isMmap

variable (N : Nat) (regions : List (Nat × Nat))

/-- The pair of a commit says how many entries were taken and how many regions
they had brought the table to. -/
structure Counted (ds : List Entry) (r : CommitRecord) : Prop where
  dequeued : r.dequeued ≤ ds.length
  head : r.metadata.ringBufferHead = r.dequeued % N
  regions : r.metadata.numberOfRegions = regions.length + mmaps (ds.take r.dequeued)

theorem Counted.append {ds es : List Entry} {r : CommitRecord} (h : Counted N regions ds r) :
    Counted N regions (ds ++ es) r := by
  refine ⟨h.dequeued.trans (by simp), h.head, ?_⟩
  rw [List.take_append_of_le_length h.dequeued]
  exact h.regions

/-- Where the two persistent copies of the head stand: `remote_head` is stored
only when `commit_metadata` is durable, and before it is stored it is still the
one of the commit before. -/
structure MetadataInv (w : State) : Prop where
  quiet : BackQuiet w
  metadata : Tracks w .backEnd .commitMetadata (latest w.log).metadata (previous w.log).metadata
  head : w.Durable .backEnd .commitMetadata ∧
    Tracks w .backEnd .remoteHead (latest w.log).metadata.ringBufferHead
      (previous w.log).metadata.ringBufferHead ∨
    w.Durable .backEnd .remoteHead ∧ w.cur .remoteHead = (previous w.log).metadata.ringBufferHead
  counted : ∀ r ∈ w.log.commits, Counted N regions w.log.dequeued r
  sorted : w.log.commits.Pairwise (fun r s => s.dequeued ≤ r.dequeued)

def metadataProtocol : Protocol Actor Loc Val Log where
  inv := MetadataInv N regions
  rely := SideRely
  live := False
  rely_refl := SideRely.refl
  rely_trans := SideRely.trans

variable {N regions} {u v w : State}

theorem allows_backEnd (h : MetadataInv N regions v) :
    (metadataProtocol N regions).Allows .backEnd u v :=
  Protocol.allows_of_other Actor.eq_frontEnd h trivial

theorem MetadataInv.congr (h : MetadataInv N regions u) (hq : BackQuiet v)
    (hm : Untouched u v .commitMetadata) (hh : Untouched u v .remoteHead)
    (hc : v.log.commits = u.log.commits)
    (hd : u.log.dequeued <+: v.log.dequeued) : MetadataInv N regions v := by
  have hl : latest v.log = latest u.log := by rw [latest, hc, latest]
  have hp : previous v.log = previous u.log := by rw [previous, hc, previous]
  refine ⟨hq, ?_, ?_, ?_, hc ▸ h.sorted⟩
  · rw [hl, hp]; exact h.metadata.untouched hm
  · rw [hl, hp]
    refine h.head.imp (fun hd => ⟨hm.durable hd.1, hd.2.untouched hh⟩) fun hd =>
      ⟨hh.durable hd.1, hh.cur.trans hd.2⟩
  · obtain ⟨es, hes⟩ := hd
    rw [hc, ← hes]
    exact fun r hr => (h.counted r hr).append

theorem allows_frontEnd (hi : MetadataInv N regions u)
    (hf : Frame FrontSide SameBack .frontEnd u v) :
    (metadataProtocol N regions).Allows .frontEnd u v := by
  have hun : ∀ l, Owned .backEnd l → Untouched u v l := fun l hl => hi.quiet.untouched hf hl
  refine Protocol.allows_of_other Actor.eq_backEnd ?_ ⟨hi.quiet.undisturbed hf, hf.log⟩
  refine hi.congr (fun l hl => ?_) (hun _ rfl) (hun _ rfl) ?_ ?_
  · rw [(hun l hl).pending]; exact hi.quiet l hl
  · rw [hf.log.2]
  · rw [hf.log.1]

theorem MetadataInv.writeBack (h : MetadataInv N regions w) (l : Loc) :
    MetadataInv N regions (w.writeBack l) := by
  refine ⟨h.quiet.writeBack l, h.metadata.writeBack l, ?_, h.counted, h.sorted⟩
  exact h.head.imp (fun hd => ⟨World.durable_writeBack l hd.1, hd.2.writeBack l⟩)
    fun hd => ⟨World.durable_writeBack l hd.1, hd.2⟩

/-- Both copies of the head are durable, with so many entries taken and so many
records in the table. -/
structure Held (N h k m : Nat) (w : State) : Prop where
  metadata : w.Durable .backEnd .commitMetadata
  durable : w.Durable .backEnd .remoteHead
  head : w.cur .remoteHead = h
  taken : w.cur .globalLocalHead = k % N
  counted : w.cur .uncommitedNumberOfEntries = m

/-- Between two entries. -/
def Steady (N : Nat) (regions : List (Nat × Nat)) (w : State) : Prop :=
  Held N (latest w.log).metadata.ringBufferHead w.log.dequeued.length
  (regions.length + mmaps w.log.dequeued) w

variable {h k m : Nat}

theorem Held.stable (hs : Held N h k m u) (hr : (metadataProtocol N regions).rely .backEnd u v) :
    Held N h k m v := by
  obtain ⟨hu, -⟩ := hr
  refine ⟨hu.durable _ rfl hs.metadata, hu.durable _ rfl hs.durable, ?_, ?_, ?_⟩
  · rw [hu.cur .remoteHead rfl]; exact hs.head
  · rw [hu.cur .globalLocalHead rfl]; exact hs.taken
  · rw [hu.cur .uncommitedNumberOfEntries rfl]; exact hs.counted

theorem Steady.stable (hs : Steady N regions u)
    (hr : (metadataProtocol N regions).rely .backEnd u v) : Steady N regions v := by
  rw [Steady, latest, hr.2.1, hr.2.2]
  exact Held.stable hs hr

theorem Held.untouched (hs : Held N h k m u) (hm : Untouched u v .commitMetadata)
    (hh : Untouched u v .remoteHead) (ht : v.cur .globalLocalHead = u.cur .globalLocalHead)
    (hc : v.cur .uncommitedNumberOfEntries = u.cur .uncommitedNumberOfEntries) : Held N h k m v :=
  ⟨hm.durable hs.metadata, hh.durable hs.durable, hh.cur.trans hs.head,
    ht.trans hs.taken, hc.trans hs.counted⟩

/-- What the back end touches between two commits. -/
def Beside (l : Loc) : Prop :=
  Owned .backEnd l ∧ l ≠ .commitMetadata ∧ l ≠ .remoteHead ∧ l ≠ .globalLocalHead ∧
  l ≠ .uncommitedNumberOfEntries

def SameCommits (g g' : Log) : Prop := g'.toBackLog = g.toBackLog ∧ g'.commits = g.commits

theorem SameCommits.refl (g : Log) : SameCommits g g := ⟨rfl, rfl⟩

theorem untouched_frame (hs : Held N h k m u) (hf : Frame Beside SameCommits .backEnd u v) :
    Untouched u v .commitMetadata ∧ Untouched u v .remoteHead := by
  have hb : ∀ l, ¬ Beside l → u.pending .backEnd l = none → Untouched u v l := fun l hl hn =>
    ⟨hf.cur l hl, hf.per l hl hn, fun b => hf.pending l b hl hn⟩
  exact ⟨hb _ (by simp [Beside]) hs.metadata.1, hb _ (by simp [Beside]) hs.durable.1⟩

theorem MetadataInv.frame (hi : MetadataInv N regions u) (hs : Held N h k m u)
    (hf : Frame Beside SameCommits .backEnd u v) : MetadataInv N regions v := by
  obtain ⟨hm, hh⟩ := untouched_frame hs hf
  exact hi.congr (hi.quiet.frame hf) hm hh hf.log.2 (by rw [hf.log.1])

theorem Held.frame (hs : Held N h k m u) (hf : Frame Beside SameCommits .backEnd u v) :
    Held N h k m v := by
  obtain ⟨hm, hh⟩ := untouched_frame hs hf
  exact hs.untouched hm hh (hf.cur _ (by simp [Beside])) (hf.cur _ (by simp [Beside]))

theorem MetadataInv.store (hi : MetadataInv N regions w) {l : Loc} {x : Val l} {f : Log → Log}
    (hm : l ≠ .commitMetadata) (hh : l ≠ .remoteHead)
    (hc : (f w.log).commits = w.log.commits) (hd : (f w.log).dequeued = w.log.dequeued) :
    MetadataInv N regions (w.store l x f) :=
  hi.congr hi.quiet (.store hm.symm) (.store hh.symm) hc (by rw [World.store_log, hd])

theorem MetadataInv.flush (hi : MetadataInv N regions w) {ls : List Loc} (hm : .commitMetadata ∉ ls)
    (hh : .remoteHead ∉ ls) : MetadataInv N regions (w.flush .backEnd ls) :=
  hi.congr (hi.quiet.flush ls) (.flush hm) (.flush hh) rfl (List.prefix_refl _)

theorem MetadataInv.fence (hi : MetadataInv N regions w) (hs : Held N h k m w) :
    MetadataInv N regions (w.fence .backEnd) :=
  hi.congr hi.quiet.fence (.fence hs.metadata.1) (.fence hs.durable.1) rfl (List.prefix_refl _)

theorem Held.flush (hs : Held N h k m w) {ls : List Loc} (hm : .commitMetadata ∉ ls)
    (hh : .remoteHead ∉ ls) : Held N h k m (w.flush .backEnd ls) :=
  hs.untouched (.flush hm) (.flush hh) rfl rfl

theorem Held.fence (hs : Held N h k m w) : Held N h k m (w.fence .backEnd) :=
  hs.untouched (.fence hs.metadata.1) (.fence hs.durable.1) rfl rfl

section Rules

variable {α β Phase : Type} {S : System Actor Loc Val Log Phase} {Q : β → State → Prop}

theorem ensures_beside {p : Code α} {f : α → Code β} (hp : p.Confined Beside SameCommits .backEnd)
    (hw : MetadataInv N regions w) (hs : Held N h k m w)
    (hf : ∀ x u, MetadataInv N regions u → Held N h k m u → SameCommits w.log u.log →
      Ensures S (metadataProtocol N regions) .backEnd (f x) Q u) :
    Ensures S (metadataProtocol N regions) .backEnd (p >>= f) Q w := by
  have hc := Ensures.confined (S := S) (P := metadataProtocol N regions)
    (A := fun u => Held N h k m u ∧ SameCommits w.log u.log) hp SameCommits.refl
    False.elim ⟨hs, .refl _⟩ ?_ ?_
  · exact Ensures.bind hw (hc.mono fun x u hu ⟨hs, hl⟩ => hf x u hu hs hl)
  · rintro u v ⟨hs, hl⟩ hr _
    exact ⟨hs.stable hr, hr.2.1.trans hl.1, (congrArg ImageLog.commits hr.2.2).trans hl.2⟩
  · rintro u v hf hu ⟨hs, hl⟩
    exact ⟨allows_backEnd (hu.frame hs hf), hs.frame hf, hf.log.1.trans hl.1, hf.log.2.trans hl.2⟩

theorem Steady.of_sameCommits
    (hs : Held N (latest u.log).metadata.ringBufferHead u.log.dequeued.length
    (regions.length + mmaps u.log.dequeued) v) (hl : SameCommits u.log v.log) :
    Steady N regions v := by
  rw [Steady, latest, hl.1, hl.2]
  exact hs

theorem ensures_ringBufferDequeue (hN : 1 < N) {f : Nat → Code β} (hs : Held N h k m w)
    (hf : ∀ slot u, MetadataInv N regions u → Held N h (k + 1) m u → SameCommits w.log u.log →
      Ensures S (metadataProtocol N regions) .backEnd (f slot) Q u) :
    Ensures S (metadataProtocol N regions) .backEnd (ringBufferDequeue N >>= f) Q w := by
  simp only [ringBufferDequeue, Prog.bind_assoc]
  refine Ensures.load fun u hr hu => ?_
  have hl : SameCommits w.log u.log := ⟨hr.2.1, congrArg ImageLog.commits hr.2.2⟩
  have hs := hs.stable hr
  rw [hs.taken]
  refine Ensures.load fun u' hr hu => ?_
  have hl' : SameCommits w.log u'.log :=
    ⟨hr.2.1.trans hl.1, (congrArg ImageLog.commits hr.2.2).trans hl.2⟩
  have hb : Beside .globalLocalTail := by simp [Beside, Owned, owner]
  refine ensures_beside (confined_waitForEntry hb SameCommits.refl _ _) hu (hs.stable hr)
    fun _ v hv hs hvl => ?_
  refine Ensures.store fun v' hr hv' => ?_
  have hs := hs.stable hr
  have hi := hv'.store (l := .globalLocalHead) (x := nextIndex N (k % N)) (f := id)
    (by decide) (by decide) rfl rfl
  refine ⟨allows_backEnd hi, hf _ _ hi ?_ ?_⟩
  · refine ⟨(Untouched.store (by decide)).durable hs.metadata,
      (Untouched.store (by decide)).durable hs.durable, ?_, ?_, ?_⟩
    · exact (World.store_cur_of_ne v' _ _ _ _ (by decide)).trans hs.head
    · rw [World.store_cur_self, nextIndex_mod hN]
    · exact (World.store_cur_of_ne v' _ _ _ _ (by decide)).trans hs.counted
  · exact ⟨hr.2.1.trans (hvl.1.trans hl'.1),
      (congrArg ImageLog.commits hr.2.2).trans (hvl.2.trans hl'.2)⟩

theorem SameCommits.rely {u v : State} (hr : (metadataProtocol N regions).rely .backEnd u v) :
    SameCommits u.log v.log :=
  ⟨hr.2.1, congrArg ImageLog.commits hr.2.2⟩

theorem SameCommits.trans {g g' g'' : Log} (h : SameCommits g g') (h' : SameCommits g' g'') :
    SameCommits g g'' :=
  ⟨h'.1.trans h.1, h'.2.trans h.2⟩

theorem ensures_recordDequeued {e : Entry} {f : Unit → Code β} (hs : Held N h k m w)
    (hf : ∀ u, MetadataInv N regions u → Held N h k m u → u.log.commits = w.log.commits →
      u.log.dequeued = w.log.dequeued ++ [e] →
      Ensures S (metadataProtocol N regions) .backEnd (f ()) Q u) :
    Ensures S (metadataProtocol N regions) .backEnd (recordDequeued e >>= f) Q w := by
  refine Ensures.record fun u hr hu => ?_
  have hs := hs.stable hr
  have hi :=
    hu.congr (v := { u with log := { u.log with dequeued := u.log.dequeued ++ [e] } })
    hu.quiet (.record _) (.record _) rfl (List.prefix_append _ _)
  refine ⟨allows_backEnd hi, hf _ hi (hs.untouched (.record _) (.record _) rfl rfl) ?_ ?_⟩
  · exact congrArg ImageLog.commits hr.2.2
  · exact congrArg (·.dequeued ++ [e]) hr.2.1

theorem beside_byte (c : Cell) : Beside (.byte c) := by simp [Beside, Owned, owner]

theorem beside_addressMap : Beside .addressMap := by simp [Beside, Owned, owner]

theorem sameCommits_noteWrite (s : Sigma Val) (g : Log) : SameCommits g (noteWrite s g) := by
  obtain ⟨l, v⟩ := s
  cases l <;> exact ⟨rfl, rfl⟩

theorem ensures_addRegionRecord {addr size : Nat} {f : Unit → Code β} (hs : Held N h k m w)
    (hf : ∀ u, MetadataInv N regions u → Held N h k (m + 1) u → SameCommits w.log u.log →
      Ensures S (metadataProtocol N regions) .backEnd (f ()) Q u) :
    Ensures S (metadataProtocol N regions) .backEnd
    (regionTableAddRegionRecord addr size >>= f) Q w := by
  simp only [regionTableAddRegionRecord, Prog.bind_assoc]
  refine Ensures.load fun u hr hu => ?_
  have hl := SameCommits.rely hr
  have hs := hs.stable hr
  rw [hs.counted]
  split
  · simp only [Prog.bind_assoc]
    refine Ensures.load fun u' hr hu => ?_
    have hl := hl.trans (SameCommits.rely hr)
    have hown : ∀ l ∈ recordLocs m, Beside l := by simp [recordLocs, Beside, Owned, owner]
    refine ensures_beside (.storeAll (fun s hs => ?_) fun _ _ => SameCommits.refl) hu (hs.stable hr)
      fun _ v hv hs hvl => ?_
    · simp only [List.mem_cons, List.not_mem_nil, or_false] at hs
      rcases hs with rfl | rfl | rfl | rfl <;> simp [Beside, Owned, owner]
    · refine ensures_beside ⟨hown, fun _ => trivial⟩ hv hs fun _ v' hv hs hvl' => ?_
      refine Ensures.storeRecord fun x hr hx => ?_
      have hs := hs.stable hr
      have hi := hx.store (l := .uncommitedNumberOfEntries) (x := m + 1)
        (f := fun g => { g with regions := g.regions ++ [(addr, size)] })
        (by decide) (by decide) rfl rfl
      refine ⟨allows_backEnd hi, hf _ hi ?_ ?_⟩
      · refine ⟨(Untouched.store (by decide)).durable hs.metadata,
          (Untouched.store (by decide)).durable hs.durable, ?_, ?_, World.store_cur_self _ _ _ _⟩
        · exact (World.store_cur_of_ne x _ _ _ _ (by decide)).trans hs.head
        · exact (World.store_cur_of_ne x _ _ _ _ (by decide)).trans hs.taken
      · exact (hl.trans (hvl.trans (hvl'.trans (SameCommits.rely hr)))).trans ⟨rfl, rfl⟩
  · exact Ensures.kernel False.elim fun _ _ _ _ hx => by cases hx

end Rules

section Commit

variable {β Phase : Type} {S : System Actor Loc Val Log Phase} {Q : β → State → Prop}

/-- The new pair has been stored, `remote_head` has not. -/
structure Stored (N k m : Nat) (w : State) : Prop where
  durable : w.Durable .backEnd .remoteHead
  old : w.cur .remoteHead = (previous w.log).metadata.ringBufferHead
  new : (latest w.log).metadata.ringBufferHead = k % N
  taken : w.cur .globalLocalHead = k % N
  counted : w.cur .uncommitedNumberOfEntries = m

theorem Stored.stable (hs : Stored N k m u) (hr : (metadataProtocol N regions).rely .backEnd u v) :
    Stored N k m v := by
  obtain ⟨hu, hl⟩ := hr
  refine ⟨hu.durable _ rfl hs.durable, ?_, ?_, ?_, ?_⟩
  · rw [hu.cur .remoteHead rfl, previous, hl.2]; exact hs.old
  · rw [latest, hl.2]; exact hs.new
  · rw [hu.cur .globalLocalHead rfl]; exact hs.taken
  · rw [hu.cur .uncommitedNumberOfEntries rfl]; exact hs.counted

theorem counted_commit (n : Nat) :
    Counted N regions w.log.dequeued
    ⟨⟨regions.length + mmaps w.log.dequeued, w.log.dequeued.length % N⟩,
      w.log.dequeued.length, n⟩ :=
  ⟨le_rfl, rfl, by rw [List.take_length]⟩

theorem MetadataInv.storeMetadata (hi : MetadataInv N regions w) (hs : Steady N regions w)
    {x : AtomicPmemCommit}
    (hx : x = ⟨regions.length + mmaps w.log.dequeued, w.log.dequeued.length % N⟩) :
    MetadataInv N regions (w.store .commitMetadata x (fun g => { g with
        commits := ⟨x, g.dequeued.length, g.writes.length⟩ :: g.commits })) ∧
      Stored N w.log.dequeued.length (regions.length + mmaps w.log.dequeued)
      (w.store .commitMetadata x (fun g => { g with
        commits := ⟨x, g.dequeued.length, g.writes.length⟩ :: g.commits })) := by
  subst hx
  have hdur : ∀ {f : Log → Log} {x : AtomicPmemCommit},
      (w.store .commitMetadata x f).Durable .backEnd .remoteHead :=
    (Untouched.store (by decide)).durable hs.durable
  have hcur : ∀ {f : Log → Log} {x : AtomicPmemCommit},
      (w.store .commitMetadata x f).cur .remoteHead = (latest w.log).metadata.ringBufferHead :=
    (World.store_cur_of_ne w _ _ _ _ (by decide)).trans hs.head
  refine ⟨⟨hi.quiet, hi.metadata.store_self hs.metadata, .inr ⟨hdur, hcur⟩, ?_, ?_⟩,
    hdur, hcur, rfl, ?_, ?_⟩
  · intro r hr
    rcases List.mem_cons.mp hr with rfl | hr
    · exact counted_commit _
    · exact hi.counted r hr
  · exact List.pairwise_cons.mpr ⟨fun r hr => (hi.counted r hr).dequeued, hi.sorted⟩
  · exact (World.store_cur_of_ne w _ _ _ _ (by decide)).trans hs.taken
  · exact (World.store_cur_of_ne w _ _ _ _ (by decide)).trans hs.counted

theorem MetadataInv.flushMetadata (hi : MetadataInv N regions w) (hs : Stored N k m w) :
    MetadataInv N regions (w.flush .backEnd [.commitMetadata]) := by
  refine ⟨hi.quiet.flush _, hi.metadata.flush, .inr ⟨?_, hs.old⟩, hi.counted, hi.sorted⟩
  exact (Untouched.flush (by decide)).durable hs.durable

theorem MetadataInv.fenceMetadata (hi : MetadataInv N regions w) (hs : Stored N k m w)
    (hset : w.Settled .backEnd .commitMetadata) :
    MetadataInv N regions (w.fence .backEnd) ∧
      Held N (previous w.log).metadata.ringBufferHead k m (w.fence .backEnd) := by
  have hdur : (w.fence .backEnd).Durable .backEnd .remoteHead :=
    World.durable_fence hs.durable.settled
  refine ⟨⟨hi.quiet.fence, hi.metadata.fence fun h => absurd rfl h, .inr ⟨hdur, hs.old⟩,
    hi.counted, hi.sorted⟩, ?_⟩
  exact ⟨World.durable_fence hset, hdur, hs.old, hs.taken, hs.counted⟩

theorem MetadataInv.storeHead (hi : MetadataInv N regions w)
    (hs : Held N (previous w.log).metadata.ringBufferHead k m w)
    {x : Nat} (hx : x = (latest w.log).metadata.ringBufferHead) {f : Log → Log}
    (hc : (f w.log).commits = w.log.commits)
    (hd : (f w.log).dequeued = w.log.dequeued) :
    MetadataInv N regions (w.store .remoteHead x f) := by
  have hl : latest (f w.log) = latest w.log := by rw [latest, hc, latest]
  have hp : previous (f w.log) = previous w.log := by rw [previous, hc, previous]
  have ht : Tracks w .backEnd .remoteHead (previous w.log).metadata.ringBufferHead
      (previous w.log).metadata.ringBufferHead :=
    ⟨hs.head, .inl (hs.durable.2.trans hs.head), .inl hs.durable.1⟩
  refine ⟨hi.quiet, ?_, .inl ⟨?_, ?_⟩, ?_, ?_⟩
  · rw [World.store_log, hl, hp]; exact hi.metadata.untouched (.store (by decide))
  · exact (Untouched.store (by decide)).durable hs.metadata
  · rw [World.store_log, hl, hp, ← hx]; exact ht.store_self hs.durable
  · rw [World.store_log, hc, hd]; exact hi.counted
  · rw [World.store_log, hc]; exact hi.sorted

theorem ensures_regionTableCommit {f : Unit → Code β} (hs : Held N h k m w)
    (hf : ∀ u, MetadataInv N regions u → Held N h k m u → SameCommits w.log u.log →
      Ensures S (metadataProtocol N regions) .backEnd (f ()) Q u) :
    Ensures S (metadataProtocol N regions) .backEnd (regionTableCommit >>= f) Q w := by
  simp only [regionTableCommit, Prog.bind_assoc]
  refine Ensures.fence fun u₁ hr hu => ?_
  have hl₁ := SameCommits.rely hr
  have hs := hs.stable hr
  refine ⟨allows_backEnd (hu.fence hs), Ensures.load fun u₂ hr hu => ?_⟩
  have hl₂ := SameCommits.rely hr
  have hs := hs.fence.stable hr
  have hown : Beside .numberOfEntries := by simp [Beside, Owned, owner]
  refine ensures_beside (p := store .numberOfEntries _) ⟨⟨hown, SameCommits.refl⟩,
    fun _ => trivial⟩ hu hs fun _ u₃ hu hs hl₃ => ?_
  refine Ensures.flush fun u₄ hr hu => ?_
  have hl₄ := SameCommits.rely hr
  have hs := hs.stable hr
  refine ⟨allows_backEnd (hu.flush (by decide) (by decide)), Ensures.fence fun u₅ hr hu => ?_⟩
  have hl₅ := SameCommits.rely hr
  have hs := (hs.flush (by decide) (by decide)).stable hr
  exact ⟨allows_backEnd (hu.fence hs), hf _ (hu.fence hs) hs.fence
    (hl₁.trans (hl₂.trans (hl₃.trans (hl₄.trans hl₅))))⟩

theorem ensures_prepareCommit {f : Unit → Code β} (hs : Steady N regions w)
    (hf : ∀ u, MetadataInv N regions u →
      Held N (previous u.log).metadata.ringBufferHead u.log.dequeued.length
      (regions.length + mmaps u.log.dequeued) u →
      (latest u.log).metadata.ringBufferHead = u.log.dequeued.length % N →
      u.log.dequeued = w.log.dequeued →
      Ensures S (metadataProtocol N regions) .backEnd (f ()) Q u) :
    Ensures S (metadataProtocol N regions) .backEnd (prepareCommit >>= f) Q w := by
  simp only [prepareCommit, Prog.bind_assoc]
  refine Ensures.load fun u₁ hr hu => ?_
  have hd₁ : u₁.log.dequeued = w.log.dequeued := congrArg BackLog.dequeued hr.2.1
  have hs := hs.stable hr
  rw [hs.counted, hd₁]
  refine Ensures.load fun u₂ hr hu => ?_
  have hd₂ : u₂.log.dequeued = w.log.dequeued := (congrArg BackLog.dequeued hr.2.1).trans hd₁
  have hs := hs.stable hr
  rw [hs.taken, hd₂]
  refine Ensures.storeRecord fun u₃ hr hu => ?_
  have hd₃ : u₃.log.dequeued = w.log.dequeued := (congrArg BackLog.dequeued hr.2.1).trans hd₂
  obtain ⟨hi, hst⟩ := hu.storeMetadata (hs.stable hr) (x := ⟨regions.length + mmaps w.log.dequeued,
    w.log.dequeued.length % N⟩) (by rw [hd₃])
  rw [hd₃] at hst
  refine ⟨allows_backEnd hi, ?_⟩
  generalize hv : u₃.store .commitMetadata _ _ = v at hi hst
  have hdv : v.log.dequeued = w.log.dequeued := by rw [← hv]; exact hd₃
  -- the log does not change from here on
  refine Ensures.flush fun u₄ hr hu => ?_
  have hst := hst.stable hr
  have hl₄ := SameCommits.rely hr
  refine ⟨allows_backEnd (hu.flushMetadata hst), ?_⟩
  have hset : (u₄.flush .backEnd [.commitMetadata]).Settled .backEnd .commitMetadata :=
    World.settled_flush_of_mem (by simp)
  have hst : Stored N _ _ (u₄.flush .backEnd [.commitMetadata]) :=
    ⟨(Untouched.flush (by decide)).durable hst.durable, hst.old, hst.new, hst.taken, hst.counted⟩
  refine Ensures.fence fun u₅ hr hu => ?_
  have hst := hst.stable hr
  have hl₅ : SameCommits v.log u₅.log :=
    hl₄.trans (show SameCommits (u₄.flush _ _).log _ from SameCommits.rely hr)
  obtain ⟨hi, hheld⟩ := hu.fenceMetadata hst (hr.1.settled _ rfl hset)
  refine ⟨allows_backEnd hi, ensures_regionTableCommit hheld fun u₆ hu hheld hl => ?_⟩
  refine Ensures.fence fun u₇ hr hu => ?_
  have hheld := hheld.stable hr
  have hl₇ : SameCommits u₅.log u₇.log := hl.trans (SameCommits.rely hr)
  have hd₇ : u₇.log.dequeued = w.log.dequeued := by rw [hl₇.1, hl₅.1]; exact hdv
  refine ⟨allows_backEnd (hu.fence hheld), hf _ (hu.fence hheld) ?_ ?_ hd₇⟩
  · rw [World.fence_log, hd₇, show previous u₇.log = previous u₅.log by
      rw [previous, hl₇.2, previous]]
    exact hheld.fence
  · rw [World.fence_log, hd₇, show latest u₇.log = latest u₅.log by rw [latest, hl₇.2, latest]]
    exact hst.new

/-- `remote_head` has been stored, but need not be durable yet. -/
structure Advanced (N : Nat) (regions : List (Nat × Nat)) (w : State) : Prop where
  metadata : w.Durable .backEnd .commitMetadata
  head : w.cur .remoteHead = (latest w.log).metadata.ringBufferHead
  taken : w.cur .globalLocalHead = w.log.dequeued.length % N
  counted : w.cur .uncommitedNumberOfEntries = regions.length + mmaps w.log.dequeued

theorem Advanced.stable (hs : Advanced N regions u)
    (hr : (metadataProtocol N regions).rely .backEnd u v) : Advanced N regions v := by
  obtain ⟨hu, hb, hl⟩ := hr
  refine ⟨hu.durable _ rfl hs.metadata, ?_, ?_, ?_⟩
  · rw [hu.cur .remoteHead rfl, latest, hl]; exact hs.head
  · rw [hu.cur .globalLocalHead rfl, hb]; exact hs.taken
  · rw [hu.cur .uncommitedNumberOfEntries rfl, hb]; exact hs.counted

theorem MetadataInv.flushHead (hi : MetadataInv N regions w) (hs : Advanced N regions w) :
    MetadataInv N regions (w.flush .backEnd [.remoteHead]) ∧
    Advanced N regions (w.flush .backEnd [.remoteHead]) := by
  have hm : (w.flush .backEnd [.remoteHead]).Durable .backEnd .commitMetadata :=
    (Untouched.flush (by decide)).durable hs.metadata
  refine ⟨⟨hi.quiet.flush _, hi.metadata.flush, ?_, hi.counted, hi.sorted⟩, hm, hs.head,
    hs.taken, hs.counted⟩
  rcases hi.head with hd | hd
  · exact .inl ⟨hm, hd.2.flush⟩
  · refine .inl ⟨hm, hs.head, ?_, .inr ?_⟩
    · exact .inl (hd.1.2.trans hs.head)
    · rw [World.flush_pending_of_mem w _ _ _ (by simp), hs.head]
      rfl

theorem MetadataInv.fenceHead (hi : MetadataInv N regions w) (hs : Advanced N regions w)
    (hset : w.Settled .backEnd .remoteHead) :
    MetadataInv N regions (w.fence .backEnd) ∧ Steady N regions (w.fence .backEnd) := by
  have hm : (w.fence .backEnd).Durable .backEnd .commitMetadata :=
    World.durable_fence hs.metadata.settled
  have hd : (w.fence .backEnd).Durable .backEnd .remoteHead := World.durable_fence hset
  refine ⟨⟨hi.quiet.fence, hi.metadata.fence fun h => absurd rfl h, .inl ⟨hm, ?_⟩,
    hi.counted, hi.sorted⟩, hm, hd, hs.head, hs.taken, hs.counted⟩
  exact ⟨hs.head, .inl (hd.2.trans hs.head), .inl hd.1⟩

theorem Steady.showHead (hs : Steady N regions w) {x : Nat} :
    Steady N regions (w.store .lastPersistedHead x id) :=
  Held.untouched hs (.store (by decide)) (.store (by decide))
  (World.store_cur_of_ne w _ _ _ _ (by decide))
    (World.store_cur_of_ne w _ _ _ _ (by decide))

theorem ensures_ringBufferCommitDequeuedEntries {f : Unit → Code β}
    (hs : Held N (previous w.log).metadata.ringBufferHead w.log.dequeued.length
      (regions.length + mmaps w.log.dequeued) w)
    (hnew : (latest w.log).metadata.ringBufferHead = w.log.dequeued.length % N)
    (hf : ∀ u, MetadataInv N regions u → Steady N regions u →
      Ensures S (metadataProtocol N regions) .backEnd (f ()) Q u) :
    Ensures S (metadataProtocol N regions) .backEnd
    (ringBufferCommitDequeuedEntries >>= f) Q w := by
  simp only [ringBufferCommitDequeuedEntries, Prog.bind_assoc]
  refine Ensures.load fun u₁ hr hu => ?_
  have hl₁ := SameCommits.rely hr
  have hs := hs.stable hr
  rw [hs.taken]
  refine Ensures.storeRecord fun u₂ hr hu => ?_
  have hl₂ := hl₁.trans (SameCommits.rely hr)
  have hs := hs.stable hr
  have hlat : latest u₂.log = latest w.log := by rw [latest, hl₂.2, latest]
  have hd : u₂.log.dequeued = w.log.dequeued := congrArg BackLog.dequeued hl₂.1
  have hi :=
    hu.storeHead (f := fun g =>
      { g with committed := g.dequeued.length, committedBefore := g.committed })
    (by rw [show previous u₂.log = previous w.log by rw [previous, hl₂.2, previous]]; exact hs)
    (show w.log.dequeued.length % N = _ by rw [hlat, hnew]) rfl rfl
  have hadv : Advanced N regions (u₂.store .remoteHead (w.log.dequeued.length % N)
      (fun g => { g with committed := g.dequeued.length, committedBefore := g.committed })) := by
    refine ⟨(Untouched.store (by decide)).durable hs.metadata, ?_, ?_, ?_⟩
    · rw [World.store_cur_self]; exact hnew.symm.trans (by rw [← hlat]; rfl)
    · rw [World.store_cur_of_ne _ _ _ _ _ (by decide), hs.taken, World.store_log, hd]
    · rw [World.store_cur_of_ne _ _ _ _ _ (by decide), hs.counted, World.store_log, hd]
  refine ⟨allows_backEnd hi, Ensures.flush fun u₃ hr hu => ?_⟩
  obtain ⟨hi, hadv⟩ := hu.flushHead (hadv.stable hr)
  have hset : (u₃.flush .backEnd [.remoteHead]).Settled .backEnd .remoteHead :=
    World.settled_flush_of_mem (by simp)
  refine ⟨allows_backEnd hi, Ensures.fence fun u₄ hr hu => ?_⟩
  obtain ⟨hi, hs⟩ := hu.fenceHead (hadv.stable hr) (hr.1.settled _ rfl hset)
  refine ⟨allows_backEnd hi, Ensures.load fun u₅ hr hu => ?_⟩
  have hs := hs.stable hr
  refine Ensures.store fun u₆ hr hu => ?_
  have hi := hu.store (l := .lastPersistedHead) (x := u₅.cur .remoteHead) (f := id)
    (by decide) (by decide) rfl rfl
  exact ⟨allows_backEnd hi, hf _ hi (hs.stable hr).showHead⟩

end Commit

section Consumer

variable {Phase : Type} {S : System Actor Loc Val Log Phase}

theorem mmaps_concat (es : List Entry) (e : Entry) :
    mmaps (es ++ [e]) = mmaps es + if isMmap e then 1 else 0 := by
  simp [mmaps, List.countP_append, List.countP_singleton]

theorem Held.read {e : Entry} {m : Nat}
    (hs : Held N (latest w.log).metadata.ringBufferHead (w.log.dequeued.length + 1) m u)
    (hc : u.log.commits = w.log.commits) (hd : u.log.dequeued = w.log.dequeued ++ [e]) :
    Held N (latest u.log).metadata.ringBufferHead u.log.dequeued.length m u := by
  rw [latest, hc, hd, List.length_append]
  exact hs

theorem ensures_handleEntry {held : Nat → Bool} {slot : Nat} {type : EntryType}
    (hs : Held N (latest w.log).metadata.ringBufferHead (w.log.dequeued.length + 1)
      (regions.length + mmaps w.log.dequeued) w) :
    Ensures S (metadataProtocol N regions) .backEnd (handleEntry held slot type)
    (fun _ u => Steady N regions u) w := by
  have hdone : ∀ {u v : State}, Held N (latest u.log).metadata.ringBufferHead u.log.dequeued.length
      (regions.length + mmaps u.log.dequeued) v → SameCommits u.log v.log →
      Ensures S (metadataProtocol N regions) .backEnd (.ret ()) (fun _ u => Steady N regions u) v :=
    fun hs hl => Ensures.ret fun x hr _ => (Steady.of_sameCommits hs hl).stable hr
  have hstable : ∀ {u v : State}, (metadataProtocol N regions).rely .backEnd u v →
      Held N (latest u.log).metadata.ringBufferHead (u.log.dequeued.length + 1)
      (regions.length + mmaps u.log.dequeued) u →
      Held N (latest v.log).metadata.ringBufferHead (v.log.dequeued.length + 1)
      (regions.length + mmaps v.log.dequeued) v := by
    intro u v hr hs
    rw [latest, hr.2.1, hr.2.2]
    exact hs.stable hr
  rw [← Prog.bind_ret (handleEntry held slot type)]
  cases type with
  | mmap =>
      simp only [handleEntry, Prog.bind_assoc]
      refine Ensures.load fun u hr _ => ?_
      have hs := hstable hr hs
      refine Ensures.load fun u' hr _ => ?_
      refine ensures_recordDequeued (hstable hr hs) fun v hv hs hc hd => ?_
      have hs := hs.read hc hd
      simp only [regionTableCreateMemoryRegion, Prog.bind_assoc]
      refine ensures_addRegionRecord hs fun x hx hs hl => ?_
      refine ensures_beside (confined_createPmemFile beside_byte (by simp [Beside, Owned, owner])
        SameCommits.refl) hx hs fun i y hy hs hl' => ?_
      refine ensures_beside (confined_mapFixed beside_addressMap SameCommits.refl _) hy hs
        fun _ z _ hs hl'' => ?_
      refine hdone (u := v) ?_ (hl.trans (hl'.trans hl''))
      rw [hd, mmaps_concat, ← hd]
      exact hs
  | transientMmap =>
      simp only [handleEntry, Prog.bind_assoc]
      refine Ensures.load fun u hr _ => ?_
      have hs := hstable hr hs
      refine Ensures.load fun u' hr _ => ?_
      refine ensures_recordDequeued (hstable hr hs) fun v hv hs hc hd => ?_
      have hs := hs.read hc hd
      rw [← Prog.bind_assoc]
      refine ensures_beside
        (confined_transientMmap beside_byte beside_addressMap SameCommits.refl _ _) hv hs
        fun _ x _ hs hl => hdone (u := v) ?_ hl
      rw [hd, mmaps_concat, ← hd]
      exact hs
  | redo =>
      simp only [handleEntry, Prog.bind_assoc]
      refine Ensures.load fun u hr hu => ?_
      have hs := hstable hr hs
      refine Ensures.loads (R := fun _ _ => True) (fun _ _ _ _ => trivial) hu fun p u' _ hr _ => ?_
      refine ensures_recordDequeued (hstable hr hs) fun v hv hs hc hd => ?_
      have hs := hs.read hc hd
      refine ensures_beside (confined_applyRedo beside_byte sameCommits_noteWrite _ _ _) hv hs
        fun _ x _ hs hl => hdone (u := v) ?_ hl
      rw [hd, mmaps_concat, ← hd]
      exact hs
  | commit =>
      simp only [handleEntry, commitRbBatch_eq, Prog.bind_assoc]
      refine ensures_recordDequeued hs fun v hv hs hc hd => ?_
      have hs : Steady N regions v := by
        rw [Steady, hd, mmaps_concat, ← hd]
        exact hs.read hc hd
      refine ensures_prepareCommit hs fun x _ hs hnew _ => ?_
      refine ensures_ringBufferCommitDequeuedEntries hs hnew fun y _ hs => ?_
      refine Ensures.fence fun z hr hz => ?_
      have hs := hs.stable hr
      refine ⟨allows_backEnd (hz.fence hs), Ensures.ret fun x hr _ => ?_⟩
      exact Steady.stable (u := z.fence .backEnd) (Held.fence hs) hr

theorem ensures_runConsumer (hN : 1 < N) (hs : Steady N regions w) :
    Ensures S (metadataProtocol N regions) .backEnd (runConsumer N)
    (fun _ u => Steady N regions u) w := by
  refine Ensures.load fun u hr _ => ?_
  have hs := hs.stable hr
  refine Ensures.load fun u' hr _ => ?_
  have hs := hs.stable hr
  split
  · exact Ensures.pure fun v hr _ => hs.stable hr
  · refine ensures_ringBufferDequeue hN hs fun slot v _ hs hl => ?_
    refine Ensures.load fun v' hr _ => ?_
    refine ensures_handleEntry ?_
    have hl := hl.trans (SameCommits.rely hr)
    rw [latest, hl.1, hl.2]
    exact hs.stable hr

end Consumer

theorem metadataInv_initial (bytes : Cell → UInt8) :
    MetadataInv N regions (initial bytes regions) := by
  refine ⟨fun _ _ => rfl, ⟨rfl, .inl rfl, .inl rfl⟩, .inl ⟨⟨rfl, rfl⟩, rfl, .inl rfl, .inl rfl⟩,
    ?_, List.Pairwise.nil⟩
  intro r hr
  cases hr

theorem steady_initial (bytes : Cell → UInt8) : Steady N regions (initial bytes regions) :=
  ⟨⟨rfl, rfl⟩, ⟨rfl, rfl⟩, rfl, (Nat.zero_mod N).symm, rfl⟩

section Serves

variable {Phase : Type} {S : System Actor Loc Val Log Phase} {I : List SessionRecord → Prop}
  {J : Phase → List SessionRecord → Prop} {c : Config Actor Loc Val Log Phase}
  {bytes : Cell → UInt8}

theorem metadataInv_of_reachable (hs : Serves S N I J) (hN : 1 < N)
    (hc : S.Reachable (initial bytes regions) c) : MetadataInv N regions c.world := by
  refine inv_of_reachable (P := metadataProtocol N regions) (R := Steady N regions) hs not_false
    (metadataInv_initial bytes) (steady_initial bytes) (fun u v hu hr => hu.stable hr)
    (fun u v hu hf => allows_frontEnd hu hf) (fun w l hw _ => ⟨hw.writeBack l, fun a => ?_⟩)
    (fun w hw => ensures_runConsumer hN hw) hc
  cases a with
  | frontEnd => trivial
  | backEnd => exact ⟨.writeBack _ _ _ _, .refl _⟩

end Serves

end Mangosteen.Metadata
