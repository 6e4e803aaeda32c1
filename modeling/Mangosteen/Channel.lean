import Mangosteen.Library.Confined
import Mangosteen.Session
import Mangosteen.Slots

namespace Mangosteen.Channel

open PersistentMemory Memory RingBuffer Session Slots

/-- Who stores to and flushes a location. Both sides store to
`last_persisted_head` and to the semaphore, and neither flushes them. -/
def owner : Loc → Option Actor
  | .entryType _ | .entryAddr _ | .entrySize _ | .payload _ _ | .remoteTail | .lastPersistedTail =>
      some .frontEnd
  | .lastPersistedHead | .semaphore => none
  | _ => some .backEnd

def Owned (a : Actor) (l : Loc) : Prop := owner l = some a

instance (a : Actor) (l : Loc) : Decidable (Owned a l) :=
  inferInstanceAs (Decidable (owner l = some a))

theorem owned_of_slotOf (l : Loc) (slot : Nat) (h : slotOf l = some slot) : Owned .frontEnd l := by
  cases l <;> first | rfl | cases h

theorem Owned.not_backEnd {l : Loc} (h : Owned .frontEnd l) : ¬ Owned .backEnd l := by
  rw [Owned, show owner l = _ from h]
  decide

/-- A batch ends here, or nothing has been logged yet. -/
def AtBoundary (es : List Entry) (k : Nat) : Prop := k = 0 ∨ es[k - 1]? = some .commit

theorem AtBoundary.of_isPrefix {es fs : List Entry} {k : Nat}
    (h : AtBoundary es k) (hes : es <+: fs) : AtBoundary fs k := by
  rcases h with h | h
  · exact .inl h
  · obtain ⟨gs, rfl⟩ := hes
    exact .inr (by rw [List.getElem?_append_left (List.getElem?_eq_some_iff.mp h).1, h])

theorem atBoundary_concat (es : List Entry) :
    AtBoundary (es ++ [.commit]) (es ++ [Entry.commit]).length :=
  .inr (by simp)

def durableHead (w : State) : Nat :=
  if w.per .remoteHead = w.cur .remoteHead then w.log.committed else w.log.committedBefore

def durableTail (w : State) : Nat :=
  if w.per .remoteTail = w.cur .remoteTail then w.log.published else w.log.publishedBefore

variable (N : Nat) (dur : Bool)

/-- The entries whose slots are free: those that `remote_head` has passed, or
only those that its durable value has. -/
def base (w : State) : Nat := if dur then durableHead w else w.log.committed

def freed (w : State) : Nat := if dur then w.per .remoteHead else w.cur .remoteHead

/-- The steps at which a producer that finds the ring full learns of free slots.
The commit loop may take over a value of `last_persisted_head` only if it lies
between the head it has and the freed one; where slots are to stay until their
release is durable, the enqueue loops may not run ahead of the write-back of
`remote_head`. -/
def admitsHead (w : State) : Label Actor Loc Val Log → Prop
  | .op .frontEnd (.await .lastPersistedHead busy) =>
      (w.cur .lastPersistedHead + N - busy) % N ≤ (freed dur w + N - busy) % N
  | .op .frontEnd (.await .remoteHead _) => dur = true → w.per .remoteHead = w.cur .remoteHead
  | _ => True

theorem admitsHead_of_ne_await {w : State} {o : Op Actor Loc Val Log}
    (ho : ∀ l busy, o ≠ .await l busy) : admitsHead N dur w (.op .frontEnd o) := by
  cases o with
  | await l busy => exact absurd rfl (ho l busy)
  | _ => trivial

/-- The order of the counts behind the eight head and tail variables. -/
structure Counts (b t : Nat) (f : FrontLog) (g : BackLog) : Prop where
  before_le_base : g.committedBefore ≤ b
  base_le : b ≤ g.committed
  committed_le : g.committed ≤ g.dequeued.length
  dequeued_le : g.dequeued.length ≤ f.visible
  visible_le : f.visible ≤ t
  acknowledged_le : f.acknowledged ≤ t
  before_le_tail : f.publishedBefore ≤ t
  tail_le : t ≤ f.published
  published_le : f.published ≤ f.enqueued.length
  room : f.enqueued.length < b + N
  head_turn : g.committed < g.committedBefore + N
  tail_turn : f.published < f.publishedBefore + N

theorem Counts.base_le_enqueued {b t : Nat} {f : FrontLog} {g : BackLog} (h : Counts N b t f g) :
    b ≤ f.published ∧ f.published ≤ f.enqueued.length :=
  ⟨h.base_le.trans (h.committed_le.trans (h.dequeued_le.trans (h.visible_le.trans h.tail_le))),
    h.published_le⟩

theorem Counts.mono {b c t s : Nat} {f : FrontLog} {g : BackLog}
    (h : Counts N b t f g) (hbc : b ≤ c)
    (hc : c ≤ g.committed) (hts : t ≤ s) (hs : s ≤ f.published) : Counts N c s f g where
  before_le_base := h.before_le_base.trans hbc
  base_le := hc
  committed_le := h.committed_le
  dequeued_le := h.dequeued_le
  visible_le := h.visible_le.trans hts
  acknowledged_le := h.acknowledged_le.trans hts
  before_le_tail := h.before_le_tail.trans hts
  tail_le := hs
  published_le := h.published_le
  room := by have := h.room; omega
  head_turn := h.head_turn
  tail_turn := h.tail_turn

/-- What has been logged: the batches of the sessions one after the other, and
`remote_tail` and `remote_head` only ever at the end of one. -/
structure History (f : FrontLog) (g : BackLog) : Prop where
  plain : ∀ es ∈ logged f.sessions, .commit ∉ es
  aligned : Aligned f.sessions
  enqueued : f.enqueued <+: entries (logged f.sessions)
  dequeued : g.dequeued <+: f.enqueued
  published : AtBoundary f.enqueued f.published
  publishedBefore : AtBoundary f.enqueued f.publishedBefore
  committed : AtBoundary f.enqueued g.committed
  committedBefore : AtBoundary f.enqueued g.committedBefore

variable (I : List SessionRecord → Prop)

/-- The invariant of the ring. `I` is a further property of the sessions that the
producers keep. -/
structure RingInv (w : State) : Prop where
  quiet : Quiet owner w
  head : Tracks w .backEnd .remoteHead (w.log.committed % N) (w.log.committedBefore % N)
  tail : Tracks w .frontEnd .remoteTail (w.log.published % N) (w.log.publishedBefore % N)
  shown : w.cur .lastPersistedTail = w.log.visible % N
  persistedHead : w.cur .lastPersistedHead < N
  counts : Counts N (base dur w) (durableTail w) w.log.toFrontLog w.log.toBackLog
  filled : Filled N (base dur w) w.log.enqueued w.log.published w
  history : History w.log.toFrontLog w.log.toBackLog
  extra : I w.log.sessions

/-- What the front end may rely on: the back end frees slots and shows newer
heads. -/
structure FrontRely (u v : State) : Prop where
  own : Undisturbed (Owned .frontEnd) .frontEnd u v
  log : v.log.toFrontLog = u.log.toFrontLog
  base : base dur u ≤ base dur v
  head : v.cur .lastPersistedHead = u.cur .lastPersistedHead ∨
    ∃ c, Channel.base dur u ≤ c ∧ c ≤ Channel.base dur v ∧ v.cur .lastPersistedHead = c % N

/-- What the back end may rely on: entries are only added. -/
structure BackRely (u v : State) : Prop where
  own : Undisturbed (Owned .backEnd) .backEnd u v
  log : v.log.toBackLog = u.log.toBackLog
  enqueued : u.log.enqueued <+: v.log.enqueued
  visible : u.log.visible ≤ v.log.visible

theorem FrontRely.refl (u : State) : FrontRely N dur u u := ⟨.refl _ _ _, rfl, le_rfl, .inl rfl⟩

theorem FrontRely.trans {u v w : State} (h : FrontRely N dur u v) (h' : FrontRely N dur v w) :
    FrontRely N dur u w := by
  refine ⟨h.own.trans h'.own, h'.log.trans h.log, h.base.trans h'.base, ?_⟩
  rcases h'.head with e | ⟨c, hc, hc', e⟩
  · rcases h.head with d | ⟨c, hc, hc', d⟩
    · exact .inl (e.trans d)
    · exact .inr ⟨c, hc, hc'.trans h'.base, e.trans d⟩
  · exact .inr ⟨c, h.base.trans hc, hc', e⟩

theorem BackRely.refl (u : State) : BackRely u u := ⟨.refl _ _ _, rfl, List.prefix_refl _, le_rfl⟩

theorem BackRely.trans {u v w : State} (h : BackRely u v) (h' : BackRely v w) : BackRely u w :=
  ⟨h.own.trans h'.own, h'.log.trans h.log, h.enqueued.trans h'.enqueued, h.visible.trans h'.visible⟩

def ringProtocol : Protocol Actor Loc Val Log where
  inv := RingInv N dur I
  rely a u v := match a with
    | .frontEnd => FrontRely N dur u v
    | .backEnd => BackRely u v
  live := False
  rely_refl a w := by
    cases a with
    | frontEnd => exact .refl N dur w
    | backEnd => exact .refl w
  rely_trans a u v w h h' := by
    cases a with
    | frontEnd => exact FrontRely.trans N dur h h'
    | backEnd => exact BackRely.trans h h'

variable {N dur I}

theorem allows_frontEnd {u v : State} (hi : RingInv N dur I v) (hr : BackRely u v) :
    (ringProtocol N dur I).Allows .frontEnd u v :=
  Protocol.allows_of_other Actor.eq_backEnd hi hr

theorem allows_backEnd {u v : State} (hi : RingInv N dur I v) (hr : FrontRely N dur u v) :
    (ringProtocol N dur I).Allows .backEnd u v :=
  Protocol.allows_of_other Actor.eq_frontEnd hi hr

section Base

variable {u v w : State}

theorem base_congr (hc : v.cur .remoteHead = u.cur .remoteHead)
    (hp : v.per .remoteHead = u.per .remoteHead)
    (hl : v.log.toBackLog = u.log.toBackLog) : base dur v = base dur u := by
  simp only [base, durableHead, hc, hp, hl]

theorem durableTail_congr (hc : v.cur .remoteTail = u.cur .remoteTail)
    (hp : v.per .remoteTail = u.per .remoteTail) (hl : v.log.toFrontLog = u.log.toFrontLog) :
    durableTail v = durableTail u := by
  simp only [durableTail, hc, hp, hl]

theorem durableTail_of_durable (h : w.Durable .frontEnd .remoteTail) :
    durableTail w = w.log.published :=
  if_pos h.2

theorem base_of_durable (h : w.Durable .backEnd .remoteHead) : base dur w = w.log.committed := by
  cases dur with
  | false => rfl
  | true => exact if_pos h.2

theorem freed_eq (h : RingInv N dur I w) : freed dur w = base dur w % N := by
  cases dur with
  | false => exact h.head.cur
  | true =>
      simp only [freed, base, durableHead, if_true]
      split
      · rename_i hp
        exact hp.trans h.head.cur
      · rename_i hp
        rcases h.head.per with hn | hb
        · exact absurd (hn.trans h.head.cur.symm) hp
        · exact hb

theorem per_remoteTail (h : RingInv N dur I w) : w.per .remoteTail = durableTail w % N := by
  rw [durableTail]
  split
  · rename_i he
    exact he.trans h.tail.cur
  · rename_i he
    rcases h.tail.per with hn | hb
    · exact absurd (hn.trans h.tail.cur.symm) he
    · exact hb

theorem atBoundary_durableTail (h : History w.log.toFrontLog w.log.toBackLog) :
    AtBoundary w.log.enqueued (durableTail w) := by
  rw [durableTail]
  split
  · exact h.published
  · exact h.publishedBefore

theorem atBoundary_durableHead (h : History w.log.toFrontLog w.log.toBackLog) :
    AtBoundary w.log.enqueued (durableHead w) := by
  rw [durableHead]
  split
  · exact h.committed
  · exact h.committedBefore

theorem base_le_of_per (hc : v.cur .remoteHead = u.cur .remoteHead)
    (hp : v.per .remoteHead = u.per .remoteHead ∨ v.per .remoteHead = u.cur .remoteHead)
    (hl : v.log.toBackLog = u.log.toBackLog) (hb : u.log.committedBefore ≤ u.log.committed) :
    base dur u ≤ base dur v ∧ base dur v ≤ u.log.committed := by
  cases dur with
  | false => simp [base, hl]
  | true =>
      simp only [base, durableHead, if_true, hc, hl]
      rcases hp with hp | hp
      · rw [hp]; split <;> omega
      · rw [if_pos hp]; split <;> omega

theorem durableTail_le_of_per (hc : v.cur .remoteTail = u.cur .remoteTail)
    (hp : v.per .remoteTail = u.per .remoteTail ∨ v.per .remoteTail = u.cur .remoteTail)
    (hl : v.log.toFrontLog = u.log.toFrontLog) (hb : u.log.publishedBefore ≤ u.log.published) :
    durableTail u ≤ durableTail v ∧ durableTail v ≤ u.log.published := by
  simp only [durableTail, hc, hl]
  rcases hp with hp | hp
  · rw [hp]; split <;> omega
  · rw [if_pos hp]; split <;> omega

end Base

section Steps

variable {u v w : State}

theorem RingInv.congr (h : RingInv N dur I u) (hq : Quiet owner v)
    (hhead : Untouched u v .remoteHead)
    (htail : Untouched u v .remoteTail)
    (hshown : v.cur .lastPersistedTail = u.cur .lastPersistedTail)
    (hpers : v.cur .lastPersistedHead < N) (hf : v.log.toFrontLog = u.log.toFrontLog)
    (hb : v.log.toBackLog = u.log.toBackLog)
    (hfill : Filled N (base dur u) u.log.enqueued u.log.published v) : RingInv N dur I v := by
  have hbase : base dur v = base dur u := base_congr hhead.cur hhead.per hb
  have htl : durableTail v = durableTail u := durableTail_congr htail.cur htail.per hf
  refine ⟨hq, ?_, ?_, ?_, hpers, ?_, ?_, ?_, ?_⟩
  · rw [hb]; exact h.head.untouched hhead
  · rw [hf]; exact h.tail.untouched htail
  · rw [hshown, hf]; exact h.shown
  · rw [hbase, htl, hf, hb]; exact h.counts
  · rw [hbase, hf]; exact hfill
  · rw [hf, hb]; exact h.history
  · rw [hf]; exact h.extra

theorem RingInv.catchUp (h : RingInv N dur I u) (hq : Quiet owner v) (hcur : v.cur = u.cur)
    (hlog : v.log = u.log)
    (hhead : Tracks v .backEnd .remoteHead (u.log.committed % N) (u.log.committedBefore % N))
    (htail : Tracks v .frontEnd .remoteTail (u.log.published % N) (u.log.publishedBefore % N))
    (hph : v.per .remoteHead = u.per .remoteHead ∨ v.per .remoteHead = u.cur .remoteHead)
    (hpt : v.per .remoteTail = u.per .remoteTail ∨ v.per .remoteTail = u.cur .remoteTail)
    (hfill : Filled N (base dur u) u.log.enqueued u.log.published v) :
    RingInv N dur I v ∧ base dur u ≤ base dur v := by
  have hc := h.counts
  have hcb : u.log.committedBefore ≤ u.log.committed := hc.before_le_base.trans hc.base_le
  have hpb : u.log.publishedBefore ≤ u.log.published := hc.before_le_tail.trans hc.tail_le
  obtain ⟨hb, hb'⟩ :=
    @base_le_of_per dur _ _ (congrFun hcur _) hph (congrArg Log.toBackLog hlog) hcb
  obtain ⟨ht, ht'⟩ := durableTail_le_of_per (congrFun hcur _) hpt (congrArg Log.toFrontLog hlog) hpb
  refine ⟨⟨hq, hlog ▸ hhead, hlog ▸ htail, ?_, ?_, ?_, ?_, hlog ▸ h.history, hlog ▸ h.extra⟩, hb⟩
  · rw [hcur, hlog]; exact h.shown
  · rw [hcur]; exact h.persistedHead
  · rw [hlog]; exact hc.mono N hb hb' ht ht'
  · rw [hlog]; exact hfill.undisturbed hb owned_of_slotOf (.refl _ _ _)

theorem fence_per (w : State) (a : Actor) {l : Loc} {now before : Val l}
    (h : Tracks w a l now before) (b : Actor) (hq : b ≠ a → w.pending b l = none) :
    (w.fence b).per l = w.per l ∨ (w.fence b).per l = w.cur l := by
  by_cases hb : b = a
  · subst hb
    rcases h.pending with hn | hn
    · exact .inl (World.fence_of_none w b b l hn).1
    · right; simp [World.fence, hn, h.cur]
  · exact .inl (World.fence_of_none w b b l (hq hb)).1

theorem RingInv.fence (h : RingInv N dur I w) (a : Actor) :
    RingInv N dur I (w.fence a) ∧ base dur w ≤ base dur (w.fence a) := by
  have hqh : a ≠ .backEnd → w.pending a .remoteHead = none :=
    fun ha => h.quiet a .remoteHead (fun e => ha (Option.some.inj e).symm)
  have hqt : a ≠ .frontEnd → w.pending a .remoteTail = none :=
    fun ha => h.quiet a .remoteTail (fun e => ha (Option.some.inj e).symm)
  refine h.catchUp (h.quiet.fence a) rfl rfl (h.head.fence hqh) (h.tail.fence hqt)
    (fence_per w _ h.head a hqh) (fence_per w _ h.tail a hqt) ?_
  cases a with
  | frontEnd => exact h.filled.fence.of_le h.counts.published_le
  | backEnd =>
      exact h.filled.undisturbed le_rfl owned_of_slotOf (h.quiet.undisturbed_fence (by decide))

theorem writeBack_per (w : State) (l m : Loc) :
    (w.writeBack m).per l = w.per l ∨ (w.writeBack m).per l = w.cur l := by
  by_cases hm : l = m
  · subst hm; exact .inr (World.writeBack_per_self w l)
  · exact .inl (World.writeBack_of_ne w .frontEnd l m hm).1

theorem RingInv.writeBack (h : RingInv N dur I w) (l : Loc) :
    RingInv N dur I (w.writeBack l) ∧ base dur w ≤ base dur (w.writeBack l) :=
  h.catchUp (h.quiet.writeBack l) rfl rfl (h.head.writeBack l) (h.tail.writeBack l)
    (writeBack_per w _ l) (writeBack_per w _ l)
    (h.filled.undisturbed le_rfl owned_of_slotOf (.writeBack _ _ w l))

theorem rely_writeBack (h : RingInv N dur I w) (l : Loc) (a : Actor) :
    (ringProtocol N dur I).rely a w (w.writeBack l) := by
  cases a with
  | frontEnd => exact ⟨.writeBack _ _ w l, rfl, (h.writeBack l).2, .inl rfl⟩
  | backEnd => exact ⟨.writeBack _ _ w l, rfl, List.prefix_refl _, le_rfl⟩

end Steps

end Mangosteen.Channel
