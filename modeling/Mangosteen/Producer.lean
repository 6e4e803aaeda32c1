import Mangosteen.Channel

namespace Mangosteen.Producer

open PersistentMemory Prog Memory RingBuffer Session Slots Channel

variable {N : Nat} {dur : Bool} {I : List SessionRecord → Prop}

/-- What a producer knows of its local head and tail, and of the entries it has
still to log. -/
structure Holding (N : Nat) (dur : Bool) (ss : List SessionRecord) (rest : List Entry)
    (head tail : Nat) (w : State) : Prop where
  head : ∃ h, h ≤ base dur w ∧ head = h % N ∧ w.log.enqueued.length < h + N
  tail : tail = w.log.enqueued.length % N
  rest : w.log.enqueued ++ rest = entries (logged ss)
  sessions : w.log.sessions = ss

/-- A producer between two calls of the ring's functions. -/
structure Producing (N : Nat) (dur : Bool) (ss : List SessionRecord) (rest : List Entry)
    (head tail : Nat) (w : State) : Prop extends Holding N dur ss rest head tail w where
  shown : w.log.visible = w.log.published
  durable : w.Durable .frontEnd .remoteTail

/-- A producer whose last call was a commit: nothing is enqueued that is not
published. -/
structure Published (N : Nat) (dur : Bool) (ss : List SessionRecord) (rest : List Entry)
    (head tail : Nat) (w : State) : Prop extends Holding N dur ss rest head tail w where
  published : w.log.published = w.log.enqueued.length

/-- The local head and tail are still, or again, those in shared memory. -/
structure Ready (N : Nat) (dur : Bool) (ss : List SessionRecord) (rest : List Entry) (w : State) :
    Prop
    extends Producing N dur ss rest (w.cur .lastPersistedHead) (w.cur .lastPersistedTail) w where
  published : w.log.published = w.log.enqueued.length

/-- No session is under way. -/
def Idle (N : Nat) (dur : Bool) (w : State) : Prop := Ready N dur w.log.sessions [] w

section Stable

variable {ss : List SessionRecord} {rest : List Entry} {head tail : Nat} {u v : State}

theorem Holding.congr (h : Holding N dur ss rest head tail u) (he : v.log.enqueued = u.log.enqueued)
    (hs : v.log.sessions = u.log.sessions) (hb : base dur u ≤ base dur v) :
    Holding N dur ss rest head tail v := by
  obtain ⟨c, hc, hh, hlt⟩ := h.head
  refine ⟨⟨c, hc.trans hb, hh, ?_⟩, ?_, ?_, ?_⟩
  · rw [he]; exact hlt
  · rw [he]; exact h.tail
  · rw [he]; exact h.rest
  · rw [hs]; exact h.sessions

theorem Producing.congr (h : Producing N dur ss rest head tail u)
    (hl : v.log.toFrontLog = u.log.toFrontLog)
    (hb : base dur u ≤ base dur v) (hd : v.Durable .frontEnd .remoteTail) :
    Producing N dur ss rest head tail v := by
  refine ⟨h.toHolding.congr (by rw [hl]) (by rw [hl]) hb, ?_, hd⟩
  rw [hl]; exact h.shown

theorem Producing.stable (h : Producing N dur ss rest head tail u) (hr : FrontRely N dur u v) :
    Producing N dur ss rest head tail v :=
  h.congr hr.log hr.base (hr.own.durable _ rfl h.durable)

theorem Published.congr (h : Published N dur ss rest head tail u)
    (hl : v.log.toFrontLog = u.log.toFrontLog)
    (hb : base dur u ≤ base dur v) : Published N dur ss rest head tail v := by
  refine ⟨h.toHolding.congr (by rw [hl]) (by rw [hl]) hb, ?_⟩
  rw [hl]; exact h.published

theorem Published.stable (h : Published N dur ss rest head tail u) (hr : FrontRely N dur u v) :
    Published N dur ss rest head tail v :=
  h.congr hr.log hr.base

theorem Ready.stable (h : Ready N dur ss rest u) (hr : FrontRely N dur u v) :
    Ready N dur ss rest v := by
  have hp := h.toProducing.stable hr
  have hpub : v.log.published = v.log.enqueued.length := by rw [hr.log]; exact h.published
  rw [← hr.own.cur .lastPersistedTail rfl] at hp
  obtain ⟨c, hc, -, hlt⟩ := h.head
  rcases hr.head with e | ⟨d, hd, hd', e⟩
  · rw [← e] at hp; exact ⟨hp, hpub⟩
  · refine ⟨⟨⟨⟨d, hd', e, ?_⟩, hp.tail, hp.rest, hp.sessions⟩, hp.shown, hp.durable⟩, hpub⟩
    rw [hr.log]; omega

theorem Idle.stable (h : Idle N dur u) (hr : FrontRely N dur u v) : Idle N dur v := by
  rw [Idle, hr.log]
  exact Ready.stable h hr

end Stable

section Refresh

variable {ss : List SessionRecord} {rest : List Entry} {head tail : Nat} {w : State}

theorem Holding.room (h : Holding N dur ss rest head tail w)
    (hne : (w.log.enqueued.length + 1) % N ≠ head) :
    ∃ c, c ≤ base dur w ∧ head = c % N ∧ w.log.enqueued.length + 1 < c + N := by
  obtain ⟨c, hc, hh, hlt⟩ := h.head
  refine ⟨c, hc, hh, ?_⟩
  by_contra hge
  have he : w.log.enqueued.length + 1 = c + N := by omega
  rw [he, Nat.add_mod_right, hh] at hne
  exact hne rfl

theorem Holding.refresh_remoteHead (hi : RingInv N dur I w) (h : Holding N dur ss rest head tail w)
    (hadm : dur = true → w.per .remoteHead = w.cur .remoteHead) :
    Holding N dur ss rest (w.cur .remoteHead) tail w := by
  have hb : base dur w = w.log.committed := by
    cases dur with
    | false => rfl
    | true => exact if_pos (hadm rfl)
  refine ⟨⟨base dur w, le_rfl, ?_, hi.counts.room⟩, h.tail, h.rest, h.sessions⟩
  rw [hb]; exact hi.head.cur

/-- The head of the commit loop: `last_persisted_head`, where it lies between
the local head and the freed one. -/
theorem Holding.refresh_lastPersistedHead (hi : RingInv N dur I w)
    (h : Holding N dur ss rest head tail w)
    (hadm : (w.cur .lastPersistedHead + N - head) % N ≤ (freed dur w + N - head) % N) :
    Holding N dur ss rest (w.cur .lastPersistedHead) tail w := by
  obtain ⟨c, hc, rfl, hlt⟩ := h.head
  have hcounts := hi.counts
  have hb := hcounts.base_le_enqueued
  rw [freed_eq hi, Cyclic.distance hc (by omega)] at hadm
  refine ⟨⟨c + (w.cur .lastPersistedHead + N - c % N) % N, ?_, ?_, ?_⟩, h.tail, h.rest, h.sessions⟩
  · exact Nat.add_le_of_le_sub' hc hadm
  · exact (Cyclic.add_distance hi.persistedHead).symm
  · exact hlt.trans_le (Nat.add_le_add_right (Nat.le_add_right c _) N)

end Refresh

section Steps

variable {w : State}

theorem backRely_store {l : Loc} {v : Val l} {f : Log → Log} (hl : ¬ Owned .backEnd l)
    (hb : (f w.log).toBackLog = w.log.toBackLog) (he : w.log.enqueued <+: (f w.log).enqueued)
    (hv : w.log.visible ≤ (f w.log).visible) : BackRely w (w.store l v f) :=
  ⟨.store hl, hb, he, hv⟩

theorem allows_storeSlot {l : Loc} {v : Val l} (hi : RingInv N dur I w)
    (hl : slotOf l = some (w.log.enqueued.length % N)) :
    (ringProtocol N dur I).Allows .frontEnd w (w.store l v id) := by
  have hown := owned_of_slotOf l _ hl
  have hne : ∀ m, slotOf m = none → m ≠ l := by
    rintro m hm rfl
    simp [hm] at hl
  refine allows_frontEnd ?_ (backRely_store hown.not_backEnd rfl (List.prefix_refl _) le_rfl)
  refine hi.congr hi.quiet (.store (hne _ rfl)) (.store (hne _ rfl)) ?_ ?_ rfl rfl ?_
  · exact World.store_cur_of_ne w _ l id v (hne _ rfl)
  · rw [World.store_cur_of_ne w _ l id v (hne _ rfl)]; exact hi.persistedHead
  · exact hi.filled.store hi.counts.room hl

theorem allows_flushSlot (hi : RingInv N dur I w) :
    (ringProtocol N dur I).Allows .frontEnd w
      (w.flush .frontEnd (slotLocs (w.log.enqueued.length % N))) := by
  have hne : ∀ l, slotOf l = none → l ∉ slotLocs (w.log.enqueued.length % N) := by
    intro l hl hm
    rw [mem_slotLocs, hl] at hm
    cases hm
  refine allows_frontEnd ?_ ⟨.flush (by decide), rfl, List.prefix_refl _, le_rfl⟩
  refine hi.congr ?_ (.flush (hne _ rfl)) (.flush (hne _ rfl)) rfl hi.persistedHead rfl rfl ?_
  · exact hi.quiet.flush (fun l hl => owned_of_slotOf l _ (mem_slotLocs.mp hl))
  · exact hi.filled.flush hi.counts.room

theorem allows_fence (hi : RingInv N dur I w) :
    (ringProtocol N dur I).Allows .frontEnd w (w.fence .frontEnd) :=
  allows_frontEnd (hi.fence .frontEnd).1
    ⟨hi.quiet.undisturbed_fence (by decide), rfl, List.prefix_refl _, le_rfl⟩

theorem allows_append (hi : RingInv N dur I w) {e : Entry} {rest : List Entry}
    (hrest : w.log.enqueued ++ e :: rest = entries (logged w.log.sessions))
    (hroom : w.log.enqueued.length + 1 < base dur w + N)
    (he : ∀ s ∈ entryStores (w.log.enqueued.length % N) e, w.cur s.1 = s.2 ∧
      w.Settled .frontEnd s.1) :
    (ringProtocol N dur I).Allows .frontEnd w
      { w with log := { w.log with enqueued := w.log.enqueued ++ [e] } } := by
  have hpre : w.log.enqueued <+: w.log.enqueued ++ [e] := List.prefix_append _ _
  refine allows_frontEnd ?_ ⟨.record _, rfl, hpre, le_rfl⟩
  have hh := hi.history
  have hc := hi.counts
  refine ⟨hi.quiet, hi.head.untouched (.record _), hi.tail.untouched (.record _),
    hi.shown, hi.persistedHead, ?_, ?_, ?_, hi.extra⟩
  · exact
      { hc with
        published_le := hc.published_le.trans (by simp)
        room := by rw [List.length_append]; exact hroom }
  · exact (hi.filled.append hc.published_le he).undisturbed le_rfl owned_of_slotOf (.record _)
  · exact
      { hh with
        enqueued := ⟨rest, by rw [List.append_assoc]; exact hrest⟩
        dequeued := hh.dequeued.trans hpre
        published := hh.published.of_isPrefix hpre
        publishedBefore := hh.publishedBefore.of_isPrefix hpre
        committed := hh.committed.of_isPrefix hpre
        committedBefore := hh.committedBefore.of_isPrefix hpre }

theorem allows_publish (hi : RingInv N dur I w) (hd : w.Durable .frontEnd .remoteTail)
    (hshown : w.log.visible = w.log.published)
    (hfill : Filled N (base dur w) w.log.enqueued w.log.enqueued.length w)
    (hb : AtBoundary w.log.enqueued w.log.enqueued.length) :
    (ringProtocol N dur I).Allows .frontEnd w
      (w.store .remoteTail (w.log.enqueued.length % N)
        (fun g => { g with published := g.enqueued.length, publishedBefore := g.published })) := by
  refine allows_frontEnd ?_ (backRely_store (by decide) rfl (List.prefix_refl _) le_rfl)
  have hc := hi.counts
  have hle := hc.base_le_enqueued
  have ht := durableTail_of_durable hd
  refine ⟨hi.quiet, hi.head.store_of_ne (by decide), hi.tail.store_self hd, ?_, ?_,
    ?_, ?_, ?_, hi.extra⟩
  · exact (World.store_cur_of_ne w _ _ _ _ (by decide)).trans hi.shown
  · rw [World.store_cur_of_ne w _ _ _ _ (by decide)]; exact hi.persistedHead
  · have hack := hc.acknowledged_le
    have hroom := hc.room
    rw [ht] at hack
    constructor
    case before_le_tail | visible_le | acknowledged_le | tail_le =>
      simp only [durableTail, World.store_log]; split <;> omega
    case tail_turn => simp; omega
    case published_le => exact le_rfl
    all_goals first
      | exact hc.before_le_base
      | exact hc.base_le
      | exact hc.committed_le
      | exact hc.dequeued_le
      | exact hc.room
      | exact hc.head_turn
  · exact hfill.store_of_slotOf rfl
  · exact
      { hi.history with
        published := hb
        publishedBefore := hi.history.published }

theorem allows_flushTail (hi : RingInv N dur I w) :
    (ringProtocol N dur I).Allows .frontEnd w (w.flush .frontEnd [.remoteTail]) := by
  refine allows_frontEnd ?_ ⟨.flush (by decide), rfl, List.prefix_refl _, le_rfl⟩
  refine ⟨hi.quiet.flush (by simp [owner]), hi.head.flush, hi.tail.flush,
    hi.shown, hi.persistedHead, hi.counts, ?_, hi.history, hi.extra⟩
  refine ⟨fun i e s hb he hs => ?_, fun i e s hb hn he hs => ?_⟩
  · exact ⟨(hi.filled.stored i e s hb he hs).1,
      World.settled_flush (hi.filled.stored i e s hb he hs).2⟩
  · have hne : s.1 ∉ [Loc.remoteTail] := by
      intro hm
      have := slotOf_of_mem hs
      rw [List.mem_singleton.mp hm] at this
      cases this
    rw [World.Durable, World.flush_pending_of_not_mem w _ _ s.1 _ hne]
    exact hi.filled.durable i e s hb hn he hs

theorem allows_show {f : Log → Log} {tail : Nat} (hi : RingInv N dur I w)
    (hd : w.Durable .frontEnd .remoteTail)
    (hf : f w.log = { w.log with visible := w.log.published }) (ht : tail = w.log.published % N) :
    (ringProtocol N dur I).Allows .frontEnd w (w.store .lastPersistedTail tail f) := by
  have hc := hi.counts
  have hle := hc.base_le_enqueued
  have hdt := durableTail_of_durable hd
  have hvis := hc.visible_le.trans hc.tail_le
  refine allows_frontEnd ?_
    (backRely_store (by decide) (by rw [hf]) (by rw [hf]) (by rw [hf]; exact hvis))
  have hlog : (w.store .lastPersistedTail tail f).log = { w.log with visible := w.log.published } :=
    hf
  have hdt' : durableTail (w.store .lastPersistedTail tail f) = w.log.published := by
    rw [← hdt, durableTail, hlog]; rfl
  have hbase : base dur (w.store .lastPersistedTail tail f) = base dur w :=
    base_congr rfl rfl (by rw [hlog])
  have hph :=
    lt_of_eq_of_lt (World.store_cur_of_ne w .lastPersistedHead
      .lastPersistedTail f tail (by decide))
    hi.persistedHead
  refine ⟨hi.quiet, ?_, ?_, ?_, hph, ?_, ?_, ?_, ?_⟩ <;> rw [hlog]
  · exact hi.head.store_of_ne (by decide)
  · exact hi.tail.store_of_ne (by decide)
  · rw [World.store_cur_self]; exact ht
  · rw [hdt', hbase]
    exact
      { hc with
        dequeued_le := hc.dequeued_le.trans hvis
        visible_le := le_rfl
        acknowledged_le := hdt ▸ hc.acknowledged_le
        before_le_tail := hdt ▸ hc.before_le_tail
        tail_le := le_rfl }
  · rw [hbase]
    exact hi.filled.store_of_slotOf rfl
  · exact { hi.history with }
  · exact hi.extra

theorem allows_acknowledge (hi : RingInv N dur I w) (hd : w.Durable .frontEnd .remoteTail) :
    (ringProtocol N dur I).Allows .frontEnd w
      { w with log := { w.log with acknowledged := w.log.published } } := by
  refine allows_frontEnd ?_ ⟨.record _, rfl, List.prefix_refl _, le_rfl⟩
  refine ⟨hi.quiet, hi.head.untouched (.record _), hi.tail.untouched (.record _),
    hi.shown, hi.persistedHead, ?_, ?_, { hi.history with }, hi.extra⟩
  · exact { hi.counts with acknowledged_le := (durableTail_of_durable hd).ge }
  · exact hi.filled.undisturbed le_rfl owned_of_slotOf (.record _)

theorem allows_setHead {head : Nat} (hi : RingInv N dur I w) (hh : head < N) :
    (ringProtocol N dur I).Allows .frontEnd w (w.store .lastPersistedHead head id) := by
  refine allows_frontEnd ?_ (backRely_store (by decide) rfl (List.prefix_refl _) le_rfl)
  refine hi.congr hi.quiet (.store (by decide)) (.store (by decide)) ?_ ?_ rfl rfl ?_
  · exact World.store_cur_of_ne w _ _ id _ (by decide)
  · rw [World.store_cur_self]; exact hh
  · exact hi.filled.undisturbed le_rfl owned_of_slotOf (.store (by decide))

theorem allows_session {bs : List (List Entry)} {memory : Nat → UInt8} (hi : RingInv N dur I w)
    (hbs : ∀ es ∈ bs, .commit ∉ es) (hrest : w.log.enqueued ++ [] = entries (logged w.log.sessions))
    (hI : I (⟨w.log.enqueued.length, bs, memory⟩ :: w.log.sessions)) :
    (ringProtocol N dur I).Allows .frontEnd w
      { w with
        log :=
          { w.log with sessions := ⟨w.log.enqueued.length, bs, memory⟩ :: w.log.sessions } } := by
  have hh := hi.history
  rw [List.append_nil] at hrest
  refine allows_frontEnd ?_ ⟨.record _, rfl, List.prefix_refl _, le_rfl⟩
  refine ⟨hi.quiet, hi.head.untouched (.record _), hi.tail.untouched (.record _),
    hi.shown, hi.persistedHead,
    { hi.counts with }, hi.filled.undisturbed le_rfl owned_of_slotOf (.record _), ?_, hI⟩
  refine { hh with
    plain := ?_, aligned := ⟨congrArg List.length hrest, hh.aligned⟩, enqueued := ?_ }
  · intro es hes
    rcases List.mem_append.mp hes with h | h
    · exact hh.plain es h
    · exact hbs es h
  · rw [logged, entries_append]
    exact hh.enqueued.trans (List.prefix_append _ _)

end Steps

end Mangosteen.Producer
