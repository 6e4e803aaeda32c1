import Mangosteen.Channel

namespace Mangosteen.Dequeue

open PersistentMemory Prog Memory RingBuffer RegionTable BackEnd Session Slots Channel

variable {N : Nat} {dur : Bool} {I : List SessionRecord → Prop}

/-- The consumer's own head and tail, when it has taken `n` entries and knows of
at least `m`. -/
structure Copies (N n m : Nat) (w : State) : Prop where
  head : w.cur .globalLocalHead = n % N
  tail : ∃ k, m ≤ k ∧ k ≤ w.log.visible ∧ w.cur .globalLocalTail = k % N

structure Taken (N n m : Nat) (w : State) : Prop extends Copies N n m w where
  durable : w.Durable .backEnd .remoteHead

/-- The consumer between two entries. -/
def Resting (N : Nat) (w : State) : Prop := Taken N w.log.dequeued.length w.log.dequeued.length w

theorem Copies.congr {n m : Nat} {u v : State} (h : Copies N n m u)
    (hh : v.cur .globalLocalHead = u.cur .globalLocalHead)
    (ht : v.cur .globalLocalTail = u.cur .globalLocalTail) (hv : u.log.visible ≤ v.log.visible) :
    Copies N n m v := by
  obtain ⟨k, hm, hk, htl⟩ := h.tail
  exact ⟨hh.trans h.head, k, hm, hk.trans hv, ht.trans htl⟩

theorem Copies.stable {n m : Nat} {u v : State} (h : Copies N n m u) (hr : BackRely u v) :
    Copies N n m v :=
  h.congr (hr.own.cur .globalLocalHead rfl) (hr.own.cur .globalLocalTail rfl) hr.visible

theorem Taken.stable {n m : Nat} {u v : State} (h : Taken N n m u) (hr : BackRely u v) :
    Taken N n m v :=
  ⟨h.toCopies.stable hr, hr.own.durable .remoteHead rfl h.durable⟩

theorem Resting.stable {u v : State} (h : Resting N u) (hr : BackRely u v) : Resting N v := by
  rw [Resting, hr.log]
  exact Taken.stable h hr

/-- The back end's locations that the ring does not depend on. -/
def Aside (l : Loc) : Prop :=
  Owned .backEnd l ∧ l ≠ .remoteHead ∧ l ≠ .globalLocalHead ∧ l ≠ .globalLocalTail

def SameRing (g g' : Log) : Prop := g'.toFrontLog = g.toFrontLog ∧ g'.toBackLog = g.toBackLog

section Steps

variable {u w : State}

theorem frontRely_of {l : Loc} {v : Val l} {f : Log → Log} (hl : ¬ Owned .frontEnd l)
    (hh : l ≠ .remoteHead) (hp : l ≠ .lastPersistedHead)
    (hf : (f w.log).toFrontLog = w.log.toFrontLog)
    (hb : (f w.log).committed = w.log.committed)
    (hb' : (f w.log).committedBefore = w.log.committedBefore) :
    FrontRely N dur w (w.store l v f) := by
  have hc : (w.store l v f).cur .remoteHead = w.cur .remoteHead :=
    World.store_cur_of_ne w _ l f v hh.symm
  refine ⟨.store hl, hf, ?_, .inl (World.store_cur_of_ne w _ l f v hp.symm)⟩
  simp only [base, durableHead, hc, World.store_per, World.store_log, hb, hb']
  exact le_rfl

theorem quiet_of_frame (hq : Quiet owner w) (hf : Frame Aside SameRing .backEnd w u) :
    Quiet owner u := by
  intro b l hb
  cases b with
  | frontEnd =>
      rcases hf.others l .frontEnd (by decide) with h | h
      · rw [h]; exact hq _ l hb
      · exact h
  | backEnd => rw [hf.pending l _ (fun h => hb h.1) (hq _ l hb)]; exact hq _ l hb

theorem allows_frame (hi : RingInv N dur I w) (hd : w.Durable .backEnd .remoteHead)
    (hf : Frame Aside SameRing .backEnd w u) : (ringProtocol N dur I).Allows .backEnd w u := by
  have hsame : ∀ l, ¬ Aside l → w.pending .backEnd l = none → Untouched w u l :=
    fun l hl hn => ⟨hf.cur l hl, hf.per l hl hn, fun a => hf.pending l a hl hn⟩
  have hhead := hsame .remoteHead (by simp [Aside]) hd.1
  have htail := hsame .remoteTail (by simp [Aside, Owned, owner]) (hi.quiet _ _ (by decide))
  have hpers := hf.cur .lastPersistedHead (by simp [Aside, Owned, owner])
  have hown : Undisturbed (Owned .frontEnd) .frontEnd w u := by
    refine hf.undisturbed (fun l hl ha => hl.not_backEnd ha.1) fun l hl => hi.quiet _ l ?_
    exact fun h => hl.not_backEnd h
  refine allows_backEnd ?_
    ⟨hown, hf.log.1, (base_congr hhead.cur hhead.per hf.log.2).ge, .inl hpers⟩
  refine hi.congr (quiet_of_frame hi.quiet hf) hhead htail ?_
    (hpers ▸ hi.persistedHead) hf.log.1 hf.log.2 ?_
  · exact hf.cur _ (by simp [Aside, Owned, owner])
  · exact hi.filled.undisturbed le_rfl owned_of_slotOf hown

theorem taken_frame {n m : Nat} (h : Taken N n m w) (hf : Frame Aside SameRing .backEnd w u) :
    Taken N n m u := by
  refine ⟨h.toCopies.congr (hf.cur _ (by simp [Aside])) (hf.cur _ (by simp [Aside])) ?_, ?_, ?_⟩
  · rw [hf.log.1]
  · rw [hf.pending .remoteHead _ (by simp [Aside]) h.durable.1]; exact h.durable.1
  · rw [hf.per .remoteHead (by simp [Aside]) h.durable.1, hf.cur .remoteHead (by simp [Aside])]
    exact h.durable.2

theorem allows_storeLocal {l : Loc} {v : Val l} (hi : RingInv N dur I w)
    (hl : l = .globalLocalHead ∨ l = .globalLocalTail) :
    (ringProtocol N dur I).Allows .backEnd w (w.store l v id) := by
  have hne : ∀ m, m ≠ .globalLocalHead ∧ m ≠ .globalLocalTail → m ≠ l := by
    rintro m ⟨h, h'⟩ rfl
    exact hl.elim h h'
  have hown : ¬ Owned .frontEnd l := by rcases hl with rfl | rfl <;> decide
  have hc : ∀ m, m ≠ .globalLocalHead ∧ m ≠ .globalLocalTail → (w.store l v id).cur m = w.cur m :=
    fun m hm => World.store_cur_of_ne w m l id v (hne m hm)
  refine allows_backEnd ?_
    (frontRely_of hown (hne _ (by simp)).symm (hne _ (by simp)).symm rfl rfl rfl)
  refine hi.congr hi.quiet (.store (hne _ (by simp))) (.store (hne _ (by simp)))
    (hc _ (by simp)) ?_ rfl rfl ?_
  · rw [hc _ (by simp)]; exact hi.persistedHead
  · exact hi.filled.undisturbed le_rfl owned_of_slotOf (.store hown)

theorem allows_dequeue (hi : RingInv N dur I w) {e : Entry}
    (he : w.log.enqueued[w.log.dequeued.length]? = some e)
    (hv : w.log.dequeued.length < w.log.visible) : (ringProtocol N dur I).Allows .backEnd w
      { w with log := { w.log with dequeued := w.log.dequeued ++ [e] } } := by
  refine allows_backEnd ?_ ⟨.record _, rfl, le_rfl, .inl rfl⟩
  refine ⟨hi.quiet, hi.head.untouched (.record _), hi.tail.untouched (.record _),
    hi.shown, hi.persistedHead,
    ?_, hi.filled.undisturbed le_rfl owned_of_slotOf (.record _), ?_, hi.extra⟩
  · exact
      { hi.counts with
        committed_le := hi.counts.committed_le.trans (by simp)
        dequeued_le := by rw [List.length_append]; exact hv }
  · refine { hi.history with dequeued := ?_ }
    obtain ⟨rest, hrest⟩ := hi.history.dequeued
    rw [← hrest, List.getElem?_append_right le_rfl, Nat.sub_self] at he
    obtain ⟨x, rest', rfl⟩ : ∃ x r, rest = x :: r := by
      cases rest with
      | nil => simp at he
      | cons x r => exact ⟨x, r, rfl⟩
    obtain rfl : x = e := by simpa using he
    exact ⟨rest', by rw [← hrest]; simp⟩

/-- The store to `remote_head`: slots are free from here on, durably so only
after the write-back. -/
theorem allows_commit (hi : RingInv N dur I w) (hd : w.Durable .backEnd .remoteHead)
    (hb : AtBoundary w.log.enqueued w.log.dequeued.length) :
    (ringProtocol N dur I).Allows .backEnd w
      (w.store .remoteHead (w.log.dequeued.length % N)
        (fun g => { g with committed := g.dequeued.length, committedBefore := g.committed })) := by
  have hc := hi.counts
  have hbase : base dur _ = _ := base_of_durable hd
  have hle := hc.base_le_enqueued
  have hdeq : w.log.dequeued.length ≤ w.log.enqueued.length :=
    hc.dequeued_le.trans (hc.visible_le.trans (hc.tail_le.trans hc.published_le))
  rw [hbase] at hc hle
  have hnew : w.log.committed ≤ base dur (w.store .remoteHead (w.log.dequeued.length % N)
        (fun g => { g with committed := g.dequeued.length, committedBefore := g.committed })) ∧
      base dur (w.store .remoteHead (w.log.dequeued.length % N)
        (fun g => { g with committed := g.dequeued.length, committedBefore := g.committed })) ≤
          w.log.dequeued.length := by
    have := hc.committed_le
    simp only [base, durableHead, World.store_log]
    cases dur with
    | false => simpa using this
    | true => simp only [if_true]; split <;> simp <;> omega
  refine allows_backEnd ?_ ⟨.store (by decide), rfl, hbase ▸ hnew.1, .inl ?_⟩
  · refine ⟨hi.quiet, hi.head.store_self hd, hi.tail.store_of_ne (by decide), ?_, ?_,
      ?_, ?_, ?_, hi.extra⟩
    · exact (World.store_cur_of_ne w _ _ _ _ (by decide)).trans hi.shown
    · rw [World.store_cur_of_ne w _ _ _ _ (by decide)]; exact hi.persistedHead
    · have hroom := hc.room
      exact
        { hc with
          before_le_base := hnew.1
          base_le := hnew.2
          committed_le := le_rfl
          room := by simp only [World.store_log]; omega
          head_turn := by simp only [World.store_log]; omega }
    · exact hi.filled.undisturbed (hbase ▸ hnew.1) owned_of_slotOf (.store (by decide))
    · exact
        { hi.history with
          committed := hb
          committedBefore := hi.history.committed }
  · exact World.store_cur_of_ne w _ _ _ _ (by decide)

theorem allows_flushHead (hi : RingInv N dur I w) :
    (ringProtocol N dur I).Allows .backEnd w (w.flush .backEnd [.remoteHead]) := by
  have hown : Undisturbed (Owned .frontEnd) .frontEnd w (w.flush .backEnd [.remoteHead]) :=
    .flush (by decide)
  refine allows_backEnd ?_ ⟨hown, rfl, le_rfl, .inl rfl⟩
  exact ⟨hi.quiet.flush (by simp [owner]), hi.head.flush, hi.tail.flush, hi.shown, hi.persistedHead,
    hi.counts, hi.filled.undisturbed le_rfl owned_of_slotOf hown, hi.history, hi.extra⟩

theorem allows_fence (hi : RingInv N dur I w) :
    (ringProtocol N dur I).Allows .backEnd w (w.fence .backEnd) :=
  allows_backEnd (hi.fence .backEnd).1
    ⟨hi.quiet.undisturbed_fence (by decide), rfl, (hi.fence .backEnd).2, .inl rfl⟩

theorem allows_showHead {head : Nat} (hi : RingInv N dur I w) (hN : 0 < N)
    (hd : w.Durable .backEnd .remoteHead) (hh : head = w.log.committed % N) :
    (ringProtocol N dur I).Allows .backEnd w (w.store .lastPersistedHead head id) := by
  have hc : ∀ m, m ≠ .lastPersistedHead → (w.store .lastPersistedHead head id).cur m = w.cur m :=
    fun m hm => World.store_cur_of_ne w m _ id _ hm
  have hb : base dur (w.store .lastPersistedHead head id) = base dur w :=
    base_congr (hc _ (by decide)) rfl rfl
  refine allows_backEnd ?_ ⟨.store (by decide), rfl, hb.ge, .inr ⟨base dur w, le_rfl, hb.ge, ?_⟩⟩
  · refine hi.congr hi.quiet (.store (by decide)) (.store (by decide))
      (hc _ (by decide)) ?_ rfl rfl ?_
    · rw [World.store_cur_self, hh]; exact Nat.mod_lt _ hN
    · exact hi.filled.undisturbed le_rfl owned_of_slotOf (.store (by decide))
  · rw [World.store_cur_self, base_of_durable hd, hh]

end Steps

end Mangosteen.Dequeue
