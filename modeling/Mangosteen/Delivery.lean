import Mangosteen.Consumer
import Mangosteen.Enqueue
import Mangosteen.SoloBackEnd

namespace Mangosteen.Delivery

open PersistentMemory Prog Memory RingBuffer BackEnd Session Slots Channel Producer
  Enqueue Dequeue Consumer SoloRing Overrun SoloBackEnd

variable {N : Nat} {dur : Bool} {I : List SessionRecord → Prop}
variable {bytes : Cell → UInt8} {regions : List (Nat × Nat)}

theorem durable_initial (a : Actor) (l : Loc) : (initial bytes regions).Durable a l := ⟨rfl, rfl⟩

theorem ringInv_initial (hN : 1 < N) (hI : I []) : RingInv N dur I (initial bytes regions) := by
  have hbase : base dur (initial bytes regions) = 0 := base_of_durable (durable_initial _ _)
  have htail : durableTail (initial bytes regions) = 0 :=
    durableTail_of_durable (durable_initial _ _)
  refine ⟨fun _ _ _ => rfl, ⟨?_, .inl ?_, .inl rfl⟩, ⟨?_, .inl ?_, .inl rfl⟩,
    ?_, ?_, ?_, ?_, ?_, hI⟩
  · exact (Nat.zero_mod N).symm
  · exact (Nat.zero_mod N).symm
  · exact (Nat.zero_mod N).symm
  · exact (Nat.zero_mod N).symm
  · exact (Nat.zero_mod N).symm
  · exact Nat.lt_of_succ_lt hN
  · rw [hbase, htail]
    constructor <;> simp [initial] <;> omega
  · constructor <;> intro i e s <;> simp [initial]
  · exact ⟨by simp [initial, logged], trivial, by simp [initial], by
      simp [initial], .inl rfl, .inl rfl,
      .inl rfl, .inl rfl⟩

theorem idle_initial (hN : 1 < N) : Idle N dur (initial bytes regions) := by
  refine ⟨⟨⟨⟨0, Nat.zero_le _, ?_, ?_⟩, ?_, rfl, rfl⟩, rfl, durable_initial _ _⟩, rfl⟩
  · exact (Nat.zero_mod N).symm
  · simp [initial]; omega
  · exact (Nat.zero_mod N).symm

theorem resting_initial : Resting N (initial bytes regions) :=
  ⟨⟨(Nat.zero_mod N).symm, 0, Nat.zero_le _, Nat.zero_le _, (Nat.zero_mod N).symm⟩,
    durable_initial _ _⟩

/-- A system whose front end logs one session after the other and whose back end
consumes them. `J` relates the phase the front end is in to the sessions so far,
and with it the sessions keep `I`. -/
structure Serves {Phase : Type} (S : System Actor Loc Val Log Phase) (N : Nat)
    (I : List SessionRecord → Prop) (J : Phase → List SessionRecord → Prop) : Prop where
  front : ∀ x p, S.next .frontEnd x p → ∃ bs memory y,
    p = (session N bs memory >>= fun _ => .ret y) ∧ (∀ es ∈ bs, .commit ∉ es) ∧
    ∀ start ss, I ss → J x ss → I (⟨start, bs, memory⟩ :: ss) ∧ J y (⟨start, bs, memory⟩ :: ss)
  back : ∀ x p, S.next .backEnd x p → ∃ y, p = (runConsumer N >>= fun _ => .ret y)
  frontBoot : ∃ x, S.boot .frontEnd = .ret x ∧ J x []
  backBoot : ∃ x, S.boot .backEnd = .ret x
  noCrash : ∀ w, ¬ S.admits w .crash

/-- What each process knows whenever it is between two of its programs. -/
def AtRest {Phase : Type} (N : Nat) (dur : Bool) (J : Phase → List SessionRecord → Prop) :
    Actor → Phase → State → Prop
  | .frontEnd, x, w => Idle N dur w ∧ J x w.log.sessions
  | .backEnd, _, w => Resting N w

section Serves

variable {Phase : Type} {S : System Actor Loc Val Log Phase} {J : Phase → List SessionRecord → Prop}

theorem AtRest.stable {a : Actor} {x : Phase} {u v : State} (h : AtRest N dur J a x u)
    (hr : (ringProtocol N dur I).rely a u v) : AtRest N dur J a x v := by
  cases a with
  | frontEnd =>
      refine ⟨h.1.stable hr, ?_⟩
      rw [show v.log.toFrontLog = u.log.toFrontLog from hr.log]
      exact h.2
  | backEnd => exact Resting.stable h hr

theorem ensures_next (hs : Serves S N I J) (hN : 1 < N)
    (hadm : ∀ w label, S.admits w label → admitsHead N dur w label)
    {a : Actor} {x : Phase} {p : Code Phase} {w : State} (hw : RingInv N dur I w)
    (hrest : AtRest N dur J a x w)
    (hp : S.next a x p) : Ensures S (ringProtocol N dur I) a p (AtRest N dur J a) w := by
  cases a with
  | frontEnd =>
      obtain ⟨bs, memory, y, rfl, hbs, hI⟩ := hs.front x p hp
      obtain ⟨hi, hj⟩ := hI w.log.enqueued.length w.log.sessions hw.extra hrest.2
      refine ensures_session hadm hN hbs hrest.1 hi fun u _ hidle hsess => ?_
      exact Ensures.ret fun v hr _ => AtRest.stable (a := .frontEnd) (I := I) ⟨hidle, hsess ▸ hj⟩ hr
  | backEnd =>
      obtain ⟨y, rfl⟩ := hs.back x p hp
      refine Ensures.bind hw ((ensures_runConsumer hN hrest).mono fun _ u _ hrest => ?_)
      exact Ensures.ret fun v hr _ => Resting.stable hrest hr

/-- The invariant of the ring holds in every run whose full producers learn of
free slots as `admitsHead` demands. -/
theorem ringInv_of_reachable {c : Config Actor Loc Val Log Phase} (hs : Serves S N I J)
    (hN : 1 < N) (hI : I []) (hadm : ∀ w label, S.admits w label → admitsHead N dur w label)
    (h : S.Reachable (initial bytes regions) c) : RingInv N dur I c.world := by
  refine (h.ensures (P := ringProtocol N dur I) (Q := AtRest N dur J)
    (ringInv_initial hN hI) ?_ ?_ ?_ ?_).1
  · intro a
    cases a with
    | frontEnd =>
        obtain ⟨x, hx, hj⟩ := hs.frontBoot
        rw [hx]
        exact Ensures.ret fun u hr _ => AtRest.stable (a := .frontEnd) (I := I)
          ⟨idle_initial hN, hj⟩ hr
    | backEnd =>
        obtain ⟨x, hx⟩ := hs.backBoot
        rw [hx]
        exact Ensures.ret fun u hr _ => Resting.stable resting_initial hr
  · exact fun a x p w hw hrest hp => ensures_next hs hN hadm hw hrest hp
  · exact fun w l hw _ => ⟨(hw.writeBack l).1, rely_writeBack hw l⟩
  · exact fun w _ hc => absurd hc (hs.noCrash w)

end Serves

theorem serves_ringSystem (admits : State → Label Actor Loc Val Log → Prop) :
    Serves (ringSystem N admits) N (fun _ => True) (fun _ _ => True) where
  front := by
    rintro x _ ⟨bs, memory, hbs, rfl⟩
    exact ⟨bs, memory, (), (Prog.bind_ret _).symm, hbs, fun _ _ _ _ => ⟨trivial, trivial⟩⟩
  back := by
    rintro x _ rfl
    exact ⟨(), (Prog.bind_ret _).symm⟩
  frontBoot := ⟨(), rfl, trivial⟩
  backBoot := ⟨(), rfl⟩
  noCrash _ h := h.1 rfl

/-- A queue that delivers: the consumer has read a prefix of what was enqueued,
every entry from the committed head on is still in its slot, and whatever was
read belongs to a batch whose commit entry has been published. -/
structure Fifo (N : Nat) (w : State) : Prop where
  order : w.log.dequeued <+: w.log.enqueued
  intact : ∀ i e, w.log.committed ≤ i → w.log.enqueued[i]? = some e → Holds w.cur (i % N) e
  released : ∀ i, i < w.log.dequeued.length →
    ∃ j, i ≤ j ∧ j < w.log.published ∧ w.log.enqueued[j]? = some .commit

theorem AtBoundary.exists_commit {es : List Entry} {k i : Nat} (h : AtBoundary es k) (hi : i < k) :
    ∃ j, i ≤ j ∧ j < k ∧ es[j]? = some .commit := by
  rcases h with rfl | h
  · omega
  · exact ⟨k - 1, by omega, by omega, h⟩

theorem fifo_of_ringInv {w : State} (h : RingInv N false I w) : Fifo N w := by
  refine ⟨h.history.dequeued, fun i e hi he => h.filled.holds hi he, fun i hi => ?_⟩
  have hle := h.counts.dequeued_le.trans (h.counts.visible_le.trans h.counts.tail_le)
  exact AtBoundary.exists_commit h.history.published (hi.trans_le hle)

/-- The ring is a queue in every run in which a producer that refreshes its head
from `last_persisted_head` finds there a value between the head it had and
`remote_head`. -/
theorem ring_fifo (N : Nat) (hN : 2 ≤ N) (bytes : Cell → UInt8) (regions : List (Nat × Nat))
    (c : Config Actor Loc Val Log Unit)
    (h : (ringSystem N (admitsHead N false)).Reachable (initial bytes regions) c) :
    Fifo N c.world :=
  fifo_of_ringInv (ringInv_of_reachable (serves_ringSystem _) hN trivial (fun _ _ h => h.2) h)

theorem lenient_admitsHead (dur : Bool) : (ringSystem N (admitsHead N dur)).Lenient .frontEnd :=
  fun _ _ ho => ⟨by simp, admitsHead_of_ne_await N dur ho⟩

theorem unrestricted_admitsHead (dur : Bool) :
    (ringSystem N (admitsHead N dur)).Unrestricted .backEnd :=
  fun _ _ => ⟨by simp, trivial⟩

theorem opens_redo {admits : State → Label Actor Loc Val Log → Prop} (addr : Nat) :
    Opens (ringSystem N admits) N () [[.redo addr fun _ => 0]] (fun _ => 0) () :=
  ⟨[[.redo addr fun _ => 0]], fun _ => 0, by simp, Prog.bind_ret _⟩

theorem consumes_ring {admits : State → Label Actor Loc Val Log → Prop} :
    Consumes (ringSystem N admits) N () :=
  Prog.bind_ret _

theorem reachable_atRest {admits : State → Label Actor Loc Val Log → Prop} {w : State} :
    (ringSystem N admits).Reachable w ⟨w, atRest () ()⟩ := by
  have : (ringSystem N admits).boot = atRest () () := by funext a; cases a <;> rfl
  rw [← this]
  exact .refl

/-- Forty thousand entries have gone through the ring, which has wrapped around. -/
theorem ring_fifo_wrapped :
    ∃ c, (ringSystem ringBufferSize (admitsHead ringBufferSize false)).Reachable
    (initial (fun _ => 0) []) c ∧ c.world.log.enqueued.length = 80000 ∧
    c.world.log.dequeued.length = 80000 ∧ Fifo ringBufferSize c.world := by
  obtain ⟨w, hw, -, he, hd⟩ := exists_transfers (N := ringBufferSize) (lenient_admitsHead false)
    (unrestricted_admitsHead false) (by decide) (level_initial (fun _ => 0) []) reachable_atRest
    ⟨rfl, rfl⟩ (opens_redo 8192) consumes_ring 40000
  exact ⟨_, hw, he, hd, ring_fifo ringBufferSize (by decide) (fun _ => 0) [] _ hw⟩

section Overrun

/-- The ring as the code runs it, with no condition on its steps. -/
def anyRun (N : Nat) : System Actor Loc Val Log Unit := ringSystem N (fun _ _ => True)

theorem unrestricted_anyRun (a : Actor) : (anyRun N).Unrestricted a := fun _ _ => ⟨by simp, trivial⟩

theorem opens_anyRun {bs : List (List Entry)} (hbs : ∀ es ∈ bs, .commit ∉ es) :
    Opens (anyRun N) N () bs (fun _ => 0) () :=
  ⟨bs, fun _ => 0, hbs, Prog.bind_ret _⟩

theorem consumes_anyRun : Consumes (anyRun N) N () := consumes_ring

theorem reachable_initial :
    (anyRun N).Reachable (initial bytes regions) ⟨initial bytes regions, atRest () ()⟩ :=
  reachable_atRest

/-- The entries of zeros written to `n` lines, by stores or by a `memcpy`. Those of
stores are the only batch of their session; after those of a `memcpy` comes one
more, with what else `instrument_stop` finds. -/
def copied (n : Nat) : List Entry :=
  (List.range n).map (fun j => .redo (4096 + 32 * j) (fun _ => 0))

theorem commit_not_mem_copied (n : Nat) : Entry.commit ∉ copied n := by simp [copied]

/-- A ring that is filled while `last_persisted_head` is behind `remote_head`
loses an entry before the consumer has read it. -/
theorem exists_misread_anyRun (bytes : Cell → UInt8) (regions : List (Nat × Nat)) (hN : 9 ≤ N) :
    ∃ c, (anyRun N).Reachable (initial bytes regions) c ∧
    c.world.log.dequeued = [.commit, .commit, .commit, .commit] ∧
    c.world.log.enqueued.take 4 = [.commit, .commit] ++ copied 1 ++ [.commit] := by
  have hlen : 2 + (entries [copied 1]).length + (entries [copied (N - 7), []]).length = N - 1 := by
    simp [entries, closed, copied]; omega
  have hF := unrestricted_anyRun (N := N) .frontEnd
  have hB := unrestricted_anyRun (N := N) .backEnd
  have h₀ : Opens (anyRun N) N () [[]] (fun _ => 0) () := opens_anyRun (by simp)
  have h₃ : Opens (anyRun N) N () [copied 1] (fun _ => 0) () := opens_anyRun (by simp [copied])
  have h₄ : Opens (anyRun N) N () [copied (N - 7), []] (fun _ => 0) () :=
    opens_anyRun (by simp [commit_not_mem_copied])
  have h₅ : Opens (anyRun N) N () [[.redo 4096 (fun _ => 0)], []] (fun _ => 0) () :=
    opens_anyRun (by simp)
  obtain ⟨w, hw, hl⟩ := exists_lapped (x := fun _ => ()) (m := fun _ _ => 0) hF hB
    (fresh_initial bytes regions) reachable_initial
    consumes_anyRun h₀ h₀ h₃ h₄ h₅ (by simp) (by simp) (by omega) hlen
  obtain ⟨u, hu, hm⟩ := exists_misread hF hB (by omega) hw hl consumes_anyRun h₀ h₀
  exact ⟨_, hu, hm.dequeued, by rw [hm.enqueued]; rfl⟩

theorem not_ring_fifo : ¬ ∀ c, (anyRun ringBufferSize).Reachable (initial (fun _ => 0) []) c →
    Fifo ringBufferSize c.world := by
  intro h
  obtain ⟨c, hc, hd, he⟩ := exists_misread_anyRun (N := ringBufferSize) (fun _ => 0) [] (by decide)
  have hpre := List.prefix_iff_eq_take.mp (h c hc).order
  rw [hd, show [Entry.commit, .commit, .commit, .commit].length = 4 from rfl, he] at hpre
  simp [copied] at hpre

end Overrun

end Mangosteen.Delivery
