import Mangosteen.Delivery
import Mangosteen.Restart

namespace Mangosteen.Incarnations

open PersistentMemory Prog Memory RingBuffer BackEnd Session Slots Channel Producer Enqueue
  Dequeue Consumer Delivery Restart

/-- The batches that a run of entries consists of. -/
def batchesOf : List Entry → List (List Entry)
  | [] => []
  | .commit :: es => [] :: batchesOf es
  | e :: es => match batchesOf es with
    | [] => [[e]]
    | b :: bs => (e :: b) :: bs

/-- What the ring shows after a power failure, as the history of processes that
have come to an end: the entries that `remote_tail` covers have been logged, and
those that `remote_head` has passed have been consumed. -/
def surviving (w : State) : Log :=
  { w.log with
    enqueued := w.log.enqueued.take (durableTail w)
    published := durableTail w
    publishedBefore := durableTail w
    visible := durableTail w
    acknowledged := durableTail w
    sessions := [⟨0, batchesOf (w.log.enqueued.take (durableTail w)), fun _ => 0⟩]
    dequeued := w.log.enqueued.take (durableHead w)
    committed := durableHead w
    committedBefore := durableHead w }

/-- The next launch, with the history that has survived. -/
def relaunch (w : State) : State := { launchMangosteen w with log := surviving w }

inductive Stage
  | replaying
  | replayed
  | running
  deriving DecidableEq

/-- The front end of a process that is not new, up to the point where it has been
woken. Nobody else waits for the semaphore, so its value is left as it is. -/
def startFrontEnd : Code Stage := do
  let _ ← await .semaphore 0
  pure .running

/-- Both processes, in all their launches. A power failure ends them at any moment,
and the next launch recovers, with any memory of its own. -/
def restartSystem (N : Nat) (admits : State → Label Actor Loc Val Log → Prop) :
    System Actor Loc Val Log Stage where
  next a x p := match a, x with
    | .frontEnd, x => x = .running ∧
        ∃ bs memory, (∀ es ∈ bs, Entry.commit ∉ es) ∧ p = (do session N bs memory; pure .running)
    | .backEnd, .replaying =>
      ∃ held, p = (do let more ← replay N held; pure (if more then .replaying else .replayed))
    | .backEnd, .replayed => p = (do store .semaphore 1; pure .running)
    | .backEnd, .running => p = (do runConsumer N; pure .running)
  boot a := match a with
    | .frontEnd => startFrontEnd
    | .backEnd => do startBackEnd; pure .replaying
  reboot := relaunch
  admits

/-- Both processes of the first launch, after the initial synchronisation. -/
def firstLaunch (bytes : Cell → UInt8) (regions : List (Nat × Nat)) :
    Config Actor Loc Val Log Stage :=
  ⟨(initial bytes regions).store .semaphore 1 id, fun _ => .ret .running⟩

section Batches

theorem batchesOf_cons {e : Entry} (he : e ≠ .commit) (es : List Entry) :
    batchesOf (e :: es) = match batchesOf es with
      | [] => [[e]]
      | b :: bs => (e :: b) :: bs := by
  cases e with
  | commit => exact absurd rfl he
  | redo | mmap | transientMmap => rfl

theorem batchesOf_ne_nil {es : List Entry} (hes : es ≠ []) : batchesOf es ≠ [] := by
  cases es with
  | nil => exact absurd rfl hes
  | cons e es =>
      by_cases he : e = .commit
      · subst he; simp [batchesOf]
      · rw [batchesOf_cons he]
        cases batchesOf es <;> simp

theorem entries_batchesOf {es : List Entry} (h : AtBoundary es es.length) :
    entries (batchesOf es) = es := by
  induction es with
  | nil => rfl
  | cons e es ih =>
      by_cases he : e = .commit
      · subst he
        have htail : AtBoundary es es.length := by
          cases es with
          | nil => exact .inl rfl
          | cons e' es => simpa [AtBoundary] using h
        rw [batchesOf, entries, List.flatMap_cons, ← entries, ih htail]
        rfl
      · -- the last entry is a commit entry, so this one is not the last
        cases es with
        | nil => simp [AtBoundary, he] at h
        | cons e' es =>
            have htail := ih (by simpa [AtBoundary] using h)
            rw [batchesOf_cons he]
            cases hb : batchesOf (e' :: es) with
            | nil => exact absurd hb (batchesOf_ne_nil (by simp))
            | cons b bs =>
                rw [hb, entries, List.flatMap_cons] at htail
                rw [← htail, entries, List.flatMap_cons]
                rfl

theorem commit_not_mem_batchesOf (es : List Entry) : ∀ b ∈ batchesOf es, Entry.commit ∉ b := by
  induction es with
  | nil => simp [batchesOf]
  | cons e es ih =>
      by_cases he : e = .commit
      · subst he
        simpa [batchesOf] using ih
      · rw [batchesOf_cons he]
        cases hb : batchesOf es with
        | nil => simpa using Ne.symm he
        | cons b bs =>
            rw [hb] at ih
            simp only [List.mem_cons, forall_eq_or_imp, not_or]
            exact ⟨⟨Ne.symm he, ih b (by simp)⟩, fun c hc => ih c (by simp [hc])⟩

end Batches

theorem atBoundary_take {es : List Entry} {k m : Nat} (h : AtBoundary es k) (hk : k ≤ m) :
    AtBoundary (es.take m) k := by
  cases k with
  | zero => exact .inl rfl
  | succ k =>
      refine .inr ?_
      rw [Nat.add_sub_cancel, List.getElem?_take_of_lt (by omega)]
      exact h.resolve_left (Nat.succ_ne_zero k)

section Relaunch

variable {N : Nat} {w : State}

theorem relaunch_cur {l : Loc} (w : State) (h₁ : l ≠ .globalLocalTail) (h₂ : l ≠ .globalLocalHead)
    (h₃ : l ≠ .lastPersistedHead) (h₄ : l ≠ .lastPersistedTail) (h₅ : l ≠ .numberOfEntries) :
    (relaunch w).cur l = (volatileValue l).getD (w.per l) :=
  launchMangosteen_cur w h₁ h₂ h₃ h₄ h₅

theorem relaunch_durable {l : Loc} (w : State) (a : Actor) (h₁ : l ≠ .globalLocalTail)
    (h₂ : l ≠ .globalLocalHead)
    (h₃ : l ≠ .lastPersistedHead) (h₄ : l ≠ .lastPersistedTail) (h₅ : l ≠ .numberOfEntries) :
    (relaunch w).Durable a l :=
  ⟨rfl, (relaunch_cur w h₁ h₂ h₃ h₄ h₅).symm⟩

theorem per_remoteHead {I : List SessionRecord → Prop} (h : RingInv N true I w) :
    w.per .remoteHead = durableHead w % N :=
  freed_eq h

theorem launched_indices (w : State) : (relaunch w).cur .globalLocalHead = w.per .remoteHead ∧
    (relaunch w).cur .globalLocalTail = w.per .remoteTail ∧
    (relaunch w).cur .lastPersistedHead = w.per .remoteHead ∧
    (relaunch w).cur .lastPersistedTail = w.per .remoteTail := by
  refine ⟨launchMangosteen_globalLocalHead w, ?_, ?_, ?_⟩ <;>
    simp [relaunch, launchMangosteen, regionTableCreateOrOpen, ringBufferCreateAndInitialise,
      World.store_cur_of_ne, powerFailure, volatileValue]

section Inv

variable {I : List SessionRecord → Prop} (h : RingInv N true I w)
include h

theorem durableHead_le :
    durableHead w ≤ w.log.dequeued.length ∧ w.log.dequeued.length ≤ durableTail w ∧
    durableTail w ≤ w.log.enqueued.length := by
  have hc := h.counts
  exact ⟨hc.base_le.trans hc.committed_le, hc.dequeued_le.trans hc.visible_le,
    hc.tail_le.trans hc.published_le⟩

theorem filled_relaunch :
    Filled N (durableHead w) (w.log.enqueued.take (durableTail w))
    (durableTail w) (relaunch w) := by
  have hdur : ∀ a l slot, slotOf l = some slot → (relaunch w).cur l = w.per l ∧
      (relaunch w).Durable a l := by
    intro a l slot hl
    cases l with
    | entryType | entryAddr | entrySize | payload =>
        exact ⟨relaunch_cur w (by simp) (by simp) (by simp) (by simp) (by simp),
          relaunch_durable w a (by simp) (by simp) (by simp) (by simp) (by simp)⟩
    | _ => cases hl
  have hget : ∀ {i e}, (w.log.enqueued.take (durableTail w))[i]? = some e →
      i < durableTail w ∧ w.log.enqueued[i]? = some e := by
    intro i e he
    have hi := (List.getElem?_eq_some_iff.mp he).1
    rw [List.length_take] at hi
    rw [List.getElem?_take_of_lt (by omega)] at he
    exact ⟨by omega, he⟩
  constructor
  · intro i e s hb he hs
    obtain ⟨hi, he⟩ := hget he
    obtain ⟨hcur, hd⟩ := hdur .frontEnd s.1 _ (slotOf_of_mem hs)
    exact ⟨hcur.trans (h.filled.holds_per hb (hi.trans_le h.counts.tail_le) he s hs), hd.settled⟩
  · intro i e s _ _ _ hs
    exact (hdur .frontEnd s.1 _ (slotOf_of_mem hs)).2

theorem ringInv_relaunch (hN : 1 < N) : RingInv N true (fun _ => True) (relaunch w) := by
  obtain ⟨hht, hdt, htl⟩ := durableHead_le h
  obtain ⟨-, -, hlph, hlpt⟩ := launched_indices w
  have hlen : (w.log.enqueued.take (durableTail w)).length = durableTail w := by
    rw [List.length_take]; omega
  have hhead : (relaunch w).Durable .backEnd .remoteHead :=
    relaunch_durable w _ (by decide) (by decide) (by decide) (by decide) (by decide)
  have htail : (relaunch w).Durable .frontEnd .remoteTail :=
    relaunch_durable w _ (by decide) (by decide) (by decide) (by decide) (by decide)
  have hbase : base true (relaunch w) = durableHead w := base_of_durable hhead
  have htail' : durableTail (relaunch w) = durableTail w := durableTail_of_durable htail
  have hheadIs : (relaunch w).per .remoteHead = durableHead w % N := per_remoteHead h
  have htailIs : (relaunch w).per .remoteTail = durableTail w % N := per_remoteTail h
  have hroom : w.log.enqueued.length < durableHead w + N := h.counts.room
  refine ⟨fun _ _ _ => rfl, ⟨hhead.2.symm.trans hheadIs, .inl hheadIs, .inl rfl⟩,
    ⟨htail.2.symm.trans htailIs, .inl htailIs, .inl rfl⟩, hlpt.trans htailIs,
    ?_, ?_, ?_, ?_, trivial⟩
  · rw [hlph, per_remoteHead h]
    exact Nat.mod_lt _ (by omega)
  · rw [hbase, htail']
    constructor <;> simp only [relaunch, surviving, hlen, List.length_take] <;> omega
  · rw [hbase]
    exact filled_relaunch h
  · have hbd : AtBoundary (w.log.enqueued.take (durableTail w)) (durableTail w) :=
      atBoundary_take (atBoundary_durableTail h.history) le_rfl
    have hhd : AtBoundary (w.log.enqueued.take (durableTail w)) (durableHead w) :=
      atBoundary_take (atBoundary_durableHead h.history) (hht.trans hdt)
    have hes : entries (batchesOf (w.log.enqueued.take (durableTail w))) =
        w.log.enqueued.take (durableTail w) :=
      entries_batchesOf (by rw [hlen]; exact hbd)
    refine ⟨?_, ⟨rfl, trivial⟩, ?_, ?_, hbd, hbd, hhd, hhd⟩
    · exact commit_not_mem_batchesOf _
    · simp only [relaunch, surviving, logged, List.nil_append, hes]
      exact List.prefix_refl _
    · exact List.take_prefix_take_left (hht.trans hdt)

theorem idle_relaunch : Idle N true (relaunch w) := by
  obtain ⟨hht, hdt, htl⟩ := durableHead_le h
  obtain ⟨-, -, hlph, hlpt⟩ := launched_indices w
  have hlen : (w.log.enqueued.take (durableTail w)).length = durableTail w := by
    rw [List.length_take]; omega
  have hhead : (relaunch w).Durable .backEnd .remoteHead :=
    relaunch_durable w _ (by decide) (by decide) (by decide) (by decide) (by decide)
  have htail : (relaunch w).Durable .frontEnd .remoteTail :=
    relaunch_durable w _ (by decide) (by decide) (by decide) (by decide) (by decide)
  have hroom : w.log.enqueued.length < durableHead w + N := h.counts.room
  have hes : entries (batchesOf (w.log.enqueued.take (durableTail w))) =
      w.log.enqueued.take (durableTail w) :=
    entries_batchesOf (by
      rw [hlen]; exact atBoundary_take (atBoundary_durableTail h.history) le_rfl)
  refine ⟨⟨⟨⟨durableHead w, (base_of_durable hhead).ge, hlph.trans (per_remoteHead h), ?_⟩, ?_, ?_,
    rfl⟩, rfl, htail⟩, hlen.symm⟩
  · simp only [relaunch, surviving, hlen]
    omega
  · simp only [relaunch, surviving, hlen]
    exact hlpt.trans (per_remoteTail h)
  · simp only [relaunch, surviving, logged, List.nil_append, List.append_nil, hes]

theorem resting_relaunch : Resting N (relaunch w) := by
  obtain ⟨hht, hdt, htl⟩ := durableHead_le h
  obtain ⟨hglh, hglt, -, -⟩ := launched_indices w
  have hlen : (w.log.enqueued.take (durableHead w)).length = durableHead w := by
    rw [List.length_take]; omega
  refine ⟨⟨?_, durableTail w, ?_, le_rfl, hglt.trans (per_remoteTail h)⟩,
    relaunch_durable w _ (by decide) (by decide) (by decide) (by decide) (by decide)⟩
  · simp only [relaunch, surviving, hlen]
    exact hglh.trans (per_remoteHead h)
  · simp only [relaunch, surviving, hlen]
    exact hht.trans hdt

end Inv

end Relaunch

end Mangosteen.Incarnations
