import Mangosteen.Library.Solo
import Mangosteen.Session
import Mangosteen.Slots

namespace Mangosteen.SoloRing

open PersistentMemory Prog Memory RingBuffer RegionTable BackEnd Session Slots

/-- The memory after an entry has been put into a slot. -/
def logEntry (slot : Nat) (e : Entry) (w : State) : State :=
  { (w.stores (fun _ => id) (entryStores slot e)).flush .frontEnd (slotLocs slot) with
    log := { w.log with enqueued := w.log.enqueued ++ [e] } }

/-- The memory after entries have been put into consecutive slots. -/
def logEntries : Nat → List Entry → State → State
  | _, [], w => w
  | slot, e :: es, w => logEntries (slot + 1) es (logEntry slot e w)

/-- The memory after `remote_tail` has been moved, made durable and shown. -/
def publish (tail : Nat) (w : State) : State :=
  let u := (((w.fence .frontEnd).store .remoteTail tail
    (fun g => { g with published := g.enqueued.length, publishedBefore := g.published })).flush
    .frontEnd
      [.remoteTail]).fence .frontEnd
  let v := u.store .lastPersistedTail tail (fun g => { g with visible := g.published })
  { v with log := { v.log with acknowledged := v.log.published } }

section Entries

variable {slot : Nat} {e : Entry} {es : List Entry} {w : State} {l : Loc}

@[simp] theorem logEntry_log :
    (logEntry slot e w).log = { w.log with enqueued := w.log.enqueued ++ [e] } := rfl

@[simp] theorem logEntry_per : (logEntry slot e w).per = w.per := by simp [logEntry]

theorem logEntry_cur (hl : slotOf l ≠ some slot) : (logEntry slot e w).cur l = w.cur l := by
  refine stores_cur_of_not_mem _ w fun s hs => ?_
  rintro rfl
  exact hl (slotOf_of_mem hs)

theorem logEntry_untouched (hl : slotOf l = none) : Untouched w (logEntry slot e w) l := by
  have hm : l ∉ slotLocs slot := fun h => by simpa [hl] using mem_slotLocs.mp h
  refine ⟨logEntry_cur (by simp [hl]), by simp, fun a => ?_⟩
  exact (World.flush_pending_of_not_mem _ _ a l _ hm).trans (by simp)

theorem holds_logEntry : Holds (logEntry slot e w).cur slot e :=
  fun _ hs => stores_cur_of_mem _ w (fun _ hs _ ht h => eq_of_mem hs ht h) hs

@[simp] theorem logEntries_log :
    (logEntries slot es w).log = { w.log with enqueued := w.log.enqueued ++ es } := by
  induction es generalizing slot w with
  | nil => simp [logEntries]
  | cons e es ih => simp [logEntries, ih]

@[simp] theorem logEntries_per : (logEntries slot es w).per = w.per := by
  induction es generalizing slot w with
  | nil => rfl
  | cons e es ih => simp [logEntries, ih]

theorem logEntries_cur (hl : ∀ i, slotOf l = some i → i < slot) :
    (logEntries slot es w).cur l = w.cur l := by
  induction es generalizing slot w with
  | nil => rfl
  | cons e es ih =>
      refine (ih fun i hi => (hl i hi).trans (Nat.lt_succ_self slot)).trans (logEntry_cur ?_)
      exact fun h => absurd (hl slot h) (lt_irrefl slot)

variable {tail : Nat}

@[simp] theorem publish_log : (publish tail w).log =
    { w.log with
      published := w.log.enqueued.length
      publishedBefore := w.log.published
      visible := w.log.enqueued.length
      acknowledged := w.log.enqueued.length } := rfl

theorem publish_cur (ht : l ≠ .remoteTail) (hp : l ≠ .lastPersistedTail) :
    (publish tail w).cur l = w.cur l := by
  simp [publish, World.store_cur_of_ne, ht, hp]

@[simp] theorem publish_remoteTail : (publish tail w).cur .remoteTail = tail := by
  simp [publish, World.store_cur_of_ne]

@[simp] theorem publish_lastPersistedTail : (publish tail w).cur .lastPersistedTail = tail := by
  simp [publish]

theorem publish_untouched (ht : l ≠ .remoteTail) (hp : l ≠ .lastPersistedTail)
    (hn : w.pending .frontEnd l = none) : Untouched w (publish tail w) l := by
  refine ⟨publish_cur ht hp, ?_, fun a => ?_⟩
  · simp [publish, World.fence, World.flush, ht, hn]
  · simp [publish, World.fence, World.flush, ht, hn]

end Entries

/-- The memory after batches have been logged in consecutive slots. -/
def logBatches : Nat → List (List Entry) → State → State
  | _, [], w => w
  | slot, es :: bs, w => logBatches (slot + es.length + 1) bs
      (publish (slot + es.length + 1) (logEntry (slot + es.length) .commit (logEntries slot es w)))

/-- What is known of the memory after batches have been logged from a slot on. -/
structure Logged (slot : Nat) (bs : List (List Entry)) (w u : State) : Prop where
  persistedTail : u.cur .lastPersistedTail = slot + (entries bs).length
  remoteTail : u.cur .remoteTail = slot + (entries bs).length
  others : ∀ l, l ≠ .lastPersistedTail → l ≠ .remoteTail → l ≠ .lastPersistedHead →
    (∀ i, slotOf l = some i → i < slot) → u.cur l = w.cur l
  closed : ∀ es, bs = [es] → u.cur (.entryType (slot + es.length)) = .commit
  first : ∀ e es, bs = [e :: es] → Holds u.cur slot e
  untouched : ∀ l, slotOf l = none → l ≠ .lastPersistedTail → l ≠ .remoteTail →
    l ≠ .lastPersistedHead → w.pending .frontEnd l = none → Untouched w u l
  enqueued : u.log.enqueued = w.log.enqueued ++ entries bs
  published : u.log.published = u.log.enqueued.length
  acknowledged : u.log.acknowledged = u.log.published
  sessions : w.log.sessions <:+ u.log.sessions
  back : u.log.toBackLog = w.log.toBackLog
  image : u.log.toImageLog = w.log.toImageLog

section Batches

variable {slot : Nat} {bs : List (List Entry)} {w : State} {l : Loc}

theorem logBatches_cur (ht : l ≠ .remoteTail) (hp : l ≠ .lastPersistedTail)
    (hl : ∀ i, slotOf l = some i → i < slot) : (logBatches slot bs w).cur l = w.cur l := by
  induction bs generalizing slot w with
  | nil => rfl
  | cons es bs ih =>
      refine (ih fun i hi => (hl i hi).trans (by omega)).trans ?_
      rw [publish_cur ht hp, logEntry_cur, logEntries_cur hl]
      exact fun h => absurd (hl _ h) (by omega)

theorem logBatches_log : (logBatches slot bs w).log.enqueued = w.log.enqueued ++ entries bs ∧
    (logBatches slot bs w).log.sessions = w.log.sessions ∧
    (logBatches slot bs w).log.toBackLog = w.log.toBackLog ∧
    (logBatches slot bs w).log.toImageLog = w.log.toImageLog := by
  induction bs generalizing slot w with
  | nil => simp [logBatches, entries]
  | cons es bs ih =>
      rw [logBatches]
      obtain ⟨he, hs, hb, hi⟩ := ih
      exact ⟨he.trans (by simp [entries, Session.closed]), hs.trans (by simp),
        hb.trans (by simp), hi.trans (by simp)⟩

theorem logBatches_tail (hbs : bs ≠ []) :
    (logBatches slot bs w).cur .lastPersistedTail = slot + (entries bs).length ∧
      (logBatches slot bs w).cur .remoteTail = slot + (entries bs).length := by
  induction bs generalizing slot w with
  | nil => exact absurd rfl hbs
  | cons es bs ih =>
      have hlen : slot + (entries (es :: bs)).length = slot + es.length + 1 +
          (entries bs).length := by
        rw [length_entries_cons]; omega
      rw [logBatches, hlen]
      cases bs with
      | nil => simp [logBatches, entries]
      | cons fs bs => exact ih (by simp)

theorem logBatches_published (hbs : bs ≠ []) :
    (logBatches slot bs w).log.published = (logBatches slot bs w).log.enqueued.length ∧
      (logBatches slot bs w).log.acknowledged = (logBatches slot bs w).log.published := by
  induction bs generalizing slot w with
  | nil => exact absurd rfl hbs
  | cons es bs ih =>
      rw [logBatches]
      cases bs with
      | nil => simp [logBatches]
      | cons fs bs => exact ih (by simp)

theorem logEntries_untouched (hl : slotOf l = none) {es : List Entry} :
    Untouched w (logEntries slot es w) l := by
  induction es generalizing slot w with
  | nil => exact ⟨rfl, rfl, fun _ => rfl⟩
  | cons e es ih => exact (logEntry_untouched hl).trans ih

theorem logBatches_untouched (hl : slotOf l = none) (ht : l ≠ .remoteTail)
    (hp : l ≠ .lastPersistedTail)
    (hn : w.pending .frontEnd l = none) : Untouched w (logBatches slot bs w) l := by
  induction bs generalizing slot w with
  | nil => exact ⟨rfl, rfl, fun _ => rfl⟩
  | cons es bs ih =>
      have h : Untouched w (logEntry (slot + es.length) .commit (logEntries slot es w)) l :=
        (logEntries_untouched hl).trans (logEntry_untouched hl)
      have hp : Untouched w (publish (slot + es.length + 1) (logEntry (slot + es.length) .commit
          (logEntries slot es w))) l :=
        h.trans (publish_untouched ht hp ((h.pending _).trans hn))
      exact hp.trans (ih ((hp.pending _).trans hn))

theorem logged_logBatches (hbs : bs ≠ []) : Logged slot bs w (logBatches slot bs w) := by
  obtain ⟨he, hs, hb, hi⟩ := @logBatches_log slot bs w
  obtain ⟨hp, ht⟩ := @logBatches_tail slot bs w hbs
  refine ⟨hp, ht, fun l hp ht _ hl => logBatches_cur ht hp hl, ?_, ?_,
    fun l hl hp ht _ hn => logBatches_untouched hl ht hp hn, he, (logBatches_published hbs).1,
    (logBatches_published hbs).2, hs.symm ▸ List.suffix_refl _, hb, hi⟩
  · rintro es rfl
    rw [logBatches, logBatches, publish_cur (by simp) (by simp)]
    exact holds_logEntry.entryType
  · rintro e es rfl s hs
    have hslot := slotOf_of_mem hs
    rw [logBatches, logBatches, publish_cur (ne_of_slotOf_none hs rfl) (ne_of_slotOf_none hs rfl),
      logEntry_cur (by simp [hslot]), logEntries, logEntries_cur (by simp [hslot])]
    exact holds_logEntry s hs

end Batches

variable {N : Nat} {β Phase : Type} {S : System Actor Loc Val Log Phase}
  {Q : β → State → Prop} {w : State}

section Producer

variable (hS : S.Lenient .frontEnd)
include hS

theorem runs_storeEntry {slot : Nat} {e : Entry} {f : Unit → Code β} :
    S.Runs .frontEnd (storeEntry slot e >>= f) Q w ↔
    S.Runs .frontEnd (f ()) Q (logEntry slot e w) := by
  simp only [storeEntry, Prog.bind_assoc, System.Runs.storeAll hS, System.Runs.flush hS,
    System.Runs.record hS]
  simp [logEntry]

theorem runs_enqueueEntry {e : Entry} {head tail : Nat} {f : Nat × Nat → Code β}
    (hne : nextIndex N tail ≠ head) : S.Runs .frontEnd (enqueueEntry N e head tail >>= f) Q w ↔
      S.Runs .frontEnd (f (head, nextIndex N tail)) Q (logEntry tail e w) := by
  simp only [enqueueEntry, waitForSpace, if_neg hne, Prog.bind_assoc,
    Prog.pure_bind, runs_storeEntry hS]

theorem runs_enqueueEntry_refresh (hU : S.Unrestricted .frontEnd) {e : Entry} {head tail : Nat}
    {f : Nat × Nat → Code β} (he : nextIndex N tail = head) (hb : w.cur .remoteHead ≠ head) :
    S.Runs .frontEnd (enqueueEntry N e head tail >>= f) Q w ↔
      S.Runs .frontEnd (f (w.cur .remoteHead, nextIndex N tail)) Q (logEntry tail e w) := by
  rw [← he] at hb
  simp only [enqueueEntry, waitForSpace, if_pos he, Prog.bind_assoc,
    System.Runs.await hU hb, Prog.pure_bind, runs_storeEntry hS]

theorem runs_publish {tail : Nat} {f : Unit → Code β} :
    S.Runs .frontEnd (do
      fence
      storeRecord .remoteTail tail
        (fun g => { g with published := g.enqueued.length, publishedBefore := g.published })
      flush [.remoteTail]
      fence
      let tail ← load .remoteTail
      storeRecord .lastPersistedTail tail (fun g => { g with visible := g.published })
      record (fun g => { g with acknowledged := g.published })
      f ()) Q w ↔ S.Runs .frontEnd (f ()) Q (publish tail w) := by
  simp only [System.Runs.fence hS, System.Runs.storeRecord hS,
    System.Runs.flush hS, System.Runs.load hS,
    System.Runs.record hS, World.fence_cur, World.flush_cur, World.store_cur_self]
  rfl

theorem runs_commit {head tail : Nat} {f : Nat × Nat → Code β} (hne : nextIndex N tail ≠ head) :
    S.Runs .frontEnd (ringBufferCommitEnqueuedEntries N head tail >>= f) Q w ↔
      S.Runs .frontEnd (f (head, nextIndex N tail)) Q
      (publish (nextIndex N tail) (logEntry tail .commit w)) := by
  simp only [ringBufferCommitEnqueuedEntries, waitForSpace, if_neg hne,
    Prog.bind_assoc, Prog.pure_bind, runs_storeEntry hS]
  exact runs_publish hS (f := fun _ => f (head, nextIndex N tail))

theorem runs_commit_refresh (hU : S.Unrestricted .frontEnd) {head tail : Nat}
    {f : Nat × Nat → Code β} (he : nextIndex N tail = head) (hb : w.cur .lastPersistedHead ≠ head) :
    S.Runs .frontEnd (ringBufferCommitEnqueuedEntries N head tail >>= f) Q w ↔
      S.Runs .frontEnd (f (w.cur .lastPersistedHead, nextIndex N tail)) Q
        (publish (nextIndex N tail) (logEntry tail .commit w)) := by
  rw [← he] at hb
  simp only [ringBufferCommitEnqueuedEntries, waitForSpace, if_pos he, Prog.bind_assoc,
    System.Runs.await hU hb, Prog.pure_bind, runs_storeEntry hS]
  exact runs_publish hS (f := fun _ => f (w.cur .lastPersistedHead, nextIndex N tail))

theorem runs_enqueueAll {es : List Entry} {head tail : Nat}
    {f : Nat × Nat → Code β} (hle : head ≤ tail) (hfit : tail + es.length < N) :
    S.Runs .frontEnd (enqueueAll N es (head, tail) >>= f) Q w ↔
      S.Runs .frontEnd (f (head, tail + es.length)) Q (logEntries tail es w) := by
  induction es generalizing tail w with
  | nil => exact Iff.rfl
  | cons e es ih =>
      simp only [List.length_cons] at hfit
      have hnext : nextIndex N tail = tail + 1 := if_neg (by omega)
      rw [enqueueAll, Prog.bind_assoc, runs_enqueueEntry hS (by rw [hnext]; omega), hnext,
        ih (by omega) (by omega), logEntries, List.length_cons, Nat.add_assoc, Nat.add_comm 1]

theorem runs_batches {bs : List (List Entry)} {head tail : Nat}
    {f : Nat × Nat → Code β} (hle : head ≤ tail) (hfit : tail + (entries bs).length < N) :
    S.Runs .frontEnd (batches N bs (head, tail) >>= f) Q w ↔
      S.Runs .frontEnd (f (head, tail + (entries bs).length)) Q (logBatches tail bs w) := by
  induction bs generalizing tail w with
  | nil => exact Iff.rfl
  | cons es bs ih =>
      rw [length_entries_cons] at hfit ⊢
      have hnext : nextIndex N (tail + es.length) = tail + es.length + 1 := if_neg (by omega)
      simp only [batches, batch, Prog.bind_assoc]
      rw [runs_enqueueAll hS hle (by omega), runs_commit hS (by rw [hnext]; omega), hnext,
        ih (by omega) (by omega), logBatches, ← Nat.add_assoc, ← Nat.add_assoc]

theorem runs_starting {bs : List (List Entry)} {memory : Nat → UInt8} :
    S.Runs .frontEnd (starting bs memory) (fun ht u =>
      ht = (w.cur .lastPersistedHead, w.cur .lastPersistedTail) ∧
      u =
      { w with
        log :=
          { w.log with sessions := ⟨w.log.enqueued.length, bs, memory⟩ :: w.log.sessions } })
          w := by
  simp only [starting, recordSession, getGlobalHeadValue, getGlobalTailValue, System.Runs.record hS,
    System.Runs.load hS]
  exact System.Runs.pure.mpr ⟨rfl, rfl⟩

theorem runs_opening {bs : List (List Entry)} {memory : Nat → UInt8}
    {head tail : Nat} (hbs : bs ≠ [])
    (hh : w.cur .lastPersistedHead = head) (ht : w.cur .lastPersistedTail = tail)
    (hle : head ≤ tail) (hfit : tail + (entries bs).length < N) :
    S.Runs .frontEnd (opening N bs memory) (fun ht u => ht = (head, tail + (entries bs).length) ∧
      Logged tail bs w u ∧ u.cur .lastPersistedHead = head ∧
      u.log.sessions = ⟨w.log.enqueued.length, bs, memory⟩ :: w.log.sessions) w := by
  rw [← Prog.bind_ret (opening N bs memory)]
  simp only [opening, recordSession, getGlobalHeadValue, getGlobalTailValue, Prog.bind_assoc,
    System.Runs.record hS, System.Runs.load hS]
  rw [hh, ht, runs_batches hS hle hfit]
  have hs : (logBatches tail bs
      { w with
        log :=
          { w.log with sessions := ⟨w.log.enqueued.length, bs, memory⟩ :: w.log.sessions }
          }).log.sessions =
        ⟨w.log.enqueued.length, bs, memory⟩ :: w.log.sessions := logBatches_log.2.1
  refine System.Runs.pure.mpr ⟨rfl, ?_, ?_, hs⟩
  · exact
      { logged_logBatches hbs with
        sessions := ⟨[⟨w.log.enqueued.length, bs, memory⟩], hs.symm⟩
        untouched := fun l hl hp ht _ hn =>
          Untouched.trans (.record _) (logBatches_untouched hl ht hp hn) }
  · rw [logBatches_cur (by decide) (by decide) (by simp [slotOf])]
    exact hh

theorem runs_closing {ht : Nat × Nat} : S.Runs .frontEnd (closing ht) (fun _ u =>
    u = (w.store .lastPersistedHead ht.1 id).store .lastPersistedTail ht.2
      (fun g => { g with visible := g.enqueued.length })) w := by
  rw [← Prog.bind_ret (closing ht)]
  simp only [closing, setGlobalHeadValue, setGlobalTailValue, Prog.bind_assoc, System.Runs.store hS,
    System.Runs.storeRecord hS]
  exact System.Runs.pure.mpr rfl

omit hS in
theorem Logged.closing {slot head : Nat} {bs : List (List Entry)} {u v : State}
    (h : Logged slot bs w u)
    (hv : v = (u.store .lastPersistedHead head id).store .lastPersistedTail
      (slot + (entries bs).length) (fun g => { g with visible := g.enqueued.length })) :
    Logged slot bs w v ∧ v.cur .lastPersistedHead = head := by
  have hc : ∀ l, l ≠ .lastPersistedHead → l ≠ .lastPersistedTail → v.cur l = u.cur l := by
    intro l hh ht
    rw [hv, World.store_cur_of_ne _ _ _ _ _ ht, World.store_cur_of_ne _ _ _ _ _ hh]
  refine ⟨⟨?_, ?_, fun l hp ht hh hl => ?_, fun es hes => ?_, fun e es hes s hs => ?_,
    fun l hl hp ht hh hn => ?_, ?_, ?_, ?_, ?_, ?_, ?_⟩, ?_⟩
  · rw [hv]; exact World.store_cur_self _ _ _ _
  · rw [hc _ (by decide) (by decide)]; exact h.remoteTail
  · rw [hc l hh hp]; exact h.others l hp ht hh hl
  · rw [hc _ (by simp) (by simp)]; exact h.closed es hes
  · rw [hc _ (ne_of_slotOf_none hs rfl) (ne_of_slotOf_none hs rfl)]; exact h.first e es hes s hs
  · rw [hv]; exact (h.untouched l hl hp ht hh hn).trans (Untouched.trans (.store hh) (.store hp))
  · rw [hv]; exact h.enqueued
  · rw [hv]; exact h.published
  · rw [hv]; exact h.acknowledged
  · rw [hv]; exact h.sessions
  · rw [hv]; exact h.back
  · rw [hv]; exact h.image
  · rw [hv, World.store_cur_of_ne _ _ _ _ _ (by decide)]; exact World.store_cur_self _ _ _ _

theorem runs_session {bs : List (List Entry)} {memory : Nat → UInt8}
    {head tail : Nat} (hbs : bs ≠ [])
    (hh : w.cur .lastPersistedHead = head) (ht : w.cur .lastPersistedTail = tail)
    (hle : head ≤ tail) (hfit : tail + (entries bs).length < N) :
    S.Runs .frontEnd (session N bs memory)
      (fun _ u => Logged tail bs w u ∧ u.cur .lastPersistedHead = head ∧
        u.log.sessions = ⟨w.log.enqueued.length, bs, memory⟩ :: w.log.sessions) w := by
  rw [session_eq]
  refine System.Runs.bind ((runs_opening hS hbs hh ht hle hfit).mono ?_)
  rintro _ u ⟨rfl, hu, -, hs⟩
  refine (runs_closing hS).mono fun _ v hv => ?_
  obtain ⟨hl, hh⟩ := hu.closing hv
  exact ⟨hl, hh, by rw [hv]; exact hs⟩

end Producer

section Consumer

/-- What one round of the consumer does when it finds a commit entry. -/
structure CommitRound (N : Nat) (w u : State) : Prop where
  localHead : u.cur .globalLocalHead = nextIndex N (w.cur .globalLocalHead)
  localTail : u.cur .globalLocalTail =
    if w.cur .globalLocalHead = w.cur .globalLocalTail then w.cur .lastPersistedTail
      else w.cur .globalLocalTail
  remoteHead : u.cur .remoteHead = nextIndex N (w.cur .globalLocalHead)
  persistedHead : u.cur .lastPersistedHead = nextIndex N (w.cur .globalLocalHead)
  metadata : u.cur .commitMetadata = ⟨w.cur .uncommitedNumberOfEntries,
    nextIndex N (w.cur .globalLocalHead)⟩
  number : u.cur .numberOfEntries = w.cur .uncommitedNumberOfEntries
  durableMetadata : u.per .commitMetadata =
    ⟨w.cur .uncommitedNumberOfEntries, nextIndex N (w.cur .globalLocalHead)⟩
  durableHead : u.per .remoteHead = nextIndex N (w.cur .globalLocalHead)
  commits : ∃ k n, u.log.commits =
    ⟨⟨w.cur .uncommitedNumberOfEntries, nextIndex N (w.cur .globalLocalHead)⟩, k, n⟩ ::
    w.log.commits
  others : ∀ l, l ≠ .globalLocalHead → l ≠ .globalLocalTail → l ≠ .remoteHead →
    l ≠ .lastPersistedHead → l ≠ .commitMetadata → l ≠ .numberOfEntries → u.cur l = w.cur l
  front : u.log.toFrontLog = w.log.toFrontLog
  dequeued : u.log.dequeued = w.log.dequeued ++ [.commit]
  committed : u.log.committed = w.log.dequeued.length + 1

/-- The memory in which the consumer looks at the slot it has taken. -/
def takeSlot (N : Nat) (w : State) : State :=
  (if w.cur .globalLocalHead = w.cur .globalLocalTail then
    w.store .globalLocalTail (w.cur .lastPersistedTail) id else w).store .globalLocalHead
      (nextIndex N (w.cur .globalLocalHead)) id

@[simp] theorem takeSlot_log : (takeSlot N w).log = w.log := by
  rw [takeSlot]; split <;> rfl

theorem takeSlot_untouched {l : Loc} (hh : l ≠ .globalLocalHead) (ht : l ≠ .globalLocalTail) :
    Untouched w (takeSlot N w) l := by
  rw [takeSlot]
  split
  · exact Untouched.trans (.store ht) (.store hh)
  · exact .store hh

theorem takeSlot_localHead :
    (takeSlot N w).cur .globalLocalHead = nextIndex N (w.cur .globalLocalHead) :=
  World.store_cur_self _ _ _ _

theorem takeSlot_localTail : (takeSlot N w).cur .globalLocalTail =
    if w.cur .globalLocalHead = w.cur .globalLocalTail then w.cur .lastPersistedTail
    else w.cur .globalLocalTail := by
  rw [takeSlot, World.store_cur_of_ne _ _ _ _ _ (by decide)]
  split
  · exact World.store_cur_self _ _ _ _
  · rfl

theorem takeSlot_cur {l : Loc} (hh : l ≠ .globalLocalHead) (ht : l ≠ .globalLocalTail) :
    (takeSlot N w).cur l = w.cur l :=
  (takeSlot_untouched hh ht).cur

variable (hS : S.Unrestricted .backEnd)
include hS

theorem runs_ringBufferDequeue {f : Nat → Code β}
    (hne : w.cur .globalLocalHead = w.cur .globalLocalTail →
      w.cur .lastPersistedTail ≠ w.cur .globalLocalHead) :
    S.Runs .backEnd (ringBufferDequeue N >>= f) Q w ↔
      S.Runs .backEnd (f (w.cur .globalLocalHead)) Q (takeSlot N w) := by
  simp only [ringBufferDequeue, Prog.bind_assoc, System.Runs.load hS.lenient,
    waitForEntry, takeSlot]
  by_cases he : w.cur .globalLocalHead = w.cur .globalLocalTail
  · simp only [if_pos he, Prog.bind_assoc, System.Runs.await hS (hne he),
      System.Runs.store hS.lenient, Prog.pure_bind]
  · simp only [if_neg he, Prog.pure_bind, System.Runs.store hS.lenient]

theorem runs_commitEntry {held : Nat → Bool}
    (hne : w.cur .globalLocalHead = w.cur .globalLocalTail →
      w.cur .lastPersistedTail ≠ w.cur .globalLocalHead)
    (hslot : w.cur (.entryType (w.cur .globalLocalHead)) = .commit) :
    S.Runs .backEnd (processEntry N held) (fun _ u => CommitRound N w u) w := by
  have htype : (takeSlot N w).cur (.entryType (w.cur .globalLocalHead)) = .commit :=
    (takeSlot_cur (by simp) (by simp)).trans hslot
  rw [← Prog.bind_ret (processEntry N held)]
  simp only [processEntry, Prog.bind_assoc, runs_ringBufferDequeue hS hne,
    System.Runs.load hS.lenient]
  rw [htype]
  simp only [handleEntry, recordDequeued, commitRbBatch, regionTableCommit, commitBatch,
    ringBufferCommitDequeuedEntries,
    Prog.bind_assoc, System.Runs.load hS.lenient, System.Runs.store hS.lenient,
    System.Runs.storeRecord hS.lenient,
    System.Runs.flush hS.lenient, System.Runs.fence hS.lenient, System.Runs.record hS.lenient]
  refine System.Runs.pure.mpr ?_
  constructor
  case others =>
    intro l h1 h2 h3 h4 h5 h6
    simp [World.store_cur_of_ne, takeSlot_cur, h1, h2, h3, h4, h5, h6]
  case durableMetadata =>
    simp [World.fence, World.flush, World.store, takeSlot_localHead, takeSlot_cur]
  case durableHead => simp [World.fence, World.flush, World.store, takeSlot_localHead]
  all_goals simp [World.store_cur_of_ne, takeSlot_localHead, takeSlot_localTail, takeSlot_cur]

theorem runs_commitRound (hlt : w.cur .lastPersistedTail ≠ w.cur .lastPersistedHead)
    (hne : w.cur .globalLocalHead = w.cur .globalLocalTail →
      w.cur .lastPersistedTail ≠ w.cur .globalLocalHead)
    (hslot : w.cur (.entryType (w.cur .globalLocalHead)) = .commit) :
    S.Runs .backEnd (runConsumer N) (fun _ u => CommitRound N w u) w := by
  simp only [runConsumer, System.Runs.load hS.lenient, if_neg hlt]
  exact runs_commitEntry hS hne hslot

end Consumer

end Mangosteen.SoloRing
