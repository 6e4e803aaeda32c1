import Mangosteen.Isolation

namespace Mangosteen.Drain

open PersistentMemory Prog Memory RingBuffer RegionTable BackEnd Session Slots Channel Dequeue
  Consumer SoloRing Overrun SoloBackEnd

/-- The consumer has nothing to store before it waits or begins its next round. -/
def Idling : Code Unit → State → Prop
  | .ret _, _ => True
  | .op (.load l) next, w => Idling (next (w.cur l)) w
  | .op .fence next, w => Idling (next ()) (w.fence .backEnd)
  | .op (.await l busy) _, w => w.cur l = busy
  | .op _ _, _ => False

/-- The producer waits in `ring_buffer_commit_enqueued_entries` for a head that
nobody is going to store: all that was published has been consumed. -/
structure Stranded (c : Config Actor Loc Val Log Unit) : Prop where
  waiting : ∃ next, c.prog .frontEnd =
    .op (.await .lastPersistedHead (c.world.cur .lastPersistedHead)) next
  drained : c.world.log.committed = c.world.log.published
  idling : Idling (c.prog .backEnd) c.world

/-- The ring between producers whose batches, with the closing entry, leave two
slots free, and the consumer. -/
def boundedSystem (N : Nat) (admits : State → Label Actor Loc Val Log → Prop) :
    System Actor Loc Val Log Unit :=
  { ringSystem N admits with
    next := fun a _ p => match a with
      | .frontEnd => ∃ bs memory, (∀ es ∈ bs, Entry.commit ∉ es ∧ es.length + 1 ≤ N - 2) ∧
          p = session N bs memory
      | .backEnd => p = runConsumer N }

/-- A session does not write an old head back over the one of a drained ring. -/
def admitsShown (w : State) : Label Actor Loc Val Log → Prop
  | .op .frontEnd (.store .lastPersistedHead head _) =>
      w.log.committed = w.log.published → w.cur .lastPersistedHead = w.cur .remoteHead →
        head = w.cur .lastPersistedHead
  | _ => True

/-- A consumer that has committed all there is has shown the head it committed. -/
def HeadShown (w : State) : Prop :=
  w.log.committed = w.log.published → w.cur .lastPersistedHead = w.cur .remoteHead

theorem HeadShown.congr {u v : State} (h : HeadShown u)
    (hh : v.cur .lastPersistedHead = u.cur .lastPersistedHead)
    (hr : v.cur .remoteHead = u.cur .remoteHead) (hc : v.log.committed = u.log.committed)
    (hp : v.log.published = u.log.published) : HeadShown v := by
  rw [HeadShown, hh, hr, hc, hp]
  exact h

variable (N : Nat)

/-- What the indices of the ring count, whatever its slots hold. -/
structure DrainInv (w : State) : Prop where
  head : w.cur .remoteHead = w.log.committed % N
  tail : w.cur .remoteTail = w.log.published % N
  shown : w.cur .lastPersistedTail = w.log.visible % N
  committed_le : w.log.committed ≤ w.log.dequeued.length
  dequeued_le : w.log.dequeued.length ≤ w.log.visible
  visible_le : w.log.visible ≤ w.log.published
  published_le : w.log.published ≤ w.log.enqueued.length

structure ProducerRely (u v : State) : Prop where
  cur : ∀ l, Owned .frontEnd l → v.cur l = u.cur l
  log : v.log.toFrontLog = u.log.toFrontLog

structure ConsumerRely (u v : State) : Prop where
  cur : ∀ l, Owned .backEnd l → v.cur l = u.cur l
  log : v.log.toBackLog = u.log.toBackLog
  visible : u.log.visible ≤ v.log.visible
  headShown : HeadShown u → HeadShown v

def drainProtocol : Protocol Actor Loc Val Log where
  inv := DrainInv N
  rely a u v := match a with
    | .frontEnd => ProducerRely u v
    | .backEnd => ConsumerRely u v
  live := True
  rely_refl a w := by
    cases a with
    | frontEnd => exact ⟨fun _ _ => rfl, rfl⟩
    | backEnd => exact ⟨fun _ _ => rfl, rfl, le_rfl, id⟩
  rely_trans a u v w h h' := by
    cases a with
    | frontEnd => exact ⟨fun l hl => (h'.cur l hl).trans (h.cur l hl), h'.log.trans h.log⟩
    | backEnd =>
        exact ⟨fun l hl => (h'.cur l hl).trans (h.cur l hl), h'.log.trans h.log,
          h.visible.trans h'.visible, fun hs => h'.headShown (h.headShown hs)⟩

/-- The states in which a process is to go on: the producer when the ring is
drained and says so, the consumer when it does not. -/
def Unblocked : Actor → State → Prop
  | .frontEnd, w => w.log.committed = w.log.published ∧ w.cur .lastPersistedHead = w.cur .remoteHead
  | .backEnd, w => ¬ HeadShown w

variable {N} {u v w : State}

theorem allows_frontEnd (hi : DrainInv N v) (hr : ConsumerRely u v) :
    (drainProtocol N).Allows .frontEnd u v :=
  Protocol.allows_of_other Actor.eq_backEnd hi hr

theorem allows_backEnd (hi : DrainInv N v) (hr : ProducerRely u v) :
    (drainProtocol N).Allows .backEnd u v :=
  Protocol.allows_of_other Actor.eq_frontEnd hi hr

theorem DrainInv.congr (hi : DrainInv N u) (hh : v.cur .remoteHead = u.cur .remoteHead)
    (ht : v.cur .remoteTail = u.cur .remoteTail)
    (hs : v.cur .lastPersistedTail = u.cur .lastPersistedTail)
    (hf : v.log.toFrontLog = u.log.toFrontLog) (hb : v.log.toBackLog = u.log.toBackLog) :
    DrainInv N v := by
  refine ⟨?_, ?_, ?_, ?_, ?_, ?_, ?_⟩
  · rw [hh, hb]; exact hi.head
  · rw [ht, hf]; exact hi.tail
  · rw [hs, hf]; exact hi.shown
  · rw [hb]; exact hi.committed_le
  · rw [hf, hb]; exact hi.dequeued_le
  · rw [hf]; exact hi.visible_le
  · rw [hf]; exact hi.published_le

theorem allows_same {a : Actor} (hi : DrainInv N u) (hc : v.cur = u.cur) (hl : v.log = u.log) :
    (drainProtocol N).Allows a u v := by
  have hcur : ∀ l, v.cur l = u.cur l := fun l => congrFun hc l
  have hv : DrainInv N v := hi.congr (hcur _) (hcur _) (hcur _) (by rw [hl]) (by rw [hl])
  cases a with
  | frontEnd =>
      refine allows_frontEnd hv ⟨fun l _ => hcur l, by rw [hl], by rw [hl], fun hs => ?_⟩
      exact hs.congr (hcur _) (hcur _) (by rw [hl]) (by rw [hl])
  | backEnd => exact allows_backEnd hv ⟨fun l _ => hcur l, by rw [hl]⟩

section Producer

variable {β : Type} {S : System Actor Loc Val Log Unit} {Q : β → State → Prop} {n tail : Nat}

/-- A producer that has put `n` entries of a batch into the ring. -/
structure Filling (N n tail : Nat) (w : State) : Prop where
  tail : tail = w.log.enqueued.length % N
  count : w.log.enqueued.length = w.log.published + n

theorem Filling.of_log (h : Filling N n tail u) (hl : v.log.toFrontLog = u.log.toFrontLog) :
    Filling N n tail v := by
  refine ⟨?_, ?_⟩
  · rw [hl]; exact h.tail
  · rw [hl]; exact h.count

theorem allows_storeSlot {l : Loc} {x : Val l} (hi : DrainInv N u) (hl : (slotOf l).isSome) :
    (drainProtocol N).Allows .frontEnd u (u.store l x id) := by
  have hcur : ∀ m, slotOf m = none → (u.store l x id).cur m = u.cur m := by
    intro m hm
    refine World.store_cur_of_ne u m l id x ?_
    rintro rfl
    simp [hm] at hl
  refine allows_frontEnd (hi.congr (hcur _ rfl) (hcur _ rfl) (hcur _ rfl) rfl rfl)
    ⟨fun m hm => hcur m ?_, rfl, le_rfl, ?_⟩
  · cases hslot : slotOf m with
    | none => rfl
    | some slot => exact absurd hm (owned_of_slotOf m slot hslot).not_backEnd
  · exact fun hs => hs.congr (hcur _ rfl) (hcur _ rfl) rfl rfl

theorem ensures_storeEntry {e : Entry} {f : Unit → Code β} (hw : DrainInv N w)
    (hp : Filling N n tail w)
    (h : ∀ u, DrainInv N u → Filling N (n + 1) ((w.log.enqueued.length + 1) % N) u →
      Ensures S (drainProtocol N) .frontEnd (f ()) Q u) (slot : Nat) :
    Ensures S (drainProtocol N) .frontEnd (storeEntry slot e >>= f) Q w := by
  rw [storeEntry, Prog.bind_assoc]
  refine Ensures.storeAll (J := fun ss u => (∀ s ∈ ss, (slotOf s.1).isSome) ∧
    u.log.toFrontLog = w.log.toFrontLog) hw
    ⟨fun s hs => by rw [slotOf_of_mem hs]; rfl, rfl⟩
    (fun _ _ _ hJ hr _ => ⟨hJ.1, hr.log.trans hJ.2⟩) ?_ ?_
  · intro s ss u hJ hu
    exact ⟨allows_storeSlot hu (hJ.1 s (by simp)), fun t ht => hJ.1 t (by simp [ht]), hJ.2⟩
  intro u hu hJ
  rw [Prog.bind_assoc]
  refine Ensures.flush fun v hr hv => ⟨allows_same hv rfl rfl, ?_⟩
  have hl : v.log.toFrontLog = w.log.toFrontLog := hr.log.trans hJ.2
  refine Ensures.record fun x hr hx => ?_
  have hl : x.log.toFrontLog = w.log.toFrontLog := hr.log.trans hl
  have hi : DrainInv N { x with log := { x.log with enqueued := x.log.enqueued ++ [e] } } :=
    { hx with published_le := hx.published_le.trans (by simp) }
  refine ⟨allows_frontEnd hi ⟨fun _ _ => rfl, rfl, le_rfl, id⟩, h _ hi ⟨?_, ?_⟩⟩
  · show _ = (x.log.enqueued ++ [e]).length % N
    rw [hl, List.length_append, List.length_singleton]
  · have hcount := hp.count
    show (x.log.enqueued ++ [e]).length = x.log.published + (n + 1)
    rw [hl, List.length_append, List.length_singleton]
    omega

variable (hS : ∀ u a o, S.admits u (.op a o) → admitsShown u (.op a o) ∧
  (Unblocked a u ∨ (o.exec a u).isSome))
include hS

theorem ne_of_admits {l : Loc} {busy : Val l} (hu : DrainInv N u) (hp : Filling N n tail u)
    (hn : n + 1 < N) (ha : S.admits u (.op .frontEnd (.await l busy)))
    (hl : u.cur .lastPersistedHead = u.cur .remoteHead → u.cur l = busy →
      u.cur .remoteHead = (u.log.enqueued.length + 1) % N) : u.cur l ≠ busy := by
  rcases (hS u .frontEnd _ ha).2 with ⟨hd, hh⟩ | hsome
  · intro hb
    have hcount := hp.count
    have hne := hl hh hb
    rw [hu.head, hd] at hne
    exact Cyclic.mod_ne_of_lt (by omega) (by omega) hne
  · intro hb
    simp [Op.exec, hb] at hsome

theorem ensures_waitForSpace_remoteHead {f : Nat → Code β} {head : Nat} (hw : DrainInv N w)
    (hp : Filling N n tail w) (hn : n + 1 < N)
    (h : ∀ head u, DrainInv N u → u.log.toFrontLog = w.log.toFrontLog →
      Ensures S (drainProtocol N) .frontEnd (f head) Q u) :
    Ensures S (drainProtocol N) .frontEnd
    (waitForSpace (await Loc.remoteHead ((w.log.enqueued.length + 1) % N))
      ((w.log.enqueued.length + 1) % N) head >>= f) Q w := by
  rw [waitForSpace]
  split
  · refine Ensures.await (fun _ u hr hu ha => ?_) fun u hr hu _ _ => h _ u hu hr.log
    refine ne_of_admits hS hu (hp.of_log hr.log) hn ha fun _ hb => ?_
    rw [hb, hr.log]
  · exact h head w hw rfl

theorem ensures_waitForSpace_lastPersistedHead {f : Nat → Code β} {head : Nat} (hw : DrainInv N w)
    (hp : Filling N n tail w) (hn : n + 1 < N)
    (h : ∀ head u, DrainInv N u → u.log.toFrontLog = w.log.toFrontLog →
      Ensures S (drainProtocol N) .frontEnd (f head) Q u) :
    Ensures S (drainProtocol N) .frontEnd
    (waitForSpace (await Loc.lastPersistedHead ((w.log.enqueued.length + 1) % N))
      ((w.log.enqueued.length + 1) % N) head >>= f) Q w := by
  rw [waitForSpace]
  split
  · refine Ensures.await (fun _ u hr hu ha => ?_) fun u hr hu _ _ => h _ u hu hr.log
    refine ne_of_admits hS hu (hp.of_log hr.log) hn ha fun hh hb => ?_
    rw [← hh, hb, hr.log]
  · exact h head w hw rfl

theorem ensures_enqueueAll {es : List Entry} {ht : Nat × Nat}
    {f : Nat × Nat → Code β} (hw : DrainInv N w) (hp : Filling N n ht.2 w) (hn : n + es.length < N)
    (h : ∀ ht u, DrainInv N u → Filling N (n + es.length) ht.2 u →
      Ensures S (drainProtocol N) .frontEnd (f ht) Q u) :
    Ensures S (drainProtocol N) .frontEnd (enqueueAll N es ht >>= f) Q w := by
  induction es generalizing n ht w with
  | nil => exact h ht w hw hp
  | cons e es ih =>
      rw [List.length_cons] at hn
      have hnext : nextIndex N ht.2 = (w.log.enqueued.length + 1) % N := by
        rw [hp.tail, nextIndex_mod (by omega)]
      simp only [enqueueAll, enqueueEntry, Prog.bind_assoc]
      rw [hnext]
      refine ensures_waitForSpace_remoteHead hS hw hp (by omega) fun head u hu hl => ?_
      refine ensures_storeEntry hu (hp.of_log hl) (fun v hv hpv => ?_) ht.2
      rw [hl] at hpv
      refine ih hv hpv (by omega) fun ht x hx hpx => h ht x hx ?_
      rw [List.length_cons, Nat.add_comm es.length, ← Nat.add_assoc]
      exact hpx

/-- What the next session finds. -/
structure Idle (w : State) : Prop where
  shown : w.log.visible = w.log.published
  count : w.log.enqueued.length = w.log.published

omit hS in
theorem Idle.of_log (h : Idle u) (hl : v.log.toFrontLog = u.log.toFrontLog) : Idle v := by
  refine ⟨?_, ?_⟩
  · rw [hl]; exact h.shown
  · rw [hl]; exact h.count

omit hS in
theorem ensures_publish {f : Unit → Code β} {tail : Nat} (hp : Filling N (n + 1) tail w)
    (h : ∀ u, DrainInv N u → Filling N 0 tail u → Idle u →
      Ensures S (drainProtocol N) .frontEnd (f ()) Q u) :
    Ensures S (drainProtocol N) .frontEnd (do
      fence
      storeRecord .remoteTail tail
        (fun g => { g with published := g.enqueued.length, publishedBefore := g.published })
      flush [.remoteTail]
      fence
      let tail ← load .remoteTail
      storeRecord .lastPersistedTail tail (fun g => { g with visible := g.published })
      record (fun g => { g with acknowledged := g.published })
      f ()) Q w := by
  refine Ensures.fence fun u hr hu => ⟨allows_same hu rfl rfl, ?_⟩
  have hp : Filling N (n + 1) tail (u.fence .frontEnd) := hp.of_log hr.log
  refine Ensures.storeRecord fun u hr hu => ?_
  have hp := hp.of_log hr.log
  have hcount := hp.count
  have hlt : u.log.committed < u.log.enqueued.length := by
    have := hu.committed_le.trans (hu.dequeued_le.trans hu.visible_le)
    omega
  generalize hv : u.store .remoteTail tail
    (fun g => { g with published := g.enqueued.length, publishedBefore := g.published }) = v
  have hcur : ∀ l, l ≠ .remoteTail → v.cur l = u.cur l := fun l hl => by
    rw [← hv]; exact World.store_cur_of_ne u l _ _ _ hl
  have hlog : v.log =
      { u.log with published := u.log.enqueued.length, publishedBefore := u.log.published } := by
    rw [← hv]; rfl
  have htail : v.cur .remoteTail = tail := by rw [← hv]; exact World.store_cur_self _ _ _ _
  have hvi : DrainInv N v := by
    refine ⟨?_, ?_, ?_, ?_, ?_, ?_, ?_⟩
    · rw [hcur _ (by decide), hlog]; exact hu.head
    · rw [htail, hlog]; exact hp.tail
    · rw [hcur _ (by decide), hlog]; exact hu.shown
    · rw [hlog]; exact hu.committed_le
    · rw [hlog]; exact hu.dequeued_le
    · rw [hlog]; exact hu.visible_le.trans hu.published_le
    · rw [hlog]
  have hrely : ConsumerRely u v := by
    refine ⟨fun l hl => hcur l ?_, by rw [hlog], by rw [hlog], fun _ hd => ?_⟩
    · rintro rfl; cases hl
    · rw [hlog] at hd; exact absurd hd hlt.ne
  refine ⟨allows_frontEnd hvi hrely, ?_⟩
  have hpub : Filling N 0 tail v := ⟨by rw [hlog]; exact hp.tail, by rw [hlog]; rfl⟩
  refine Ensures.flush fun u hr hu => ⟨allows_same hu rfl rfl, ?_⟩
  have hpub : Filling N 0 tail (u.flush .frontEnd [.remoteTail]) := hpub.of_log hr.log
  refine Ensures.fence fun u hr hu => ⟨allows_same hu rfl rfl, ?_⟩
  have hpub : Filling N 0 tail (u.fence .frontEnd) := hpub.of_log hr.log
  refine Ensures.load fun u hr hu => ?_
  have hpub := hpub.of_log hr.log
  refine Ensures.storeRecord fun v hr hv => ?_
  have hpub := hpub.of_log hr.log
  have hrt : u.cur .remoteTail = v.log.published % N := (hr.cur .remoteTail rfl).symm.trans hv.tail
  have hi : DrainInv N (v.store .lastPersistedTail (u.cur .remoteTail)
      (fun g => { g with visible := g.published })) := by
    refine ⟨?_, ?_, ?_, hv.committed_le, hv.dequeued_le.trans hv.visible_le,
      le_rfl, hv.published_le⟩
    · rw [World.store_cur_of_ne v _ _ _ _ (by decide)]; exact hv.head
    · rw [World.store_cur_of_ne v _ _ _ _ (by decide)]; exact hv.tail
    · rw [World.store_cur_self]; exact hrt
  refine ⟨allows_frontEnd hi ⟨fun l hl => World.store_cur_of_ne v l _ _ _ ?_, rfl,
    hv.visible_le, fun hs => ?_⟩, ?_⟩
  · rintro rfl; cases hl
  · exact hs.congr (World.store_cur_of_ne v _ _ _ _ (by decide))
      (World.store_cur_of_ne v _ _ _ _ (by decide)) rfl rfl
  have hpub : Filling N 0 tail (v.store .lastPersistedTail (u.cur .remoteTail)
      (fun g => { g with visible := g.published })) := ⟨hpub.tail, hpub.count⟩
  refine Ensures.record fun x hr hx => ?_
  have hi : DrainInv N { x with log := { x.log with acknowledged := x.log.published } } :=
    { hx with }
  have hpub := hpub.of_log hr.log
  refine ⟨allows_frontEnd hi ⟨fun _ _ => rfl, rfl, le_rfl, id⟩,
    h _ hi ⟨hpub.tail, hpub.count⟩ ⟨?_, hpub.count⟩⟩
  show x.log.visible = x.log.published
  rw [hr.log]
  rfl

theorem ensures_batches {bs : List (List Entry)} {ht : Nat × Nat}
    {f : Nat × Nat → Code β} (hw : DrainInv N w)
    (hp : Filling N 0 ht.2 w) (hidle : Idle w) (hbs : ∀ es ∈ bs, es.length + 1 < N)
    (h : ∀ ht u, DrainInv N u → Filling N 0 ht.2 u → Idle u →
      Ensures S (drainProtocol N) .frontEnd (f ht) Q u) :
    Ensures S (drainProtocol N) .frontEnd (batches N bs ht >>= f) Q w := by
  induction bs generalizing ht w with
  | nil => exact h ht w hw hp hidle
  | cons es bs ih =>
      have hes := hbs es (by simp)
      simp only [batches, batch, Prog.bind_assoc]
      refine ensures_enqueueAll hS hw hp (by omega) fun ht u hu hp => ?_
      rw [Nat.zero_add] at hp
      have hnext : nextIndex N ht.2 = (u.log.enqueued.length + 1) % N := by
        rw [hp.tail, nextIndex_mod (by omega)]
      simp only [ringBufferCommitEnqueuedEntries, Prog.bind_assoc]
      rw [hnext]
      refine ensures_waitForSpace_lastPersistedHead hS hu hp hes fun head v hv hl => ?_
      refine ensures_storeEntry hv (hp.of_log hl) (fun x hx hpx => ?_) ht.2
      rw [hl] at hpx
      refine ensures_publish
        (f := fun _ => batches N bs (head, (u.log.enqueued.length + 1) % N) >>= f) hpx ?_
      exact fun y hy hpy hidle => ih hy hpy hidle fun fs hfs => hbs fs (by simp [hfs])

/-- The head that a session writes back is no other than the one a drained ring
shows. -/
theorem ensures_setGlobalHeadValue {head : Nat} {f : Unit → Code β}
    (h : ∀ u, DrainInv N u → u.log.toFrontLog = w.log.toFrontLog →
      Ensures S (drainProtocol N) .frontEnd (f ()) Q u) :
    Ensures S (drainProtocol N) .frontEnd (setGlobalHeadValue head >>= f) Q w := by
  intro u hr hu ha
  refine ⟨fun _ => rfl, ?_⟩
  rintro r v ⟨⟩
  have hcur : ∀ l, l ≠ .lastPersistedHead → (u.store .lastPersistedHead head id).cur l = u.cur l :=
    fun l hl => World.store_cur_of_ne u l _ _ _ hl
  have hi : DrainInv N (u.store .lastPersistedHead head id) :=
    hu.congr (hcur _ (by decide)) (hcur _ (by decide)) (hcur _ (by decide)) rfl rfl
  refine ⟨allows_frontEnd hi ⟨fun l hl => hcur l ?_, rfl, le_rfl, fun hs hd => ?_⟩, h _ hi hr.log⟩
  · rintro rfl; cases hl
  · have hsame := (hS u .frontEnd _ ha).1 hd (hs hd)
    rw [World.store_cur_self, hcur _ (by decide), ← hs hd]
    exact hsame

theorem ensures_session {bs : List (List Entry)} {memory : Nat → UInt8}
    (hN : 4 ≤ N) (hidle : Idle w) (hbs : ∀ es ∈ bs, es.length + 1 ≤ N - 2) :
    Ensures S (drainProtocol N) .frontEnd (session N bs memory) (fun _ u => Idle u) w := by
  rw [← Prog.bind_ret (session N bs memory)]
  simp only [session, recordSession, getGlobalHeadValue, getGlobalTailValue, Prog.bind_assoc]
  refine Ensures.record fun u hr hu => ?_
  have hidle := hidle.of_log hr.log
  refine ⟨allows_frontEnd { hu with } ⟨fun _ _ => rfl, rfl, le_rfl, id⟩, ?_⟩
  have hidle :
      Idle
      { u with
        log := { u.log with sessions := ⟨u.log.enqueued.length, bs, memory⟩ :: u.log.sessions } } :=
    ⟨hidle.shown, hidle.count⟩
  refine Ensures.load fun u hr hu => ?_
  have hidle := hidle.of_log hr.log
  refine Ensures.load fun v hr hv => ?_
  have hidle := hidle.of_log hr.log
  have hp : Filling N 0 (v.cur .lastPersistedTail) v :=
    ⟨by rw [hv.shown, hidle.shown, hidle.count], hidle.count⟩
  refine ensures_batches hS hv hp hidle
    (fun es hes => by have := hbs es hes; omega) fun ht u hu hp hidle => ?_
  refine ensures_setGlobalHeadValue hS fun v hv hl => ?_
  refine Ensures.storeRecord fun x hr hx => ?_
  have hidle := hidle.of_log (hr.log.trans hl)
  have hp := hp.of_log (hr.log.trans hl)
  have hi : DrainInv N
      (x.store .lastPersistedTail ht.2 (fun g => { g with visible := g.enqueued.length })) := by
    refine ⟨?_, ?_, ?_, hx.committed_le, ?_, hidle.count.le, hx.published_le⟩
    · rw [World.store_cur_of_ne x _ _ _ _ (by decide)]; exact hx.head
    · rw [World.store_cur_of_ne x _ _ _ _ (by decide)]; exact hx.tail
    · rw [World.store_cur_self]; exact hp.tail
    · exact hx.dequeued_le.trans (hx.visible_le.trans hx.published_le)
  refine ⟨allows_frontEnd hi ⟨fun l hl => World.store_cur_of_ne x l _ _ _ ?_, rfl,
    ?_, fun hs => ?_⟩, ?_⟩
  · rintro rfl; cases hl
  · exact hx.visible_le.trans hx.published_le
  · exact hs.congr (World.store_cur_of_ne x _ _ _ _ (by decide))
      (World.store_cur_of_ne x _ _ _ _ (by decide)) rfl rfl
  · have hend :
        Idle (x.store .lastPersistedTail ht.2 (fun g => { g with visible := g.enqueued.length })) :=
      ⟨hidle.count, hidle.count⟩
    exact Ensures.ret fun y hr _ => hend.of_log hr.log

end Producer

section Consumer

variable {α β : Type} {S : System Actor Loc Val Log Unit} {Q : β → State → Prop} {n m : Nat}

/-- The consumer, with `n` entries taken and at least `m` known, while the head
it committed last is shown. -/
structure Serving (N n m : Nat) (w : State) : Prop extends Copies N n m w where
  headShown : HeadShown w

theorem copies_stable (h : Copies N n m u) (hr : ConsumerRely u v) : Copies N n m v :=
  h.congr (hr.cur .globalLocalHead rfl) (hr.cur .globalLocalTail rfl) hr.visible

theorem Serving.stable (h : Serving N n m u) (hr : ConsumerRely u v) : Serving N n m v :=
  ⟨copies_stable h.toCopies hr, hr.headShown h.headShown⟩

/-- Between two entries. -/
def Rested (N : Nat) (w : State) : Prop := Serving N w.log.dequeued.length w.log.dequeued.length w

theorem Rested.stable (h : Rested N u) (hr : ConsumerRely u v) : Rested N v := by
  rw [Rested, hr.log]
  exact Serving.stable h hr

theorem allows_storeLocal {l : Loc} {x : Val l} (hi : DrainInv N u)
    (hl : l = .globalLocalHead ∨ l = .globalLocalTail) :
    (drainProtocol N).Allows .backEnd u (u.store l x id) := by
  have hcur : ∀ k, k ≠ .globalLocalHead → k ≠ .globalLocalTail →
      (u.store l x id).cur k = u.cur k := by
    intro k hh ht
    refine World.store_cur_of_ne u k l id x ?_
    rintro rfl
    exact hl.elim hh ht
  refine allows_backEnd (hi.congr (hcur _ ?_ ?_) (hcur _ ?_ ?_) (hcur _ ?_ ?_) rfl rfl)
    ⟨fun k hk => hcur k ?_ ?_, rfl⟩
  all_goals first | decide | (rintro rfl; cases hk)

theorem rested_frame (h : Rested N u) (hf : Frame Aside SameRing .backEnd u v) : Rested N v := by
  rw [Rested, hf.log.2]
  refine ⟨h.toCopies.congr (hf.cur _ (by simp [Aside])) (hf.cur _ (by simp [Aside]))
    (by rw [hf.log.1]), ?_⟩
  exact h.headShown.congr (hf.cur _ (by simp [Aside, Owned, owner])) (hf.cur _ (by simp [Aside]))
    (by rw [hf.log.2]) (by rw [hf.log.1])

theorem allows_frame (hi : DrainInv N u) (hf : Frame Aside SameRing .backEnd u v) :
    (drainProtocol N).Allows .backEnd u v := by
  refine allows_backEnd ?_ ⟨fun l hl => hf.cur l fun ha => hl.not_backEnd ha.1, hf.log.1⟩
  exact hi.congr (hf.cur _ (by simp [Aside])) (hf.cur _ (by simp [Aside, Owned, owner]))
    (hf.cur _ (by simp [Aside, Owned, owner])) hf.log.1 hf.log.2

theorem ensures_recordDequeued {e : Entry} {f : Unit → Code β}
    (hs : Serving N (w.log.dequeued.length + 1) (w.log.dequeued.length + 1) w)
    (h : ∀ u, DrainInv N u → Rested N u → Ensures S (drainProtocol N) .backEnd (f ()) Q u) :
    Ensures S (drainProtocol N) .backEnd (recordDequeued e >>= f) Q w := by
  refine Ensures.record fun u hr hu => ?_
  have hs := hs.stable hr
  rw [← congrArg BackLog.dequeued hr.log] at hs
  obtain ⟨k, hk, hv, ht⟩ := hs.tail
  have hi : DrainInv N { u with log := { u.log with dequeued := u.log.dequeued ++ [e] } } := by
    refine { hu with committed_le := hu.committed_le.trans (by simp), dequeued_le := ?_ }
    show (u.log.dequeued ++ [e]).length ≤ u.log.visible
    rw [List.length_append, List.length_singleton]
    omega
  refine ⟨allows_backEnd hi ⟨fun _ _ => rfl, rfl⟩, h _ hi ⟨⟨?_, k, ?_, hv, ht⟩, hs.headShown⟩⟩
  · rw [List.length_append]; exact hs.head
  · rw [List.length_append]; exact hk

theorem ensures_ringBufferCommitDequeuedEntries {f : Unit → Code β} (hs : Rested N w)
    (h : ∀ u, DrainInv N u → Rested N u → Ensures S (drainProtocol N) .backEnd (f ()) Q u) :
    Ensures S (drainProtocol N) .backEnd (ringBufferCommitDequeuedEntries >>= f) Q w := by
  simp only [ringBufferCommitDequeuedEntries, Prog.bind_assoc]
  refine Ensures.load fun u hr hu => ?_
  have hc := (hs.stable hr).toCopies
  rw [hc.head]
  refine Ensures.storeRecord fun v hr hv => ?_
  have hc := copies_stable hc hr
  rw [← congrArg BackLog.dequeued hr.log] at hc ⊢
  generalize hx : v.store .remoteHead (v.log.dequeued.length % N)
    (fun g => { g with committed := g.dequeued.length, committedBefore := g.committed }) = x
  have hcur : ∀ l, l ≠ .remoteHead → x.cur l = v.cur l := fun l hl => by
    rw [← hx]; exact World.store_cur_of_ne v l _ _ _ hl
  have hlog : x.log =
      { v.log with committed := v.log.dequeued.length, committedBefore := v.log.committed } := by
    rw [← hx]; rfl
  have hxi : DrainInv N x := by
    refine ⟨?_, ?_, ?_, ?_, ?_, ?_, ?_⟩
    · rw [hlog, ← hx, World.store_cur_self]
    · rw [hcur _ (by decide), hlog]; exact hv.tail
    · rw [hcur _ (by decide), hlog]; exact hv.shown
    · rw [hlog]
    · rw [hlog]; exact hv.dequeued_le
    · rw [hlog]; exact hv.visible_le
    · rw [hlog]; exact hv.published_le
  refine ⟨allows_backEnd hxi ⟨fun l hl => hcur l ?_, by rw [hlog]⟩, ?_⟩
  · rintro rfl; cases hl
  have hc : Copies N x.log.dequeued.length x.log.dequeued.length x := by
    rw [hlog]
    exact hc.congr (hcur _ (by decide)) (hcur _ (by decide)) (by rw [hlog])
  refine Ensures.flush fun u hr hu => ⟨allows_same hu rfl rfl, ?_⟩
  have hc : Copies N x.log.dequeued.length x.log.dequeued.length (u.flush .backEnd [.remoteHead]) :=
    (copies_stable hc hr).congr rfl rfl le_rfl
  have hl : u.log.toBackLog = x.log.toBackLog := hr.log
  refine Ensures.fence fun u hr hu => ⟨allows_same hu rfl rfl, ?_⟩
  have hc : Copies N x.log.dequeued.length x.log.dequeued.length (u.fence .backEnd) :=
    (copies_stable hc hr).congr rfl rfl le_rfl
  have hl : u.log.toBackLog = x.log.toBackLog := hr.log.trans hl
  refine Ensures.load fun u hr hu => ?_
  have hc := copies_stable hc hr
  have hl : u.log.toBackLog = x.log.toBackLog := hr.log.trans hl
  refine Ensures.store fun v hr hv => ?_
  have hc := copies_stable hc hr
  have hl : v.log.toBackLog = x.log.toBackLog := hr.log.trans hl
  have hcur : ∀ l, l ≠ .lastPersistedHead →
      (v.store .lastPersistedHead (u.cur .remoteHead) id).cur l = v.cur l :=
    fun l hl => World.store_cur_of_ne v l _ _ _ hl
  have hi : DrainInv N (v.store .lastPersistedHead (u.cur .remoteHead) id) :=
    hv.congr (hcur _ (by decide)) (hcur _ (by decide)) (hcur _ (by decide)) rfl rfl
  refine ⟨allows_backEnd hi ⟨fun l hl => hcur l ?_, rfl⟩, h _ hi ⟨?_, fun _ => ?_⟩⟩
  · rintro rfl; cases hl
  · rw [World.store_log, id, hl]
    exact hc.congr (hcur _ (by decide)) (hcur _ (by decide)) le_rfl
  · rw [World.store_cur_self, hcur _ (by decide)]
    exact (hr.cur .remoteHead rfl).symm

variable (hS : ∀ u a o, S.admits u (.op a o) → admitsShown u (.op a o) ∧
  (Unblocked a u ∨ (o.exec a u).isSome))
include hS

theorem ensures_aside {p : Code α} {f : α → Code β} (hp : p.Confined Aside SameRing .backEnd)
    (hw : DrainInv N w)
    (hs : Rested N w) (h : ∀ x u, DrainInv N u → Rested N u →
      Ensures S (drainProtocol N) .backEnd (f x) Q u) :
    Ensures S (drainProtocol N) .backEnd (p >>= f) Q w := by
  have hc := Ensures.confined (S := S) (P := drainProtocol N) (A := Rested N) hp sameRing_refl
    (fun _ u o hA ha => ?_) hs (fun u v hA hr _ => hA.stable hr) fun u v hf hu hA =>
    ⟨allows_frame hu hf, rested_frame hA hf⟩
  · exact Ensures.bind hw (hc.mono fun x u hu hs => h x u hu hs)
  · rcases (hS u .backEnd o ha).2 with hx | hsome
    · exact absurd hA.headShown hx
    · exact hsome

theorem ensures_waitForEntry {f : Unit → Code β} {tail : Nat} (hw : DrainInv N w) (hs : Rested N w)
    (htail : w.cur .globalLocalTail = tail)
    (h : ∀ u, DrainInv N u → Serving N w.log.dequeued.length (w.log.dequeued.length + 1) u →
      u.log.toBackLog = w.log.toBackLog → Ensures S (drainProtocol N) .backEnd (f ()) Q u) :
    Ensures S (drainProtocol N) .backEnd
    (waitForEntry (w.log.dequeued.length % N) tail >>= f) Q w := by
  by_cases he : w.log.dequeued.length % N = tail
  · rw [waitForEntry, if_pos he, Prog.bind_assoc]
    refine Ensures.await (fun _ u hr _ ha => ?_) fun u hr hu _ hne => ?_
    · rcases (hS u .backEnd _ ha).2 with hx | hsome
      · exact absurd (hs.stable hr).headShown hx
      · intro hb
        simp [Op.exec, hb] at hsome
    rw [hu.shown] at hne ⊢
    have hlt : w.log.dequeued.length + 1 ≤ u.log.visible := by
      have hle := hu.dequeued_le
      rw [congrArg BackLog.dequeued hr.log] at hle
      rcases hle.lt_or_eq with hlt | heq
      · exact hlt
      · rw [heq] at hne
        exact absurd rfl hne
    refine Ensures.store fun v hr' hv => ⟨allows_storeLocal hv (.inr rfl), ?_⟩
    have hs : Serving N w.log.dequeued.length w.log.dequeued.length v :=
      (Serving.stable hs hr).stable hr'
    have hcur : ∀ l, l ≠ .globalLocalTail →
        (v.store .globalLocalTail (u.log.visible % N) id).cur l = v.cur l :=
      fun l hl => World.store_cur_of_ne v l _ _ _ hl
    refine h _ (allows_storeLocal hv (.inr rfl)).1
      ⟨⟨?_, _, hlt, hr'.visible, World.store_cur_self v _ _ _⟩, ?_⟩ ?_
    · rw [hcur _ (by decide)]; exact hs.head
    · exact hs.headShown.congr (hcur _ (by decide)) (hcur _ (by decide)) rfl rfl
    · exact hr'.log.trans hr.log
  · rw [waitForEntry, if_neg he]
    obtain ⟨k, hk, hv, ht⟩ := hs.tail
    refine h w hw ⟨⟨hs.head, k, ?_, hv, ht⟩, hs.headShown⟩ rfl
    rcases hk.lt_or_eq with hlt | heq
    · exact hlt
    · exact absurd (by rw [heq, ← ht, htail]) he

theorem ensures_ringBufferDequeue (hN : 1 < N) {f : Nat → Code β} (hs : Rested N w)
    (h : ∀ slot u, DrainInv N u →
      Serving N (u.log.dequeued.length + 1) (u.log.dequeued.length + 1) u →
      Ensures S (drainProtocol N) .backEnd (f slot) Q u) :
    Ensures S (drainProtocol N) .backEnd (ringBufferDequeue N >>= f) Q w := by
  simp only [ringBufferDequeue, Prog.bind_assoc]
  refine Ensures.load fun u hr hu => ?_
  have hs := hs.stable hr
  rw [hs.head]
  refine Ensures.load fun v hr hv => ?_
  have hs := hs.stable hr
  rw [← congrArg BackLog.dequeued hr.log]
  refine ensures_waitForEntry hS hv hs rfl fun x hx hs hl => ?_
  rw [nextIndex_mod hN]
  refine Ensures.store fun y hr hy => ⟨allows_storeLocal hy (.inl rfl), ?_⟩
  have hs := hs.stable hr
  have hl : y.log.toBackLog = v.log.toBackLog := hr.log.trans hl
  have hcur : ∀ l, l ≠ .globalLocalHead →
      (y.store .globalLocalHead ((v.log.dequeued.length + 1) % N) id).cur l = y.cur l :=
    fun l hl => World.store_cur_of_ne y l _ _ _ hl
  refine h _ _ (allows_storeLocal hy (.inl rfl)).1 ⟨⟨?_, ?_⟩, ?_⟩
  · rw [World.store_cur_self, World.store_log, id, hl]
  · rw [World.store_log, id, hl, hcur _ (by decide)]; exact hs.tail
  · exact hs.headShown.congr (hcur _ (by decide)) (hcur _ (by decide)) rfl rfl

theorem ensures_processEntry {held : Nat → Bool} (hN : 1 < N) {f : Unit → Code β} (hs : Rested N w)
    (h : ∀ u, DrainInv N u → Rested N u → Ensures S (drainProtocol N) .backEnd (f ()) Q u) :
    Ensures S (drainProtocol N) .backEnd (processEntry N held >>= f) Q w := by
  have hserving : ∀ {u v : State}, Serving N (u.log.dequeued.length + 1)
      (u.log.dequeued.length + 1) u →
      ConsumerRely u v → Serving N (v.log.dequeued.length + 1) (v.log.dequeued.length + 1) v :=
    fun hs hr => by
    rw [hr.log]; exact hs.stable hr
  simp only [processEntry, Prog.bind_assoc]
  refine ensures_ringBufferDequeue hS hN hs fun slot u hu hs => ?_
  refine Ensures.load fun u hr hu => ?_
  have hs := hserving hs hr
  cases u.cur (.entryType slot) with
  | mmap =>
      simp only [handleEntry, Prog.bind_assoc]
      refine Ensures.load fun u hr hu => ?_
      have hs := hserving hs hr
      refine Ensures.load fun u hr hu => ?_
      refine ensures_recordDequeued (hserving hs hr) fun u hu hs => ?_
      exact ensures_aside hS (confined_createMemoryRegion _ _) hu hs fun _ u hu hs => h u hu hs
  | transientMmap =>
      simp only [handleEntry, Prog.bind_assoc]
      refine Ensures.load fun u hr hu => ?_
      have hs := hserving hs hr
      refine Ensures.load fun u hr hu => ?_
      refine ensures_recordDequeued (hserving hs hr) fun u hu hs => ?_
      rw [← Prog.bind_assoc]
      exact ensures_aside hS (confined_transientMmap aside_byte aside_addressMap sameRing_refl _ _)
        hu hs fun _ u hu hs => h u hu hs
  | redo =>
      simp only [handleEntry, Prog.bind_assoc]
      refine Ensures.load fun u hr hu => ?_
      have hs := hserving hs hr
      refine Ensures.loads (R := fun _ _ => True) (fun _ _ _ _ => trivial) hu fun p u _ hr hu => ?_
      refine ensures_recordDequeued (hserving hs hr) fun u hu hs => ?_
      exact ensures_aside hS (confined_applyRedo aside_byte sameRing_noteWrite _ _ _) hu hs
        fun _ u hu hs => h u hu hs
  | commit =>
      simp only [handleEntry, Prog.bind_assoc, commitRbBatch_eq]
      refine ensures_recordDequeued hs fun u hu hs => ?_
      refine ensures_aside hS aside_prepareCommit hu hs fun _ u hu hs => ?_
      refine ensures_ringBufferCommitDequeuedEntries hs fun u hu hs => ?_
      refine Ensures.fence fun u hr hu => ⟨allows_same hu rfl rfl, ?_⟩
      have hs := hs.stable hr
      have hi : DrainInv N (u.fence .backEnd) := hu.congr rfl rfl rfl rfl rfl
      refine h _ hi ⟨hs.toCopies.congr rfl rfl le_rfl, ?_⟩
      exact hs.headShown.congr rfl rfl rfl rfl

theorem ensures_runConsumer (hN : 1 < N) (hs : Rested N w) :
    Ensures S (drainProtocol N) .backEnd (runConsumer N) (fun _ u => Rested N u) w := by
  simp only [runConsumer]
  refine Ensures.load fun u hr hu => ?_
  have hs := hs.stable hr
  refine Ensures.load fun u hr hu => ?_
  have hs := hs.stable hr
  split
  · exact Ensures.pure fun v hr _ => hs.stable hr
  · rw [← Prog.bind_ret (processEntry N forked)]
    exact ensures_processEntry hS hN hs fun u hu hs => Ensures.ret fun v hr _ => hs.stable hr

end Consumer

variable {bytes : Cell → UInt8} {regions : List (Nat × Nat)}

theorem drainInv_initial : DrainInv N (initial bytes regions) :=
  ⟨(Nat.zero_mod N).symm, (Nat.zero_mod N).symm, (Nat.zero_mod N).symm, le_rfl,
    le_rfl, le_rfl, le_rfl⟩

theorem rested_initial : Rested N (initial bytes regions) :=
  ⟨⟨(Nat.zero_mod N).symm, 0, le_rfl, le_rfl, (Nat.zero_mod N).symm⟩, fun _ => rfl⟩

/-- What each process knows between two of its programs. -/
def AtPause (N : Nat) : Actor → Unit → State → Prop
  | .frontEnd, _, w => Idle w
  | .backEnd, _, w => Rested N w

theorem admits_patient {a : Actor} {o : Op Actor Loc Val Log}
    (h : ((boundedSystem N admitsShown).patient Unblocked).admits u (.op a o)) :
    admitsShown u (.op a o) ∧ (Unblocked a u ∨ (o.exec a u).isSome) :=
  ⟨h.1.2, h.2 a o rfl⟩

theorem ensures_of_reachable {c : Config Actor Loc Val Log Unit} (hN : 4 ≤ N)
    (h : (boundedSystem N admitsShown).Reachable (initial bytes regions) c) :
    DrainInv N c.world ∧ ∀ a,
    Ensures ((boundedSystem N admitsShown).patient Unblocked) (drainProtocol N) a
      (c.prog a) (AtPause N a) c.world := by
  have hS : ∀ u a o, ((boundedSystem N admitsShown).patient Unblocked).admits u (.op a o) →
      admitsShown u (.op a o) ∧ (Unblocked a u ∨ (o.exec a u).isSome) :=
    fun _ _ _ ha => admits_patient ha
  refine h.patient.ensures (P := drainProtocol N) drainInv_initial ?_ ?_ ?_ ?_
  · intro a
    cases a with
    | frontEnd => exact Ensures.ret fun u hr _ => Idle.of_log ⟨rfl, rfl⟩ hr.log
    | backEnd => exact Ensures.ret fun u hr _ => rested_initial.stable hr
  · intro a x p w hw hrest hp
    cases a with
    | frontEnd =>
        obtain ⟨bs, memory, hbs, rfl⟩ := hp
        exact ensures_session hS hN hrest fun es hes => (hbs es hes).2
    | backEnd =>
        obtain rfl := hp
        exact ensures_runConsumer hS (by omega) hrest
  · intro w l hw _
    have hs : ∀ a, (drainProtocol N).Allows a w (w.writeBack l) := fun a => allows_same hw rfl rfl
    refine ⟨(hs .backEnd).1, fun a => ?_⟩
    cases a with
    | frontEnd => exact (hs .backEnd).2 .frontEnd (by decide)
    | backEnd => exact (hs .frontEnd).2 .backEnd (by decide)
  · exact fun w _ hc => absurd rfl hc.1.1

theorem headShown_of_idling {p : Code Unit} (hi : DrainInv N w)
    (he : Ensures ((boundedSystem N admitsShown).patient Unblocked) (drainProtocol N) .backEnd p
      (AtPause N .backEnd) w)
    (hp : Idling p w) : HeadShown w := by
  induction p generalizing w with
  | ret x => exact (he w ((drainProtocol N).rely_refl .backEnd w) hi).headShown
  | op o next ih =>
      have hadm : (boundedSystem N admitsShown).admits w (.op .backEnd o) := ⟨by simp, trivial⟩
      have hpat : (o.exec .backEnd w).isSome →
          ((boundedSystem N admitsShown).patient Unblocked).admits w (.op .backEnd o) := by
        intro hsome
        refine ⟨hadm, ?_⟩
        rintro b o' ⟨⟩
        exact .inr hsome
      have hnext := fun hsome => (he w ((drainProtocol N).rely_refl .backEnd w) hi (hpat hsome)).2
      cases o with
      | load l => exact ih _ hi (hnext rfl _ _ rfl).2 hp
      | fence =>
          obtain ⟨hg, hk⟩ := hnext rfl () (w.fence .backEnd) rfl
          have hfenced : HeadShown (w.fence .backEnd) := ih () hg.1 hk hp
          exact hfenced.congr rfl rfl rfl rfl
      | await l busy =>
          by_contra hns
          have hsome := he.isSome_exec trivial hi hadm hns
          simp [Op.exec, show w.cur l = busy from hp] at hsome
      | store | flush | record | kernel => exact hp.elim

/-- In every run in which no session writes an old head back over the one of a
drained ring, a drained ring leaves no producer waiting. -/
theorem drained_ring_frees_producer (N : Nat) (hN : 4 ≤ N) (bytes : Cell → UInt8)
    (regions : List (Nat × Nat))
    (c : Config Actor Loc Val Log Unit)
    (h : (boundedSystem N admitsShown).Reachable (initial bytes regions) c) : ¬ Stranded c := by
  rintro ⟨⟨next, hfront⟩, hdrained, hidle⟩
  obtain ⟨hi, he⟩ := ensures_of_reachable hN h
  have hshown := headShown_of_idling hi (he .backEnd) hidle hdrained
  have hf := he .frontEnd
  rw [hfront] at hf
  have hsome := hf.isSome_exec trivial hi ⟨by simp, trivial⟩ ⟨hdrained, hshown⟩
  simp [Op.exec] at hsome

/-- The bounded ring with no condition on its steps. -/
def boundedRun (N : Nat) : System Actor Loc Val Log Unit := boundedSystem N (fun _ _ => True)

theorem unrestricted_boundedRun (a : Actor) : (boundedRun N).Unrestricted a :=
  fun _ _ => ⟨by simp, trivial⟩

theorem opens_boundedRun {bs : List (List Entry)}
    (hbs : ∀ es ∈ bs, .commit ∉ es ∧ es.length + 1 ≤ N - 2) :
    Opens (boundedRun N) N () bs (fun _ => 0) () :=
  ⟨bs, fun _ => 0, hbs, Prog.bind_ret _⟩

theorem consumes_boundedRun : Consumes (boundedRun N) N () := Prog.bind_ret _

theorem reachable_boundedRun :
    (boundedRun N).Reachable (initial bytes regions) ⟨initial bytes regions, atRest () ()⟩ := by
  have : (boundedRun N).boot = atRest () () := by funext a; cases a <;> rfl
  rw [← this]
  exact .refl

section Freed

theorem unrestricted_admitsShown : (boundedSystem N admitsShown).Unrestricted .backEnd :=
  fun _ _ => ⟨by simp, trivial⟩

theorem consumes_admitsShown : Consumes (boundedSystem N admitsShown) N () := Prog.bind_ret _

theorem runs_admitsShown {β : Type} {p : Code β} {Q : β → State → Prop} {w : State}
    (hp : p.Confined (Owned .frontEnd) Isolation.SameBack .frontEnd)
    (h : (boundedRun N).Runs .frontEnd p Q w) :
    (boundedSystem N admitsShown).Runs .frontEnd p Q w := by
  refine h.of_confined hp fun w o _ ho => ⟨by simp, ?_⟩
  cases o with
  | store l v f =>
      have hl : l ≠ .lastPersistedHead := by
        rintro rfl
        exact absurd ho.1 (by decide)
      cases l with
      | lastPersistedHead => exact absurd rfl hl
      | _ => trivial
  | _ => trivial

theorem one_move_admitsShown (hN : 4 ≤ N) {w₀ w : State} (hw : Level 0 w)
    (h : (boundedSystem N admitsShown).Reachable w₀ ⟨w, atRest () ()⟩) :
    ∃ u, (boundedSystem N admitsShown).Reachable w₀ ⟨u, atRest () ()⟩ ∧
      LoggedOne N 0 (.redo 8192 fun _ => 0) (fun _ => 0) w u := by
  obtain ⟨-, h1, h2, -⟩ := nextIndex_ne (N := N) (k := 0) (by omega) (by omega)
  have ho : Opens (boundedSystem N admitsShown) N () [[.redo 8192 fun _ => 0]] (fun _ => 0) () :=
    ⟨[[.redo 8192 fun _ => 0]], fun _ => 0, by simp; omega, Prog.bind_ret _⟩
  rw [Opens, session_eq, Prog.bind_assoc] at ho
  obtain ⟨_, v, hv, rfl, hlog⟩ := h.start rfl ho (runs_admitsShown (Isolation.confined_opening _ _)
    (runs_openingOne (unrestricted_boundedRun .frontEnd).lenient hw h1 h2))
  have hclose : (boundedSystem N admitsShown).Runs .frontEnd
      (closing (0, nextIndex N (nextIndex N 0)))
      (fun _ u => LoggedOne N 0 (.redo 8192 fun _ => 0) (fun _ => 0) w u) v :=
    ⟨⟨by simp, fun _ _ => hlog.persistedHead.symm⟩, _, _, rfl, ⟨by simp, trivial⟩, _,
      _, rfl, hlog.closing⟩
  obtain ⟨_, u, hu, hlog'⟩ := hv.resume (Function.update_self _ _ _) hclose
  rw [Function.update_idem, update_frontEnd] at hu
  exact ⟨u, hu, hlog'⟩

/-- A producer fills the ring while the consumer drains what an earlier session
has logged, and then waits for the head it knows to change, as it has. -/
theorem exists_freed (hN : 4 ≤ N) (bytes : Cell → UInt8) (regions : List (Nat × Nat)) :
    ∃ c, (boundedSystem N admitsShown).Reachable (initial bytes regions) c ∧
      (∃ next, c.prog .frontEnd = .op (.await .lastPersistedHead (0 : Nat)) next) ∧
      c.world.log.published = 2 ∧ c.world.log.committed = 2 ∧ Idling (c.prog .backEnd) c.world ∧
      c.world.cur .lastPersistedHead = (2 : Nat) := by
  obtain ⟨-, -, h2, h3⟩ := nextIndex_ne (N := N) (k := 0) (by omega) (by omega)
  have hzero : nextIndex N 0 = 1 := if_neg (by omega)
  have hone : nextIndex N 1 = 2 := if_neg (by omega)
  have hlast : nextIndex N (N - 1) = 0 := if_pos (by omega)
  have hstart : (boundedSystem N admitsShown).Reachable (initial bytes regions)
      ⟨initial bytes regions, atRest () ()⟩ := by
    have : (boundedSystem N admitsShown).boot = atRest () () := by funext a; cases a <;> rfl
    rw [← this]
    exact .refl
  have hw := level_initial bytes regions
  obtain ⟨v, hv, hlog⟩ := one_move_admitsShown hN hw hstart
  have hlen : (Delivery.copied (N - 3)).length = N - 3 := by simp [Delivery.copied]
  have ho : Opens (boundedSystem N admitsShown) N () [Delivery.copied (N - 3)] (fun _ => 0) () := by
    refine ⟨[Delivery.copied (N - 3)], fun _ => 0, ?_, Prog.bind_ret _⟩
    simp only [List.mem_singleton, forall_eq, hlen]
    exact ⟨Delivery.commit_not_mem_copied _, by omega⟩
  rw [Opens, session_eq_starting, Prog.bind_assoc] at ho
  simp only [batches, batch, Prog.bind_assoc] at ho
  have hF := (unrestricted_boundedRun (N := N) .frontEnd).lenient
  obtain ⟨_, u, hu, rfl, rfl⟩ := hv.start rfl ho
    (runs_admitsShown (Isolation.confined_starting _ _) (runs_starting hF))
  generalize hy : ({ v with log := { v.log with
    sessions := ⟨v.log.enqueued.length, [Delivery.copied (N - 3)], fun _ => 0⟩ ::
      v.log.sessions } } : State) = y at hu
  have hycur : y.cur = v.cur := by rw [← hy]
  obtain ⟨u', hu', hcons⟩ :=
    consume_move unrestricted_admitsShown ((hlog.shown hw).of_cur hycur) h2 h3 hu rfl
    consumes_admitsShown
  have hrun : (boundedRun N).Runs .frontEnd (enqueueAll N (Delivery.copied (N - 3))
      (v.cur .lastPersistedHead, v.cur .lastPersistedTail)) (fun ht x => ht = (0, N - 1) ∧
        x = logEntries 2 (Delivery.copied (N - 3)) u') u' := by
    rw [← Prog.bind_ret (enqueueAll N _ _), hlog.persistedHead, hlog.persistedTail, hzero, hone,
      runs_enqueueAll hF (by decide) (by omega)]
    refine System.Runs.pure.mpr ⟨?_, rfl⟩
    rw [hlen, show 2 + (N - 3) = N - 1 by omega]
  obtain ⟨_, x, hx, rfl, rfl⟩ := hu'.resume (Function.update_self _ _ _)
    (runs_admitsShown (Isolation.confined_enqueueAll _ _) hrun)
  refine ⟨_, hx, ?_, ?_, ?_, trivial, ?_⟩
  · dsimp only
    rw [Function.update_self]
    simp only [ringBufferCommitEnqueuedEntries, waitForSpace, hlast, if_true, Prog.bind_assoc]
    exact ⟨_, rfl⟩
  · show (logEntries 2 _ u').log.published = 2
    rw [logEntries_log]
    show u'.log.published = 2
    rw [hcons.front, ← hy]
    show v.log.published = 2
    rw [hlog.published, hlog.enqueued]
    rfl
  · show (logEntries 2 _ u').log.committed = 2
    rw [logEntries_log]
    show u'.log.committed = 2
    rw [hcons.committed, hcons.dequeued, ← hy]
    show (v.log.dequeued ++ _).length = 2
    rw [hlog.back]
    rfl
  · show (logEntries 2 _ u').cur .lastPersistedHead = 2
    rw [logEntries_cur (by simp [slotOf]), hcons.level.persistedHead, hzero, hone]

theorem drained_ring_frees_producer_waiting :
    ∃ c, (boundedSystem ringBufferSize admitsShown).Reachable (initial (fun _ => 0) []) c ∧
      (∃ next, c.prog .frontEnd = .op (.await .lastPersistedHead (0 : Nat)) next) ∧
      c.world.cur .lastPersistedHead = (2 : Nat) ∧ c.world.log.published = 2 ∧
      c.world.log.committed = 2 ∧ Idling (c.prog .backEnd) c.world ∧ ¬ Stranded c := by
  obtain ⟨c, hc, hwait, hp, hd, hi, hh⟩ :=
    exists_freed (N := ringBufferSize) (by decide) (fun _ => 0) []
  exact ⟨c, hc, hwait, hh, hp, hd, hi,
    drained_ring_frees_producer ringBufferSize (by decide) (fun _ => 0) [] c hc⟩

end Freed

section Stale

/-- A ring whose two entries have been consumed, and whose shown head is still
the first one. -/
structure Stale (w : State) : Prop where
  persistedHead : w.cur .lastPersistedHead = 0
  persistedTail : w.cur .lastPersistedTail = 2
  committed : w.log.committed = 2
  published : w.log.published = 2

theorem exists_stale (hN : 4 ≤ N) (bytes : Cell → UInt8) (regions : List (Nat × Nat)) :
    ∃ u, (boundedRun N).Reachable (initial bytes regions) ⟨u, atRest () ()⟩ ∧ Stale u := by
  have hF := unrestricted_boundedRun (N := N) .frontEnd
  have hB := unrestricted_boundedRun (N := N) .backEnd
  have hc := consumes_boundedRun (N := N)
  have hone : (entries [[]]).length = 1 := rfl
  have hzero : nextIndex N 0 = 1 := if_neg (by omega)
  have hnext : nextIndex N 1 = 2 := if_neg (by omega)
  have ho : Opens (boundedRun N) N () [[]] (fun _ => 0) () := opens_boundedRun (by simp; omega)
  have hw₀ := fresh_initial bytes regions
  have r₀ : (boundedRun N).Reachable (initial bytes regions)
      ⟨initial bytes regions, atRest () ()⟩ := reachable_boundedRun
  obtain ⟨w₁, r₁, l₁, p₁, -⟩ :=
    session_move hF.lenient r₀ rfl ho (by simp) hw₀.persistedHead
    hw₀.persistedTail le_rfl (by omega)
  rw [Opens, session_eq, Prog.bind_assoc] at ho
  obtain ⟨_, w₂, r₂, rfl, l₂, p₂, -⟩ :=
    r₁.start rfl ho (runs_opening hF.lenient (by simp) p₁ l₁.persistedTail (by omega) (by omega))
  have hpt : w₂.cur .lastPersistedTail = 2 := l₂.persistedTail
  have hgh : w₂.cur .globalLocalHead = 0 := by
    rw [l₂.others _ (by simp) (by simp) (by simp) (by simp [slotOf]),
      l₁.others _ (by simp) (by simp) (by simp) (by simp [slotOf])]
    rfl
  have hgt : w₂.cur .globalLocalTail = 0 := by
    rw [l₂.others _ (by simp) (by simp) (by simp) (by simp [slotOf]),
      l₁.others _ (by simp) (by simp) (by simp) (by simp [slotOf])]
    rfl
  have ht0 : w₂.cur (.entryType 0) = .commit := by
    rw [Logged.kept l₂ (kept_entryType (by omega))]
    exact l₁.closed [] rfl
  have ht1 : w₂.cur (.entryType 1) = .commit := l₂.closed [] rfl
  obtain ⟨w₃, r₃, c₃⟩ :=
    round_move hB r₂ rfl hc (by rw [hpt, p₂]; decide) (fun _ => by rw [hpt, hgh]; decide)
    (by rw [hgh]; exact ht0)
  have hgh₃ : w₃.cur .globalLocalHead = 1 := by rw [c₃.localHead, hgh, hzero]
  have hpt₃ : w₃.cur .lastPersistedTail = 2 :=
    (c₃.others _ (by simp) (by simp) (by simp) (by simp) (by simp) (by simp)).trans hpt
  have hph₃ : w₃.cur .lastPersistedHead = 1 := by rw [c₃.persistedHead, hgh, hzero]
  have ht1₃ : w₃.cur (.entryType 1) = .commit :=
    (CommitRound.kept c₃ (kept_entryType (Nat.lt_succ_self 1))).trans ht1
  obtain ⟨w₄, r₄, c₄⟩ :=
    round_move hB r₃ rfl hc (by rw [hpt₃, hph₃]; decide) (fun _ => by rw [hpt₃, hgh₃]; decide)
    (by rw [hgh₃]; exact ht1₃)
  obtain ⟨_, u, r₅, rfl⟩ := r₄.resume (Function.update_self _ _ _) (runs_closing hF.lenient)
  simp only [Function.update_idem, update_frontEnd] at r₅
  refine ⟨_, r₅, ?_⟩
  constructor
  case persistedHead => rw [World.store_cur_of_ne _ _ _ _ _ (by decide), World.store_cur_self]
  case persistedTail => rw [World.store_cur_self]; rfl
  case committed =>
    show w₄.log.committed = 2
    rw [c₄.committed, c₃.dequeued, l₂.back, l₁.back]
    rfl
  case published =>
    show w₄.log.published = 2
    rw [c₄.front, c₃.front, l₂.published, l₂.enqueued, l₁.enqueued]
    rfl

/-- A batch whose closing entry would bring the tail to the old head is never
closed. -/
theorem exists_stranded (hN : 4 ≤ N) (bytes : Cell → UInt8) (regions : List (Nat × Nat)) :
    ∃ c, (boundedRun N).Reachable (initial bytes regions) c ∧ Stranded c := by
  obtain ⟨w, r, hw⟩ := exists_stale hN bytes regions
  have hF := unrestricted_boundedRun (N := N) .frontEnd
  have hlen : (Delivery.copied (N - 3)).length = N - 3 := by simp [Delivery.copied]
  have ho : Opens (boundedRun N) N () [Delivery.copied (N - 3)] (fun _ => 0) () := by
    refine opens_boundedRun ?_
    simp only [List.mem_singleton, forall_eq, hlen]
    exact ⟨Delivery.commit_not_mem_copied _, by omega⟩
  rw [Opens, session_eq_starting, Prog.bind_assoc] at ho
  simp only [batches, batch, Prog.bind_assoc] at ho
  obtain ⟨_, w₁, r₁, rfl, rfl⟩ := r.start rfl ho (runs_starting hF.lenient)
  generalize hv : ({ w with log := { w.log with
    sessions := ⟨w.log.enqueued.length, [Delivery.copied (N - 3)], fun _ => 0⟩ ::
      w.log.sessions } } : State) = v at r₁
  have hrun : (boundedRun N).Runs .frontEnd (enqueueAll N (Delivery.copied (N - 3))
      (w.cur .lastPersistedHead, w.cur .lastPersistedTail)) (fun ht u => ht = (0, N - 1) ∧
        u = logEntries 2 (Delivery.copied (N - 3)) v) v := by
    rw [← Prog.bind_ret (enqueueAll N _ _), hw.persistedHead, hw.persistedTail,
      runs_enqueueAll hF.lenient (by decide) (by omega)]
    refine System.Runs.pure.mpr ⟨?_, rfl⟩
    rw [hlen, show 2 + (N - 3) = N - 1 by omega]
  obtain ⟨_, _, r₂, rfl, rfl⟩ := r₁.resume (Function.update_self _ _ _) hrun
  refine ⟨_, r₂, ⟨?_, ?_, trivial⟩⟩
  · have hlast : nextIndex N (N - 1) = 0 := if_pos (by omega)
    have hcur : (logEntries 2 (Delivery.copied (N - 3)) v).cur .lastPersistedHead = 0 := by
      rw [logEntries_cur (by simp [slotOf]), ← hv]
      exact hw.persistedHead
    dsimp only
    rw [Function.update_self, hcur]
    simp only [ringBufferCommitEnqueuedEntries, waitForSpace, hlast, if_true, Prog.bind_assoc]
    exact ⟨_, rfl⟩
  · rw [logEntries_log, ← hv]
    exact hw.committed.trans hw.published.symm

end Stale

theorem not_drained_ring_frees_producer : ¬ ∀ N, 4 ≤ N → ∀ bytes regions c,
    (boundedRun N).Reachable (initial bytes regions) c → ¬ Stranded c := by
  intro h
  obtain ⟨c, hc, hs⟩ := exists_stranded (N := ringBufferSize) (by decide) (fun _ => 0) []
  exact h ringBufferSize (by decide) (fun _ => 0) [] c hc hs

end Mangosteen.Drain
