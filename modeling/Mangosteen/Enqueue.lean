import Mangosteen.Producer

namespace Mangosteen.Enqueue

open PersistentMemory Prog Memory RingBuffer Session Slots Channel Producer

variable {N : Nat} {dur : Bool} {I : List SessionRecord → Prop}
variable {β Phase : Type} {S : System Actor Loc Val Log Phase} {Q : β → State → Prop}
variable {e : Entry} {ss : List SessionRecord} {rest : List Entry} {head tail : Nat} {w : State}

/-- The slot of the next entry while it is being filled. -/
structure Writing (N : Nat) (dur : Bool) (ss : List SessionRecord) (e : Entry) (rest : List Entry)
    (h slot : Nat) (f : FrontLog)
    (todo : List (Sigma Val)) (u : State) :
    Prop extends Producing N dur ss (e :: rest) h slot u where
  room : (u.log.enqueued.length + 1) % N ≠ h
  log : u.log.toFrontLog = f
  written : ∃ done, done ++ todo = entryStores slot e ∧ ∀ s ∈ done, u.cur s.1 = s.2

theorem Writing.stable {f : FrontLog} {todo : List (Sigma Val)} {u v : State}
    (h : Writing N dur ss e rest head tail f todo u) (hr : FrontRely N dur u v) :
    Writing N dur ss e rest head tail f todo v := by
  obtain ⟨done, hd, hv⟩ := h.written
  refine ⟨h.toProducing.stable hr, by rw [hr.log]; exact h.room, hr.log.trans h.log, done, hd, ?_⟩
  intro s hs
  have hm : s ∈ entryStores tail e := hd ▸ List.mem_append_left todo hs
  exact (hr.own.cur s.1 (owned_of_slotOf _ _ (slotOf_of_mem hm))).trans (hv s hs)

theorem Writing.store {f : FrontLog} {s : Sigma Val} {todo : List (Sigma Val)} {u : State}
    (h : Writing N dur ss e rest head tail f (s :: todo) u) :
    slotOf s.1 = some (u.log.enqueued.length % N) ∧
      Writing N dur ss e rest head tail f todo (u.store s.1 s.2 id) := by
  obtain ⟨done, hd, hv⟩ := h.written
  have hs : s ∈ entryStores tail e := by simp [← hd]
  have hslot := slotOf_of_mem hs
  have hne : ∀ m, slotOf m = none → m ≠ s.1 := by
    rintro m hm rfl
    simp [hm] at hslot
  refine ⟨h.tail ▸ hslot, ?_, h.room, h.log, done ++ [s], by simpa using hd, ?_⟩
  · refine h.toProducing.congr rfl ?_ ?_
    · exact (base_congr (World.store_cur_of_ne u _ _ _ _ (hne _ rfl)) rfl rfl).ge
    · simpa [World.Durable, World.store_cur_of_ne u _ _ _ _ (hne .remoteTail rfl)] using h.durable
  · intro t ht
    by_cases hts : t.1 = s.1
    · have hmem : t ∈ entryStores tail e := by
        rw [← hd]
        simp only [List.mem_append, List.mem_singleton] at ht
        simp only [List.mem_append, List.mem_cons]
        tauto
      obtain rfl := eq_of_mem hmem hs hts
      exact World.store_cur_self u _ _ _
    · rw [World.store_cur_of_ne u _ _ _ _ hts]
      simp only [List.mem_append, List.mem_singleton] at ht
      rcases ht with ht | rfl
      · exact hv t ht
      · exact absurd rfl hts

theorem Writing.flush {f : FrontLog} {todo : List (Sigma Val)} {u : State}
    (h : Writing N dur ss e rest head tail f todo u) :
    Producing N dur ss (e :: rest) head tail (u.flush .frontEnd (slotLocs tail)) := by
  refine h.toProducing.congr rfl le_rfl ?_
  have hne : Loc.remoteTail ∉ slotLocs tail := fun hm => by simpa [slotOf] using mem_slotLocs.mp hm
  rw [World.Durable, World.flush_pending_of_not_mem u _ _ _ _ hne]
  exact h.durable

/-- A slot is filled, flushed and only then counted; the producer's knowledge
moves on by one entry. -/
theorem ensures_storeEntry {f : Unit → Code β} (hw : RingInv N dur I w)
    (hp : Producing N dur ss (e :: rest) head tail w) (hne : (w.log.enqueued.length + 1) % N ≠ head)
    (h : ∀ u, RingInv N dur I u → Producing N dur ss rest head ((w.log.enqueued.length + 1) % N) u →
      u.log.toFrontLog = { w.log.toFrontLog with enqueued := w.log.enqueued ++ [e] } →
      Ensures S (ringProtocol N dur I) .frontEnd (f ()) Q u) :
    Ensures S (ringProtocol N dur I) .frontEnd (storeEntry tail e >>= f) Q w := by
  rw [storeEntry, Prog.bind_assoc]
  refine Ensures.storeAll (J := Writing N dur ss e rest head tail w.log.toFrontLog) hw
    ⟨hp, hne, rfl, [], rfl, by simp⟩ (fun _ _ _ hJ hr _ => hJ.stable hr)
    (fun s todo u hJ hi => ⟨allows_storeSlot hi hJ.store.1, hJ.store.2⟩) ?_
  intro u hu hJ
  rw [Prog.bind_assoc]
  refine Ensures.flush fun v hv hvi => ?_
  have hJ := hJ.stable hv
  refine ⟨hJ.tail ▸ allows_flushSlot hvi, ?_⟩
  refine Ensures.record fun x hx hxi => ?_
  have hpx := (hJ.flush).stable hx
  have hlog : x.log.toFrontLog = w.log.toFrontLog := hx.log.trans hJ.log
  have hset : ∀ s ∈ entryStores tail e, x.cur s.1 = s.2 ∧ x.Settled .frontEnd s.1 := by
    intro s hs
    have ho := owned_of_slotOf _ _ (slotOf_of_mem hs)
    obtain ⟨done, hd, hv⟩ := hJ.written
    rw [List.append_nil] at hd
    exact ⟨(hx.own.cur s.1 ho).trans (hv s (hd ▸ hs)), hx.own.settled s.1 ho
      (World.settled_flush_of_mem (mem_slotLocs.mpr (slotOf_of_mem hs)))⟩
  have hroom : (x.log.enqueued.length + 1) % N ≠ head := by rw [hlog]; exact hne
  obtain ⟨c, hc, hh, hlt⟩ := hpx.toHolding.room hroom
  have hg := allows_append hxi (hpx.sessions ▸ hpx.rest) (by omega) (hpx.tail ▸ hset)
  refine ⟨hg, h _ hg.1 ⟨⟨⟨c, hc, hh, ?_⟩, ?_, ?_, hpx.sessions⟩, hpx.shown, ?_⟩ ?_⟩
  · simpa using hlt
  · rw [← hlog]; simp
  · simpa using hpx.rest
  · exact hpx.durable
  · rw [← hlog]

section Loops

variable (hS : ∀ w label, S.admits w label → admitsHead N dur w label)
include hS

theorem ensures_waitForSpace_remoteHead {f : Nat → Code β} {nextTail : Nat} (hw : RingInv N dur I w)
    (hp : Producing N dur ss rest head tail w)
    (h : ∀ head u, RingInv N dur I u → Producing N dur ss rest head tail u → nextTail ≠ head →
      u.log.toFrontLog = w.log.toFrontLog →
      Ensures S (ringProtocol N dur I) .frontEnd (f head) Q u) :
    Ensures S (ringProtocol N dur I) .frontEnd
      (waitForSpace (await Loc.remoteHead nextTail) nextTail head >>= f) Q w := by
  by_cases he : nextTail = head
  · rw [waitForSpace, if_pos he]
    refine Ensures.await False.elim fun u hu hi ha hb => ?_
    have hpu := hp.stable hu
    refine h _ u hi ⟨hpu.toHolding.refresh_remoteHead hi (hS u _ ha), hpu.shown,
      hpu.durable⟩ ?_ hu.log
    exact fun e => hb e.symm
  · rw [waitForSpace, if_neg he]
    exact h head w hw hp he rfl

theorem ensures_waitForSpace_lastPersistedHead {f : Nat → Code β} {nextTail : Nat}
    (hw : RingInv N dur I w) (hp : Producing N dur ss rest head tail w)
    (h : ∀ head u, RingInv N dur I u → Producing N dur ss rest head tail u → nextTail ≠ head →
      u.log.toFrontLog = w.log.toFrontLog →
      Ensures S (ringProtocol N dur I) .frontEnd (f head) Q u) :
    Ensures S (ringProtocol N dur I) .frontEnd
      (waitForSpace (await Loc.lastPersistedHead nextTail) nextTail head >>= f) Q w := by
  by_cases he : nextTail = head
  · rw [waitForSpace, if_pos he]
    refine Ensures.await False.elim fun u hu hi ha hb => ?_
    have hpu := hp.stable hu
    refine h _ u hi ⟨hpu.toHolding.refresh_lastPersistedHead hi ?_, hpu.shown,
      hpu.durable⟩ ?_ hu.log
    · exact he ▸ hS u _ ha
    · exact fun e => hb e.symm
  · rw [waitForSpace, if_neg he]
    exact h head w hw hp he rfl

variable (hN : 1 < N)
include hN

theorem ensures_enqueueEntry {f : Nat × Nat → Code β} (hw : RingInv N dur I w)
    (hp : Producing N dur ss (e :: rest) head tail w)
    (h : ∀ ht u, RingInv N dur I u → Producing N dur ss rest ht.1 ht.2 u →
      Ensures S (ringProtocol N dur I) .frontEnd (f ht) Q u) :
    Ensures S (ringProtocol N dur I) .frontEnd (enqueueEntry N e head tail >>= f) Q w := by
  have hnext : nextIndex N tail = (w.log.enqueued.length + 1) % N := by
    rw [hp.tail, nextIndex_mod hN]
  simp only [enqueueEntry, Prog.bind_assoc]
  refine ensures_waitForSpace_remoteHead hS hw hp fun head' u hu hpu hne hlog => ?_
  rw [hnext] at hne ⊢
  refine ensures_storeEntry hu hpu (by rw [hlog]; exact hne) fun v hv hpv _ => ?_
  rw [hlog] at hpv
  exact h _ v hv hpv

theorem ensures_enqueueAll {es : List Entry} {ht : Nat × Nat} {f : Nat × Nat → Code β}
    (hw : RingInv N dur I w) (hp : Producing N dur ss (es ++ rest) ht.1 ht.2 w)
    (h : ∀ ht u, RingInv N dur I u → Producing N dur ss rest ht.1 ht.2 u →
      Ensures S (ringProtocol N dur I) .frontEnd (f ht) Q u) :
    Ensures S (ringProtocol N dur I) .frontEnd (enqueueAll N es ht >>= f) Q w := by
  induction es generalizing ht w with
  | nil => exact h ht w hw hp
  | cons e es ih =>
      rw [enqueueAll, Prog.bind_assoc]
      exact ensures_enqueueEntry hS hN hw hp fun ht u hu hpu => ih hu hpu

end Loops

section Publish

/-- The slots of all entries are durable, and the last one ends a batch. -/
structure Sealed (N : Nat) (dur : Bool) (ss : List SessionRecord) (rest : List Entry)
    (head tail : Nat) (u : State) : Prop extends Producing N dur ss rest head tail u where
  filled : Filled N (base dur u) u.log.enqueued u.log.enqueued.length u
  boundary : AtBoundary u.log.enqueued u.log.enqueued.length

theorem Sealed.stable {u v : State} (h : Sealed N dur ss rest head tail u)
    (hr : FrontRely N dur u v) : Sealed N dur ss rest head tail v := by
  refine ⟨h.toProducing.stable hr, ?_, by rw [hr.log]; exact h.boundary⟩
  rw [hr.log]
  exact h.filled.undisturbed hr.base owned_of_slotOf hr.own

theorem sealed_fence {u : State} (hi : RingInv N dur I u) (hp : Producing N dur ss rest head tail u)
    (hb : AtBoundary u.log.enqueued u.log.enqueued.length) :
    Sealed N dur ss rest head tail (u.fence .frontEnd) := by
  have hf := (hi.fence .frontEnd).2
  refine ⟨hp.congr rfl hf (World.durable_fence hp.durable.settled), ?_, hb⟩
  exact hi.filled.fence.undisturbed hf owned_of_slotOf (.refl _ _ _)

/-- The second half of the commit function: `remote_tail` is stored once the
entries are durable, and shown to the consumer once it is durable itself. -/
theorem ensures_publish {f : Unit → Code β} (hp : Producing N dur ss rest head tail w)
    (hb : AtBoundary w.log.enqueued w.log.enqueued.length)
    (h : ∀ u, RingInv N dur I u → Producing N dur ss rest head tail u →
      Published N dur ss rest head tail u → Ensures S (ringProtocol N dur I) .frontEnd (f ()) Q u) :
    Ensures S (ringProtocol N dur I) .frontEnd (do
      fence
      storeRecord .remoteTail tail
        (fun g => { g with published := g.enqueued.length, publishedBefore := g.published })
      flush [.remoteTail]
      fence
      let tail ← load .remoteTail
      storeRecord .lastPersistedTail tail (fun g => { g with visible := g.published })
      record (fun g => { g with acknowledged := g.published })
      f ()) Q w := by
  refine Ensures.fence fun u hr hu => ⟨allows_fence hu, ?_⟩
  have hs := sealed_fence hu (hp.stable hr) (by rw [hr.log]; exact hb)
  refine Ensures.storeRecord fun u hr hu => ?_
  have hs := hs.stable hr
  have hg := allows_publish hu hs.durable hs.shown hs.filled hs.boundary
  rw [← hs.tail] at hg
  refine ⟨hg, ?_⟩
  have hpub : Published N dur ss rest head tail (u.store .remoteTail tail
      (fun g => { g with published := g.enqueued.length, publishedBefore := g.published })) :=
    ⟨hs.toHolding.congr rfl rfl (base_congr rfl rfl rfl).ge, rfl⟩
  refine Ensures.flush fun u hr hu => ⟨allows_flushTail hu, ?_⟩
  have hpub := hpub.stable hr
  have hset : (u.flush .frontEnd [.remoteTail]).Settled .frontEnd .remoteTail :=
    World.settled_flush_of_mem (by simp)
  have hpub := hpub.congr (v := u.flush .frontEnd [.remoteTail]) rfl le_rfl
  refine Ensures.fence fun u hr hu => ⟨allows_fence hu, ?_⟩
  have hpub := (hpub.stable hr).congr (v := u.fence .frontEnd) rfl (hu.fence .frontEnd).2
  have hd := World.durable_fence (hr.own.settled .remoteTail rfl hset)
  refine Ensures.load fun u hr hu => ?_
  have hpub := hpub.stable hr
  have hd := hr.own.durable .remoteTail rfl hd
  refine Ensures.storeRecord fun v hr hv => ?_
  have hpub := hpub.stable hr
  have hd := hr.own.durable .remoteTail rfl hd
  have hcur : u.cur .remoteTail = v.log.published % N :=
    (hr.own.cur .remoteTail rfl).symm.trans hv.tail.cur
  refine ⟨allows_show hv hd rfl hcur, ?_⟩
  have hpub : Published N dur ss rest head tail
      (v.store .lastPersistedTail (u.cur .remoteTail)
        (fun g => { g with visible := g.published })) :=
    ⟨hpub.toHolding.congr rfl rfl (base_congr rfl rfl rfl).ge, hpub.published⟩
  have hshown : (v.store .lastPersistedTail (u.cur .remoteTail)
      (fun g => { g with visible := g.published })).log.visible = v.log.published := rfl
  have hd : (v.store .lastPersistedTail (u.cur .remoteTail)
      (fun g => { g with visible := g.published })).Durable .frontEnd .remoteTail := hd
  refine Ensures.record fun u hr hu => ?_
  have hpub := hpub.stable hr
  have hd := hr.own.durable .remoteTail rfl hd
  have hg := allows_acknowledge hu hd
  have hh : Holding N dur ss rest head tail
      { u with log := { u.log with acknowledged := u.log.published } } :=
    hpub.toHolding.congr rfl rfl le_rfl
  refine ⟨hg, h _ hg.1 ⟨hh, ?_, hd⟩ ⟨hh, hpub.published⟩⟩
  have hlog := hr.log
  show u.log.visible = u.log.published
  rw [hlog]
  exact hshown

end Publish

section Sessions

variable (hS : ∀ w label, S.admits w label → admitsHead N dur w label) (hN : 1 < N)
include hS hN

theorem ensures_ringBufferCommitEnqueuedEntries {f : Nat × Nat → Code β} (hw : RingInv N dur I w)
    (hp : Producing N dur ss (.commit :: rest) head tail w)
    (h : ∀ ht u, RingInv N dur I u → Producing N dur ss rest ht.1 ht.2 u →
      Published N dur ss rest ht.1 ht.2 u → Ensures S (ringProtocol N dur I) .frontEnd (f ht) Q u) :
    Ensures S (ringProtocol N dur I) .frontEnd
    (ringBufferCommitEnqueuedEntries N head tail >>= f) Q w := by
  have hnext : nextIndex N tail = (w.log.enqueued.length + 1) % N := by
    rw [hp.tail, nextIndex_mod hN]
  simp only [ringBufferCommitEnqueuedEntries, Prog.bind_assoc]
  refine ensures_waitForSpace_lastPersistedHead hS hw hp fun head' u hu hpu hne hlog => ?_
  rw [hnext] at hne ⊢
  refine ensures_storeEntry hu hpu (by rw [hlog]; exact hne) fun v hv hpv hlog' => ?_
  rw [hlog] at hpv
  have hb : AtBoundary v.log.enqueued v.log.enqueued.length := by
    rw [hlog']; exact atBoundary_concat _
  exact ensures_publish (f := fun _ => f (head', (w.log.enqueued.length + 1) % N)) hpv hb (h (_, _))

theorem ensures_batches {bs : List (List Entry)} {todo : List Entry} {ht : Nat × Nat}
    {f : Nat × Nat → Code β}
    (hw : RingInv N dur I w) (htodo : entries bs ++ rest = todo)
    (hp : Producing N dur ss todo ht.1 ht.2 w) (hpub : Published N dur ss todo ht.1 ht.2 w)
    (h : ∀ ht u, RingInv N dur I u → Producing N dur ss rest ht.1 ht.2 u →
      Published N dur ss rest ht.1 ht.2 u → Ensures S (ringProtocol N dur I) .frontEnd (f ht) Q u) :
    Ensures S (ringProtocol N dur I) .frontEnd (batches N bs ht >>= f) Q w := by
  induction bs generalizing todo ht w with
  | nil =>
      subst htodo
      exact h ht w hw hp hpub
  | cons es bs ih =>
      simp only [batches, batch, Prog.bind_assoc]
      have hes : todo = es ++ .commit :: (entries bs ++ rest) := by
        simp [← htodo, entries, closed]
      rw [hes] at hp
      refine ensures_enqueueAll hS hN hw hp fun ht u hu hpu => ?_
      exact ensures_ringBufferCommitEnqueuedEntries hS hN hu hpu
        fun ht u hu hpu hpub => ih hu rfl hpu hpub

omit hS hN in
theorem ready_session {r : SessionRecord} {u : State} (h : Idle N dur u) :
    Ready N dur (r :: u.log.sessions) (entries r.batches)
      { u with log := { u.log with sessions := r :: u.log.sessions } } := by
  refine ⟨⟨⟨h.head, h.tail, ?_, rfl⟩, h.shown, h.durable⟩, h.published⟩
  have hrest := h.rest
  rw [List.append_nil] at hrest
  rw [logged, entries_append, ← hrest]

omit hS hN in
theorem ready_setHead {u : State} (hi : RingInv N dur I u) (hp : Producing N dur ss [] head tail u)
    (hpub : Published N dur ss [] head tail u) :
    Ready N dur ss [] (u.store .lastPersistedHead head id) := by
  have hc : ∀ l, l ≠ .lastPersistedHead → (u.store .lastPersistedHead head id).cur l = u.cur l :=
    fun l hl => World.store_cur_of_ne u l _ id _ hl
  have hshown : u.cur .lastPersistedTail = tail := by
    rw [hi.shown, hp.shown, hpub.published, hp.tail]
  have hp' := hp.congr (v := u.store .lastPersistedHead head id) rfl
    (base_congr (hc _ (by decide)) rfl rfl).ge
    (by simpa [World.Durable, hc .remoteTail (by decide)] using hp.durable)
  refine ⟨?_, hpub.published⟩
  rw [World.store_cur_self, hc _ (by decide), hshown]
  exact hp'

omit hS hN in
theorem ready_setTail {u : State} (h : Ready N dur ss [] u) :
    Ready N dur ss [] (u.store .lastPersistedTail (u.log.enqueued.length % N)
      (fun g => { g with visible := g.enqueued.length })) := by
  have hc : ∀ l, l ≠ .lastPersistedTail → (u.store .lastPersistedTail (u.log.enqueued.length % N)
      (fun g => { g with visible := g.enqueued.length })).cur l = u.cur l :=
    fun l hl => World.store_cur_of_ne u l _ _ _ hl
  refine ⟨⟨⟨?_, World.store_cur_self u _ _ _, h.rest, h.sessions⟩, h.published.symm, h.durable⟩,
    h.published⟩
  rw [hc _ (by decide)]
  exact h.head

theorem ensures_session {bs : List (List Entry)} {memory : Nat → UInt8} {f : Unit → Code β}
    (hbs : ∀ es ∈ bs, .commit ∉ es) (hidle : Idle N dur w)
    (hI : I (⟨w.log.enqueued.length, bs, memory⟩ :: w.log.sessions))
    (h : ∀ u, RingInv N dur I u → Idle N dur u →
      u.log.sessions = ⟨w.log.enqueued.length, bs, memory⟩ :: w.log.sessions →
      Ensures S (ringProtocol N dur I) .frontEnd (f ()) Q u) :
    Ensures S (ringProtocol N dur I) .frontEnd (session N bs memory >>= f) Q w := by
  simp only [session, recordSession, getGlobalHeadValue, getGlobalTailValue, setGlobalHeadValue,
    setGlobalTailValue, Prog.bind_assoc]
  refine Ensures.record fun u hr hu => ?_
  have hidle := hidle.stable hr
  rw [← congrArg FrontLog.enqueued hr.log, ← congrArg FrontLog.sessions hr.log] at hI h
  refine ⟨allows_session hu hbs hidle.rest hI, ?_⟩
  have hready := ready_session (r := ⟨u.log.enqueued.length, bs, memory⟩) hidle
  refine Ensures.load fun u hr hu => ?_
  have hready := hready.stable hr
  refine Ensures.load fun v hr hv => ?_
  have hp := hready.toProducing.stable hr
  have hpub : Published N dur _ _ _ _ v := ⟨hp.toHolding, by rw [hr.log]; exact hready.published⟩
  rw [← hr.own.cur .lastPersistedTail rfl] at hp hpub
  refine ensures_batches hS hN hv (List.append_nil _) hp hpub fun ht u hu hp hpub => ?_
  refine Ensures.store fun v hr hv => ?_
  have hp := hp.stable hr
  have hpub := hpub.stable hr
  obtain ⟨c, hc, hh, hlt⟩ := hp.head
  refine ⟨allows_setHead hv (hh ▸ Nat.mod_lt _ (by omega)), ?_⟩
  have hready := ready_setHead hv hp hpub
  refine Ensures.storeRecord fun x hr hx => ?_
  have hready := hready.stable hr
  have htail : ht.2 = x.log.enqueued.length % N := by rw [hr.log]; exact hp.tail
  rw [htail]
  have hg := allows_show (f := fun g => { g with visible := g.enqueued.length }) hx hready.durable
    (by simp [hready.published]) (congrArg (· % N) hready.published.symm)
  have hend := ready_setTail hready
  refine ⟨hg, h _ hg.1 ?_ hend.sessions⟩
  rw [Idle, hend.sessions]
  exact hend

end Sessions

end Mangosteen.Enqueue
