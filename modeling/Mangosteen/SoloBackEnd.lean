import Mangosteen.Overrun

namespace Mangosteen.SoloBackEnd

open PersistentMemory Prog Memory RingBuffer RegionTable BackEnd Session Slots SoloRing Overrun

variable {N : Nat} {β Phase : Type} {S : System Actor Loc Val Log Phase} {Q : β → State → Prop}
variable {c₀ : Config Actor Loc Val Log Phase} {w : State} {z : Phase} {procs : Actor → Code Phase}

theorem take_move (hB : S.Unrestricted .backEnd) (h : S.Reaches c₀ ⟨w, procs⟩)
    (hz : procs .backEnd = .ret z)
    (hc : Consumes S N z) (hlt : w.cur .lastPersistedTail ≠ w.cur .lastPersistedHead)
    (hne : w.cur .globalLocalHead = w.cur .globalLocalTail →
      w.cur .lastPersistedTail ≠ w.cur .globalLocalHead) :
    S.Reaches c₀ ⟨takeSlot N w, Function.update procs .backEnd
      (handleEntry forked (w.cur .globalLocalHead) (w.cur (.entryType (w.cur .globalLocalHead))) >>=
        fun _ => .ret z)⟩ := by
  have hrun : S.Runs .backEnd
      (do let tmp ← load .lastPersistedHead; let tail ← load .lastPersistedTail; pure (tmp,
        tail) : Code (Nat × Nat))
      (fun ht u => ht = (w.cur .lastPersistedHead, w.cur .lastPersistedTail) ∧ u = w) w := by
    simp only [System.Runs.load hB.lenient]
    exact System.Runs.pure.mpr ⟨rfl, rfl⟩
  have hrun' : S.Runs .backEnd
      (do let slot ← ringBufferDequeue N; let type ← load (.entryType slot); pure (slot, type) :
        Code (Nat × EntryType))
      (fun st u => st = (w.cur .globalLocalHead, w.cur (.entryType (w.cur .globalLocalHead))) ∧
        u = takeSlot N w) w := by
    simp only [runs_ringBufferDequeue hB hne, System.Runs.load hB.lenient]
    exact System.Runs.pure.mpr ⟨by rw [takeSlot_cur (by simp) (by simp)], rfl⟩
  obtain ⟨_, u, hu, rfl, rfl⟩ := h.start
    (k := fun ht : Nat × Nat => (if ht.2 = ht.1 then pure () else processEntry N forked)
      >>= fun _ => .ret z) hz
    (by simpa only [Consumes, runConsumer, Prog.bind_assoc, Prog.pure_bind] using hc) hrun
  obtain ⟨_, v, hv, rfl, rfl⟩ := hu.resume (a := .backEnd)
    (k := fun st : Nat × EntryType => handleEntry forked st.1 st.2 >>= fun _ => .ret z)
    (by simp only [Function.update_self, if_neg hlt, processEntry, Prog.bind_assoc, Prog.pure_bind])
    hrun'
  rwa [Function.update_idem] at hv

/-- The entry that a redo slot shows. -/
def shownRedo (slot : Nat) (w : State) : Entry :=
  .redo (w.cur (.entryAddr slot)) (fun k => w.cur (.payload slot k))

def shownStores (slot : Nat) (w : State) : List (Sigma Val) :=
  redoStores (w.cur .addressMap) (w.cur (.entryAddr slot)) (fun k => w.cur (.payload slot k))

/-- The memory after a redo entry has been applied. -/
def applied (slot : Nat) (w : State) : State :=
  (World.stores noteWrite (shownStores slot w)
    { w with log := { w.log with dequeued := w.log.dequeued ++ [shownRedo slot w] } }).flush
    .backEnd
      ((shownStores slot w).map (·.1))

theorem runs_redo (hB : S.Unrestricted .backEnd) {held : Nat → Bool}
    {slot : Nat} {f : Unit → Code β}
    (hacc : accessible held (w.cur .addressMap) (w.cur (.entryAddr slot)) = true) :
    S.Runs .backEnd (handleEntry held slot .redo >>= f) Q w ↔
    S.Runs .backEnd (f ()) Q (applied slot w) := by
  simp only [handleEntry, applyRedo, recordDequeued, Prog.bind_assoc, System.Runs.load hB.lenient,
    System.Runs.loads hB.lenient,
    System.Runs.record hB.lenient, if_pos hacc, System.Runs.storeAll hB.lenient,
    System.Runs.flush hB.lenient, applied, shownStores, shownRedo]

theorem noteWrite_log (s : Sigma Val) (g : Log) :
    (noteWrite s g).toFrontLog = g.toFrontLog ∧ (noteWrite s g).toBackLog = g.toBackLog := by
  obtain ⟨l, v⟩ := s
  cases l <;> exact ⟨rfl, rfl⟩

theorem stores_noteWrite_log (ss : List (Sigma Val)) (w : State) :
    (w.stores noteWrite ss).log.toFrontLog = w.log.toFrontLog ∧
      (w.stores noteWrite ss).log.toBackLog = w.log.toBackLog := by
  induction ss generalizing w with
  | nil => exact ⟨rfl, rfl⟩
  | cons s ss ih =>
      obtain ⟨hf, hb⟩ := ih (w.store s.1 s.2 (noteWrite s))
      rw [World.stores, hf, hb, World.store_log]
      exact noteWrite_log s w.log

section Applied

variable {slot : Nat} {l : Loc}

theorem applied_untouched (hl : ∀ c, l ≠ .byte c) : Untouched w (applied slot w) l := by
  have hne : ∀ s ∈ shownStores slot w, l ≠ s.1 := by
    intro s hs
    obtain ⟨k, -, rfl⟩ := List.mem_map.mp hs
    exact hl _
  rw [applied]
  refine ⟨?_, ?_, fun a => ?_⟩
  · rw [World.flush_cur]
    exact stores_cur_of_not_mem _ _ hne
  · rw [World.flush_per, stores_per]
  · rw [World.flush_pending_of_not_mem, stores_pending]
    intro hm
    obtain ⟨s, hs, he⟩ := List.mem_map.mp hm
    exact hne s hs he.symm

theorem applied_log : (applied slot w).log.toFrontLog = w.log.toFrontLog ∧
    (applied slot w).log.dequeued = w.log.dequeued ++ [shownRedo slot w] := by
  obtain ⟨hf, hb⟩ := stores_noteWrite_log (shownStores slot w)
    { w with log := { w.log with dequeued := w.log.dequeued ++ [shownRedo slot w] } }
  rw [applied, World.flush_log, hf, hb]
  exact ⟨rfl, rfl⟩

end Applied

theorem redo_move (hB : S.Unrestricted .backEnd) (h : S.Reaches c₀ ⟨w, procs⟩)
    (hz : procs .backEnd = .ret z)
    (hc : Consumes S N z) (hlt : w.cur .lastPersistedTail ≠ w.cur .lastPersistedHead)
    (hne : w.cur .globalLocalHead = w.cur .globalLocalTail →
      w.cur .lastPersistedTail ≠ w.cur .globalLocalHead)
    (htype : w.cur (.entryType (w.cur .globalLocalHead)) = .redo) :
    S.Reaches c₀ ⟨applied (w.cur .globalLocalHead) (takeSlot N w), procs⟩ := by
  have htake := take_move hB h hz hc hlt hne
  rw [htype] at htake
  have hrun : S.Runs .backEnd (handleEntry forked (w.cur .globalLocalHead) .redo)
      (fun _ u => u = applied (w.cur .globalLocalHead) (takeSlot N w)) (takeSlot N w) := by
    rw [← Prog.bind_ret (handleEntry _ _ _), runs_redo hB (accessible_forked _ _)]
    exact System.Runs.pure.mpr rfl
  obtain ⟨_, u, hu, rfl⟩ := htake.resume (Function.update_self _ _ _) hrun
  rwa [Function.update_idem, ← hz, Function.update_eq_self] at hu

/-- Handling a commit entry up to the store to `remote_head`. -/
def storeHead : Code Unit := do
  recordDequeued .commit
  prepareCommit
  let head ← load .globalLocalHead
  storeRecord .remoteHead head
    (fun g => { g with committed := g.dequeued.length, committedBefore := g.committed })

/-- What is left of handling a commit entry. -/
def showHead : Code Unit := do
  flush [.remoteHead]
  fence
  let head ← load .remoteHead
  store .lastPersistedHead head
  fence

theorem handleEntry_commit (held : Nat → Bool) (slot : Nat) :
    handleEntry held slot .commit = (do storeHead; showHead) := by
  simp only [handleEntry, commitRbBatch_eq, ringBufferCommitDequeuedEntries, storeHead,
    showHead, Prog.bind_assoc]

/-- The head is stored and visible, but not yet durable. -/
structure HeadStored (w u : State) : Prop where
  head : u.cur .remoteHead = w.cur .globalLocalHead
  durable : w.pending .backEnd .remoteHead = none → u.per .remoteHead = w.per .remoteHead ∧
    ∀ a, u.pending a .remoteHead = w.pending a .remoteHead
  others : ∀ l, l ≠ .remoteHead → l ≠ .commitMetadata → l ≠ .numberOfEntries → u.cur l = w.cur l
  front : u.log.toFrontLog = w.log.toFrontLog

theorem runs_storeHead (hB : S.Unrestricted .backEnd) :
    S.Runs .backEnd storeHead (fun _ u => HeadStored w u) w := by
  rw [← Prog.bind_ret storeHead]
  simp only [storeHead, prepareCommit, recordDequeued, regionTableCommit, Prog.bind_assoc,
    System.Runs.load hB.lenient,
    System.Runs.store hB.lenient, System.Runs.storeRecord hB.lenient, System.Runs.flush hB.lenient,
    System.Runs.fence hB.lenient, System.Runs.record hB.lenient]
  refine System.Runs.pure.mpr ?_
  constructor
  case others =>
    intro l h1 h2 h3
    simp [World.store_cur_of_ne, h1, h2, h3]
  case durable =>
    intro hn
    simp [World.fence, World.flush, World.store, hn]
  all_goals simp [World.store_cur_of_ne]

/-- The consumer handles a commit entry and stops after the store to
`remote_head`. -/
theorem storeHead_move (hB : S.Unrestricted .backEnd) (h : S.Reaches c₀ ⟨w, procs⟩)
    (hz : procs .backEnd = .ret z) (hc : Consumes S N z)
    (hlt : w.cur .lastPersistedTail ≠ w.cur .lastPersistedHead)
    (hne : w.cur .globalLocalHead = w.cur .globalLocalTail →
      w.cur .lastPersistedTail ≠ w.cur .globalLocalHead)
    (htype : w.cur (.entryType (w.cur .globalLocalHead)) = .commit) :
    ∃ u, S.Reaches c₀ ⟨u, Function.update procs .backEnd (showHead >>= fun _ => .ret z)⟩ ∧
      HeadStored (takeSlot N w) u := by
  have htake := take_move hB h hz hc hlt hne
  rw [htype, handleEntry_commit, Prog.bind_assoc] at htake
  obtain ⟨_, u, hu, hfacts⟩ := htake.resume (Function.update_self _ _ _) (runs_storeHead hB)
  rw [Function.update_idem] at hu
  exact ⟨u, hu, hfacts⟩

/-- A ring that has been emptied: whoever looks finds head and tail at one slot. -/
structure Level (k : Nat) (w : State) : Prop where
  persistedHead : w.cur .lastPersistedHead = k
  persistedTail : w.cur .lastPersistedTail = k
  localHead : w.cur .globalLocalHead = k
  localTail : w.cur .globalLocalTail = k

theorem level_initial (bytes : Cell → UInt8) (regions : List (Nat × Nat)) :
    Level 0 (initial bytes regions) :=
  ⟨rfl, rfl, rfl, rfl⟩

/-- What is known after a session of one entry on an emptied ring, wherever on
the ring that is. -/
structure LoggedOne (N k : Nat) (e : Entry) (memory : Nat → UInt8) (w u : State) : Prop where
  persistedHead : u.cur .lastPersistedHead = k
  persistedTail : u.cur .lastPersistedTail = nextIndex N (nextIndex N k)
  holds : Holds u.cur k e
  closed : u.cur (.entryType (nextIndex N k)) = .commit
  others : ∀ l, slotOf l = none → l ≠ .lastPersistedTail → l ≠ .remoteTail →
    l ≠ .lastPersistedHead → u.cur l = w.cur l
  enqueued : u.log.enqueued = w.log.enqueued ++ [e, .commit]
  published : u.log.published = u.log.enqueued.length
  acknowledged : u.log.acknowledged = u.log.enqueued.length
  sessions : u.log.sessions = ⟨w.log.enqueued.length, [[e]], memory⟩ :: w.log.sessions
  back : u.log.toBackLog = w.log.toBackLog

theorem runs_openingOne (hF : S.Lenient .frontEnd) {k : Nat} {e : Entry} {memory : Nat → UInt8}
    (hw : Level k w) (hk : nextIndex N k ≠ k) (hk' : nextIndex N (nextIndex N k) ≠ k) :
    S.Runs .frontEnd (opening N [[e]] memory)
      (fun ht u => ht = (k, nextIndex N (nextIndex N k)) ∧ LoggedOne N k e memory w u) w := by
  rw [← Prog.bind_ret (opening N [[e]] memory)]
  simp only [opening, recordSession, getGlobalHeadValue, getGlobalTailValue,
    batches, batch, enqueueAll,
    Prog.bind_assoc, Prog.pure_bind, System.Runs.record hF, System.Runs.load hF]
  rw [hw.persistedHead, hw.persistedTail, runs_enqueueEntry hF hk, runs_commit hF hk']
  refine System.Runs.pure.mpr ⟨rfl, ?_⟩
  constructor
  case persistedHead =>
    rw [publish_cur (by simp) (by simp), logEntry_cur (by simp [slotOf]),
      logEntry_cur (by simp [slotOf])]
    exact hw.persistedHead
  case holds =>
    intro s hs
    have hslot := slotOf_of_mem hs
    rw [publish_cur (ne_of_slotOf_none hs rfl) (ne_of_slotOf_none hs rfl),
      logEntry_cur (by rw [hslot]; exact fun h => hk (Option.some.inj h).symm)]
    exact holds_logEntry s hs
  case closed =>
    rw [publish_cur (by simp) (by simp)]
    exact holds_logEntry.entryType
  case others =>
    intro l hl h1 h2 h3
    rw [publish_cur h2 h1, logEntry_cur (by simp [hl]), logEntry_cur (by simp [hl])]
  all_goals simp

theorem LoggedOne.closing {k : Nat} {e : Entry} {memory : Nat → UInt8} {u : State}
    (h : LoggedOne N k e memory w u) :
    LoggedOne N k e memory w ((u.store .lastPersistedHead k id).store .lastPersistedTail
      (nextIndex N (nextIndex N k)) (fun g => { g with visible := g.enqueued.length })) := by
  have hcur : ∀ l, l ≠ .lastPersistedHead → l ≠ .lastPersistedTail →
      ((u.store .lastPersistedHead k id).store .lastPersistedTail (nextIndex N (nextIndex N k))
        (fun g => { g with visible := g.enqueued.length })).cur l = u.cur l := fun l hh ht => by
    rw [World.store_cur_of_ne _ _ _ _ _ ht, World.store_cur_of_ne _ _ _ _ _ hh]
  constructor
  case persistedHead => simp [World.store_cur_of_ne]
  case persistedTail => simp
  case holds =>
    intro s hs
    rw [hcur _ (ne_of_slotOf_none hs rfl) (ne_of_slotOf_none hs rfl)]
    exact h.holds s hs
  case closed => rw [hcur _ (by simp) (by simp), h.closed]
  case others => exact fun l hl h1 h2 h3 => (hcur l h3 h1).trans (h.others l hl h1 h2 h3)
  case enqueued => exact h.enqueued
  case published => exact h.published
  case acknowledged => exact h.acknowledged
  case sessions => exact h.sessions
  case back => exact h.back

theorem runs_one (hF : S.Lenient .frontEnd) {k : Nat} {e : Entry} {memory : Nat → UInt8}
    (hw : Level k w) (hk : nextIndex N k ≠ k) (hk' : nextIndex N (nextIndex N k) ≠ k) :
    S.Runs .frontEnd (session N [[e]] memory) (fun _ u => LoggedOne N k e memory w u) w := by
  rw [session_eq]
  refine System.Runs.bind ((runs_openingOne hF hw hk hk').mono ?_)
  rintro _ u ⟨rfl, hu⟩
  refine (runs_closing hF).mono fun _ v hv => ?_
  rw [hv]
  exact hu.closing

/-- A redo entry and a commit are all that an otherwise emptied ring shows. -/
structure Shown (N k addr : Nat) (payload : Payload) (v : State) : Prop where
  persistedHead : v.cur .lastPersistedHead = k
  persistedTail : v.cur .lastPersistedTail = nextIndex N (nextIndex N k)
  localHead : v.cur .globalLocalHead = k
  localTail : v.cur .globalLocalTail = k
  holds : Holds v.cur k (.redo addr payload)
  closed : v.cur (.entryType (nextIndex N k)) = .commit

theorem LoggedOne.shown {k addr : Nat} {payload : Payload} {memory : Nat → UInt8} {v : State}
    (h : LoggedOne N k (.redo addr payload) memory w v) (hw : Level k w) :
    Shown N k addr payload v :=
  ⟨h.persistedHead, h.persistedTail,
    (h.others _ rfl (by simp) (by simp) (by simp)).trans hw.localHead,
    (h.others _ rfl (by simp) (by simp) (by simp)).trans hw.localTail, h.holds, h.closed⟩

theorem Shown.of_cur {k addr : Nat} {payload : Payload} {u v : State} (h : Shown N k addr payload v)
    (hc : u.cur = v.cur) : Shown N k addr payload u := by
  obtain ⟨h1, h2, h3, h4, h5, h6⟩ := h
  rw [← hc] at h1 h2 h3 h4 h5 h6
  exact ⟨h1, h2, h3, h4, h5, h6⟩

/-- What is known after the consumer has taken the entry and its commit. -/
structure Consumed (N k addr : Nat) (payload : Payload) (v u : State) : Prop where
  level : Level (nextIndex N (nextIndex N k)) u
  front : u.log.toFrontLog = v.log.toFrontLog
  dequeued : u.log.dequeued = v.log.dequeued ++ [.redo addr payload, .commit]
  committed : u.log.committed = u.log.dequeued.length
  metadata : u.per .commitMetadata =
    ⟨v.cur .uncommitedNumberOfEntries, nextIndex N (nextIndex N k)⟩
  recorded : ∃ r ∈ u.log.commits, r.metadata = u.per .commitMetadata

theorem consume_move (hB : S.Unrestricted .backEnd) {k addr : Nat} {payload : Payload} {v : State}
    (hv : Shown N k addr payload v) (hk : nextIndex N (nextIndex N k) ≠ k)
    (hk' : nextIndex N (nextIndex N k) ≠ nextIndex N k) (h : S.Reaches c₀ ⟨v, procs⟩)
    (hz : procs .backEnd = .ret z) (hc : Consumes S N z) :
    ∃ u, S.Reaches c₀ ⟨u, procs⟩ ∧ Consumed N k addr payload v u := by
  have hredo := redo_move hB h hz hc (by rwa [hv.persistedTail, hv.persistedHead])
    (fun _ => by rwa [hv.persistedTail, hv.localHead])
    (by rw [hv.localHead]; exact hv.holds.entryType)
  rw [hv.localHead] at hredo
  have hcur : ∀ l, (∀ c, l ≠ .byte c) → l ≠ .globalLocalHead → l ≠ .globalLocalTail →
      (applied k (takeSlot N v)).cur l = v.cur l := fun l hb hh ht =>
    (applied_untouched hb).cur.trans (takeSlot_cur hh ht)
  have hhead : (applied k (takeSlot N v)).cur .globalLocalHead = nextIndex N k := by
    rw [(applied_untouched (by simp)).cur, takeSlot_localHead, hv.localHead]
  have htail : (applied k (takeSlot N v)).cur .globalLocalTail = nextIndex N (nextIndex N k) := by
    rw [(applied_untouched (by simp)).cur, takeSlot_localTail, hv.localHead,
      hv.localTail, if_pos rfl, hv.persistedTail]
  have hpt := (hcur .lastPersistedTail (by simp) (by simp) (by simp)).trans hv.persistedTail
  have hph := (hcur .lastPersistedHead (by simp) (by simp) (by simp)).trans hv.persistedHead
  obtain ⟨u, hu, hround⟩ := round_move hB hredo hz hc (by rwa [hpt, hph])
    (fun _ => by rwa [hpt, hhead])
    (by rw [hhead]; exact (hcur _ (by simp) (by simp) (by simp)).trans hv.closed)
  refine ⟨u, hu, ⟨?_, ?_, ?_, ?_⟩, ?_, ?_, ?_, ?_, ?_⟩
  · rw [hround.persistedHead, hhead]
  · rw [hround.others _ (by simp) (by simp) (by simp) (by simp) (by simp) (by simp), hpt]
  · rw [hround.localHead, hhead]
  · rw [hround.localTail, hhead, htail, if_neg (Ne.symm hk')]
  · rw [hround.front, applied_log.1, takeSlot_log]
  · have hshown : shownRedo k (takeSlot N v) = .redo addr payload := by
      rw [shownRedo, takeSlot_cur (by simp) (by simp), hv.holds.redo.1]
      refine congrArg _ (funext fun i => ?_)
      rw [takeSlot_cur (by simp) (by simp), hv.holds.redo.2]
    rw [hround.dequeued, applied_log.2, takeSlot_log, hshown, List.append_assoc]
    rfl
  · rw [hround.committed, hround.dequeued, List.length_append]
    rfl
  · rw [hround.durableMetadata, hhead, hcur _ (by simp) (by simp) (by simp)]
  · obtain ⟨n, m, hcommits⟩ := hround.commits
    rw [hround.durableMetadata, hcommits]
    exact ⟨_, List.mem_cons_self, rfl⟩

/-- What is known after an entry has gone all the way through the ring. -/
structure Transferred (N k : Nat) (e : Entry) (memory : Nat → UInt8) (w u : State) : Prop where
  level : Level (nextIndex N (nextIndex N k)) u
  enqueued : u.log.enqueued = w.log.enqueued ++ [e, .commit]
  dequeued : u.log.dequeued = w.log.dequeued ++ [e, .commit]
  committed : u.log.committed = u.log.dequeued.length
  sessions : u.log.sessions = ⟨w.log.enqueued.length, [[e]], memory⟩ :: w.log.sessions
  acknowledged : u.log.acknowledged = u.log.enqueued.length
  metadata : u.per .commitMetadata =
    ⟨w.cur .uncommitedNumberOfEntries, nextIndex N (nextIndex N k)⟩
  recorded : ∃ r ∈ u.log.commits, r.metadata = u.per .commitMetadata

theorem nextIndex_ne (hN : 3 ≤ N) {k : Nat} (hk : k < N) : nextIndex N k < N ∧ nextIndex N k ≠ k ∧
    nextIndex N (nextIndex N k) ≠ k ∧ nextIndex N (nextIndex N k) ≠ nextIndex N k := by
  simp only [nextIndex]
  split <;> split <;> omega

variable {x y : Phase}

theorem one_move (hF : S.Lenient .frontEnd) (hN : 3 ≤ N) {k : Nat} (hk : k < N) (hw : Level k w)
    (h : S.Reaches c₀ ⟨w, procs⟩) (hx : procs .frontEnd = .ret x) {e : Entry} {memory : Nat → UInt8}
    (ho : Opens S N x [[e]] memory y) :
    ∃ u, S.Reaches c₀ ⟨u, Function.update procs .frontEnd (.ret y)⟩ ∧
      LoggedOne N k e memory w u := by
  obtain ⟨-, h1, h2, -⟩ := nextIndex_ne hN hk
  obtain ⟨_, u, hu, hlog⟩ := h.start hx ho (runs_one hF hw h1 h2)
  exact ⟨u, hu, hlog⟩

theorem transfer_move (hF : S.Lenient .frontEnd) (hB : S.Unrestricted .backEnd)
    (hN : 3 ≤ N) {k : Nat}
    (hk : k < N) (hw : Level k w) (h : S.Reaches c₀ ⟨w, atRest x z⟩)
    {addr : Nat} {payload : Payload}
    {memory : Nat → UInt8} (ho : Opens S N x [[.redo addr payload]] memory y)
    (hc : Consumes S N z) :
    ∃ u, S.Reaches c₀ ⟨u, atRest y z⟩ ∧ Transferred N k (.redo addr payload) memory w u := by
  obtain ⟨-, -, h2, h3⟩ := nextIndex_ne hN hk
  obtain ⟨v, hv, hlog⟩ := one_move hF hN hk hw h rfl ho
  rw [update_frontEnd] at hv
  obtain ⟨u, hu, hcons⟩ := consume_move hB (hlog.shown hw) h2 h3 hv rfl hc
  refine ⟨u, hu, hcons.level, ?_, ?_, hcons.committed, ?_, ?_, ?_, hcons.recorded⟩
  · rw [hcons.front, hlog.enqueued]
  · rw [hcons.dequeued, hlog.back]
  · rw [hcons.front, hlog.sessions]
  · rw [hcons.front, hlog.acknowledged]
  · rw [hcons.metadata, hlog.others _ rfl (by simp) (by simp) (by simp)]

theorem exists_transfers (hF : S.Lenient .frontEnd) (hB : S.Unrestricted .backEnd) (hN : 3 ≤ N)
    {w₀ : State} (hw : Level 0 w₀) (h : S.Reachable w₀ ⟨w₀, atRest x z⟩)
    (hlog : w₀.log.enqueued = [] ∧ w₀.log.dequeued = []) {addr : Nat} {payload : Payload}
    {memory : Nat → UInt8} (ho : Opens S N x [[.redo addr payload]] memory x)
    (hc : Consumes S N z) (n : Nat) :
    ∃ u, S.Reachable w₀ ⟨u, atRest x z⟩ ∧ Level (2 * n % N) u ∧
      u.log.enqueued.length = 2 * n ∧ u.log.dequeued.length = 2 * n := by
  induction n with
  | zero => exact ⟨w₀, h, by rwa [Nat.mul_zero, Nat.zero_mod], by simp [hlog.1], by simp [hlog.2]⟩
  | succ n ih =>
      obtain ⟨u, hu, hl, he, hd⟩ := ih
      obtain ⟨v, hv, ht⟩ := transfer_move hF hB hN (Nat.mod_lt _ (by omega)) hl hu ho hc
      have hlevel := ht.level
      rw [nextIndex_mod (by omega), nextIndex_mod (by omega)] at hlevel
      refine ⟨v, hv, hlevel, ?_, ?_⟩
      · rw [ht.enqueued, List.length_append, he]
        rfl
      · rw [ht.dequeued, List.length_append, hd]
        rfl

end Mangosteen.SoloBackEnd
