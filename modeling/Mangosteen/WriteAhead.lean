import Mangosteen.Delivery
import Mangosteen.SoloBackEnd

namespace Mangosteen.WriteAhead

open PersistentMemory Prog Memory RingBuffer BackEnd Session Slots Channel SoloRing Overrun
  SoloBackEnd Delivery

variable {N : Nat} {dur : Bool} {I : List SessionRecord → Prop} {w : State}

/-- The slots from one index up to another hold, durably, the last entries
before count `n`. -/
def HoldsUpTo (N : Nat) (w : State) (head tail n : Nat) : Prop :=
  ∀ k, k < (tail + N - head) % N → ∃ e, w.log.enqueued[n - (tail + N - head) % N + k]? = some e ∧
    Holds w.per ((head + k) % N) e

/-- From the current head up to the durable tail every slot is durable, and the
durable tail covers every batch whose commit has returned. -/
structure TailDurable (N : Nat) (w : State) : Prop where
  covered : HoldsUpTo N w (w.cur .remoteHead) (w.per .remoteTail) (durableTail w)
  tail : w.per .remoteTail = durableTail w % N
  acknowledged : w.log.acknowledged ≤ durableTail w

/-- From the durable head up to the durable tail every slot is durable, and no
slot is reused before the head that frees it is durable. -/
structure HeadDurable (N : Nat) (w : State) : Prop where
  covered : HoldsUpTo N w (w.per .remoteHead) (w.per .remoteTail) (durableTail w)
  head : w.per .remoteHead = durableHead w % N
  reused : ∀ i, N ≤ i → i < w.log.enqueued.length → i - N < durableHead w

theorem holdsUpTo_of_ringInv (h : RingInv N dur I w) :
    HoldsUpTo N w (freed dur w) (w.per .remoteTail) (durableTail w) := by
  have hc := h.counts
  have hle : base dur w ≤ durableTail w :=
    hc.base_le.trans (hc.committed_le.trans (hc.dequeued_le.trans hc.visible_le))
  have htl := hc.tail_le.trans hc.published_le
  have hroom := hc.room
  rw [freed_eq h, per_remoteTail h]
  intro k hk
  rw [Cyclic.distance hle (by omega)] at hk ⊢
  have hi : durableTail w - (durableTail w - base dur w) + k = base dur w + k := by omega
  have he : w.log.enqueued[base dur w + k]? = some w.log.enqueued[base dur w + k] :=
    List.getElem?_eq_getElem (by omega)
  rw [hi, Nat.mod_add_mod]
  exact ⟨_, he, h.filled.holds_per (by omega) (hc.tail_le.trans_lt' (by omega)) he⟩

/-- What the durable tail covers is durable, in every run in which a producer
that refreshes its head from `last_persisted_head` finds there a value between
the head it had and `remote_head`. -/
theorem tail_write_ahead (N : Nat) (hN : 2 ≤ N) (bytes : Cell → UInt8) (regions : List (Nat × Nat))
    (c : Config Actor Loc Val Log Unit)
    (h : (ringSystem N (admitsHead N false)).Reachable (initial bytes regions) c) :
    TailDurable N c.world := by
  have hi := ringInv_of_reachable (serves_ringSystem _) hN trivial (fun _ _ h => h.2) h
  exact ⟨holdsUpTo_of_ringInv hi, per_remoteTail hi, hi.counts.acknowledged_le⟩

/-- Two sessions: the consumer has taken and committed what the first logged, and
nothing yet of what the second did. -/
theorem exists_outstanding (dur : Bool) (hN : 4 ≤ N) (bytes : Cell → UInt8)
    (regions : List (Nat × Nat)) :
    ∃ c, (ringSystem N (admitsHead N dur)).Reachable (initial bytes regions) c ∧
      c.world.log.acknowledged = 4 ∧ c.world.log.committed = 2 := by
  have hF := lenient_admitsHead (N := N) dur
  obtain ⟨u, hu, ht⟩ := transfer_move hF (unrestricted_admitsHead dur) (by omega)
    (k := 0) (by omega) (level_initial bytes regions) reachable_atRest
    (opens_redo 8192) consumes_ring
  have htwo : nextIndex N (nextIndex N 0) < N :=
    (nextIndex_ne (by omega) (nextIndex_ne (by omega) (by omega)).1).1
  obtain ⟨v, hv, hlog⟩ := one_move hF (by omega) htwo ht.level hu rfl (opens_redo 8224)
  refine ⟨_, hv, ?_, ?_⟩
  · show v.log.acknowledged = 4
    rw [hlog.acknowledged, hlog.enqueued, ht.enqueued]
    rfl
  · show v.log.committed = 2
    rw [hlog.back, ht.committed, ht.dequeued]
    rfl

theorem tail_write_ahead_outstanding :
    ∃ c, (ringSystem ringBufferSize (admitsHead ringBufferSize false)).Reachable
      (initial (fun _ => 0) []) c ∧ c.world.log.acknowledged = 4 ∧ c.world.log.committed = 2 ∧
      TailDurable ringBufferSize c.world := by
  obtain ⟨c, hc, ha, hd⟩ :=
    exists_outstanding (N := ringBufferSize) false (by decide) (fun _ => 0) []
  exact ⟨c, hc, ha, hd, tail_write_ahead ringBufferSize (by decide) (fun _ => 0) [] c hc⟩

section Overwritten


theorem writeBack_reachable {S : System Actor Loc Val Log Unit} {w₀ u : State}
    {procs : Actor → Code Unit} (l : Loc)
    (h : S.Reachable w₀ ⟨u, procs⟩) (ha : S.admits u (.writeBack l)) :
    S.Reachable w₀ ⟨u.writeBack l, procs⟩ :=
  h.tail (.writeBack l ha)

/-- A slot between the head and the durable tail that has been overwritten and
written back before its entry was dequeued. -/
theorem exists_overwritten_anyRun (bytes : Cell → UInt8) (regions : List (Nat × Nat)) (hN : 9 ≤ N) :
    ∃ c, (anyRun N).Reachable (initial bytes regions) c ∧
    c.world.cur .remoteHead = 3 ∧ c.world.per .remoteTail = 2 ∧ durableTail c.world = N + 2 ∧
    c.world.log.enqueued[3]? = some (.redo 4096 (fun _ => 0)) ∧
    c.world.per (.entryAddr 3) = 8192 := by
  have hlen : 2 + (entries [[]]).length + (entries [copied (N - 6), []]).length = N - 1 := by
    simp [entries, closed, copied]; omega
  have hF := unrestricted_anyRun (N := N) .frontEnd
  have hB := unrestricted_anyRun (N := N) .backEnd
  have h₀ : Opens (anyRun N) N () [[]] (fun _ => 0) () := opens_anyRun (by simp)
  have h₄ : Opens (anyRun N) N () [copied (N - 6), []] (fun _ => 0) () :=
    opens_anyRun (by simp [commit_not_mem_copied])
  have h₅ : Opens (anyRun N) N () [[.redo 4096 (fun _ => 0)], []] (fun _ => 0) () :=
    opens_anyRun (by simp)
  have h₆ : Opens (anyRun N) N () [[.redo 8192 (fun _ => 0), .redo 8192 (fun _ => 0)]]
      (fun _ => 0) () :=
    opens_anyRun (by simp)
  obtain ⟨w, hw, hl⟩ := exists_lapped (x := fun _ => ()) (m := fun _ _ => 0) hF hB
    (fresh_initial bytes regions) reachable_initial
    consumes_anyRun h₀ h₀ h₀ h₄ h₅ (by simp) (by simp) (by omega) hlen
  obtain ⟨u, procs, hu, ho⟩ := exists_overwritten hF hB (by omega) hw hl consumes_anyRun h₆
  have ht := writeBack_reachable .remoteTail hu ⟨by simp, trivial⟩
  have hs := writeBack_reachable (.entryAddr 3) ht ⟨by simp, trivial⟩
  have hper : ((u.writeBack .remoteTail).writeBack (.entryAddr 3)).per .remoteTail = 2 := by
    rw [(World.writeBack_of_ne _ .frontEnd _ _ (by decide)).1, World.writeBack_per_self,
      ho.remoteTail]
  refine ⟨_, hs, ho.remoteHead, hper, ?_, ?_, ?_⟩
  · refine (if_pos (hper.trans ho.remoteTail.symm)).trans ?_
    show u.log.published = _
    rw [ho.published]
    omega
  · show u.log.enqueued[3]? = _
    obtain ⟨n, hn⟩ : ∃ n, N - 6 = n + 1 := ⟨N - 7, by omega⟩
    rw [ho.enqueued, hn, copied, List.range_succ_eq_map]
    rfl
  · rw [World.writeBack_per_self]
    exact ho.slot.redo.1

theorem not_tail_write_ahead :
    ¬ ∀ c, (anyRun ringBufferSize).Reachable (initial (fun _ => 0) []) c →
    TailDurable ringBufferSize c.world := by
  intro h
  obtain ⟨c, hc, hh, ht, hd, he, hs⟩ :=
    exists_overwritten_anyRun (N := ringBufferSize) (fun _ => 0) [] (by decide)
  obtain ⟨e, he', hholds⟩ := (h c hc).covered 0 (by rw [hh, ht]; decide)
  rw [hh, ht, hd, show ringBufferSize + 2 - (2 + ringBufferSize - 3) % ringBufferSize + 0 = 3 by
    decide, he] at he'
  obtain rfl := Option.some.inj he'
  rw [hh, show (3 + 0) % ringBufferSize = 3 by decide] at hholds
  have := hholds.redo.1
  rw [hs] at this
  exact absurd this (by decide)

end Overwritten

theorem headDurable_of_ringInv (h : RingInv N true I w) : HeadDurable N w := by
  have hroom := h.counts.room
  refine ⟨holdsUpTo_of_ringInv h, freed_eq h, fun i hn hlt => ?_⟩
  have : base true w = durableHead w := rfl
  omega

/-- What a restart would replay is durable, in every run in which a producer
refreshes its head only to a value that is durable in `remote_head`, or that
lies before it. -/
theorem head_write_ahead (N : Nat) (hN : 2 ≤ N) (bytes : Cell → UInt8) (regions : List (Nat × Nat))
    (c : Config Actor Loc Val Log Unit)
    (h : (ringSystem N (admitsHead N true)).Reachable (initial bytes regions) c) :
    HeadDurable N c.world :=
  headDurable_of_ringInv
  (ringInv_of_reachable (serves_ringSystem _) hN trivial (fun _ _ h => h.2) h)

theorem head_write_ahead_outstanding :
    ∃ c, (ringSystem ringBufferSize (admitsHead ringBufferSize true)).Reachable
      (initial (fun _ => 0) []) c ∧ c.world.log.acknowledged = 4 ∧ c.world.log.committed = 2 ∧
      HeadDurable ringBufferSize c.world := by
  obtain ⟨c, hc, ha, hd⟩ :=
    exists_outstanding (N := ringBufferSize) true (by decide) (fun _ => 0) []
  exact ⟨c, hc, ha, hd, head_write_ahead ringBufferSize (by decide) (fun _ => 0) [] c hc⟩

section Reused


theorem exists_headStored (bytes : Cell → UInt8) (regions : List (Nat × Nat)) (hN : 9 ≤ N) :
    ∃ w procs, (anyRun N).Reachable (initial bytes regions) ⟨w, procs⟩ ∧
    procs .frontEnd = .ret () ∧ w.cur .remoteHead = 2 ∧ w.per .remoteHead = 0 ∧
    (∀ a, w.pending a .remoteHead = none) ∧ w.cur .lastPersistedHead = 0 ∧
    w.cur .lastPersistedTail = 2 ∧ w.log.enqueued = [.redo 4096 (fun _ => 0), .commit] := by
  have hF := unrestricted_anyRun (N := N) .frontEnd
  have hB := unrestricted_anyRun (N := N) .backEnd
  have h₁ : Opens (anyRun N) N () [[.redo 4096 (fun _ => 0)]] (fun _ => 0) () :=
    opens_anyRun (by simp)
  have hfresh := fresh_initial bytes regions
  obtain ⟨w₁, r₁, l₁, p₁, -⟩ :=
    session_move hF.lenient reachable_initial rfl h₁ (by simp) hfresh.persistedHead
    hfresh.persistedTail le_rfl (by simp [entries, closed]; omega)
  have t₁ : w₁.cur .lastPersistedTail = 2 := l₁.persistedTail
  have gh₁ : w₁.cur .globalLocalHead = 0 :=
    l₁.others _ (by simp) (by simp) (by simp) (by simp [slotOf])
  have gt₁ : w₁.cur .globalLocalTail = 0 :=
    l₁.others _ (by simp) (by simp) (by simp) (by simp [slotOf])
  have u₁ : Untouched (initial bytes regions) w₁ .remoteHead :=
    l₁.untouched _ rfl (by simp) (by simp) (by simp) rfl
  have r₂ := redo_move hB r₁ rfl consumes_anyRun (by rw [t₁, p₁]; decide)
    (fun _ => by rw [t₁, gh₁]; decide) (by rw [gh₁]; exact (l₁.first _ _ rfl).entryType)
  rw [gh₁] at r₂
  have hold : ∀ l, (∀ c, l ≠ .byte c) → l ≠ .globalLocalHead → l ≠ .globalLocalTail →
      Untouched w₁ (applied 0 (takeSlot N w₁)) l :=
    fun l hb hh ht => (takeSlot_untouched hh ht).trans (applied_untouched hb)
  have gh₂ : (applied 0 (takeSlot N w₁)).cur .globalLocalHead = 1 := by
    rw [(applied_untouched (by simp)).cur, takeSlot_localHead, gh₁, nextIndex, if_neg (by omega)]
  have gt₂ : (applied 0 (takeSlot N w₁)).cur .globalLocalTail = 2 := by
    rw [(applied_untouched (by simp)).cur, takeSlot_localTail, gh₁, gt₁, if_pos rfl, t₁]
  have t₂ := ((hold .lastPersistedTail (by simp) (by simp) (by simp)).cur).trans t₁
  have p₂ := ((hold .lastPersistedHead (by simp) (by simp) (by simp)).cur).trans p₁
  have c₂ : (applied 0 (takeSlot N w₁)).cur (.entryType 1) = .commit :=
    ((hold _ (by simp) (by simp) (by simp)).cur).trans (l₁.closed _ rfl)
  obtain ⟨w₃, r₃, s₃⟩ := storeHead_move hB r₂ rfl consumes_anyRun (by rw [t₂, p₂]; decide)
    (fun h => absurd (gh₂.symm.trans (h.trans gt₂)) (by decide)) (by rw [gh₂]; exact c₂)
  have u₂ := (u₁.trans (hold .remoteHead (by simp) (by simp) (by simp))).trans
    (takeSlot_untouched (N := N) (by simp) (by simp))
  obtain ⟨hper, hpend⟩ := s₃.durable (u₂.pending _)
  have hcur : ∀ l, (∀ c, l ≠ .byte c) → l ≠ .globalLocalHead →
      l ≠ .globalLocalTail → l ≠ .remoteHead →
      l ≠ .commitMetadata → l ≠ .numberOfEntries → w₃.cur l = w₁.cur l := by
    intro l hb hh ht hr hm hn
    rw [s₃.others l hr hm hn, takeSlot_cur hh ht, (hold l hb hh ht).cur]
  refine ⟨w₃, _, r₃, rfl, ?_, hper.trans u₂.per,
    fun a => (hpend a).trans (u₂.pending a), ?_, ?_, ?_⟩
  · rw [s₃.head, takeSlot_localHead, gh₂, nextIndex, if_neg (by omega)]
  · rw [hcur _ (by simp) (by simp) (by simp) (by simp) (by simp) (by simp), p₁]
  · rw [hcur _ (by simp) (by simp) (by simp) (by simp) (by simp) (by simp), t₁]
  · rw [s₃.front, takeSlot_log, applied_log.1, takeSlot_log, l₁.enqueued]
    rfl

/-- A slot that a restart would replay has been overwritten and written back,
while the head that frees it is not durable. -/
theorem exists_reused (bytes : Cell → UInt8) (regions : List (Nat × Nat)) (hN : 9 ≤ N) :
    ∃ c, (anyRun N).Reachable (initial bytes regions) c ∧
    c.world.per .remoteHead = 0 ∧ c.world.per .remoteTail = N - 1 ∧ durableTail c.world = N - 1 ∧
    c.world.log.enqueued[0]? = some (.redo 4096 (fun _ => 0)) ∧
    c.world.per (.entryAddr 0) = 8192 := by
  obtain ⟨w, procs, hw, hx, hrh, hper, hpend, hph, hpt, henq⟩ :=
    exists_headStored bytes regions hN
  have hF := unrestricted_anyRun (N := N) .frontEnd
  have hlast : nextIndex N (N - 1) = 0 := if_pos (by omega)
  have hzero : nextIndex N 0 = 1 := if_neg (by omega)
  have h₂ : Opens (anyRun N) N () [copied (N - 5), []] (fun _ => 0) () :=
    opens_anyRun (by simp [commit_not_mem_copied])
  have h₃ : Opens (anyRun N) N () [[.redo 8192 (fun _ => 0), .redo 8192 (fun _ => 0)]]
      (fun _ => 0) () :=
    opens_anyRun (by simp)
  have hlen : 2 + (entries [copied (N - 5), []]).length = N - 1 := by
    simp [entries, closed, copied]; omega
  obtain ⟨v, hv, hl, hvh, -⟩ :=
    session_move hF.lenient hw hx h₂ (by simp) hph hpt (by omega) (by omega)
  have hu := hl.untouched .remoteHead rfl (by simp) (by simp) (by simp) (hpend _)
  rw [Opens, session_eq_starting, Prog.bind_assoc] at h₃
  simp only [batches, batch, Prog.bind_assoc] at h₃
  obtain ⟨_, v', hv', rfl, rfl⟩ :=
    hv.start (Function.update_self _ _ _) h₃ (runs_starting hF.lenient)
  have hvt := hl.persistedTail
  rw [hlen] at hvt
  have hvr : v.cur .remoteHead = 2 := hu.cur.trans hrh
  generalize hr : (⟨v.log.enqueued.length, _, fun _ => 0⟩ : SessionRecord) = r at hv'
  have hrun : (anyRun N).Runs .frontEnd
      (enqueueAll N [.redo 8192 (fun _ => 0), .redo 8192 (fun _ => 0)]
        (v.cur .lastPersistedHead, v.cur .lastPersistedTail))
      (fun _ u => u = logEntry 0 (.redo 8192 (fun _ => 0))
        (logEntry (N - 1) (.redo 8192 (fun _ => 0))
        { v with log := { v.log with sessions := r :: v.log.sessions } }))
      { v with log := { v.log with sessions := r :: v.log.sessions } } := by
    rw [← Prog.bind_ret (enqueueAll N _ _)]
    simp only [enqueueAll, Prog.bind_assoc]
    rw [hvh, hvt, runs_enqueueEntry_refresh hF.lenient hF hlast (by simp [hvr]),
      runs_enqueueEntry hF.lenient (by simp [hlast, hzero, hvr]), hlast]
    exact System.Runs.pure.mpr rfl
  obtain ⟨_, y, hy, hyu⟩ := hv'.resume (Function.update_self _ _ _) hrun
  have ht := writeBack_reachable .remoteTail hy ⟨by simp, trivial⟩
  have hs := writeBack_reachable (.entryAddr 0) ht ⟨by simp, trivial⟩
  have hyt : y.cur .remoteTail = N - 1 := by
    rw [hyu, logEntry_cur (by simp [slotOf]), logEntry_cur (by simp [slotOf])]
    exact hl.remoteTail.trans hlen
  have hyh : y.per .remoteHead = 0 := by
    rw [hyu, logEntry_per, logEntry_per]
    exact hu.per.trans hper
  have hyp : y.log.published = N - 1 := by
    rw [hyu]
    show v.log.published = N - 1
    rw [hl.published, hl.enqueued, henq, List.length_append]
    exact hlen
  have hye : y.log.enqueued[0]? = some (.redo 4096 (fun _ => 0)) := by
    rw [hyu]
    show ((v.log.enqueued ++ [_]) ++ [_])[0]? = _
    rw [hl.enqueued, henq]
    simp
  have hys : y.cur (.entryAddr 0) = 8192 := by
    rw [hyu]
    exact holds_logEntry.redo.1
  have hyper : ((y.writeBack .remoteTail).writeBack (.entryAddr 0)).per .remoteTail = N - 1 := by
    rw [(World.writeBack_of_ne _ .frontEnd _ _ (by decide)).1, World.writeBack_per_self, hyt]
  refine ⟨_, hs, ?_, hyper, (if_pos (hyper.trans hyt.symm)).trans hyp, hye, ?_⟩
  · show ((y.writeBack .remoteTail).writeBack (.entryAddr 0)).per .remoteHead = 0
    rw [(World.writeBack_of_ne _ .frontEnd _ _ (by decide)).1,
      (World.writeBack_of_ne _ .frontEnd _ _ (by decide)).1, hyh]
  · show ((y.writeBack .remoteTail).writeBack (.entryAddr 0)).per (.entryAddr 0) = 8192
    rw [World.writeBack_per_self]
    exact hys

theorem not_head_write_ahead :
    ¬ ∀ c, (anyRun ringBufferSize).Reachable (initial (fun _ => 0) []) c →
    HeadDurable ringBufferSize c.world := by
  intro h
  obtain ⟨c, hc, hh, ht, hd, he, hs⟩ :=
    exists_reused (N := ringBufferSize) (fun _ => 0) [] (by decide)
  obtain ⟨e, he', hholds⟩ := (h c hc).covered 0 (by rw [hh, ht]; decide)
  rw [hh, ht, hd, show ringBufferSize - 1 - (ringBufferSize - 1 + ringBufferSize - 0) %
    ringBufferSize + 0 = 0 by decide, he] at he'
  obtain rfl := Option.some.inj he'
  rw [hh, show (0 + 0) % ringBufferSize = 0 by decide] at hholds
  have := hholds.redo.1
  rw [hs] at this
  exact absurd this (by decide)

end Reused

end Mangosteen.WriteAhead
