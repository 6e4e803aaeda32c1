import Mangosteen.Incarnations
import Mangosteen.Relaunch

namespace Mangosteen.SoloRestart

open PersistentMemory Prog Memory RingBuffer RegionTable BackEnd Session Slots SoloRing Overrun
  SoloBackEnd Restart Relaunch Incarnations

variable {N : Nat} {Phase : Type} {S : System Actor Loc Val Log Phase}
  {c₀ : Config Actor Loc Val Log Phase}
variable {procs : Actor → Code Phase} {w : State}

theorem writeBacks_move (hwb : ∀ u l, S.admits u (.writeBack l)) (h : S.Reaches c₀ ⟨w, procs⟩)
    (ls : List Loc) :
    ∃ u, S.Reaches c₀ ⟨u, procs⟩ ∧ u.cur = w.cur ∧ u.log = w.log ∧
    (∀ l ∈ ls, u.per l = w.cur l) := by
  induction ls with
  | nil => exact ⟨w, h, rfl, rfl, by simp⟩
  | cons m ls ih =>
      obtain ⟨u, hu, hc, hl, hp⟩ := ih
      refine ⟨u.writeBack m, hu.tail (.writeBack m (hwb u m)), hc, hl, fun l hmem => ?_⟩
      by_cases hm : l = m
      · subst hm
        rw [World.writeBack_per_self, hc]
      · rw [(World.writeBack_of_ne u .backEnd l m hm).1]
        exact hp l ((List.mem_cons.mp hmem).resolve_left hm)

section BackEnd

variable (hB : S.Unrestricted .backEnd)
include hB

theorem runs_remapRegions (n i : Nat) : S.Runs .backEnd (remapRegions n i)
    (fun _ u => u.log = w.log ∧ ∀ l, l ≠ .addressMap → u.cur l = w.cur l) w := by
  induction n generalizing i w with
  | zero => exact System.Runs.pure.mpr ⟨rfl, fun _ _ => rfl⟩
  | succ n ih =>
      simp only [remapRegions, mapFixed, Prog.bind_assoc, System.Runs.load hB.lenient,
        System.Runs.store hB.lenient]
      refine (ih (i + 1)).mono fun _ u hu => ⟨hu.1, fun l hl => ?_⟩
      rw [hu.2 l hl, World.store_cur_of_ne _ _ _ _ _ hl]

theorem runs_startBackEnd : S.Runs .backEnd startBackEnd
    (fun _ u => u.log = w.log ∧ ∀ l, l ≠ .addressMap → l ≠ .numberOfEntries →
      u.cur l = w.cur l) w := by
  simp only [startBackEnd, remapBackend, Prog.bind_assoc, System.Runs.load hB.lenient]
  refine System.Runs.bind ((runs_remapRegions hB _ _).mono fun _ u hu => ?_)
  rw [← Prog.bind_ret fence]
  simp only [System.Runs.load hB.lenient, System.Runs.store hB.lenient,
    System.Runs.flush hB.lenient, System.Runs.fence hB.lenient]
  refine System.Runs.pure.mpr ⟨hu.1, fun l hm hn => ?_⟩
  rw [World.fence_cur, World.flush_cur, World.store_cur_of_ne _ _ _ _ _ hn, hu.2 l hm]

theorem runs_replay_mmap {held : Nat → Bool} (hmore : w.cur .remoteHead ≠ w.cur .remoteTail)
    (hne : w.cur .globalLocalHead = w.cur .globalLocalTail →
      w.cur .lastPersistedTail ≠ w.cur .globalLocalHead)
    (htype : w.cur (.entryType (w.cur .globalLocalHead)) = .mmap)
    (hroom : w.cur .uncommitedNumberOfEntries < initialTableSize) :
    S.Runs .backEnd (replay N held) (fun more u => more = true ∧
      Created (w.cur .globalLocalHead) (takeSlot N w) u) w := by
  have hcur : (takeSlot N w).cur .uncommitedNumberOfEntries < initialTableSize := by
    rwa [takeSlot_cur (by decide) (by decide)]
  simp only [replay, System.Runs.load hB.lenient, if_neg hmore, processEntry, Prog.bind_assoc,
    runs_ringBufferDequeue hB hne]
  rw [takeSlot_cur (by simp) (by simp), htype]
  exact System.Runs.bind ((runs_mmap hB hcur).mono fun _ u hu => System.Runs.pure.mpr ⟨rfl, hu⟩)

theorem runs_replay_commit {held : Nat → Bool} (hmore : w.cur .remoteHead ≠ w.cur .remoteTail)
    (hne : w.cur .globalLocalHead = w.cur .globalLocalTail →
      w.cur .lastPersistedTail ≠ w.cur .globalLocalHead)
    (htype : w.cur (.entryType (w.cur .globalLocalHead)) = .commit) :
    S.Runs .backEnd (replay N held) (fun more u => more = true ∧ CommitRound N w u) w := by
  simp only [replay, System.Runs.load hB.lenient, if_neg hmore]
  exact System.Runs.bind ((runs_commitEntry hB hne htype).mono fun _ u hu =>
    System.Runs.pure.mpr ⟨rfl, hu⟩)

theorem runs_replay_end {held : Nat → Bool} (hdone : w.cur .remoteHead = w.cur .remoteTail) :
    S.Runs .backEnd (replay N held) (fun more u => more = false ∧ u = w) w := by
  simp only [replay, System.Runs.load hB.lenient, if_pos hdone]
  exact System.Runs.pure.mpr ⟨rfl, rfl⟩

end BackEnd

section Moves

variable {admits : State → Label Actor Loc Val Log → Prop} {c₁ : Config Actor Loc Val Log Stage}
variable {procs : Actor → Code Stage}

theorem replay_move (h : (restartSystem N admits).Reaches c₁ ⟨w, procs⟩)
    (hz : procs .backEnd = .ret .replaying)
    {Q : State → Prop}
    (hr : (restartSystem N admits).Runs .backEnd (replay N forked)
      (fun more u => more = true ∧ Q u) w) :
    ∃ u, (restartSystem N admits).Reaches c₁ ⟨u, procs⟩ ∧ Q u := by
  obtain ⟨_, u, hu, rfl, hq⟩ := h.start hz ⟨forked, rfl⟩ hr
  simp only [if_true] at hu
  have hret : (pure Stage.replaying : Code Stage) = procs .backEnd := hz.symm
  rw [hret, Function.update_eq_self] at hu
  exact ⟨u, hu, hq⟩

/-- A map entry and the commit entry of its batch are left in the ring, after a
first commit. -/
structure LeftOver (committed count : Nat) (m : (l : Loc) → Val l) : Prop where
  head : m .remoteHead = 1
  tail : m .remoteTail = 3
  first : m (.entryType 1) = .mmap
  second : m (.entryType 2) = .commit
  metadata : m .commitMetadata = ⟨committed, 1⟩
  counted : m .uncommitedNumberOfEntries = count

theorem relaunch_indices_of_leftOver {committed count : Nat} (h : LeftOver committed count w.per) :
    (relaunch w).cur .globalLocalHead = 1 ∧ (relaunch w).cur .globalLocalTail = 3 ∧
    (relaunch w).cur .remoteHead = 1 ∧
      (relaunch w).cur .remoteTail = 3 ∧ (relaunch w).cur (.entryType 1) = .mmap ∧
      (relaunch w).cur (.entryType 2) = .commit ∧
      (relaunch w).cur .uncommitedNumberOfEntries = count := by
  obtain ⟨hh, ht, -, -⟩ := launched_indices w
  have hcur : ∀ {l}, l ≠ .globalLocalTail → l ≠ .globalLocalHead → l ≠ .lastPersistedHead →
      l ≠ .lastPersistedTail →
      l ≠ .numberOfEntries → (relaunch w).cur l = (volatileValue l).getD (w.per l) := relaunch_cur w
  refine ⟨hh.trans h.head, ht.trans h.tail, ?_, ?_, ?_, ?_, ?_⟩
  · exact (hcur (by decide) (by decide) (by decide) (by decide) (by decide)).trans h.head
  · exact (hcur (by decide) (by decide) (by decide) (by decide) (by decide)).trans h.tail
  · exact (hcur (by simp) (by simp) (by simp) (by simp) (by simp)).trans h.first
  · exact (hcur (by simp) (by simp) (by simp) (by simp) (by simp)).trans h.second
  · exact (hcur (by decide) (by decide) (by decide) (by decide) (by decide)).trans h.counted

/-- Recovery replays both, and puts the region after all those that the table
counts. -/
theorem replayed_move (hN : 4 ≤ N) (hB : (restartSystem N admits).Unrestricted .backEnd)
    (h : (restartSystem N admits).Reaches c₁ ⟨w, procs⟩) (hcrash : admits w .crash)
    {committed count : Nat} (hw : LeftOver committed count w.per)
    (hroom : count < initialTableSize) :
    ∃ u p, (restartSystem N admits).Reaches c₁ ⟨u, p⟩ ∧ p .backEnd = .ret .replayed ∧
      u.cur .numberOfEntries = count + 1 ∧ u.log.enqueued = w.log.enqueued.take
      (Channel.durableTail w) := by
  obtain ⟨hgh, hgt, hrh, hrt, h1, h2, hn⟩ := relaunch_indices_of_leftOver hw
  have hone : nextIndex N 1 = 2 := if_neg (by omega)
  have htwo : nextIndex N 2 = 3 := if_neg (by omega)
  have hboot : (restartSystem N admits).Reaches c₁ ⟨relaunch w, (restartSystem N admits).boot⟩ :=
    h.tail (.crash hcrash)
  obtain ⟨_, u, hu, hlog, hcur⟩ := hboot.resume (a := .backEnd) rfl (runs_startBackEnd hB)
  have hgh₁ : u.cur .globalLocalHead = 1 := (hcur _ (by decide) (by decide)).trans hgh
  have hgt₁ : u.cur .globalLocalTail = 3 := (hcur _ (by decide) (by decide)).trans hgt
  have hrh₁ : u.cur .remoteHead = 1 := (hcur _ (by decide) (by decide)).trans hrh
  have hrt₁ : u.cur .remoteTail = 3 := (hcur _ (by decide) (by decide)).trans hrt
  have hn₁ : u.cur .uncommitedNumberOfEntries = count := (hcur _ (by decide) (by decide)).trans hn
  have h1₁ : u.cur (.entryType 1) = .mmap := (hcur _ (by simp) (by simp)).trans h1
  have h2₁ : u.cur (.entryType 2) = .commit := (hcur _ (by simp) (by simp)).trans h2
  obtain ⟨v, hv, hmk⟩ :=
    replay_move hu (Function.update_self _ _ _) (runs_replay_mmap hB (by rw [hrh₁, hrt₁]; decide)
    (by rw [hgh₁, hgt₁]; exact fun h => absurd h (by decide)) (by rw [hgh₁]; exact h1₁)
    (by rw [hn₁]; exact hroom))
  have hkeep : ∀ l, ¬ Mapped l → l ≠ .globalLocalHead → l ≠ .globalLocalTail → v.cur l = u.cur l :=
    fun l h₁ h₂ h₃ =>
    (hmk.untouched l h₁).cur.trans (takeSlot_cur h₂ h₃)
  have hgh₂ : v.cur .globalLocalHead = 2 := by
    rw [(hmk.untouched _ (by simp [Mapped, recordLocs])).cur, takeSlot_localHead, hgh₁, hone]
  have hgt₂ : v.cur .globalLocalTail = 3 := by
    rw [(hmk.untouched _ (by simp [Mapped, recordLocs])).cur, takeSlot_localTail, hgh₁, hgt₁]
    rfl
  have hrh₂ : v.cur .remoteHead = 1 :=
    (hkeep _ (by simp [Mapped, recordLocs]) (by decide) (by decide)).trans hrh₁
  have hrt₂ : v.cur .remoteTail = 3 :=
    (hkeep _ (by simp [Mapped, recordLocs]) (by decide) (by decide)).trans hrt₁
  have h2₂ : v.cur (.entryType 2) = .commit :=
    (hkeep _ (by simp [Mapped, recordLocs]) (by simp) (by simp)).trans h2₁
  obtain ⟨x, hx, hcr⟩ :=
    replay_move hv (Function.update_self _ _ _) (runs_replay_commit hB (by rw [hrh₂, hrt₂]; decide)
    (by rw [hgh₂, hgt₂]; exact fun h => absurd h (by decide)) (by rw [hgh₂]; exact h2₂))
  have hend : x.cur .remoteHead = x.cur .remoteTail := by
    rw [hcr.remoteHead, hcr.others _ (by decide) (by decide) (by decide) (by decide) (by decide)
      (by decide), hgh₂, htwo, hrt₂]
  obtain ⟨_, y, hy, rfl, rfl⟩ :=
    hx.start (Function.update_self _ _ _) ⟨forked, rfl⟩ (runs_replay_end hB hend)
  refine ⟨_, _, hy, Function.update_self _ _ _, ?_, ?_⟩
  · rw [hcr.number, hmk.counted, takeSlot_cur (by decide) (by decide), hn₁]
  · rw [hcr.front, hmk.front, takeSlot_log, hlog]
    rfl

/-- The first launch has logged an empty batch and one with a map entry, and the
consumer has committed the first of them. -/
structure FirstCommit (regions : List (Nat × Nat)) (addr size : Nat) (w : State) : Prop where
  persistedTail : w.cur .lastPersistedTail = 3
  persistedHead : w.cur .lastPersistedHead = 1
  localHead : w.cur .globalLocalHead = 1
  localTail : w.cur .globalLocalTail = 3
  leftOver : LeftOver regions.length regions.length w.cur
  enqueued : w.log.enqueued = [.commit, .mmap addr size, .commit]
  published : w.log.published = 3
  committed : w.log.committed = 1

theorem exists_firstCommit (hN : 4 ≤ N) (hF : (restartSystem N admits).Lenient .frontEnd)
    (hB : (restartSystem N admits).Unrestricted .backEnd) (bytes : Cell → UInt8)
    (regions : List (Nat × Nat))
    (addr size : Nat) : ∃ w, (restartSystem N admits).Reaches (firstLaunch bytes regions)
    ⟨w, atRest .running .running⟩ ∧
      FirstCommit regions addr size w := by
  have hzero : nextIndex N 0 = 1 := if_neg (by omega)
  have hopens : ∀ bs, (∀ es ∈ bs, Entry.commit ∉ es) → Opens (restartSystem N admits) N .running bs
      (fun _ => 0) .running :=
    fun bs hbs => ⟨rfl, bs, _, hbs, rfl⟩
  have hstart : (restartSystem N admits).Reaches (firstLaunch bytes regions)
      ⟨(firstLaunch bytes regions).world, fun _ => .ret .running⟩ := .refl
  have hinit : ∀ l, l ≠ .semaphore → (firstLaunch bytes regions).world.cur l =
      (initial bytes regions).cur l :=
    fun l hl => World.store_cur_of_ne _ l _ _ _ hl
  have hph₀ : (firstLaunch bytes regions).world.cur .lastPersistedHead = 0 := hinit _ (by decide)
  have hpt₀ : (firstLaunch bytes regions).world.cur .lastPersistedTail = 0 := hinit _ (by decide)
  obtain ⟨w₁, r₁, l₁, p₁, -⟩ :=
    session_move hF hstart rfl (hopens [[]] (by simp)) (by simp) hph₀ hpt₀ le_rfl
    (show 0 + (entries [[]]).length < N by simp [entries, closed]; omega)
  have ht₁ : w₁.cur .lastPersistedTail = 1 := l₁.persistedTail
  obtain ⟨w₂, r₂, l₂, p₂, -⟩ :=
    session_move hF r₁ rfl (hopens [[.mmap addr size]] (by simp)) (by simp) p₁ ht₁
    (Nat.zero_le _) (show 1 + (entries [[.mmap addr size]]).length < N by
      simp [entries, closed]; omega)
  have hkeep : ∀ l, l ≠ .lastPersistedTail → l ≠ .remoteTail → l ≠ .lastPersistedHead →
      slotOf l = none → l ≠ .semaphore → w₂.cur l = (initial bytes regions).cur l := by
    intro l h₁ h₂ h₃ h₄ h₅
    rw [l₂.others l h₁ h₂ h₃ (by simp [h₄]), l₁.others l h₁ h₂ h₃ (by simp [h₄]), hinit l h₅]
  have hgh : w₂.cur .globalLocalHead = 0 :=
    hkeep _ (by decide) (by decide) (by decide) rfl (by decide)
  have hgt : w₂.cur .globalLocalTail = 0 :=
    hkeep _ (by decide) (by decide) (by decide) rfl (by decide)
  have hun : w₂.cur .uncommitedNumberOfEntries = regions.length :=
    hkeep _ (by decide) (by decide) (by decide) rfl (by decide)
  have hpt : w₂.cur .lastPersistedTail = 3 := l₂.persistedTail
  have hrt : w₂.cur .remoteTail = 3 := l₂.remoteTail
  have h0 : w₂.cur (.entryType 0) = .commit := by
    rw [Logged.kept l₂ (kept_entryType (by omega))]
    exact l₁.closed [] rfl
  have h1 : w₂.cur (.entryType 1) = .mmap := (l₂.first (.mmap addr size) [] rfl).entryType
  have h2 : w₂.cur (.entryType 2) = .commit := l₂.closed [.mmap addr size] rfl
  obtain ⟨w₃, r₃, c₃⟩ :=
    round_move hB r₂ rfl (show Consumes (restartSystem N admits) N .running from rfl)
    (by rw [hpt, p₂]; decide) (fun _ => by rw [hpt, hgh]; decide) (by rw [hgh]; exact h0)
  have hprocs : Function.update
      (Function.update (fun _ : Actor => (.ret .running : Code Stage)) .frontEnd (.ret .running))
      .frontEnd (.ret .running) = atRest .running .running := by
    funext a
    cases a <;> rfl
  rw [hprocs] at r₃
  refine ⟨w₃, r₃, ?_⟩
  constructor
  case persistedTail =>
    rw [c₃.others _ (by decide) (by decide) (by decide) (by decide) (by decide) (by decide), hpt]
  case persistedHead => rw [c₃.persistedHead, hgh, hzero]
  case localHead => rw [c₃.localHead, hgh, hzero]
  case localTail => rw [c₃.localTail, hgh, hgt, hpt]; rfl
  case leftOver =>
    have hothers : ∀ l, l ≠ .globalLocalHead → l ≠ .globalLocalTail → l ≠ .remoteHead →
        l ≠ .lastPersistedHead →
      l ≠ .commitMetadata → l ≠ .numberOfEntries → w₃.cur l = w₂.cur l := c₃.others
    constructor
    case head => rw [c₃.remoteHead, hgh, hzero]
    case metadata => rw [c₃.metadata, hun, hgh, hzero]
    case tail =>
      rw [hothers _ (by decide) (by decide) (by decide) (by decide) (by decide) (by decide), hrt]
    case counted =>
      rw [hothers _ (by decide) (by decide) (by decide) (by decide) (by decide) (by decide), hun]
    case first => rw [hothers _ (by simp) (by simp) (by simp) (by simp) (by simp) (by simp), h1]
    case second => rw [hothers _ (by simp) (by simp) (by simp) (by simp) (by simp) (by simp), h2]
  case enqueued =>
    rw [c₃.front, l₂.enqueued, l₁.enqueued]
    rfl
  case published =>
    rw [c₃.front, l₂.published, l₂.enqueued, l₁.enqueued]
    rfl
  case committed =>
    rw [c₃.committed, l₂.back, l₁.back]
    rfl

/-- What a restart reads of the ring and of the counters. -/
def restartLocs : List Loc :=
  [.remoteHead, .remoteTail, .entryType 1, .entryType 2, .commitMetadata,
    .uncommitedNumberOfEntries]

theorem leftOver_move {S : System Actor Loc Val Log Phase} {c₀ : Config Actor Loc Val Log Phase}
    {procs : Actor → Code Phase} (hwb : ∀ u l, S.admits u (.writeBack l))
    (h : S.Reaches c₀ ⟨w, procs⟩) {committed count : Nat} (hw : LeftOver committed count w.cur) :
    ∃ u, S.Reaches c₀ ⟨u, procs⟩ ∧ u.cur = w.cur ∧ u.log = w.log ∧
    LeftOver committed count u.per := by
  obtain ⟨u, hu, hcur, hlog, hper⟩ := writeBacks_move hwb h restartLocs
  refine ⟨u, hu, hcur, hlog, ?_⟩
  constructor
  case head => rw [hper _ (by simp [restartLocs]), hw.head]
  case tail => rw [hper _ (by simp [restartLocs]), hw.tail]
  case first => rw [hper _ (by simp [restartLocs]), hw.first]
  case second => rw [hper _ (by simp [restartLocs]), hw.second]
  case metadata => rw [hper _ (by simp [restartLocs]), hw.metadata]
  case counted => rw [hper _ (by simp [restartLocs]), hw.counted]

end Moves

end Mangosteen.SoloRestart
