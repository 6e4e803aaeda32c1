import Mangosteen.SoloRing

namespace Mangosteen.Overrun

open PersistentMemory Prog Memory RingBuffer BackEnd Session Slots SoloRing

variable {N : Nat} {Phase : Type} {S : System Actor Loc Val Log Phase}

/-- Both processes between two of their programs. -/
def atRest (x z : Phase) : Actor → Code Phase
  | .frontEnd => .ret x
  | .backEnd => .ret z

@[simp] theorem update_frontEnd (x y z : Phase) :
    Function.update (atRest x z) .frontEnd (.ret y) = atRest y z := by
  funext a; cases a <;> rfl

@[simp] theorem update_backEnd (x z : Phase) :
    Function.update (atRest x z) .backEnd (.ret z) = atRest x z := by
  funext a; cases a <;> rfl

/-- A producer in phase `x` may log the batches, and is then in phase `y`. -/
def Opens (S : System Actor Loc Val Log Phase) (N : Nat) (x : Phase) (bs : List (List Entry))
    (memory : Nat → UInt8) (y : Phase) : Prop :=
  S.next .frontEnd x (do session N bs memory; .ret y)

def Consumes (S : System Actor Loc Val Log Phase) (N : Nat) (z : Phase) : Prop :=
  S.next .backEnd z (runConsumer N >>= fun _ => .ret z)

section Wrap

variable {w : State} {β : Type}

/-- What is known after a session that wraps around a ring whose head it takes
from the past. -/
structure Wrapped (N : Nat) (e : Entry) (w u : State) : Prop where
  persistedHead : u.cur .lastPersistedHead = 0
  persistedTail : u.cur .lastPersistedTail = 2
  remoteTail : u.cur .remoteTail = 2
  others : ∀ l, l ≠ .lastPersistedTail → l ≠ .remoteTail → l ≠ .lastPersistedHead →
    (∀ i, slotOf l = some i → 2 ≤ i ∧ i < N - 1) → u.cur l = w.cur l
  enqueued : u.log.enqueued = w.log.enqueued ++ [e, .commit, .commit]
  published : u.log.published = u.log.enqueued.length
  sessions : w.log.sessions <:+ u.log.sessions
  back : u.log.toBackLog = w.log.toBackLog
  image : u.log.toImageLog = w.log.toImageLog

/-- The enqueue loop refreshes the head from `remote_head`, then the commit loop
replaces it by the older `last_persisted_head`, and the tail meets the head. -/
theorem runs_wrap (hF : S.Unrestricted .frontEnd) {e : Entry} {memory : Nat → UInt8} (hN : 4 ≤ N)
    (hh : w.cur .lastPersistedHead = 0) (ht : w.cur .lastPersistedTail = N - 1)
    (hr : w.cur .remoteHead = 2) :
    S.Runs .frontEnd (session N [[e], []] memory) (fun _ u => Wrapped N e w u) w := by
  have hlast : nextIndex N (N - 1) = 0 := if_pos (by omega)
  have hzero : nextIndex N 0 = 1 := if_neg (by omega)
  have hone : nextIndex N 1 = 2 := if_neg (by omega)
  have hslot : slotOf .lastPersistedHead = none := rfl
  rw [← Prog.bind_ret (session N [[e], []] memory)]
  simp only [session, recordSession, getGlobalHeadValue, getGlobalTailValue,
    setGlobalHeadValue, setGlobalTailValue,
    batches, batch, enqueueAll, Prog.bind_assoc, Prog.pure_bind, System.Runs.record hF.lenient,
    System.Runs.load hF.lenient]
  rw [hh, ht, runs_enqueueEntry_refresh hF.lenient hF hlast (by simp [hr]),
    runs_commit hF.lenient (by simp [hlast, hzero, hr]),
    runs_commit_refresh hF.lenient hF (by simp [hlast, hzero, hone, hr])
      (by simp [publish_cur, logEntry_cur, hslot, hh, hr])]
  simp only [hlast, hzero, hone, System.Runs.store hF.lenient, System.Runs.storeRecord hF.lenient]
  refine System.Runs.pure.mpr ?_
  constructor
  case others =>
    intro l h1 h2 h3 hl
    have hne : ∀ i, ¬ (2 ≤ i ∧ i < N - 1) → slotOf l ≠ some i := fun i hi h => hi (hl i h)
    rw [World.store_cur_of_ne _ _ _ _ _ h1, World.store_cur_of_ne _ _ _ _ _ h3, publish_cur h2 h1,
      logEntry_cur (hne 1 (by omega)), publish_cur h2 h1, logEntry_cur (hne 0 (by omega)),
      logEntry_cur (hne (N - 1) (by omega))]
  all_goals simp [World.store_cur_of_ne, publish_cur, logEntry_cur, hslot, hh]

end Wrap

/-- A location that neither a session from a slot on nor a commit of the consumer
stores to. -/
def Kept (slot : Nat) (l : Loc) : Prop :=
  l ≠ .lastPersistedTail ∧ l ≠ .remoteTail ∧ l ≠ .lastPersistedHead ∧ l ≠ .globalLocalHead ∧
    l ≠ .globalLocalTail ∧ l ≠ .remoteHead ∧ l ≠ .commitMetadata ∧ l ≠ .numberOfEntries ∧
    ∀ i, slotOf l = some i → i < slot

theorem Kept.mono {slot slot' : Nat} {l : Loc} (h : Kept slot l) (hs : slot ≤ slot') :
    Kept slot' l :=
  ⟨h.1, h.2.1, h.2.2.1, h.2.2.2.1, h.2.2.2.2.1, h.2.2.2.2.2.1, h.2.2.2.2.2.2.1, h.2.2.2.2.2.2.2.1,
    fun i hi => (h.2.2.2.2.2.2.2.2 i hi).trans_le hs⟩

theorem Logged.kept {slot : Nat} {bs : List (List Entry)} {w u : State}
    (h : Logged slot bs w u) {l : Loc} (hl : Kept slot l) : u.cur l = w.cur l :=
  h.others l hl.1 hl.2.1 hl.2.2.1 hl.2.2.2.2.2.2.2.2

theorem CommitRound.kept {slot : Nat} {w u : State} (h : CommitRound N w u)
    {l : Loc} (hl : Kept slot l) : u.cur l = w.cur l :=
  h.others l hl.2.2.2.1 hl.2.2.2.2.1 hl.2.2.2.2.2.1 hl.2.2.1 hl.2.2.2.2.2.2.1 hl.2.2.2.2.2.2.2.1

theorem kept_entryType {slot i : Nat} (h : i < slot) : Kept slot (.entryType i) := by
  simp [Kept, slotOf, h]

/-- A session from a slot on, during which the consumer took two commit entries
at the start of the ring. -/
structure Late (slot : Nat) (bs : List (List Entry)) (w u : State) : Prop where
  persistedHead : u.cur .lastPersistedHead = 0
  persistedTail : u.cur .lastPersistedTail = slot + (entries bs).length
  remoteHead : u.cur .remoteHead = 2
  localHead : u.cur .globalLocalHead = 2
  localTail : u.cur .globalLocalTail = slot + (entries bs).length
  kept : ∀ l, Kept slot l → u.cur l = w.cur l
  enqueued : u.log.enqueued = w.log.enqueued ++ entries bs
  sessions : w.log.sessions <:+ u.log.sessions
  dequeued : u.log.dequeued = w.log.dequeued ++ [.commit, .commit]
  committed : u.log.committed = w.log.dequeued.length + 2

section Moves

variable {c₀ : Config Actor Loc Val Log Phase} {w : State} {x y z : Phase}

theorem session_move (hF : S.Lenient .frontEnd) {bs : List (List Entry)} {head tail : Nat}
    {procs : Actor → Code Phase} (h : S.Reaches c₀ ⟨w, procs⟩) (hx : procs .frontEnd = .ret x)
    {memory : Nat → UInt8} (ho : Opens S N x bs memory y) (hbs : bs ≠ [])
    (hh : w.cur .lastPersistedHead = head) (ht : w.cur .lastPersistedTail = tail)
    (hle : head ≤ tail) (hfit : tail + (entries bs).length < N) :
    ∃ u, S.Reaches c₀ ⟨u, Function.update procs .frontEnd (.ret y)⟩ ∧ Logged tail bs w u ∧
      u.cur .lastPersistedHead = head ∧
      u.log.sessions = ⟨w.log.enqueued.length, bs, memory⟩ :: w.log.sessions := by
  obtain ⟨_, u, hu, hfacts⟩ := h.start hx ho (runs_session hF hbs hh ht hle hfit)
  exact ⟨u, hu, hfacts⟩

theorem round_move (hB : S.Unrestricted .backEnd) {procs : Actor → Code Phase}
    (h : S.Reaches c₀ ⟨w, procs⟩) (hz : procs .backEnd = .ret z) (hc : Consumes S N z)
    (hlt : w.cur .lastPersistedTail ≠ w.cur .lastPersistedHead)
    (hne : w.cur .globalLocalHead = w.cur .globalLocalTail →
      w.cur .lastPersistedTail ≠ w.cur .globalLocalHead)
    (hslot : w.cur (.entryType (w.cur .globalLocalHead)) = .commit) :
    ∃ u, S.Reaches c₀ ⟨u, procs⟩ ∧ CommitRound N w u := by
  obtain ⟨_, u, hu, hfacts⟩ := h.start hz hc (runs_commitRound hB hlt hne hslot)
  rw [← hz, Function.update_eq_self] at hu
  exact ⟨u, hu, hfacts⟩

/-- A consumer that has taken two commit entries while a producer, already done
logging, still holds the old head, which it then writes back. -/
theorem late_session_move (hF : S.Unrestricted .frontEnd)
    (hB : S.Unrestricted .backEnd) (hN : 4 ≤ N)
    {bs : List (List Entry)} {tail : Nat} (h : S.Reaches c₀ ⟨w, atRest x z⟩) {memory : Nat → UInt8}
    (hn : Opens S N x bs memory y)
    (hc : Consumes S N z) (hbs : bs ≠ []) (hh : w.cur .lastPersistedHead = 0)
    (ht : w.cur .lastPersistedTail = tail) (h2 : 2 ≤ tail) (hfit : tail + (entries bs).length < N)
    (hgh : w.cur .globalLocalHead = 0) (hgt : w.cur .globalLocalTail = 0)
    (h0 : w.cur (.entryType 0) = .commit) (h1 : w.cur (.entryType 1) = .commit) :
    ∃ u, S.Reaches c₀ ⟨u, atRest y z⟩ ∧ Late tail bs w u := by
  rw [Opens, session_eq, Prog.bind_assoc] at hn
  have hzero : nextIndex N 0 = 1 := if_neg (by omega)
  have hone : nextIndex N 1 = 2 := if_neg (by omega)
  have hpos : tail + (entries bs).length ≠ 0 := by omega
  have hpos' : tail + (entries bs).length ≠ 1 := by omega
  obtain ⟨_, v, hv, rfl, hlog, hvh, -⟩ :=
    h.start rfl hn (runs_opening hF.lenient hbs hh ht (by omega) hfit)
  have hvt := hlog.persistedTail
  have hvgh : v.cur .globalLocalHead = 0 :=
    (hlog.others _ (by simp) (by simp) (by simp) (by simp [slotOf])).trans hgh
  have hvgt : v.cur .globalLocalTail = 0 :=
    (hlog.others _ (by simp) (by simp) (by simp) (by simp [slotOf])).trans hgt
  have hv0 : v.cur (.entryType 0) = .commit :=
    (Logged.kept hlog (kept_entryType (by omega))).trans h0
  have hv1 : v.cur (.entryType 1) = .commit :=
    (Logged.kept hlog (kept_entryType (by omega))).trans h1
  obtain ⟨v₁, hr₁, c₁⟩ := round_move hB hv rfl hc (by rw [hvt, hvh]; exact hpos)
    (fun _ => by rw [hvt, hvgh]; exact hpos) (by rw [hvgh]; exact hv0)
  have hgh₁ : v₁.cur .globalLocalHead = 1 := by rw [c₁.localHead, hvgh, hzero]
  have hgt₁ : v₁.cur .globalLocalTail = tail + (entries bs).length := by
    rw [c₁.localTail, hvgh, hvgt, if_pos rfl, hvt]
  have hpt₁ : v₁.cur .lastPersistedTail = tail + (entries bs).length :=
    (c₁.others _ (by simp) (by simp) (by simp) (by simp) (by simp) (by simp)).trans hvt
  have hph₁ : v₁.cur .lastPersistedHead = 1 := by rw [c₁.persistedHead, hvgh, hzero]
  have hv1₁ : v₁.cur (.entryType 1) = .commit :=
    (CommitRound.kept c₁ (kept_entryType (Nat.lt_succ_self 1))).trans hv1
  obtain ⟨v₂, hr₂, c₂⟩ := round_move hB hr₁ rfl hc (by rw [hpt₁, hph₁]; exact hpos')
    (fun _ => by rw [hpt₁, hgh₁]; exact hpos') (by rw [hgh₁]; exact hv1₁)
  obtain ⟨_, u, hu, rfl⟩ := hr₂.resume (Function.update_self _ _ _) (runs_closing hF.lenient)
  have hu' : S.Reaches c₀ ⟨(v₂.store .lastPersistedHead 0 id).store .lastPersistedTail
      (tail + (entries bs).length) (fun g => { g with visible := g.enqueued.length }),
      atRest y z⟩ := by
    simpa using hu
  have hgt₂ : v₂.cur .globalLocalTail = tail + (entries bs).length := by
    rw [c₂.localTail, hgh₁, hgt₁]
    exact if_neg (Ne.symm hpos')
  refine ⟨_, hu', ?_⟩
  constructor
  case kept =>
    intro l hl
    rw [World.store_cur_of_ne _ _ _ _ _ hl.1, World.store_cur_of_ne _ _ _ _ _ hl.2.2.1,
      CommitRound.kept c₂ hl, CommitRound.kept c₁ hl, Logged.kept hlog hl]
  case enqueued =>
    show v₂.log.enqueued = _
    rw [c₂.front, c₁.front, hlog.enqueued]
  case sessions =>
    show _ <:+ v₂.log.sessions
    rw [c₂.front, c₁.front]
    exact hlog.sessions
  case dequeued =>
    show v₂.log.dequeued = _
    rw [c₂.dequeued, c₁.dequeued, hlog.back]; simp
  case committed =>
    show v₂.log.committed = _
    rw [c₂.committed, c₁.dequeued, hlog.back]; simp
  all_goals simp [World.store_cur_of_ne, c₂.remoteHead, c₂.localHead, hgh₁, hone, hgt₂]

end Moves

/-- A ring on which nothing has been logged. -/
structure Fresh (w : State) : Prop where
  persistedHead : w.cur .lastPersistedHead = 0
  persistedTail : w.cur .lastPersistedTail = 0
  localHead : w.cur .globalLocalHead = 0
  localTail : w.cur .globalLocalTail = 0
  enqueued : w.log.enqueued = []
  dequeued : w.log.dequeued = []

theorem fresh_initial (bytes : Cell → UInt8) (regions : List (Nat × Nat)) :
    Fresh (initial bytes regions) :=
  ⟨rfl, rfl, rfl, rfl, rfl, rfl⟩

/-- A ring with `N` entries outstanding: to everyone who compares head and tail
it looks empty. -/
structure Lapped (N : Nat) (bs₃ bs₄ : List (List Entry)) (e : Entry) (memory : Nat → UInt8)
    (w₀ w : State) : Prop where
  persistedHead : w.cur .lastPersistedHead = 0
  persistedTail : w.cur .lastPersistedTail = 2
  remoteTail : w.cur .remoteTail = 2
  remoteHead : w.cur .remoteHead = 2
  localHead : w.cur .globalLocalHead = 2
  localTail : w.cur .globalLocalTail = N - 1
  kept : ∀ l, Kept 0 l → w.cur l = w₀.cur l
  closed : bs₃ = [[]] → w.cur (.entryType 2) = .commit
  enqueued : w.log.enqueued = [.commit, .commit] ++ entries bs₃ ++ entries bs₄ ++
    [e, .commit, .commit]
  published : w.log.published = w.log.enqueued.length
  third : ⟨2, bs₃, memory⟩ ∈ w.log.sessions
  dequeued : w.log.dequeued = [.commit, .commit]
  committed : w.log.committed = 2

/-- Five sessions, in the fourth of which the consumer commits twice, lap the
ring: the head that the fourth writes back is older than `remote_head`. -/
theorem exists_lapped (hF : S.Unrestricted .frontEnd) (hB : S.Unrestricted .backEnd) {w₀ : State}
    {x : Nat → Phase} {m : Nat → Nat → UInt8} {z : Phase} {bs₃ bs₄ : List (List Entry)}
    {e : Entry} (hw₀ : Fresh w₀)
    (h : S.Reachable w₀ ⟨w₀, atRest (x 0) z⟩) (hc : Consumes S N z)
    (h₁ : Opens S N (x 0) [[]] (m 1) (x 1))
    (h₂ : Opens S N (x 1) [[]] (m 2) (x 2)) (h₃ : Opens S N (x 2) bs₃ (m 3) (x 3))
    (h₄ : Opens S N (x 3) bs₄ (m 4) (x 4)) (h₅ : Opens S N (x 4) [[e], []] (m 5) (x 5))
    (hbs₃ : bs₃ ≠ []) (hbs₄ : bs₄ ≠ []) (hN : 4 ≤ N)
    (hlen : 2 + (entries bs₃).length + (entries bs₄).length = N - 1) :
    ∃ w, S.Reachable w₀ ⟨w, atRest (x 5) z⟩ ∧ Lapped N bs₃ bs₄ e (m 3) w₀ w := by
  have hone : (entries [[]]).length = 1 := rfl
  obtain ⟨w₁, r₁, l₁, p₁, -⟩ :=
    session_move hF.lenient h rfl h₁ (by simp) hw₀.persistedHead hw₀.persistedTail le_rfl (by omega)
  obtain ⟨w₂, r₂, l₂, p₂, -⟩ :=
    session_move hF.lenient r₁ rfl h₂ (by simp) p₁ l₁.persistedTail (by omega) (by omega)
  obtain ⟨w₃, r₃, l₃, p₃, s₃⟩ :=
    session_move hF.lenient r₂ rfl h₃ hbs₃ p₂ l₂.persistedTail (by omega) (by omega)
  simp only [update_frontEnd] at r₃
  have hold : ∀ l, Kept 0 l ∨ l = .globalLocalHead ∨ l = .globalLocalTail →
      w₃.cur l = w₀.cur l := by
    rintro l (hl | rfl | rfl)
    · rw [Logged.kept l₃ (hl.mono (Nat.zero_le _)), Logged.kept l₂ (hl.mono (Nat.zero_le _)),
        Logged.kept l₁ hl]
    · rw [l₃.others, l₂.others, l₁.others] <;> simp [slotOf]
    · rw [l₃.others, l₂.others, l₁.others] <;> simp [slotOf]
  have ht0 : w₃.cur (.entryType 0) = .commit := by
    rw [Logged.kept l₃ (kept_entryType (by omega)), Logged.kept l₂ (kept_entryType (by omega))]
    exact l₁.closed [] rfl
  have ht1 : w₃.cur (.entryType 1) = .commit := by
    rw [Logged.kept l₃ (kept_entryType (by omega))]
    exact l₂.closed [] rfl
  obtain ⟨w₄, r₄, c₄⟩ :=
    late_session_move hF hB hN r₃ h₄ hc hbs₄ p₃ l₃.persistedTail (by omega) (by omega)
    ((hold _ (by simp)).trans hw₀.localHead) ((hold _ (by simp)).trans hw₀.localTail) ht0 ht1
  have hend : 0 + (entries [[]]).length + (entries [[]]).length + (entries bs₃).length +
      (entries bs₄).length = N - 1 := by omega
  have hpt := c₄.persistedTail
  rw [hend] at hpt
  obtain ⟨_, w₅, r₅, k₅⟩ := r₄.start rfl h₅ (runs_wrap hF hN c₄.persistedHead hpt c₄.remoteHead)
  have hother : ∀ l, l ≠ .lastPersistedTail → l ≠ .remoteTail →
      l ≠ .lastPersistedHead → slotOf l = none →
      w₅.cur l = w₄.cur l := fun l a b c d => k₅.others l a b c (by simp [d])
  simp only [update_frontEnd] at r₅
  refine ⟨w₅, r₅, ?_⟩
  have henq : w₃.log.enqueued = [.commit, .commit] ++ entries bs₃ := by
    rw [l₃.enqueued, l₂.enqueued, l₁.enqueued, hw₀.enqueued]; rfl
  have hdeq : w₃.log.dequeued = [] := by rw [l₃.back, l₂.back, l₁.back, hw₀.dequeued]
  constructor
  case kept =>
    intro l hl
    have hslot : slotOf l = none := by
      cases hi : slotOf l with
      | none => rfl
      | some i => exact absurd (hl.2.2.2.2.2.2.2.2 i hi) (Nat.not_lt_zero i)
    rw [hother l hl.1 hl.2.1 hl.2.2.1 hslot, c₄.kept l (hl.mono (Nat.zero_le _)), hold l (.inl hl)]
  case closed =>
    rintro rfl
    have h2 : 2 < N - 1 := by
      have : 0 < (entries bs₄).length := by
        cases bs₄ with
        | nil => exact absurd rfl hbs₄
        | cons es bs => rw [length_entries_cons]; omega
      omega
    rw [k₅.others _ (by simp) (by simp) (by simp) (by simp [slotOf]; omega),
      c₄.kept _ (kept_entryType (by omega))]
    exact l₃.closed [] rfl
  case enqueued => rw [k₅.enqueued, c₄.enqueued, henq]
  case published => exact k₅.published
  case third =>
    have hlen : w₂.log.enqueued.length = 2 := by rw [l₂.enqueued, l₁.enqueued, hw₀.enqueued]; rfl
    rw [hlen] at s₃
    exact k₅.sessions.subset (c₄.sessions.subset (s₃ ▸ List.mem_cons_self))
  case dequeued => rw [k₅.back, c₄.dequeued, hdeq]; rfl
  case committed => rw [k₅.back, c₄.committed, hdeq]; rfl
  case persistedHead => exact k₅.persistedHead
  case persistedTail => exact k₅.persistedTail
  case remoteTail => exact k₅.remoteTail
  case remoteHead => rw [hother _ (by simp) (by simp) (by simp) rfl, c₄.remoteHead]
  case localHead => rw [hother _ (by simp) (by simp) (by simp) rfl, c₄.localHead]
  case localTail => rw [hother _ (by simp) (by simp) (by simp) rfl, c₄.localTail, hend]

/-- A session that has the old head fills slots of entries that the consumer has
not reached, while the consumer moves on. -/
structure Overwritten (bs₄ : List (List Entry)) (e a b : Entry) (w : State) : Prop where
  remoteHead : w.cur .remoteHead = 3
  remoteTail : w.cur .remoteTail = 2
  slot : Holds w.cur 3 b
  enqueued : w.log.enqueued =
    [.commit, .commit] ++ entries [[]] ++ entries bs₄ ++ [e, .commit, .commit] ++ [a, b]
  published : w.log.published = 2 + (entries [[]]).length + (entries bs₄).length + 3
  committed : w.log.committed = 3

theorem exists_overwritten (hF : S.Unrestricted .frontEnd) (hB : S.Unrestricted .backEnd)
    {w₀ w : State}
    {x y z : Phase} {memory memory' : Nat → UInt8} {bs₄ : List (List Entry)}
    {e a b : Entry} (hN : 6 ≤ N)
    (h : S.Reachable w₀ ⟨w, atRest x z⟩) (hw : Lapped N [[]] bs₄ e memory w₀ w)
    (hc : Consumes S N z) (hn : Opens S N x [[a, b]] memory' y) :
    ∃ u procs, S.Reachable w₀ ⟨u, procs⟩ ∧ Overwritten bs₄ e a b u := by
  have htwo : nextIndex N 2 = 3 := if_neg (by omega)
  have h2 : 2 ≠ N - 1 := by omega
  rw [Opens, session_eq_starting, Prog.bind_assoc] at hn
  simp only [batches, batch, Prog.bind_assoc] at hn
  obtain ⟨_, w₆, r₆, rfl, rfl⟩ := h.start rfl hn (runs_starting hF.lenient)
  obtain ⟨w₇, r₇, c₇⟩ :=
    round_move hB r₆ rfl hc (by rw [hw.persistedTail, hw.persistedHead]; decide)
    (fun he => absurd (hw.localHead.symm.trans (he.trans hw.localTail)) h2)
    (by rw [hw.localHead]; exact hw.closed rfl)
  have hrun :
      S.Runs .frontEnd (enqueueAll N [a, b] (w.cur .lastPersistedHead, w.cur .lastPersistedTail))
      (fun _ u => u = logEntries 2 [a, b] w₇) w₇ := by
    rw [← Prog.bind_ret (enqueueAll N [a, b] _), hw.persistedHead, hw.persistedTail,
      runs_enqueueAll hF.lenient (by decide) (by simp; omega)]
    exact System.Runs.pure.mpr rfl
  obtain ⟨_, w₈, r₈, rfl⟩ := r₇.resume (Function.update_self _ _ _) hrun
  refine ⟨_, _, r₈, ?_⟩
  constructor
  case remoteHead =>
    rw [logEntries_cur (by simp [slotOf]), c₇.remoteHead, hw.localHead, htwo]
  case remoteTail =>
    rw [logEntries_cur (by simp [slotOf]),
      c₇.others _ (by simp) (by simp) (by simp) (by simp) (by simp) (by simp), hw.remoteTail]
  case slot => exact holds_logEntry
  case enqueued => rw [logEntries_log, c₇.front, hw.enqueued]
  case published =>
    have hpub : w₇.log.published = w.log.published := by rw [c₇.front]
    rw [logEntries_log]
    show w₇.log.published = _
    rw [hpub, hw.published, hw.enqueued]
    simp only [List.length_append, List.length_cons, List.length_nil]
  case committed =>
    rw [logEntries_log, c₇.committed, hw.dequeued]
    rfl

/-- Two more commits overwrite the oldest outstanding entries, and the consumer
reads the commits in their place. -/
structure Misread (bs₃ bs₄ : List (List Entry)) (e : Entry) (memory : Nat → UInt8) (w₀ w : State) :
    Prop where
  kept : ∀ l, Kept 0 l → w.cur l = w₀.cur l
  enqueued : w.log.enqueued =
    [.commit, .commit] ++ entries bs₃ ++ entries bs₄ ++ [e, .commit, .commit] ++
    [.commit] ++ [.commit]
  third : ⟨2, bs₃, memory⟩ ∈ w.log.sessions
  dequeued : w.log.dequeued = [.commit, .commit, .commit, .commit]

theorem exists_misread (hF : S.Unrestricted .frontEnd) (hB : S.Unrestricted .backEnd) {w₀ w : State}
    {x y y' z : Phase} {m m' memory : Nat → UInt8} {bs₃ bs₄ : List (List Entry)}
    {e : Entry} (hN : 6 ≤ N)
    (h : S.Reachable w₀ ⟨w, atRest x z⟩) (hw : Lapped N bs₃ bs₄ e memory w₀ w) (hc : Consumes S N z)
    (h₆ : Opens S N x [[]] m y) (h₇ : Opens S N y [[]] m' y') :
    ∃ u, S.Reachable w₀ ⟨u, atRest y' z⟩ ∧ Misread bs₃ bs₄ e memory w₀ u := by
  have hone : (entries [[]]).length = 1 := rfl
  have htwo : nextIndex N 2 = 3 := if_neg (by omega)
  have h2 : 2 ≠ N - 1 := by omega
  have h3 : 3 ≠ N - 1 := by omega
  obtain ⟨w₆, r₆, l₆, p₆, -⟩ :=
    session_move hF.lenient h rfl h₆ (by simp) hw.persistedHead hw.persistedTail (by omega)
    (by omega)
  obtain ⟨w₇, r₇, l₇, p₇, -⟩ :=
    session_move hF.lenient r₆ rfl h₇ (by simp) p₆ l₆.persistedTail (by omega) (by omega)
  have hgh : w₇.cur .globalLocalHead = 2 := by
    rw [l₇.others _ (by simp) (by simp) (by simp) (by simp [slotOf]),
      l₆.others _ (by simp) (by simp) (by simp) (by simp [slotOf]), hw.localHead]
  have hgt : w₇.cur .globalLocalTail = N - 1 := by
    rw [l₇.others _ (by simp) (by simp) (by simp) (by simp [slotOf]),
      l₆.others _ (by simp) (by simp) (by simp) (by simp [slotOf]), hw.localTail]
  have ht2 : w₇.cur (.entryType 2) = .commit :=
    (Logged.kept l₇ (kept_entryType (Nat.lt_succ_self 2))).trans (l₆.closed [] rfl)
  have ht3 : w₇.cur (.entryType 3) = .commit := l₇.closed [] rfl
  have hpt : w₇.cur .lastPersistedTail = 4 := l₇.persistedTail
  obtain ⟨w₈, r₈, c₈⟩ := round_move hB r₇ rfl hc (by rw [hpt, p₇]; decide)
    (fun he => absurd (hgh.symm.trans (he.trans hgt)) h2) (by rw [hgh]; exact ht2)
  have hgh₈ : w₈.cur .globalLocalHead = 3 := by rw [c₈.localHead, hgh, htwo]
  have hgt₈ : w₈.cur .globalLocalTail = N - 1 := by
    rw [c₈.localTail, hgh, hgt]
    exact if_neg h2
  have hpt₈ : w₈.cur .lastPersistedTail = 4 :=
    (c₈.others _ (by simp) (by simp) (by simp) (by simp) (by simp) (by simp)).trans hpt
  have hph₈ : w₈.cur .lastPersistedHead = 3 := by rw [c₈.persistedHead, hgh, htwo]
  obtain ⟨w₉, r₉, c₉⟩ := round_move hB r₈ rfl hc (by rw [hpt₈, hph₈]; decide)
    (fun he => absurd (hgh₈.symm.trans (he.trans hgt₈)) h3)
    (by rw [hgh₈]; exact (CommitRound.kept c₈ (kept_entryType (Nat.lt_succ_self 3))).trans ht3)
  simp only [update_frontEnd] at r₉
  refine ⟨w₉, r₉, fun l hl => ?_, ?_, ?_, ?_⟩
  · rw [CommitRound.kept c₉ hl, CommitRound.kept c₈ hl, Logged.kept l₇ (hl.mono (Nat.zero_le _)),
      Logged.kept l₆ (hl.mono (Nat.zero_le _)), hw.kept l hl]
  · rw [c₉.front, c₈.front, l₇.enqueued, l₆.enqueued, hw.enqueued]; rfl
  · rw [c₉.front, c₈.front]
    exact l₇.sessions.subset (l₆.sessions.subset hw.third)
  · rw [c₉.dequeued, c₈.dequeued, l₇.back, l₆.back, hw.dequeued]; rfl

end Mangosteen.Overrun
