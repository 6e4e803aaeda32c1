import Mangosteen.Metadata
import Mangosteen.SoloBackEnd

namespace Mangosteen.Relaunch

open PersistentMemory Prog Memory RingBuffer RegionTable BackEnd Session Slots Channel
  Delivery Isolation Restart Metadata SoloRing Overrun SoloBackEnd

variable {N : Nat} {regions : List (Nat × Nat)} {bytes : Cell → UInt8} {w : State}

/-- Head and region count that a restart from the durable memory would take. -/
structure Restores (w : State) (r : CommitRecord) : Prop where
  head : (launchMangosteen w).cur .globalLocalHead = r.metadata.ringBufferHead
  regions : (launchMangosteen w).cur .numberOfEntries = r.metadata.numberOfRegions

/-- A restart takes both from one commit, which counts the map entries before its
head and no others. -/
def OneCommit (N : Nat) (regions : List (Nat × Nat)) (w : State) : Prop :=
  ∃ r ∈ creation :: w.log.commits, Restores w r ∧
  (r ∈ w.log.commits → Counted N regions w.log.dequeued r)

/-- The entries that the latest commit released. -/
def released (g : Log) : List Entry :=
  (g.dequeued.take (latest g).dequeued).drop (previous g).dequeued

/-- The latest commit counts no region that the one before it did not. -/
def NoNewRegion (regions : List (Nat × Nat)) (g : Log) : Prop :=
  mmaps (released g) = 0 ∧ (g.commits.length = 1 → regions = [])

theorem latest_mem (g : Log) : latest g ∈ creation :: g.commits := by
  cases h : g.commits with
  | nil => simp [latest, h]
  | cons r rs => simp [latest, h]

theorem previous_mem (g : Log) : previous g ∈ creation :: g.commits := by
  rcases h : g.commits with _ | ⟨r, _ | ⟨s, rs⟩⟩ <;> simp [previous, h]

theorem mmaps_take_mono (ds : List Entry) {i j : Nat} (h : i ≤ j) :
    mmaps (ds.take i) ≤ mmaps (ds.take j) :=
  (List.take_sublist_take_left h).countP_le

theorem mmaps_take_add (ds : List Entry) {i j : Nat} (h : i ≤ j) :
    mmaps (ds.take j) = mmaps (ds.take i) + mmaps ((ds.take j).drop i) := by
  have hsplit := List.take_append_drop i (ds.take j)
  rw [List.take_take, Nat.min_eq_left h] at hsplit
  rw [mmaps, ← hsplit, List.countP_append, hsplit]
  rfl

section Counts

variable (hi : MetadataInv N regions w)
include hi

theorem persisted_cases :
    w.per .commitMetadata = (latest w.log).metadata ∧
    w.per .remoteHead = (latest w.log).metadata.ringBufferHead ∨
    w.per .commitMetadata = (latest w.log).metadata ∧
    w.per .remoteHead = (previous w.log).metadata.ringBufferHead ∨
    w.per .commitMetadata = (previous w.log).metadata ∧
    w.per .remoteHead = (previous w.log).metadata.ringBufferHead := by
  rcases hi.head with ⟨hd, ht⟩ | ⟨hd, hcur⟩
  · have hm : w.per .commitMetadata = (latest w.log).metadata := hd.2.trans hi.metadata.cur
    rcases ht.per with hh | hh
    · exact .inl ⟨hm, hh⟩
    · exact .inr (.inl ⟨hm, hh⟩)
  · have hh := hd.2.trans hcur
    rcases hi.metadata.per with hm | hm
    · exact .inr (.inl ⟨hm, hh⟩)
    · exact .inr (.inr ⟨hm, hh⟩)

theorem regions_le_previous {r : CommitRecord} (hr : r ∈ creation :: w.log.commits)
    (hne : r ≠ latest w.log) :
    r.metadata.numberOfRegions ≤ (previous w.log).metadata.numberOfRegions := by
  rcases hc : w.log.commits with _ | ⟨s, _ | ⟨t, rs⟩⟩
  · rw [hc, List.mem_singleton] at hr
    exact absurd (by rw [hr, latest, hc]; rfl) hne
  all_goals
    rw [latest, hc, List.headD_cons] at hne
    rw [hc] at hr
    rcases List.mem_cons.mp hr with rfl | hr
    · exact Nat.zero_le _
  · exact absurd (List.mem_singleton.mp hr) hne
  · rw [previous, hc, List.tail_cons, List.headD_cons]
    have hr := (List.mem_cons.mp hr).resolve_left hne
    rcases List.mem_cons.mp hr with rfl | hrs
    · rfl
    · have hsorted := hi.sorted
      rw [hc] at hsorted
      have hle := (List.pairwise_cons.mp (List.pairwise_cons.mp hsorted).2).1 r hrs
      rw [(hi.counted r (by simp [hc, hrs])).regions, (hi.counted t (by simp [hc])).regions]
      exact Nat.add_le_add_left (mmaps_take_mono _ hle) _

theorem previous_le_latest :
    (previous w.log).metadata.numberOfRegions ≤ (latest w.log).metadata.numberOfRegions := by
  rcases hc : w.log.commits with _ | ⟨s, _ | ⟨t, rs⟩⟩
  · rw [previous, latest, hc]; rfl
  · rw [previous, hc]; exact Nat.zero_le _
  · have hsorted := hi.sorted
    rw [hc] at hsorted
    rw [previous, latest, hc, List.tail_cons, List.headD_cons, List.headD_cons,
      (hi.counted s (by simp [hc])).regions, (hi.counted t (by simp [hc])).regions]
    exact Nat.add_le_add_left (mmaps_take_mono _ ((List.pairwise_cons.mp hsorted).1 t (by simp))) _

theorem noNewRegion_iff (hne : w.log.commits ≠ []) : NoNewRegion regions w.log ↔
    (latest w.log).metadata.numberOfRegions = (previous w.log).metadata.numberOfRegions := by
  rcases hc : w.log.commits with _ | ⟨s, _ | ⟨t, rs⟩⟩
  · exact absurd hc hne
  · have hs := (hi.counted s (by simp [hc])).regions
    simp only [NoNewRegion, released, latest, previous, hc, List.headD_cons, List.tail_cons,
      List.headD_nil, creation, List.drop_zero, List.length_singleton, hs, forall_const]
    rw [← List.length_eq_zero_iff]
    omega
  · have hsorted := hi.sorted
    rw [hc] at hsorted
    have hle := (List.pairwise_cons.mp hsorted).1 t (by simp)
    have hs := (hi.counted s (by simp [hc])).regions
    have ht := (hi.counted t (by simp [hc])).regions
    simp only [NoNewRegion, released, latest, previous, hc, List.headD_cons, List.tail_cons,
      List.length_cons, hs, ht, mmaps_take_add w.log.dequeued hle]
    omega

theorem oneCommit_iff : OneCommit N regions w ↔
    w.per .remoteHead = (w.per .commitMetadata).ringBufferHead ∨ NoNewRegion regions w.log := by
  have hcount : ∀ r ∈ w.log.commits, Counted N regions w.log.dequeued r := hi.counted
  constructor
  · rintro ⟨r, hr, ⟨hh, hn⟩, -⟩
    rw [launchMangosteen_globalLocalHead] at hh
    rw [launchMangosteen_numberOfEntries] at hn
    rw [or_iff_not_imp_left]
    intro hdiff
    -- only the window between the two stores is left
    have hm : w.per .commitMetadata = (latest w.log).metadata := by
      rcases persisted_cases hi with ⟨hm, -⟩ | ⟨hm, -⟩ | ⟨hm, hp⟩
      · exact hm
      · exact hm
      · exact absurd (by rw [hm, hp]) hdiff
    have hlast : r ≠ latest w.log := by
      rintro rfl
      exact hdiff (by rw [hh, hm])
    have hne : w.log.commits ≠ [] := by
      intro hc
      rw [hc, List.mem_singleton] at hr
      exact hlast (by rw [hr, latest, hc]; rfl)
    rw [noNewRegion_iff hi hne]
    refine le_antisymm ?_ (previous_le_latest hi)
    rw [← hm, hn]
    exact regions_le_previous hi hr hlast
  · intro hcond
    have hof : ∀ r ∈ creation :: w.log.commits, w.per .remoteHead = r.metadata.ringBufferHead →
        (w.per .commitMetadata).numberOfRegions = r.metadata.numberOfRegions →
        OneCommit N regions w := by
      intro r hr hh hn
      refine ⟨r, hr, ⟨?_, ?_⟩, hcount r⟩
      · rw [launchMangosteen_globalLocalHead, hh]
      · rw [launchMangosteen_numberOfEntries, hn]
    rcases persisted_cases hi with ⟨hm, hh⟩ | ⟨hm, hh⟩ | ⟨hm, hh⟩
    · exact hof _ (latest_mem _) hh (by rw [hm])
    · rcases hcond with heq | hnew
      · exact hof _ (latest_mem _) (by rw [heq, hm]) (by rw [hm])
      · by_cases hc : w.log.commits = []
        · refine hof _ (latest_mem _) (hh.trans ?_) (by rw [hm])
          rw [previous, latest, hc]; rfl
        · exact hof _ (previous_mem _) hh (by rw [hm, (noNewRegion_iff hi hc).mp hnew])
    · exact hof _ (previous_mem _) hh (by rw [hm])

end Counts

/-- Whatever the front end logs and whenever the crash falls, the restart goes
back to one commit exactly if it finds `remote_head` where `commit_metadata` has
it, or if the two commits that it mixes count the same regions. -/
theorem one_commit (N : Nat) (hN : 2 ≤ N) (bytes : Cell → UInt8) (regions : List (Nat × Nat))
    (c : Config Actor Loc Val Log Unit) (h : (anyRun N).Reachable (initial bytes regions) c) :
    OneCommit N regions c.world ↔
      c.world.per .remoteHead = (c.world.per .commitMetadata).ringBufferHead ∨
      NoNewRegion regions c.world.log :=
  oneCommit_iff (metadataInv_of_reachable (serves_ringSystem _) hN h)

section Window

variable {N : Nat} {Phase : Type} {S : System Actor Loc Val Log Phase}
  {c₀ : Config Actor Loc Val Log Phase} {w u : State}

/-- The locations that a map entry changes. -/
def Mapped (l : Loc) : Prop :=
  l = .uncommitedNumberOfEntries ∨ l = .sequenceNumber ∨ l = .addressMap ∨
  (∃ i, l ∈ recordLocs i) ∨ ∃ c, l = .byte c

structure Created (slot : Nat) (w u : State) : Prop where
  untouched : ∀ l, ¬ Mapped l → Untouched w u l
  counted : u.cur .uncommitedNumberOfEntries = w.cur .uncommitedNumberOfEntries + 1
  commits : u.log.commits = w.log.commits
  front : u.log.toFrontLog = w.log.toFrontLog
  records : ∀ i, ∀ l ∈ recordLocs i, u.per l = w.per l
  regions : u.log.regions = w.log.regions ++ [(w.cur (.entryAddr slot), w.cur (.entrySize slot))]

theorem truncate_untouched {l : Loc} (index : Nat) (hl : ∀ c, l ≠ .byte c) :
    Untouched w (truncate index w) l := by
  cases l with
  | byte c => exact absurd rfl (hl c)
  | _ => exact ⟨rfl, rfl, fun _ => rfl⟩

theorem runs_createPmemFile {β : Type} {f : Nat → Code β} {Q : β → State → Prop}
    (hB : S.Unrestricted .backEnd) :
    S.Runs .backEnd (createPmemFile >>= f) Q w ↔ S.Runs .backEnd (f (w.cur .sequenceNumber)) Q
      ((truncate (w.cur .sequenceNumber) w).store .sequenceNumber
        (w.cur .sequenceNumber + 1) id) := by
  simp only [createPmemFile, Prog.bind_assoc, System.Runs.load hB.lenient]
  rw [System.Runs.kernel (g := fun w' => some (truncate (w.cur .sequenceNumber) w'))
    (w := w) hB.lenient rfl]
  simp only [System.Runs.store hB.lenient, Prog.pure_bind]

theorem runs_mmap (hB : S.Unrestricted .backEnd) {held : Nat → Bool} {slot : Nat}
    (hlt : w.cur .uncommitedNumberOfEntries < initialTableSize) :
    S.Runs .backEnd (handleEntry held slot .mmap) (fun _ u => Created slot w u) w := by
  rw [← Prog.bind_ret (handleEntry held slot .mmap)]
  simp only [handleEntry, recordDequeued, regionTableCreateMemoryRegion,
    regionTableAddRegionRecord, mapFixed,
    Prog.bind_assoc, runs_createPmemFile hB, System.Runs.load hB.lenient,
    System.Runs.record hB.lenient, if_pos hlt, System.Runs.storeAll hB.lenient,
    System.Runs.flush hB.lenient, System.Runs.storeRecord hB.lenient, System.Runs.store hB.lenient]
  refine System.Runs.pure.mpr ⟨fun l hl => ?_, ?_, rfl, rfl, fun i l hl => ?_, rfl⟩
  · simp only [Mapped, not_or, not_exists] at hl
    obtain ⟨hn, hs, hm, hr, hb⟩ := hl
    have hrec : l ∉ recordLocs (w.cur .uncommitedNumberOfEntries) := hr _
    simp only [recordLocs, List.mem_cons, List.not_mem_nil, or_false, not_or] at hrec
    obtain ⟨h₁, h₂, h₃, h₄⟩ := hrec
    refine .trans ?_ (.store hm)
    refine .trans ?_ (.store hs)
    refine .trans ?_ (truncate_untouched _ hb)
    refine .trans ?_ (.store hn)
    refine .trans ?_ (.flush (hr _))
    exact .trans (.record _)
      (.trans (.store h₁) (.trans (.store h₂) (.trans (.store h₃) (.store h₄))))
  · rw [World.store_cur_of_ne _ _ _ _ _ (by decide), World.store_cur_of_ne _ _ _ _ _ (by decide),
      (truncate_untouched _ (by simp)).cur, World.store_cur_self]
  · simp only [recordLocs, List.mem_cons, List.not_mem_nil, or_false] at hl
    rcases hl with rfl | rfl | rfl | rfl <;> rfl

theorem runs_prepareCommit (hB : S.Unrestricted .backEnd) :
    S.Runs .backEnd (do recordDequeued .commit; prepareCommit)
      (fun _ u => u.per .commitMetadata = ⟨w.cur .uncommitedNumberOfEntries,
        w.cur .globalLocalHead⟩ ∧
        (w.pending .backEnd .remoteHead = none → u.per .remoteHead = w.per .remoteHead) ∧
        ∃ k n, u.log.commits =
          ⟨⟨w.cur .uncommitedNumberOfEntries, w.cur .globalLocalHead⟩, k, n⟩ ::
          w.log.commits) w := by
  rw [← Prog.bind_ret (do recordDequeued .commit; prepareCommit)]
  simp only [prepareCommit, recordDequeued, regionTableCommit, Prog.bind_assoc,
    System.Runs.load hB.lenient,
    System.Runs.store hB.lenient, System.Runs.storeRecord hB.lenient, System.Runs.flush hB.lenient,
    System.Runs.fence hB.lenient, System.Runs.record hB.lenient]
  refine System.Runs.pure.mpr ⟨?_, fun hn => ?_, _, _, rfl⟩
  · simp [World.fence, World.flush, World.store]
  · simp [World.fence, World.flush, World.store, hn]

variable {z : Phase} {procs : Actor → Code Phase}

theorem mmap_move (hB : S.Unrestricted .backEnd) (h : S.Reaches c₀ ⟨w, procs⟩)
    (hz : procs .backEnd = .ret z)
    (hc : Consumes S N z) (hlt : w.cur .lastPersistedTail ≠ w.cur .lastPersistedHead)
    (hne : w.cur .globalLocalHead = w.cur .globalLocalTail →
      w.cur .lastPersistedTail ≠ w.cur .globalLocalHead)
    (htype : w.cur (.entryType (w.cur .globalLocalHead)) = .mmap)
    (hroom : w.cur .uncommitedNumberOfEntries < initialTableSize) :
    ∃ u, S.Reaches c₀ ⟨u, procs⟩ ∧ Created (w.cur .globalLocalHead) (takeSlot N w) u := by
  have htake := take_move hB h hz hc hlt hne
  rw [htype] at htake
  have hcur : (takeSlot N w).cur .uncommitedNumberOfEntries < initialTableSize := by
    rwa [takeSlot_cur (by decide) (by decide)]
  obtain ⟨_, u, hu, hfacts⟩ := htake.resume (Function.update_self _ _ _) (runs_mmap hB hcur)
  rw [Function.update_idem, ← hz, Function.update_eq_self] at hu
  exact ⟨u, hu, hfacts⟩

/-- The consumer takes a commit entry and is stopped before it stores to
`remote_head`. -/
theorem prepare_move (hB : S.Unrestricted .backEnd) (h : S.Reaches c₀ ⟨w, procs⟩)
    (hz : procs .backEnd = .ret z)
    (hc : Consumes S N z) (hlt : w.cur .lastPersistedTail ≠ w.cur .lastPersistedHead)
    (hne : w.cur .globalLocalHead = w.cur .globalLocalTail →
      w.cur .lastPersistedTail ≠ w.cur .globalLocalHead)
    (htype : w.cur (.entryType (w.cur .globalLocalHead)) = .commit)
    (hn : w.pending .backEnd .remoteHead = none) : ∃ u p, S.Reaches c₀ ⟨u, p⟩ ∧
      u.per .commitMetadata = ⟨w.cur .uncommitedNumberOfEntries,
        nextIndex N (w.cur .globalLocalHead)⟩ ∧
      u.per .remoteHead = w.per .remoteHead ∧
      ∃ k n, u.log.commits =
        ⟨⟨w.cur .uncommitedNumberOfEntries, nextIndex N (w.cur .globalLocalHead)⟩, k, n⟩ ::
        w.log.commits := by
  have htake := take_move hB h hz hc hlt hne
  rw [htype, handleEntry, commitRbBatch_eq, ← Prog.bind_assoc, ← Prog.bind_assoc, Prog.bind_assoc,
    Prog.bind_assoc] at htake
  obtain ⟨_, u, hu, hm, hh, hcom⟩ :=
    htake.resume (Function.update_self _ _ _) (runs_prepareCommit hB)
  have hun : Untouched w (takeSlot N w) .remoteHead := takeSlot_untouched (by decide) (by decide)
  rw [takeSlot_localHead, takeSlot_cur (by decide) (by decide)] at hm hcom
  rw [takeSlot_log] at hcom
  exact ⟨u, _, hu, hm, (hh (by rw [hun.pending, hn])).trans hun.per, hcom⟩

end Window

/-- The consumer has handled the one map entry of a first transaction, and the
commit entry is next. -/
structure SecondRegion (regions : List (Nat × Nat)) (bytes : Cell → UInt8) (region : Nat × Nat)
    (w : State) : Prop where
  persistedTail : w.cur .lastPersistedTail = 2
  persistedHead : w.cur .lastPersistedHead = 0
  localHead : w.cur .globalLocalHead = 1
  localTail : w.cur .globalLocalTail = 2
  counted : w.cur .uncommitedNumberOfEntries = regions.length + 1
  closed : w.cur (.entryType 1) = .commit
  head : Untouched (initial bytes regions) w .remoteHead
  commits : w.log.commits = []
  records : ∀ i, ∀ l ∈ recordLocs i, w.per l = (initial bytes regions).per l
  regions : w.log.regions = regions ++ [region]

theorem exists_secondRegion {Phase : Type} {S : System Actor Loc Val Log Phase} {x y z : Phase}
    (hF : S.Lenient .frontEnd) (hB : S.Unrestricted .backEnd) (hN : 4 ≤ N) (bytes : Cell → UInt8)
    {addr size : Nat} {memory : Nat → UInt8} (ho : Opens S N x [[.mmap addr size]] memory y)
    (hc : Consumes S N z)
    (h : S.Reachable (initial bytes [(4096, 8192)]) ⟨initial bytes [(4096, 8192)], atRest x z⟩) :
    ∃ w, S.Reachable (initial bytes [(4096, 8192)]) ⟨w, atRest y z⟩ ∧
      SecondRegion [(4096, 8192)] bytes (addr, size) w := by
  have hone : nextIndex N 0 = 1 := if_neg (by omega)
  obtain ⟨u, hu, hl, hh, -⟩ :=
    session_move (w := initial bytes [(4096, 8192)]) hF h rfl ho (by simp) rfl
    rfl (Nat.zero_le _) (show 0 + (entries [[.mmap addr size]]).length < N by
      simp [entries, closed]; omega)
  have hkeep : ∀ l, slotOf l = none → l ≠ .lastPersistedTail → l ≠ .remoteTail →
      l ≠ .lastPersistedHead →
      Untouched (initial bytes [(4096, 8192)]) u l :=
    fun l h₁ h₂ h₃ h₄ => hl.untouched l h₁ h₂ h₃ h₄ rfl
  have hgh : u.cur .globalLocalHead = 0 := (hkeep _ rfl (by decide) (by decide) (by decide)).cur
  have hgt : u.cur .globalLocalTail = 0 := (hkeep _ rfl (by decide) (by decide) (by decide)).cur
  have hun : u.cur .uncommitedNumberOfEntries = 1 :=
    (hkeep _ rfl (by decide) (by decide) (by decide)).cur
  have hrh : Untouched (initial bytes [(4096, 8192)]) u .remoteHead :=
    hkeep _ rfl (by decide) (by decide) (by decide)
  have htail : u.cur .lastPersistedTail = 2 := hl.persistedTail
  have hhead : u.cur .lastPersistedHead = 0 := hh
  have hfirst : u.cur (.entryType 0) = .mmap := (hl.first (.mmap addr size) [] rfl).entryType
  have hclosed : u.cur (.entryType 1) = .commit := hl.closed [.mmap addr size] rfl
  have hrec : ∀ i, ∀ l ∈ recordLocs i, u.per l = (initial bytes [(4096, 8192)]).per l := by
    intro i l hmem
    simp only [recordLocs, List.mem_cons, List.not_mem_nil, or_false] at hmem
    rcases hmem with rfl | rfl | rfl | rfl <;> exact (hkeep _ rfl (by simp) (by simp) (by simp)).per
  rw [update_frontEnd] at hu
  obtain ⟨v, hv, hmk⟩ := mmap_move hB hu rfl hc (by rw [htail, hhead]; decide)
    (by rw [hgh, htail]; exact fun _ => by decide) (by rw [hgh]; exact hfirst) (by rw [hun]; decide)
  have hcur : ∀ l, ¬ Mapped l → l ≠ .globalLocalHead → l ≠ .globalLocalTail → v.cur l = u.cur l :=
    fun l h₁ h₂ h₃ =>
    (hmk.untouched l h₁).cur.trans (takeSlot_cur h₂ h₃)
  refine ⟨v, hv, ?_⟩
  constructor
  case persistedTail => rw [hcur _ (by simp [Mapped, recordLocs]) (by decide) (by decide), htail]
  case persistedHead => rw [hcur _ (by simp [Mapped, recordLocs]) (by decide) (by decide), hhead]
  case localHead =>
    rw [(hmk.untouched _ (by simp [Mapped, recordLocs])).cur, takeSlot_localHead, hgh, hone]
  case localTail =>
    rw [(hmk.untouched _ (by simp [Mapped, recordLocs])).cur, takeSlot_localTail,
      if_pos (by rw [hgh, hgt]), htail]
  case counted => rw [hmk.counted, takeSlot_cur (by decide) (by decide), hun]; rfl
  case closed => rw [hcur _ (by simp [Mapped, recordLocs]) (by simp) (by simp)]; exact hclosed
  case head =>
    exact hrh.trans ((takeSlot_untouched (by decide) (by decide)).trans
      (hmk.untouched _ (by simp [Mapped, recordLocs])))
  case commits => rw [hmk.commits, takeSlot_log, hl.image]; rfl
  case records =>
    intro i l hmem
    have htake : Untouched u (takeSlot N u) l := by
      simp only [recordLocs, List.mem_cons, List.not_mem_nil, or_false] at hmem
      rcases hmem with rfl | rfl | rfl | rfl <;> exact takeSlot_untouched (by simp) (by simp)
    rw [hmk.records i l hmem, htake.per, hrec i l hmem]
  case regions =>
    obtain ⟨ha, hs⟩ := (hl.first (.mmap addr size) [] rfl).mmap
    rw [hmk.regions, takeSlot_log, hl.image, takeSlot_cur (by simp) (by simp),
      takeSlot_cur (by simp) (by simp), hgh]
    exact congrArg _ (congrArg (fun r => [r]) (Prod.ext ha hs))

/-- What is known once the commit after the map entry has been taken too. -/
structure TwoRegions (N : Nat) (w : State) : Prop where
  level : Level 2 w
  counted : w.cur .uncommitedNumberOfEntries = 2
  metadata : w.per .commitMetadata = ⟨2, 2⟩
  head : w.per .remoteHead = (2 : Nat)

theorem SecondRegion.round_move {Phase : Type} {S : System Actor Loc Val Log Phase} {y z : Phase}
    {bytes : Cell → UInt8}
    {region : Nat × Nat} {c₀ : Config Actor Loc Val Log Phase} {w : State}
    (hB : S.Unrestricted .backEnd) (hN : 4 ≤ N)
    (hw : SecondRegion [(4096, 8192)] bytes region w) (h : S.Reaches c₀ ⟨w, atRest y z⟩)
    (hc : Consumes S N z) : ∃ u, S.Reaches c₀ ⟨u, atRest y z⟩ ∧ TwoRegions N u := by
  have htwo : nextIndex N 1 = 2 := if_neg (by omega)
  obtain ⟨u, hu, hround⟩ :=
    Overrun.round_move hB h rfl hc (by rw [hw.persistedTail, hw.persistedHead]; decide)
    (by rw [hw.localHead, hw.localTail]; exact fun h => absurd h (by decide))
    (by rw [hw.localHead]; exact hw.closed)
  refine ⟨u, hu, ⟨?_, ?_, ?_, ?_⟩, ?_, ?_, ?_⟩
  · rw [hround.persistedHead, hw.localHead, htwo]
  · rw [hround.others _ (by simp) (by simp) (by simp) (by simp) (by simp) (by simp),
      hw.persistedTail]
  · rw [hround.localHead, hw.localHead, htwo]
  · rw [hround.localTail, hw.localHead, hw.localTail]
    rfl
  · rw [hround.others _ (by simp) (by simp) (by simp) (by simp) (by simp) (by simp), hw.counted]
    rfl
  · rw [hround.durableMetadata, hw.counted, hw.localHead, htwo]
    rfl
  · rw [hround.durableHead, hw.localHead, htwo]

theorem opens_mmap {admits : State → Label Actor Loc Val Log → Prop} (addr size : Nat) :
    Opens (ringSystem N admits) N () [[.mmap addr size]] (fun _ => 0) () :=
  ⟨[[.mmap addr size]], fun _ => 0, by simp, Prog.bind_ret _⟩

/-- The commit of one map entry is complete: its head is durable too. -/
theorem one_commit_counted :
    ∃ c, (anyRun ringBufferSize).Reachable (initial (fun _ => 0) [(4096, 8192)]) c ∧
    c.world.per .commitMetadata = ⟨2, 2⟩ ∧ c.world.per .remoteHead = (2 : Nat) ∧
    OneCommit ringBufferSize [(4096, 8192)] c.world := by
  obtain ⟨v, hv, h⟩ :=
    exists_secondRegion (N := ringBufferSize) (unrestricted_anyRun .frontEnd).lenient
    (unrestricted_anyRun .backEnd) (by decide) (fun _ => 0) (opens_mmap 16384 4096)
    consumes_anyRun reachable_initial
  obtain ⟨u, hu, hround⟩ :=
    SecondRegion.round_move (unrestricted_anyRun .backEnd) (by decide) h hv consumes_anyRun
  refine ⟨_, hu, hround.metadata, hround.head, ?_⟩
  refine (one_commit ringBufferSize (by decide) (fun _ => 0) [(4096, 8192)] _ hu).mpr (.inl ?_)
  show u.per .remoteHead = (u.per .commitMetadata).ringBufferHead
  rw [hround.head, hround.metadata]

/-- The batch of one map entry is counted while `remote_head` is still before
it. -/
theorem exists_window (hN : 4 ≤ N) (bytes : Cell → UInt8) :
    ∃ c, (anyRun N).Reachable (initial bytes [(4096, 8192)]) c ∧
    c.world.per .commitMetadata = ⟨2, 2⟩ ∧ c.world.per .remoteHead = 0 ∧
    ∃ k n, c.world.log.commits = [⟨⟨2, 2⟩, k, n⟩] := by
  have htwo : nextIndex N 1 = 2 := if_neg (by omega)
  obtain ⟨v, hv, h⟩ :=
    exists_secondRegion (unrestricted_anyRun .frontEnd).lenient (unrestricted_anyRun .backEnd)
    hN bytes (opens_mmap 16384 4096) consumes_anyRun reachable_initial
  obtain ⟨x, p, hx, hm, hr, k, n, hc⟩ :=
    prepare_move (z := ()) (unrestricted_anyRun .backEnd) hv rfl consumes_anyRun
    (by rw [h.persistedTail, h.persistedHead]; decide)
    (by rw [h.localHead, h.localTail]; exact fun h => absurd h (by decide))
    (by rw [h.localHead]; exact h.closed) (by rw [h.head.pending]; rfl)
  refine ⟨_, hx, ?_, ?_, k, n, ?_⟩
  · rw [hm, h.counted, h.localHead, htwo]; rfl
  · rw [hr, h.head.per]; rfl
  · rw [hc, h.counted, h.localHead, htwo, h.commits]; rfl

theorem not_one_commit :
    ¬ ∀ c, (anyRun ringBufferSize).Reachable (initial (fun _ => 0) [(4096, 8192)]) c →
    OneCommit ringBufferSize [(4096, 8192)] c.world := by
  intro h
  obtain ⟨c, hc, hm, hh, k, n, hcom⟩ := exists_window (N := ringBufferSize) (by decide) (fun _ => 0)
  obtain ⟨r, hr, ⟨hhead, hreg⟩, -⟩ := h c hc
  rw [launchMangosteen_globalLocalHead, hh] at hhead
  rw [launchMangosteen_numberOfEntries, hm] at hreg
  rw [hcom] at hr
  rcases List.mem_cons.mp hr with rfl | hr
  · exact absurd hreg (by decide)
  · rw [List.mem_singleton.mp hr] at hhead
    exact absurd hhead (by simp)

section Acknowledged

/-- Some transaction has been logged to its end, and its producer has been told
so. -/
def Acknowledged (w : State) : Prop :=
  ∃ s ∈ w.log.sessions, s.batches ≠ [] ∧ s.start + (entries s.batches).length ≤ w.log.acknowledged

/-- A restart from here is taken for a recovery, as it must once a transaction is
acknowledged. -/
def Recovers (w : State) : Prop := Acknowledged w → newProcess (launchMangosteen w) = false

/-- The consumer has committed durably, with at least one region in the table. -/
def Committed (regions : List (Nat × Nat)) (w : State) : Prop :=
  ∃ r ∈ w.log.commits, w.per .commitMetadata = r.metadata ∧
    (regions ≠ [] ∨ 0 < mmaps (w.log.dequeued.take r.dequeued))

theorem persisted_mem (hi : MetadataInv N regions w) :
    ∃ r ∈ creation :: w.log.commits, w.per .commitMetadata = r.metadata := by
  rcases hi.metadata.per with hm | hm
  · exact ⟨_, latest_mem _, hm⟩
  · exact ⟨_, previous_mem _, hm⟩

theorem newProcess_iff (hi : MetadataInv N regions w) :
    newProcess (launchMangosteen w) = false ↔ Committed regions w := by
  have hcount : ∀ r ∈ w.log.commits, r.metadata.numberOfRegions ≠ 0 ↔
      (regions ≠ [] ∨ 0 < mmaps (w.log.dequeued.take r.dequeued)) := by
    intro r hr
    rw [(hi.counted r hr).regions, ← List.length_pos_iff]
    omega
  rw [newProcess, launchMangosteen_numberOfEntries, beq_eq_false_iff_ne]
  constructor
  · intro hne
    obtain ⟨r, hr, hm⟩ := persisted_mem hi
    rw [hm] at hne
    rcases List.mem_cons.mp hr with rfl | hr
    · exact absurd rfl hne
    · exact ⟨r, hr, hm, (hcount r hr).mp hne⟩
  · rintro ⟨r, hr, hm, hpos⟩
    rw [hm]
    exact (hcount r hr).mpr hpos

/-- An acknowledged transaction leads to recovery exactly when the consumer has
got as far as a durable commit that counts a region. -/
theorem acknowledged_recovers (N : Nat) (hN : 2 ≤ N) (bytes : Cell → UInt8)
    (regions : List (Nat × Nat))
    (c : Config Actor Loc Val Log Unit) (h : (anyRun N).Reachable (initial bytes regions) c) :
    Recovers c.world ↔ (Acknowledged c.world → Committed regions c.world) :=
  imp_congr_right fun _ => newProcess_iff (metadataInv_of_reachable (serves_ringSystem _) hN h)

/-- The first transaction has been acknowledged, and the consumer has committed. -/
theorem acknowledged_recovers_committed :
    ∃ c, (anyRun ringBufferSize).Reachable (initial (fun _ => 0) [(4096, 8192)]) c ∧
    Acknowledged c.world ∧
      Recovers c.world := by
  obtain ⟨u, hu, ht⟩ := transfer_move (N := ringBufferSize) (unrestricted_anyRun .frontEnd).lenient
    (unrestricted_anyRun .backEnd) (by decide) (by decide)
    (level_initial (fun _ => 0) [(4096, 8192)]) reachable_initial (opens_redo 4096) consumes_anyRun
  obtain ⟨r, hr, hm⟩ := ht.recorded
  refine ⟨_, hu, ?_, ?_⟩
  · refine ⟨_, by rw [ht.sessions]; exact List.mem_cons_self, by simp, ?_⟩
    show _ ≤ u.log.acknowledged
    rw [ht.acknowledged, ht.enqueued, List.length_append]
    rfl
  · refine (acknowledged_recovers ringBufferSize (by decide) (fun _ => 0) [(4096, 8192)] _ hu).mpr
      fun _ => ?_
    exact ⟨r, hr, hm.symm, .inl (by simp)⟩

theorem not_acknowledged_recovers :
    ¬ ∀ c, (anyRun ringBufferSize).Reachable (initial (fun _ => 0) [(4096, 8192)]) c →
    Recovers c.world := by
  intro h
  have ho : Opens (anyRun ringBufferSize) ringBufferSize () [[.redo 4096 (fun _ => 1)]]
      (fun _ => 0) () :=
    opens_anyRun (by simp)
  obtain ⟨u, hu, hl, -, hs⟩ := session_move (w := initial (fun _ => 0) [(4096, 8192)])
    (unrestricted_anyRun .frontEnd).lenient
    reachable_initial rfl ho (by simp) rfl rfl (Nat.zero_le _)
    (show 0 + (entries [[.redo 4096 (fun _ => 1)]]).length < ringBufferSize by decide)
  have hm : u.per .commitMetadata = ⟨0, 0⟩ :=
    (hl.untouched .commitMetadata rfl (by decide) (by decide) (by decide) rfl).per
  have hack : Acknowledged u := by
    refine ⟨_, hs ▸ List.mem_cons_self, by simp, ?_⟩
    rw [hl.acknowledged, hl.published, hl.enqueued, List.length_append]
  have hnew := h _ hu hack
  rw [newProcess, launchMangosteen_numberOfEntries, hm] at hnew
  exact absurd hnew (by decide)

end Acknowledged

end Mangosteen.Relaunch
