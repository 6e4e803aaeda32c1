import Mangosteen.RegionMap

namespace Mangosteen.RebuiltMap

open PersistentMemory Prog Memory RingBuffer RegionTable BackEnd Session Channel Isolation Consumer
  Restart Recovery RegionMap
open RecoveredTable (addedRegion tableOf)
open Image (SameDequeued sameDequeued_refl)

/-- The `memcpy` of the first `n` bytes of a region to its file. -/
def copyBytes (index addr : Nat) : Nat → Code Unit
  | 0 => pure ()
  | n + 1 => do
      copyBytes index addr n
      let ms : List Mapping ← load Loc.addressMap
      let byte : UInt8 ← load (Loc.byte (translate ms (addr + n)))
      store (.byte (.file index n)) byte

/-- One round of the loop of `synchronize_address_space` over the regions that it
replaces: here the file comes before the record. -/
def replaceRegion (r : Nat × Nat) : Code Unit := do
  let index ← createPmemFile
  copyBytes index r.1 r.2
  -- `pmem_persist` of the copy
  flush ((List.range r.2).map fun k => .byte (.file index k))
  fence
  mapFixed ⟨r.1, r.2, .file index⟩
  regionTableAddRegionRecord r.1 r.2

def replaceRegions : List (Nat × Nat) → Code Unit
  | [] => pure ()
  | r :: rs => do
      replaceRegion r
      replaceRegions rs

/-- The initial call, with the regions that `should_replace` picks. -/
def synchronizeAddressSpace (toReplace : List (Nat × Nat)) : Code Unit := do
  replaceRegions toReplace
  regionTableCommit

/-- A first run: the back end replaces its regions, and then consumes whatever the
front end logs. -/
def firstRun (N : Nat) (toReplace : List (Nat × Nat)) : System Actor Loc Val Log Unit where
  next a _ p := match a with
    | .frontEnd => ∃ bs memory, (∀ es ∈ bs, Entry.commit ∉ es) ∧ p = session N bs memory
    | .backEnd => p = runConsumer N
  boot a := match a with
    | .frontEnd => .ret ()
    | .backEnd => synchronizeAddressSpace toReplace
  reboot w := w
  admits _ label := label ≠ .crash

section Synchronize

variable {β Phase : Type} {S : System Actor Loc Val Log Phase} {Q : β → State → Prop}
variable {ds : List Entry} {t rs : List (Nat × Nat)} {ms : List Mapping} {w : State}

theorem confined_copyBytes (index addr n : Nat) :
    (copyBytes index addr n).Confined Outside SameDequeued .backEnd := by
  induction n with
  | zero => trivial
  | succ n ih =>
      exact .bind ih fun _ => .op trivial fun _ => .op trivial fun _ =>
        ⟨⟨trivial, sameDequeued_refl⟩, fun _ => trivial⟩

theorem ensures_replaceRegion {r : Nat × Nat} {f : Unit → Code β} (hs : Kept ds t t.length ms w)
    (hf : ∀ u, BackQuiet u →
      Kept ds (t ++ [r]) (t ++ [r]).length (⟨r.1, r.2, .file t.length⟩ :: ms) u →
      Ensures S mapProtocol .backEnd (f ()) Q u) :
    Ensures S mapProtocol .backEnd (replaceRegion r >>= f) Q w := by
  simp only [replaceRegion, Prog.bind_assoc]
  refine ensures_createPmemFile hs fun u₁ hu₁ hs => ?_
  refine ensures_keeping (confined_copyBytes _ _ _) hu₁ hs fun _ u₂ hu₂ hs => ?_
  have hpersist :
      (do flush ((List.range r.2).map fun k =>
        .byte (.file t.length k)); fence : Code Unit).Confined Outside
      SameDequeued .backEnd := by
    refine .op ?_ fun _ => ⟨trivial, fun _ => trivial⟩
    simp [Op.Confined, Outside]
  rw [← Prog.bind_assoc]
  refine ensures_keeping hpersist hu₂ hs fun _ u₃ hu₃ hs => ?_
  refine ensures_mapFixed hs fun u₄ hu₄ hs => ?_
  refine ensures_addRegionRecord hs fun u₅ hu₅ hs => hf u₅ hu₅ ?_
  simpa using hs

theorem ensures_replaceRegions {f : Unit → Code β} (hw : BackQuiet w)
    (hs : Kept ds t t.length (initialMappings t) w)
    (hf : ∀ u, BackQuiet u → Kept ds (t ++ rs) (t ++ rs).length (initialMappings (t ++ rs)) u →
      Ensures S mapProtocol .backEnd (f ()) Q u) :
    Ensures S mapProtocol .backEnd (replaceRegions rs >>= f) Q w := by
  induction rs generalizing t w with
  | nil =>
      rw [List.append_nil] at hf
      exact hf w hw hs
  | cons r rs ih =>
      rw [replaceRegions, Prog.bind_assoc]
      refine ensures_replaceRegion hs fun u hu hs => ih (t := t ++ [r]) hu ?_ ?_
      · rw [initialMappings_concat]
        exact hs
      · rw [List.append_assoc]
        exact hf

theorem ensures_synchronizeAddressSpace (hw : BackQuiet w) (hs : Kept [] [] 0 [] w) :
    Ensures S mapProtocol .backEnd (synchronizeAddressSpace rs) (fun _ u => Rest rs u) w := by
  refine ensures_replaceRegions (t := []) hw hs fun u _ hs => ?_
  refine (ensures_regionTableCommit hs).mono fun _ v _ ⟨hs, hsaved⟩ => ?_
  have hd : v.log.dequeued = [] := hs.taken
  have htable : tableOf rs [] = rs := List.append_nil rs
  refine ⟨?_, fun _ => ?_, fun hlast => ?_⟩
  · rw [hd, Handled, htable]
    exact hs
  · rw [hd, htable]
    exact hsaved
  · rw [hd] at hlast
    cases hlast

end Synchronize

/-- In every first run, the back end between two entries has the records, the files
and the mappings of the entries that it has taken. -/
theorem rest_of_reachable {N : Nat} {rs : List (Nat × Nat)} {bytes : Cell → UInt8}
    {c : Config Actor Loc Val Log Unit}
    (h : (firstRun N rs).Reachable (initial bytes []) c) (hrest : c.prog .backEnd = .ret ()) :
    Rest rs c.world := by
  have hquiet : BackQuiet (initial bytes []) := fun _ _ => rfl
  have hinit : Kept [] [] 0 [] (initial bytes []) := by
    refine ⟨rfl, rfl, ?_, ?_, rfl, rfl⟩
    · simp
    · simp
  have hall :=
    h.ensures (P := mapProtocol) (Q := fun a _ w => a = .backEnd → Rest rs w) hquiet ?_ ?_ ?_ ?_
  · have hback := hall.2 .backEnd
    rw [hrest] at hback
    exact hback c.world (mapProtocol.rely_refl _ _) hall.1 rfl
  · intro a
    cases a with
    | frontEnd => exact Ensures.ret fun _ _ _ ha => by cases ha
    | backEnd => exact (ensures_synchronizeAddressSpace hquiet hinit).mono fun _ _ _ h _ => h
  · intro a x p w hw hr hp
    cases a with
    | frontEnd =>
        obtain ⟨bs, memory, -, rfl⟩ := hp
        have hc := Ensures.confined (S := firstRun N rs) (P := mapProtocol) (A := fun _ => True)
          (confined_session (N := N) bs memory) SameBack.refl False.elim (w := w) trivial
          (fun _ _ _ _ _ => trivial) fun u v hf hu _ => ⟨allows_frontEnd hu hf, trivial⟩
        exact hc.mono fun _ _ _ _ ha => by cases ha
    | backEnd =>
        obtain rfl := hp
        exact (ensures_runConsumer (hr rfl)).mono fun _ _ _ h _ => h
  · refine fun w l hw _ => ⟨hw.writeBack l, fun a => ?_⟩
    cases a with
    | frontEnd => trivial
    | backEnd => exact ⟨.writeBack _ _ w l, .refl _⟩
  · exact fun w _ hc => absurd rfl hc

section Remap

variable {Phase : Type} {S : System Actor Loc Val Log Phase} {w : State} {t : List (Nat × Nat)}

theorem remapped_congr {mem mem' : (l : Loc) → Val l} {n : Nat}
    (h : ∀ i, i < n → mem' (.recordAddress i) = mem (.recordAddress i) ∧
      mem' (.recordSize i) = mem (.recordSize i)) :
    remapped mem' n = remapped mem n := by
  induction n with
  | zero => rfl
  | succ n ih =>
      obtain ⟨ha, hs⟩ := h n (Nat.lt_succ_self n)
      rw [remapped, remapped, ha, hs, ih fun i hi => h i (Nat.lt_succ_of_lt hi)]

theorem runs_remapRegions (hB : S.Unrestricted .backEnd) (n i : Nat)
    (hmap : w.cur .addressMap = remapped w.cur i) :
    S.Runs .backEnd (remapRegions n i)
    (fun _ u => u.cur .addressMap = remapped w.cur (i + n)) w := by
  induction n generalizing i w with
  | zero => exact System.Runs.pure.mpr hmap
  | succ n ih =>
      simp only [remapRegions, mapFixed, Prog.bind_assoc, System.Runs.load hB.lenient,
        System.Runs.store hB.lenient]
      rw [hmap]
      have hkeep : ∀ k, remapped
          (w.store .addressMap (⟨w.cur (.recordAddress i), w.cur (.recordSize i), .file i⟩ ::
          remapped w.cur i) id).cur k = remapped w.cur k := fun k => remapped_congr fun j _ =>
        ⟨World.store_cur_of_ne w _ _ _ _ (by simp), World.store_cur_of_ne w _ _ _ _ (by simp)⟩
      refine (ih (i + 1) ?_).mono fun _ u hu => ?_
      · rw [World.store_cur_self, hkeep]
        rfl
      · rw [hu, hkeep, Nat.add_assoc, Nat.add_comm 1]

theorem remapped_eq_initialMappings {mem : (l : Loc) → Val l}
    (h : ∀ i r, t[i]? = some r → IsRange mem i r) : remapped mem t.length = initialMappings t := by
  induction t using List.reverseRecOn with
  | nil => rfl
  | append_singleton t r ih =>
      have hlast := h t.length r List.getElem?_concat_length
      have hinit : ∀ i r, t[i]? = some r → IsRange mem i r := by
        intro i q hq
        refine h i q ?_
        rw [List.getElem?_append_left (List.getElem?_eq_some_iff.mp hq).1]
        exact hq
      rw [initialMappings_concat, List.length_append, List.length_singleton, remapped, ih hinit,
        hlast.address, hlast.size]

theorem runs_remapBackend (hB : S.Unrestricted .backEnd) (hmap : w.cur .addressMap = [])
    (hn : w.cur .numberOfEntries = t.length) (hr : ∀ i r, t[i]? = some r → IsRange w.cur i r) :
    S.Runs .backEnd remapBackend (fun _ u => u.cur .addressMap = initialMappings t) w := by
  rw [remapBackend, System.Runs.load hB.lenient, hn]
  refine (runs_remapRegions hB t.length 0 hmap).mono fun _ u hu => ?_
  rw [hu, Nat.zero_add]
  exact remapped_eq_initialMappings hr

end Remap

/-- The fixed mappings of the new address space are those of the old one in their
order, so that every address is sent where it was. -/
structure SameMap (w u : State) : Prop where
  mappings : u.cur .addressMap = w.cur .addressMap
  cells : ∀ addr, translate (u.cur .addressMap) addr = translate (w.cur .addressMap) addr

/-- What `remap_backend` makes of the table that a power failure leaves, and after
the commit of a batch in the next launch. -/
structure Rebuilt (N : Nat) (w : State) : Prop where
  table : ∀ held, (recoverySystem N held).Runs .backEnd remapBackend
    (fun _ u => SameMap w u) (powerFailure w)
  launched : w.log.dequeued ≠ [] → ∀ held,
    (recoverySystem N held).Runs .backEnd remapBackend (fun _ u => SameMap w u) (launchMangosteen w)

/-- Whatever regions a first run creates, a recovery from what it has committed
finds the address map that it had. -/
theorem remap_rebuilds_map (N : Nat) (toReplace : List (Nat × Nat)) (bytes : Cell → UInt8)
    (c : Config Actor Loc Val Log Unit) (h : (firstRun N toReplace).Reachable (initial bytes []) c)
    (hrest : c.prog .backEnd = .ret ()) (hcommit : Committed c.world.log.dequeued)
    (hregions : ∀ e ∈ c.world.log.dequeued, e.entryType ≠ .transientMmap) : Rebuilt N c.world := by
  have hr := rest_of_reachable h hrest
  have hB : ∀ held, (recoverySystem N held).Unrestricted .backEnd := fun _ _ _ => trivial
  have hsaved := hr.saved hcommit
  have hmapped : c.world.cur .addressMap = initialMappings
      (tableOf toReplace c.world.log.dequeued) := by
    rw [Kept.mapped hr.handled]
    exact mapsOf_eq_initialMappings hregions
  have hper : ∀ i r, (tableOf toReplace c.world.log.dequeued)[i]? = some r →
      IsRange c.world.per i r := by
    intro i r hi
    have hlt := (List.getElem?_eq_some_iff.mp hi).1
    exact (Kept.ranges hr.handled i r hi).congr fun l hl => (hsaved.ranges i hlt l hl).2
  have hsame : ∀ u : State, u.cur .addressMap = initialMappings
      (tableOf toReplace c.world.log.dequeued) → SameMap c.world u := by
    intro u hu
    have hmappings : u.cur .addressMap = c.world.cur .addressMap := hu.trans hmapped.symm
    exact ⟨hmappings, fun addr => by rw [hmappings]⟩
  refine ⟨fun held => ?_, fun hne held => ?_⟩
  · have hnumber : (powerFailure c.world).cur .numberOfEntries =
        (tableOf toReplace c.world.log.dequeued).length :=
      hsaved.durable.2.trans hsaved.number
    refine (runs_remapBackend (hB held) rfl hnumber fun i r hi => ?_).mono fun _ u hu => hsame u hu
    exact ⟨(hper i r hi).address, (hper i r hi).size⟩
  · have hpaired := hr.paired (hcommit.resolve_left hne)
    have hnumber : (launchMangosteen c.world).cur .numberOfEntries =
        (tableOf toReplace c.world.log.dequeued).length := by
      rw [launchMangosteen_numberOfEntries, hpaired.durable.2]
      exact hpaired.number
    have hmap : (launchMangosteen c.world).cur .addressMap = [] :=
      launchMangosteen_cur c.world (by decide) (by decide) (by decide) (by decide) (by decide)
    refine (runs_remapBackend (hB held) hmap hnumber fun i r hi => ?_).mono fun _ u hu => hsame u hu
    refine (hper i r hi).congr fun l hl => ?_
    simp only [rangeLocs, List.mem_cons, List.not_mem_nil, or_false] at hl
    rcases hl with rfl | rfl <;>
      exact launchMangosteen_cur c.world (by simp) (by simp) (by simp) (by simp) (by simp)

section Progress

variable {Phase : Type} {S : System Actor Loc Val Log Phase} {u v w : State}

/-- So many regions have been replaced; the ring has not been touched. -/
structure Replaced (n : Nat) (w u : State) : Prop where
  counted : u.cur .uncommitedNumberOfEntries = w.cur .uncommitedNumberOfEntries + n
  others : ∀ l, ¬ Relaunch.Mapped l → l ≠ .numberOfEntries → u.cur l = w.cur l
  log : u.log.toBackLog = w.log.toBackLog

theorem Replaced.trans {m n : Nat} (h : Replaced m u v) (h' : Replaced n v w) :
    Replaced (m + n) u w where
  counted := by rw [h'.counted, h.counted, Nat.add_assoc]
  others l hl hn := (h'.others l hl hn).trans (h.others l hl hn)
  log := h'.log.trans h.log

variable (hB : S.Unrestricted .backEnd)
include hB

theorem runs_copyBytes (index addr n : Nat) : S.Runs .backEnd (copyBytes index addr n)
    (fun _ u => u.log = w.log ∧ ∀ l, (∀ c, l ≠ .byte c) → u.cur l = w.cur l) w := by
  induction n with
  | zero => exact System.Runs.pure.mpr ⟨rfl, fun _ _ => rfl⟩
  | succ n ih =>
      refine System.Runs.bind (ih.mono fun _ u hu => ?_)
      rw [System.Runs.load hB.lenient, System.Runs.load hB.lenient, ← Prog.bind_ret (store _ _),
        System.Runs.store hB.lenient]
      refine System.Runs.pure.mpr ⟨hu.1, fun l hl => ?_⟩
      rw [World.store_cur_of_ne _ _ _ _ _ (hl _)]
      exact hu.2 l hl

theorem runs_replaceRegion (r : Nat × Nat) {m : Nat} (hm : w.cur .uncommitedNumberOfEntries = m)
    (hroom : m < initialTableSize) :
    S.Runs .backEnd (replaceRegion r) (fun _ u => Replaced 1 w u) w := by
  subst hm
  simp only [replaceRegion, Relaunch.runs_createPmemFile hB]
  generalize hv : (truncate (w.cur .sequenceNumber) w).store .sequenceNumber
    (w.cur .sequenceNumber + 1) id = v
  have hcur : ∀ l, (∀ c, l ≠ .byte c) → l ≠ .sequenceNumber → v.cur l = w.cur l := by
    intro l hl hs
    rw [← hv, World.store_cur_of_ne _ _ _ _ _ hs]
    exact (Relaunch.truncate_untouched _ hl).cur
  have hlog : v.log = w.log := by
    rw [← hv]
    rfl
  refine System.Runs.bind ((runs_copyBytes hB _ r.1 r.2).mono fun _ u hu => ?_)
  obtain ⟨hul, huc⟩ := hu
  have hcount : u.cur .uncommitedNumberOfEntries = w.cur .uncommitedNumberOfEntries :=
    (huc _ (by simp)).trans (hcur _ (by simp) (by simp))
  rw [← Prog.bind_ret (regionTableAddRegionRecord _ _)]
  simp only [mapFixed, regionTableAddRegionRecord, Prog.bind_assoc, System.Runs.load hB.lenient,
    System.Runs.flush hB.lenient, System.Runs.fence hB.lenient, System.Runs.store hB.lenient]
  rw [World.store_cur_of_ne _ _ _ _ _ (by decide), World.fence_cur, World.flush_cur,
    hcount, if_pos hroom]
  simp only [Prog.bind_assoc, System.Runs.load hB.lenient, System.Runs.storeAll hB.lenient,
    System.Runs.flush hB.lenient, System.Runs.storeRecord hB.lenient]
  refine System.Runs.pure.mpr ⟨World.store_cur_self _ _ _ _, fun l hl hn => ?_, ?_⟩
  · simp only [Relaunch.Mapped, not_or, not_exists] at hl
    obtain ⟨hne, hs, hm, hr, hb⟩ := hl
    have hrec : l ∉ recordLocs (w.cur .uncommitedNumberOfEntries) := hr _
    simp only [recordLocs, List.mem_cons, List.not_mem_nil, or_false, not_or] at hrec
    obtain ⟨h₁, h₂, h₃, h₄⟩ := hrec
    rw [World.store_cur_of_ne _ _ _ _ _ hne, World.flush_cur,
      stores_cur_of_not_mem _ _ (by simp [h₁, h₂, h₃, h₄]),
      World.store_cur_of_ne _ _ _ _ _ hm, World.fence_cur, World.flush_cur, huc l hb, hcur l hb hs]
  · rw [World.store_log, World.flush_log, stores_log, World.store_log, World.fence_log,
      World.flush_log, id, hul, hlog]

theorem runs_replaceRegions (rs : List (Nat × Nat)) {m : Nat}
    (hm : w.cur .uncommitedNumberOfEntries = m) (hroom : m + rs.length ≤ initialTableSize) :
    S.Runs .backEnd (replaceRegions rs) (fun _ u => Replaced rs.length w u) w := by
  induction rs generalizing w m with
  | nil => exact System.Runs.pure.mpr ⟨rfl, fun _ _ _ => rfl, rfl⟩
  | cons r rs ih =>
      rw [List.length_cons] at hroom
      refine System.Runs.bind ((runs_replaceRegion hB r hm (by omega)).mono fun _ u hu => ?_)
      have hnext : u.cur .uncommitedNumberOfEntries = m + 1 := by rw [hu.counted, hm]
      refine (ih hnext (by omega)).mono fun _ v hv => ?_
      rw [List.length_cons, Nat.add_comm]
      exact hu.trans hv

theorem runs_synchronizeAddressSpace (rs : List (Nat × Nat)) {m : Nat}
    (hm : w.cur .uncommitedNumberOfEntries = m) (hroom : m + rs.length ≤ initialTableSize) :
    S.Runs .backEnd (synchronizeAddressSpace rs) (fun _ u => Replaced rs.length w u) w := by
  refine System.Runs.bind ((runs_replaceRegions hB rs hm hroom).mono fun _ u hu => ?_)
  rw [regionTableCommit, ← Prog.bind_ret fence]
  simp only [Prog.bind_assoc, Prog.ret_bind, System.Runs.load hB.lenient,
    System.Runs.flush hB.lenient, System.Runs.fence hB.lenient, System.Runs.store hB.lenient]
  refine System.Runs.pure.mpr ⟨?_, fun l hl hn => ?_, hu.log⟩
  · rw [World.fence_cur, World.flush_cur, World.store_cur_of_ne _ _ _ _ _ (by decide)]
    exact hu.counted
  · rw [World.fence_cur, World.flush_cur, World.store_cur_of_ne _ _ _ _ _ hn]
    exact hu.others l hl hn

theorem runs_mmap_dequeued {held : Nat → Bool} {slot : Nat}
    (hroom : w.cur .uncommitedNumberOfEntries < initialTableSize) :
    S.Runs .backEnd (handleEntry held slot .mmap) (fun _ u => u.log.dequeued =
      w.log.dequeued ++ [.mmap (w.cur (.entryAddr slot)) (w.cur (.entrySize slot))]) w := by
  rw [← Prog.bind_ret (handleEntry held slot .mmap)]
  simp only [handleEntry, recordDequeued, regionTableCreateMemoryRegion,
    regionTableAddRegionRecord, mapFixed,
    Prog.bind_assoc, Relaunch.runs_createPmemFile hB, System.Runs.load hB.lenient,
    System.Runs.record hB.lenient,
    if_pos hroom, System.Runs.storeAll hB.lenient, System.Runs.flush hB.lenient,
    System.Runs.storeRecord hB.lenient, System.Runs.store hB.lenient]
  exact System.Runs.pure.mpr rfl

end Progress

/-- Two regions that overlap, and the batch that maps a part of the first one
again. -/
def overlapping : List (Nat × Nat) := [(4096, 8192), (8192, 8192)]

theorem exists_overlapping_run :
    ∃ c, (firstRun ringBufferSize overlapping).Reachable (initial (fun _ => 0) []) c ∧
    c.prog .backEnd = .ret () ∧ c.world.log.dequeued = [.mmap 4096 4096, .commit] := by
  let S := firstRun ringBufferSize overlapping
  have hF : S.Unrestricted .frontEnd := fun _ _ => by simp [S, firstRun]
  have hB : S.Unrestricted .backEnd := fun _ _ => by simp [S, firstRun]
  have hzero : nextIndex ringBufferSize 0 = 1 := rfl
  have hconsumes : Overrun.Consumes S ringBufferSize () := Prog.bind_ret _
  have hopens : Overrun.Opens S ringBufferSize () [[.mmap 4096 4096]] (fun _ => 0) () :=
    ⟨_, _, by simp, Prog.bind_ret _⟩
  have hstart : S.Reachable (initial (fun _ => 0) []) ⟨initial (fun _ => 0) [], S.boot⟩ := .refl
  obtain ⟨_, w, hw, hsync⟩ := hstart.resume (a := .backEnd) (Prog.bind_ret _).symm
    (runs_synchronizeAddressSpace hB overlapping rfl (by decide))
  have hring : ∀ l, ¬ Relaunch.Mapped l → l ≠ .numberOfEntries →
      w.cur l = (initial (fun _ => 0) []).cur l := hsync.others
  have hph : w.cur .lastPersistedHead = 0 :=
    hring _ (by simp [Relaunch.Mapped, recordLocs]) (by decide)
  have hpt : w.cur .lastPersistedTail = 0 :=
    hring _ (by simp [Relaunch.Mapped, recordLocs]) (by decide)
  obtain ⟨u, hu, hl, hh, -⟩ :=
    Overrun.session_move hF.lenient hw rfl hopens (by simp) hph hpt le_rfl (by decide)
  have hkeep : ∀ l, Slots.slotOf l = none → l ≠ .lastPersistedTail → l ≠ .remoteTail →
      l ≠ .lastPersistedHead →
      u.cur l = w.cur l := fun l h₁ h₂ h₃ h₄ => hl.others l h₂ h₃ h₄ (by simp [h₁])
  have hgh : u.cur .globalLocalHead = 0 := (hkeep _ rfl (by decide) (by decide) (by decide)).trans
    (hring _ (by simp [Relaunch.Mapped, recordLocs]) (by decide))
  have hgt : u.cur .globalLocalTail = 0 := (hkeep _ rfl (by decide) (by decide) (by decide)).trans
    (hring _ (by simp [Relaunch.Mapped, recordLocs]) (by decide))
  have hcount : u.cur .uncommitedNumberOfEntries = 2 :=
    (hkeep _ rfl (by decide) (by decide) (by decide)).trans hsync.counted
  have htail : u.cur .lastPersistedTail = 2 := hl.persistedTail
  have hslot := hl.first (.mmap 4096 4096) [] rfl
  have hclosed : u.cur (.entryType 1) = .commit := hl.closed [.mmap 4096 4096] rfl
  have htake := SoloBackEnd.take_move (z := ()) hB hu rfl hconsumes (by rw [htail, hh]; decide)
    (by rw [hgh, htail]; exact fun _ => by decide)
  rw [hgh, hslot.entryType] at htake
  have hroom : (SoloRing.takeSlot ringBufferSize u).cur .uncommitedNumberOfEntries <
      initialTableSize := by
    rw [SoloRing.takeSlot_cur (by decide) (by decide), hcount]
    decide
  obtain ⟨_, v, hv, hmk, hd⟩ := htake.resume (Function.update_self _ _ _)
    ((Relaunch.runs_mmap hB hroom).and (runs_mmap_dequeued hB hroom))
  have hcur : ∀ l, ¬ Relaunch.Mapped l → l ≠ .globalLocalHead →
      l ≠ .globalLocalTail → v.cur l = u.cur l :=
    fun l h₁ h₂ h₃ => (hmk.untouched l h₁).cur.trans (SoloRing.takeSlot_cur h₂ h₃)
  have hgh₂ : v.cur .globalLocalHead = 1 := by
    rw [(hmk.untouched _ (by simp [Relaunch.Mapped, recordLocs])).cur,
      SoloRing.takeSlot_localHead, hgh, hzero]
  have hgt₂ : v.cur .globalLocalTail = 2 := by
    rw [(hmk.untouched _ (by simp [Relaunch.Mapped, recordLocs])).cur, SoloRing.takeSlot_localTail,
      if_pos (by rw [hgh, hgt]), htail]
  have htail₂ : v.cur .lastPersistedTail = 2 :=
    (hcur _ (by simp [Relaunch.Mapped, recordLocs]) (by decide) (by decide)).trans htail
  have hhead₂ : v.cur .lastPersistedHead = 0 :=
    (hcur _ (by simp [Relaunch.Mapped, recordLocs]) (by decide) (by decide)).trans hh
  have hclosed₂ : v.cur (.entryType 1) = .commit :=
    (hcur _ (by simp [Relaunch.Mapped, recordLocs]) (by simp) (by simp)).trans hclosed
  obtain ⟨x, hx, hround⟩ :=
    Overrun.round_move (z := ()) hB hv (Function.update_self _ _ _) hconsumes
    (by rw [htail₂, hhead₂]; decide) (by rw [hgh₂, hgt₂]; exact fun h => absurd h (by decide))
    (by rw [hgh₂]; exact hclosed₂)
  refine ⟨_, hx, rfl, ?_⟩
  obtain ⟨ha, hs⟩ := hslot.mmap
  rw [hround.dequeued, hd, SoloRing.takeSlot_log, hl.back, hsync.log,
    SoloRing.takeSlot_cur (by simp) (by simp), SoloRing.takeSlot_cur (by simp) (by simp), ha, hs]
  rfl

/-- The region that was mapped last is found in front of the first. -/
theorem remap_rebuilds_map_overlapping :
    ∃ c, (firstRun ringBufferSize overlapping).Reachable (initial (fun _ => 0) []) c ∧
    c.world.log.dequeued = [.mmap 4096 4096, .commit] ∧ Rebuilt ringBufferSize c.world := by
  obtain ⟨c, hc, hrest, hd⟩ := exists_overlapping_run
  refine ⟨c, hc, hd, remap_rebuilds_map ringBufferSize overlapping (fun _ => 0) c hc hrest ?_ ?_⟩
  · rw [hd]
    exact .inr rfl
  · rw [hd]
    simp [Entry.entryType]

end Mangosteen.RebuiltMap
