import Mangosteen.CommitOrder
import Mangosteen.SoloRestart

namespace Mangosteen.RecoveredTable

open PersistentMemory Prog Memory RingBuffer RegionTable BackEnd Session Slots Channel Producer
  Dequeue Consumer Isolation Restart Described CommitOrder Incarnations SoloRestart

/-- The region that an entry adds to the table. -/
def addedRegion : Entry → Option (Nat × Nat)
  | .mmap addr size => some (addr, size)
  | _ => none

/-- The regions of the initial synchronisation and after them those of entries. -/
def tableOf (regions : List (Nat × Nat)) (es : List Entry) : List (Nat × Nat) :=
  regions ++ es.filterMap addedRegion

/-- The table lists the regions of all batches that have been published, and no
others. -/
structure ListsRegions (regions : List (Nat × Nat)) (w : State) : Prop where
  published : w.log.published = w.log.enqueued.length
  number : w.cur .numberOfEntries = (tableOf regions w.log.enqueued).length
  uncommited : w.cur .uncommitedNumberOfEntries = w.cur .numberOfEntries
  records : ∀ i r, (tableOf regions w.log.enqueued)[i]? = some r → IsRecord w.cur i r

/-- The table has as many records as there are regions before the durable head,
where replay will start. -/
def Restorable (regions : List (Nat × Nat)) (w : State) : Prop :=
  w.per .uncommitedNumberOfEntries = (tableOf regions (w.log.enqueued.take (durableHead w))).length

/-- Restarts that are taken for a recovery, of a ring that has not been overrun. -/
def admitsRecovery (N : Nat) (w : State) (label : Label Actor Loc Val Log) : Prop :=
  admitsHead N true w label ∧ (label = .crash → newProcess (launchMangosteen w) = false)

def admitsRestorable (N : Nat) (regions : List (Nat × Nat)) (w : State)
    (label : Label Actor Loc Val Log) : Prop :=
  admitsRecovery N w label ∧ (label = .crash → Restorable regions w)

variable {regions : List (Nat × Nat)}

section Table

variable {ds es : List Entry}

theorem tableOf_mono (h : ds <+: es) : tableOf regions ds <+: tableOf regions es :=
  List.prefix_append_right_inj regions |>.mpr (h.filterMap addedRegion)

theorem tableOf_concat (e : Entry) :
    tableOf regions (ds ++ [e]) = tableOf regions ds ++ (addedRegion e).toList := by
  rw [tableOf, List.filterMap_append, ← List.append_assoc]
  cases h : addedRegion e <;> simp [tableOf, h]

end Table

/-- The entries that `remote_head` has passed. -/
def committedEntries (g : Log) : List Entry := g.dequeued.take g.committed

/-- The entries up to a commit that has been prepared: some that have been taken,
or until the replay is over some that an earlier launch had taken. -/
def Prepared (w : State) (ds : List Entry) : Prop :=
  ds <+: w.log.dequeued ∨ w.cur .semaphore = 0 ∧ ds <+: w.log.enqueued

/-- The number of records at a commit, with `cs` behind the head. -/
def CommitCount (regions : List (Nat × Nat)) (cs : List Entry) (B : List Entry → Prop) (n : Nat) :
    Prop :=
  ∃ ds, cs <+: ds ∧ B ds ∧ n = (tableOf regions ds).length

/-- What a location may hold, with `cs` behind the head: records of the regions
there are final. -/
def Ok (regions : List (Nat × Nat)) (cs : List Entry) (B : List Entry → Prop) :
    (l : Loc) → Val l → Prop
  | .recordAddress i, v => ∀ r, (tableOf regions cs)[i]? = some r → v = r.1
  | .recordSize i, v => ∀ r, (tableOf regions cs)[i]? = some r → v = r.2
  | .recordFileIndex i, v => ∀ r, (tableOf regions cs)[i]? = some r → v = i
  | .recordCommitIndex i, v => ∀ r, (tableOf regions cs)[i]? = some r → v = 1
  | .tableCommitIndex, v => v = 0
  | .commitMetadata, v => v.numberOfRegions = 0 ∨ CommitCount regions cs B v.numberOfRegions
  | _, _ => True

structure TableInv (regions : List (Nat × Nat)) (w : State) : Prop where
  quiet : BackQuiet w
  committed_le : w.log.committed ≤ w.log.dequeued.length
  values : w.Every (Ok regions (committedEntries w.log) (Prepared w))
  asleep : w.cur .semaphore = 0 → w.log.visible = w.log.enqueued.length

def tableProtocol (regions : List (Nat × Nat)) : Protocol Actor Loc Val Log where
  inv := TableInv regions
  rely a u v := match a with
    | .frontEnd => u.cur .semaphore ≠ 0 → v.cur .semaphore ≠ 0
    | .backEnd => Undisturbed (Owned .backEnd) .backEnd u v ∧ v.log.toBackLog = u.log.toBackLog ∧
        v.cur .semaphore = u.cur .semaphore ∧
        (u.cur .semaphore = 0 → v.log.toFrontLog = u.log.toFrontLog)
  live := False
  rely_refl a w := by
    cases a with
    | frontEnd => exact id
    | backEnd => exact ⟨.refl _ _ _, rfl, rfl, fun _ => rfl⟩
  rely_trans a u v w h h' := by
    cases a with
    | frontEnd => exact fun hu => h' (h hu)
    | backEnd =>
        obtain ⟨hu, hb, hs, hf⟩ := h
        obtain ⟨hu', hb', hs', hf'⟩ := h'
        exact ⟨hu.trans hu', hb'.trans hb, hs'.trans hs, fun h => (hf' (hs.trans h)).trans (hf h)⟩

section Inv

variable {cs cs' ds : List Entry} {B B' : List Entry → Prop} {u v w : State}

theorem CommitCount.mono {n : Nat} (h : CommitCount regions cs B n) (hc : cs' <+: cs)
    (hB : ∀ ds, B ds → B' ds) : CommitCount regions cs' B' n := by
  obtain ⟨ds, hcs, hds, hn⟩ := h
  exact ⟨ds, hc.trans hcs, hB ds hds, hn⟩

theorem Ok.mono {l : Loc} {x : Val l} (h : Ok regions cs B l x) (hc : cs' <+: cs)
    (hB : ∀ ds, B ds → B' ds) : Ok regions cs' B' l x := by
  have hget : ∀ {i : Nat} {r : Nat × Nat}, (tableOf regions cs')[i]? = some r →
      (tableOf regions cs)[i]? = some r := by
    intro i r hr
    obtain ⟨ts, hts⟩ : tableOf regions cs' <+: tableOf regions cs := tableOf_mono hc
    rw [← hts, List.getElem?_append_left (List.getElem?_eq_some_iff.mp hr).1]
    exact hr
  cases l with
  | recordAddress | recordSize | recordFileIndex
  | recordCommitIndex => exact fun r hr => h r (hget hr)
  | commitMetadata => exact h.imp id fun hn => hn.mono hc hB
  | _ => exact h

theorem Ok.of_not_owned {l : Loc} (hl : ¬ Owned .backEnd l) (x : Val l) : Ok regions cs B l x := by
  cases l with
  | recordAddress | recordSize | recordFileIndex | recordCommitIndex
  | tableCommitIndex | commitMetadata =>
      exact absurd rfl hl
  | _ => trivial

theorem allows_backEnd (hi : TableInv regions v)
    (hs : u.cur .semaphore ≠ 0 → v.cur .semaphore ≠ 0) :
    (tableProtocol regions).Allows .backEnd u v :=
  Protocol.allows_of_other Actor.eq_frontEnd hi hs

theorem semaphore_of_sessionSide (hf : Frame SessionSide SameBack .frontEnd u v) :
    v.cur .semaphore = u.cur .semaphore :=
  hf.cur .semaphore (by simp [SessionSide, Owned, owner])

theorem allows_frontEnd (hi : TableInv regions u) (hs : u.cur .semaphore ≠ 0)
    (hf : Frame SessionSide SameBack .frontEnd u v) :
    (tableProtocol regions).Allows .frontEnd u v := by
  have hsem := semaphore_of_sessionSide hf
  have hside : Frame FrontSide SameBack .frontEnd u v := hf.of_own fun _ => SessionSide.frontSide
  have hun : ∀ l, Owned .backEnd l → Untouched u v l := fun l hl => hi.quiet.untouched hside hl
  refine Protocol.allows_of_other Actor.eq_backEnd
    ⟨fun l hl => ?_, ?_, ?_, fun h => absurd (hsem.symm.trans h) hs⟩ ?_
  · rw [(hun l hl).pending]; exact hi.quiet l hl
  · rw [hf.log.1]; exact hi.committed_le
  · have hevery := hside.every hi.values fun l hl x => .of_not_owned hl x
    rw [committedEntries, hf.log.1, ← committedEntries]
    refine hevery.mono fun l x hx => hx.mono (List.prefix_refl _) fun ds hds => ?_
    rcases hds with hds | ⟨h0, -⟩
    · exact .inl (by rw [hf.log.1]; exact hds)
    · exact absurd h0 hs
  · exact ⟨hi.quiet.undisturbed hside, hf.log.1, hsem, fun h => absurd h hs⟩

theorem Prepared.congr (h : Prepared u ds) (hd : u.log.dequeued <+: v.log.dequeued)
    (hs : v.cur .semaphore = u.cur .semaphore) (he : v.log.enqueued = u.log.enqueued) :
    Prepared v ds := by
  refine h.imp (fun h => h.trans hd) fun h => ⟨hs.trans h.1, ?_⟩
  rw [he]; exact h.2

theorem committedEntries_of_isPrefix (hi : TableInv regions u)
    (hc : v.log.committed = u.log.committed)
    (hd : u.log.dequeued <+: v.log.dequeued) : committedEntries v.log = committedEntries u.log := by
  obtain ⟨es, hes⟩ := hd
  rw [committedEntries, hc, ← hes, List.take_append_of_le_length hi.committed_le, committedEntries]

theorem TableInv.congr (hi : TableInv regions u) (hq : BackQuiet v)
    (hv : v.Every (Ok regions (committedEntries u.log) (Prepared u)))
    (hs : v.cur .semaphore = u.cur .semaphore)
    (hf : v.log.toFrontLog = u.log.toFrontLog) (hc : v.log.committed = u.log.committed)
    (hd : u.log.dequeued <+: v.log.dequeued) : TableInv regions v := by
  refine ⟨hq, hc ▸ hi.committed_le.trans hd.length_le, ?_, fun h => ?_⟩
  · rw [committedEntries_of_isPrefix hi hc hd]
    refine hv.mono fun l x hx => hx.mono (List.prefix_refl _) fun ds hds => ?_
    exact hds.congr hd hs (by rw [hf])
  · rw [hf]
    exact hi.asleep (hs.symm.trans h)

theorem TableInv.writeBack (hi : TableInv regions w) (l : Loc) : TableInv regions (w.writeBack l) :=
  hi.congr (hi.quiet.writeBack l) (hi.values.writeBack l) rfl rfl rfl (List.prefix_refl _)

theorem TableInv.fence (hi : TableInv regions w) : TableInv regions (w.fence .backEnd) :=
  hi.congr hi.quiet.fence (hi.values.fence _) rfl rfl rfl (List.prefix_refl _)

theorem TableInv.flush (hi : TableInv regions w) (ls : List Loc) :
    TableInv regions (w.flush .backEnd ls) :=
  hi.congr (hi.quiet.flush ls) (hi.values.flush _ ls) rfl rfl rfl (List.prefix_refl _)

theorem TableInv.store {l : Loc} {x : Val l} (hi : TableInv regions w) (hl : l ≠ .semaphore)
    (hx : Ok regions (committedEntries w.log) (Prepared w) l x) {f : Log → Log}
    (hf : (f w.log).toFrontLog = w.log.toFrontLog) (hb : (f w.log).toBackLog = w.log.toBackLog) :
    TableInv regions (w.store l x f) := by
  refine hi.congr hi.quiet (hi.values.store hx f) (World.store_cur_of_ne w _ l f x hl.symm) hf ?_ ?_
  · rw [World.store_log, hb]
  · rw [World.store_log, hb]

end Inv

/-- The back end with the records of `ds` in the table. -/
structure Tabled (regions : List (Nat × Nat)) (ds : List Entry) (w : State) : Prop where
  behind : committedEntries w.log <+: ds
  counted : w.cur .uncommitedNumberOfEntries = (tableOf regions ds).length
  records : ∀ i r, (tableOf regions ds)[i]? = some r → IsRecord w.cur i r
  settled : ∀ i, i < (tableOf regions ds).length → ∀ l ∈ recordLocs i, w.Settled .backEnd l
  number : CommitCount regions (committedEntries w.log) (Prepared w) (w.cur .numberOfEntries)

section Tabled

variable {ds : List Entry} {u v w : State}

theorem Prepared.stable {es : List Entry} (h : Prepared u es)
    (hr : (tableProtocol regions).rely .backEnd u v) : Prepared v es := by
  obtain ⟨-, hb, hs, hf⟩ := hr
  rcases h with h | ⟨h0, h⟩
  · exact .inl (by rw [hb]; exact h)
  · exact .inr ⟨hs.trans h0, by rw [hf h0]; exact h⟩

theorem Tabled.congr (h : Tabled regions ds u)
    (hc : committedEntries v.log = committedEntries u.log)
    (hp : ∀ es, Prepared u es → Prepared v es)
    (hcount : v.cur .uncommitedNumberOfEntries = u.cur .uncommitedNumberOfEntries)
    (hnumber : v.cur .numberOfEntries = u.cur .numberOfEntries)
    (hcur : ∀ i, i < (tableOf regions ds).length → ∀ l ∈ recordLocs i, v.cur l = u.cur l)
    (hset : ∀ i, i < (tableOf regions ds).length → ∀ l ∈ recordLocs i, u.Settled .backEnd l →
      v.Settled .backEnd l) :
    Tabled regions ds v := by
  refine ⟨hc ▸ h.behind, hcount.trans h.counted, fun i r hr => ?_, fun i hi l hl =>
    hset i hi l hl (h.settled i hi l hl), ?_⟩
  · exact (h.records i r hr).congr (hcur i (List.getElem?_eq_some_iff.mp hr).1)
  · rw [hc, hnumber]
    exact h.number.mono (List.prefix_refl _) hp

theorem Tabled.stable (h : Tabled regions ds u) (hr : (tableProtocol regions).rely .backEnd u v) :
    Tabled regions ds v := by
  have hc : committedEntries v.log = committedEntries u.log := by
    rw [committedEntries, hr.2.1, committedEntries]
  refine h.congr hc (fun es hes => hes.stable hr) (hr.1.cur _ rfl) (hr.1.cur _ rfl)
    (fun i _ l hl => ?_) fun i _ l hl => ?_
  · exact hr.1.cur l (owned_record hl)
  · exact hr.1.settled l (owned_record hl)

/-- What the back end touches beside the table. -/
def Apart : Loc → Prop
  | .globalLocalHead | .globalLocalTail | .sequenceNumber | .addressMap | .byte _ | .remoteHead
  | .lastPersistedHead => True
  | _ => False

theorem Ok.of_apart {cs : List Entry} {B : List Entry → Prop} {l : Loc} (hl : Apart l) (x : Val l) :
    Ok regions cs B l x := by
  cases l with
  | recordAddress | recordSize | recordFileIndex | recordCommitIndex
  | tableCommitIndex | commitMetadata =>
      exact hl.elim
  | _ => trivial

theorem not_apart_record {i : Nat} {l : Loc} (hl : l ∈ recordLocs i) : ¬ Apart l := by
  simp only [recordLocs, List.mem_cons, List.not_mem_nil, or_false] at hl
  rcases hl with rfl | rfl | rfl | rfl <;> exact id

theorem TableInv.frame (hi : TableInv regions u) (hf : Frame Apart SameRing .backEnd u v) :
    TableInv regions v := by
  refine hi.congr (hi.quiet.frame hf) (hf.every hi.values fun l hl x => .of_apart hl x)
    (hf.cur _ id) hf.log.1 ?_ ?_
  · rw [hf.log.2]
  · rw [hf.log.2]

theorem Tabled.frame (h : Tabled regions ds u) (hf : Frame Apart SameRing .backEnd u v) :
    Tabled regions ds v := by
  have hc : committedEntries v.log = committedEntries u.log := by
    rw [committedEntries, hf.log.2, committedEntries]
  refine h.congr hc (fun es hes => ?_) (hf.cur _ id) (hf.cur _ id) (fun i _ l hl => ?_)
    fun i _ l hl hs => ?_
  · exact hes.congr (by rw [hf.log.2]) (hf.cur _ id) (by rw [hf.log.1])
  · exact hf.cur l (not_apart_record hl)
  · exact hf.settled (not_apart_record hl) hs

end Tabled

section Rules

variable {α β Phase : Type} {S : System Actor Loc Val Log Phase} {Q : β → State → Prop}
  {ds : List Entry} {w : State}

theorem ensures_apart {p : Code α} {f : α → Code β} (hp : p.Confined Apart SameRing .backEnd)
    (hw : TableInv regions w) (hs : Tabled regions ds w)
    (hf : ∀ x u, TableInv regions u → Tabled regions ds u → u.log.toBackLog = w.log.toBackLog →
      u.cur .commitMetadata = w.cur .commitMetadata →
      Ensures S (tableProtocol regions) .backEnd (f x) Q u) :
    Ensures S (tableProtocol regions) .backEnd (p >>= f) Q w := by
  have hc := Ensures.confined (S := S) (P := tableProtocol regions)
    (A := fun u => Tabled regions ds u ∧ u.log.toBackLog = w.log.toBackLog ∧
      u.cur .commitMetadata = w.cur .commitMetadata)
    hp sameRing_refl False.elim ⟨hs, rfl, rfl⟩ ?_ ?_
  · exact Ensures.bind hw (hc.mono fun x u hu ⟨hs, hl, hm⟩ => hf x u hu hs hl hm)
  · rintro u v ⟨hs, hl, hm⟩ hr _
    exact ⟨hs.stable hr, hr.2.1.trans hl, (hr.1.cur .commitMetadata rfl).trans hm⟩
  · rintro u v hf hu ⟨hs, hl, hm⟩
    refine ⟨allows_backEnd (hu.frame hf) ?_, hs.frame hf, hf.log.2.trans hl,
      (hf.cur .commitMetadata id).trans hm⟩
    rw [hf.cur .semaphore id]
    exact id

theorem confined_remapRegions (n i : Nat) :
    (remapRegions n i).Confined Apart SameRing .backEnd := by
  induction n generalizing i with
  | zero => trivial
  | succ n ih =>
      exact .op trivial fun _ => .op trivial fun _ =>
        .bind (confined_mapFixed trivial sameRing_refl _) fun _ => ih (i + 1)

theorem ensures_recordDequeued {e : Entry} {f : Unit → Code β} (hs : Tabled regions ds w)
    (hf : ∀ u, TableInv regions u → Tabled regions ds u → u.log.dequeued = w.log.dequeued ++ [e] →
      Ensures S (tableProtocol regions) .backEnd (f ()) Q u) :
    Ensures S (tableProtocol regions) .backEnd (recordDequeued e >>= f) Q w := by
  refine Ensures.record fun u hr hu => ?_
  have hs := hs.stable hr
  have hpre : u.log.dequeued <+: u.log.dequeued ++ [e] := List.prefix_append _ _
  have hi := hu.congr (v := { u with log := { u.log with dequeued := u.log.dequeued ++ [e] } })
    hu.quiet hu.values rfl rfl rfl hpre
  refine ⟨allows_backEnd hi id, hf _ hi (hs.congr ?_ (fun es hes => hes.congr hpre rfl rfl) rfl rfl
    (fun _ _ _ _ => rfl) fun _ _ _ _ h => h) ?_⟩
  · exact committedEntries_of_isPrefix hu rfl hpre
  · exact congrArg (·.dequeued ++ [e]) hr.2.1

theorem Tabled.storeRecord (hi : TableInv regions w) (hs : Tabled regions ds w)
    {l : Loc} {x : Val l} (hl : l ∈ recordLocs (tableOf regions ds).length) :
    TableInv regions (w.store l x id) ∧ Tabled regions ds (w.store l x id) := by
  have hother : ∀ i, i < (tableOf regions ds).length → ∀ m ∈ recordLocs i, m ≠ l := by
    intro i hlt m hm hml
    subst hml
    simp only [recordLocs, List.mem_cons, List.not_mem_nil, or_false] at hl hm
    rcases hl with rfl | rfl | rfl | rfl <;> simp at hm <;> omega
  have hnone : (tableOf regions (committedEntries w.log))[(tableOf regions ds).length]? = none :=
    List.getElem?_eq_none (tableOf_mono hs.behind).length_le
  have hok : Ok regions (committedEntries w.log) (Prepared w) l x := by
    simp only [recordLocs, List.mem_cons, List.not_mem_nil, or_false] at hl
    rcases hl with rfl | rfl | rfl | rfl <;> intro r hr <;> rw [hnone] at hr <;> cases hr
  have hne : ∀ m, m ∉ recordLocs (tableOf regions ds).length → (w.store l x id).cur m = w.cur m :=
    fun m hm => World.store_cur_of_ne w m l id x fun h => hm (h ▸ hl)
  have hsem := hne .semaphore (by simp [recordLocs])
  refine ⟨hi.store (fun h => by subst h; simp [recordLocs] at hl) hok rfl rfl,
    hs.congr rfl (fun es hes => hes.congr (List.prefix_refl _) hsem rfl)
    (hne _ (by simp [recordLocs]))
      (hne _ (by simp [recordLocs])) (fun i hlt m hm => ?_) fun i hlt m hm hset => ?_⟩
  · exact World.store_cur_of_ne w m l id x (hother i hlt m hm)
  · exact World.settled_store_of_ne (hother i hlt m hm) hset

theorem Tabled.count (hi : TableInv regions w) (hs : Tabled regions ds w) {addr size : Nat}
    (hrec : IsRecord w.cur (tableOf regions ds).length (addr, size))
    (hset : ∀ l ∈ recordLocs (tableOf regions ds).length, w.Settled .backEnd l) (f : Log → Log)
    (hf : (f w.log).toFrontLog = w.log.toFrontLog) (hb : (f w.log).toBackLog = w.log.toBackLog) :
    TableInv regions (w.store .uncommitedNumberOfEntries ((tableOf regions ds).length + 1) f) ∧
      Tabled regions (ds ++ [.mmap addr size])
        (w.store .uncommitedNumberOfEntries ((tableOf regions ds).length + 1) f) := by
  have hne : ∀ m, m ≠ .uncommitedNumberOfEntries →
      (w.store .uncommitedNumberOfEntries ((tableOf regions ds).length + 1) f).cur m = w.cur m :=
    fun m hm => World.store_cur_of_ne w m _ f _ hm
  have hrecne : ∀ i, ∀ l ∈ recordLocs i, l ≠ .uncommitedNumberOfEntries := by
    intro i l hl h
    subst h
    simp [recordLocs] at hl
  have htable : tableOf regions (ds ++ [.mmap addr size]) = tableOf regions ds ++ [(addr, size)] :=
    tableOf_concat _
  have hc : committedEntries
      (w.store .uncommitedNumberOfEntries ((tableOf regions ds).length + 1) f).log =
      committedEntries w.log := by rw [World.store_log, committedEntries, hb, committedEntries]
  refine ⟨hi.store (l := .uncommitedNumberOfEntries) (by decide) trivial hf hb, ?_, ?_,
    fun i r hr => ?_, fun i hlt l hl => ?_, ?_⟩
  · rw [hc]
    exact hs.behind.trans (List.prefix_append _ _)
  · rw [World.store_cur_self, htable, List.length_append]
    rfl
  · rw [htable] at hr
    rcases Nat.lt_or_ge i (tableOf regions ds).length with hlt | hge
    · rw [List.getElem?_append_left hlt] at hr
      exact (hs.records i r hr).congr fun l hl => hne l (hrecne i l hl)
    · obtain rfl : i = (tableOf regions ds).length := by
        have := (List.getElem?_eq_some_iff.mp hr).1
        simp at this
        omega
      rw [List.getElem?_concat_length] at hr
      obtain rfl := Option.some.inj hr
      exact hrec.congr fun l hl => hne l (hrecne _ l hl)
  · refine World.settled_store_of_ne (hrecne i l hl) ?_
    rw [htable, List.length_append] at hlt
    rcases Nat.lt_succ_iff_lt_or_eq.mp hlt with hlt | rfl
    · exact hs.settled i hlt l hl
    · exact hset l hl
  · rw [hc, hne _ (by decide)]
    refine hs.number.mono (List.prefix_refl _) fun es hes => hes.congr ?_ (hne _ (by decide)) ?_
    · rw [World.store_log, hb]
    · rw [World.store_log, hf]

theorem ensures_addRegionRecord {addr size : Nat} {f : Unit → Code β} (hs : Tabled regions ds w)
    (hf : ∀ u, TableInv regions u → Tabled regions (ds ++ [.mmap addr size]) u →
      u.log.toBackLog = w.log.toBackLog → Ensures S (tableProtocol regions) .backEnd (f ()) Q u) :
    Ensures S (tableProtocol regions) .backEnd
    (regionTableAddRegionRecord addr size >>= f) Q w := by
  simp only [regionTableAddRegionRecord, Prog.bind_assoc]
  refine Ensures.load fun u₁ hr₁ hu₁ => ?_
  have hs := hs.stable hr₁
  rw [hs.counted]
  split
  · simp only [Prog.bind_assoc]
    refine Ensures.load fun u₂ hr₂ hu₂ => ?_
    have hs := hs.stable hr₂
    have hindex : u₂.cur .tableCommitIndex = 0 := (hu₂.values .tableCommitIndex).1
    rw [hindex]
    set m := (tableOf regions ds).length with hm
    refine Ensures.storeAll (J := fun ss v => ∃ done, done ++ ss = recordStores m addr size ∧
      (∀ s ∈ done, v.cur s.1 = s.2) ∧ Tabled regions ds v ∧ v.log.toBackLog = u₂.log.toBackLog) hu₂
      ⟨[], rfl, by simp, hs, rfl⟩ ?_ ?_ ?_
    · rintro ss v x ⟨done, hss, hcur, hs, hl⟩ hr _
      refine ⟨done, hss, fun s hsd => ?_, hs.stable hr, hr.2.1.trans hl⟩
      have hmem : s ∈ recordStores m addr size := hss ▸ List.mem_append_left _ hsd
      rw [hr.1.cur _ (owned_record (mem_recordLocs hmem))]
      exact hcur s hsd
    · rintro s ss v ⟨done, hss, hcur, hs, hl⟩ hv
      have hmem : s ∈ recordStores m addr size := hss ▸ by simp
      obtain ⟨hi, hs⟩ := Tabled.storeRecord hv hs (x := s.2) (mem_recordLocs hmem)
      have hsem : (v.store s.1 s.2 id).cur .semaphore = v.cur .semaphore := by
        refine World.store_cur_of_ne v _ _ _ _ fun h => ?_
        have := mem_recordLocs hmem
        rw [← h] at this
        simp [recordLocs] at this
      refine ⟨allows_backEnd hi (by rw [hsem]; exact id), done ++ [s], by simpa using hss,
        fun t htd => ?_, hs, hl⟩
      by_cases hts : t.1 = s.1
      · have htm : t ∈ recordStores m addr size := by
          rcases List.mem_append.mp htd with htd | htd
          · exact hss ▸ List.mem_append_left _ htd
          · rw [List.mem_singleton.mp htd]; exact hmem
        obtain rfl := recordStores_injective htm hmem hts
        exact World.store_cur_self _ _ _ _
      · rcases List.mem_append.mp htd with htd | htd
        · rw [World.store_cur_of_ne v _ _ _ _ hts]; exact hcur t htd
        · exact absurd (by rw [List.mem_singleton.mp htd]) hts
    · rintro v hv ⟨done, hss, hcur, hs, hl⟩
      rw [List.append_nil] at hss
      rw [hss] at hcur
      have hrec : IsRecord v.cur m (addr, size) := isRecord_of_stores hcur
      refine Ensures.flush fun x hr hx => ⟨allows_backEnd (hx.flush _) id, ?_⟩
      have hrec := hrec.congr fun l hl => hr.1.cur l (owned_record hl)
      have hs :=
        (hs.stable hr).congr (v := x.flush .backEnd (recordLocs m)) rfl (fun _ h => h) rfl rfl
        (fun _ _ _ _ => rfl) fun _ _ _ _ h => World.settled_flush h
      refine Ensures.storeRecord fun y hry hy => ?_
      have hrec := hrec.congr fun l hl => hry.1.cur l (owned_record hl)
      have hset : ∀ l ∈ recordLocs m, y.Settled .backEnd l :=
        fun l hl => hry.1.settled l (owned_record hl) (World.settled_flush_of_mem hl)
      obtain ⟨hi, ht⟩ :=
        (hs.stable hry).count hy hrec hset
        (fun g => { g with regions := g.regions ++ [(addr, size)] })
        rfl rfl
      refine ⟨allows_backEnd hi ?_, hf _ hi ht ?_⟩
      · rw [World.store_cur_of_ne y _ _ _ _ (by decide)]
        exact id
      · exact hry.2.1.trans (hr.2.1.trans (hl.trans (hr₂.2.1.trans hr₁.2.1)))
  · exact Ensures.kernel False.elim fun _ _ _ _ hx => by cases hx

/-- The pair with the number of records is durable. -/
structure Paired (regions : List (Nat × Nat)) (ds : List Entry) (w : State) :
    Prop extends Tabled regions ds w where
  metadata : w.Durable .backEnd .commitMetadata
  paired : (w.cur .commitMetadata).numberOfRegions = (tableOf regions ds).length

/-- So are the records, and `number_of_entries` counts them. -/
structure Committing (regions : List (Nat × Nat)) (ds : List Entry) (w : State) :
    Prop extends Paired regions ds w where
  count : w.cur .numberOfEntries = (tableOf regions ds).length
  durable : ∀ i, i < (tableOf regions ds).length → ∀ l ∈ recordLocs i, w.Durable .backEnd l

theorem Tabled.flush (hs : Tabled regions ds w) (ls : List Loc) :
    Tabled regions ds (w.flush .backEnd ls) :=
  hs.congr rfl (fun _ h => h) rfl rfl (fun _ _ _ _ => rfl) fun _ _ _ _ h => World.settled_flush h

theorem Tabled.fence (hs : Tabled regions ds w) : Tabled regions ds (w.fence .backEnd) :=
  hs.congr rfl (fun _ h => h) rfl rfl (fun _ _ _ _ => rfl) fun _ _ _ _ h =>
  (World.durable_fence h).settled

theorem Tabled.store (hs : Tabled regions ds w) {l : Loc} {x : Val l} {f : Log → Log}
    (hr : ∀ i, l ∉ recordLocs i)
    (hu : l ≠ .uncommitedNumberOfEntries) (hn : l ≠ .numberOfEntries) (hsem : l ≠ .semaphore)
    (hf : (f w.log).toFrontLog = w.log.toFrontLog) (hb : (f w.log).toBackLog = w.log.toBackLog) :
    Tabled regions ds (w.store l x f) := by
  have hne : ∀ m, m ≠ l → (w.store l x f).cur m = w.cur m :=
    fun m hm => World.store_cur_of_ne w m l f x hm
  have hrec : ∀ {i m}, m ∈ recordLocs i → m ≠ l := fun hm h => hr _ (h ▸ hm)
  refine hs.congr ?_ (fun es hes => hes.congr ?_ (hne _ hsem.symm) ?_)
    (hne _ hu.symm) (hne _ hn.symm)
    (fun i _ m hm => hne m (hrec hm)) fun i _ m hm hset => World.settled_store_of_ne (hrec hm) hset
  · rw [World.store_log, committedEntries, hb, committedEntries]
  · rw [World.store_log, hb]
  · rw [World.store_log, hf]

theorem prepared_dequeued (w : State) : Prepared w w.log.dequeued := .inl (List.prefix_refl _)

theorem commitCount_dequeued (w : State) : CommitCount regions (committedEntries w.log) (Prepared w)
    (tableOf regions w.log.dequeued).length :=
  ⟨_, List.take_prefix _ _, prepared_dequeued w, rfl⟩

theorem Tabled.setNumber (hs : Tabled regions ds w) {n : Nat}
    (hn : CommitCount regions (committedEntries w.log) (Prepared w) n) :
    Tabled regions ds (w.store .numberOfEntries n id) := by
  have hne : ∀ m, m ≠ .numberOfEntries → (w.store .numberOfEntries n id).cur m = w.cur m :=
    fun m hm => World.store_cur_of_ne w m _ _ _ hm
  have hrec : ∀ {i m}, m ∈ recordLocs i → m ≠ .numberOfEntries := by
    intro i m hm h
    subst h
    simp [recordLocs] at hm
  refine ⟨hs.behind, (hne _ (by decide)).trans hs.counted, fun i r hr => ?_,
    fun i hi l hl => ?_, ?_⟩
  · exact (hs.records i r hr).congr fun l hl => hne l (hrec hl)
  · exact World.settled_store_of_ne (hrec hl) (hs.settled i hi l hl)
  · rw [World.store_cur_self]
    exact hn.mono (List.prefix_refl _) fun es hes => hes.congr (List.prefix_refl _)
      (hne _ (by decide)) rfl

theorem Paired.stable {u v : State} (hs : Paired regions ds u)
    (hr : (tableProtocol regions).rely .backEnd u v) : Paired regions ds v := by
  refine ⟨hs.toTabled.stable hr, hr.1.durable .commitMetadata rfl hs.metadata, ?_⟩
  rw [hr.1.cur .commitMetadata rfl]
  exact hs.paired

theorem Paired.fence (hs : Paired regions ds w) : Paired regions ds (w.fence .backEnd) :=
  ⟨hs.toTabled.fence, World.durable_fence hs.metadata.settled, hs.paired⟩

theorem ensures_storePair {h : Nat} {f : Unit → Code β} (hs : Tabled regions w.log.dequeued w)
    (hf : ∀ u, TableInv regions u → Paired regions w.log.dequeued u →
      u.log.toBackLog = w.log.toBackLog → Ensures S (tableProtocol regions) .backEnd (f ()) Q u) :
    Ensures S (tableProtocol regions) .backEnd (do
      storeRecord .commitMetadata ⟨(tableOf regions w.log.dequeued).length, h⟩ (fun g => { g with
        commits :=
          ⟨⟨(tableOf regions w.log.dequeued).length, h⟩, g.dequeued.length,
            g.writes.length⟩ :: g.commits })
      flush [.commitMetadata]
      fence
      f ()) Q w := by
  generalize hx : (⟨(tableOf regions w.log.dequeued).length, h⟩ : AtomicPmemCommit) = x
  have hxn : x.numberOfRegions = (tableOf regions w.log.dequeued).length := by rw [← hx]
  refine Ensures.storeRecord fun u hru hu => ?_
  have hs := hs.stable hru
  have hok : Ok regions (committedEntries u.log) (Prepared u) .commitMetadata x := by
    refine .inr ?_
    rw [hxn, ← congrArg BackLog.dequeued hru.2.1]
    exact commitCount_dequeued u
  have hi := hu.store (l := .commitMetadata) (by decide) hok (f := fun g => { g with
    commits := ⟨x, g.dequeued.length, g.writes.length⟩ :: g.commits }) rfl rfl
  have hs := hs.store (l := .commitMetadata) (x := x) (f := fun g => { g with
    commits := ⟨x, g.dequeued.length, g.writes.length⟩ :: g.commits }) (by simp [recordLocs]) (by
      decide) (by decide)
    (by decide) rfl rfl
  refine ⟨allows_backEnd hi (by rw [World.store_cur_of_ne _ _ _ _ _ (by decide)]; exact id), ?_⟩
  refine Ensures.flush fun v hrv hv => ⟨allows_backEnd (hv.flush _) id, ?_⟩
  have hcur : v.cur .commitMetadata = x :=
    (hrv.1.cur .commitMetadata rfl).trans (World.store_cur_self _ _ _ _)
  have hs := (hs.stable hrv).flush [.commitMetadata]
  refine Ensures.fence fun y hry hy => ⟨allows_backEnd hy.fence id, ?_⟩
  refine hf _ hy.fence ⟨(hs.stable hry).fence, ?_, ?_⟩ (hry.2.1.trans (hrv.2.1.trans hru.2.1))
  · exact World.durable_fence
      (hry.1.settled .commitMetadata rfl (World.settled_flush_of_mem (by simp)))
  · rw [World.fence_cur, hry.1.cur .commitMetadata rfl, World.flush_cur, hcur]
    exact hxn

theorem ensures_regionTableCommit {f : Unit → Code β} (hs : Paired regions w.log.dequeued w)
    (hf : ∀ u, TableInv regions u → Committing regions w.log.dequeued u →
      u.log.toBackLog = w.log.toBackLog → Ensures S (tableProtocol regions) .backEnd (f ()) Q u) :
    Ensures S (tableProtocol regions) .backEnd (regionTableCommit >>= f) Q w := by
  simp only [regionTableCommit, Prog.bind_assoc]
  refine Ensures.fence fun u₁ hr₁ hu₁ => ⟨allows_backEnd hu₁.fence id, ?_⟩
  have hs := (hs.stable hr₁).fence
  refine Ensures.load fun u₂ hr₂ hu₂ => ?_
  have hs := hs.stable hr₂
  rw [hs.counted]
  refine Ensures.store fun u₃ hr₃ hu₃ => ?_
  have hs := hs.stable hr₃
  have hl : u₃.log.toBackLog = w.log.toBackLog := hr₃.2.1.trans (hr₂.2.1.trans hr₁.2.1)
  rw [← congrArg BackLog.dequeued hl] at hs hf ⊢
  have hi := hu₃.store (l := .numberOfEntries) (x := (tableOf regions u₃.log.dequeued).length) (by
    decide) trivial (f := id) rfl rfl
  have hmeta : (u₃.store .numberOfEntries (tableOf regions u₃.log.dequeued).length id).Durable
      .backEnd .commitMetadata :=
    (Untouched.store (by decide)).durable hs.metadata
  have hpair : ((u₃.store .numberOfEntries (tableOf regions u₃.log.dequeued).length id).cur
      .commitMetadata).numberOfRegions = (tableOf regions u₃.log.dequeued).length := by
    rw [World.store_cur_of_ne _ _ _ _ _ (by decide)]
    exact hs.paired
  have hs : Paired regions u₃.log.dequeued
      (u₃.store .numberOfEntries (tableOf regions u₃.log.dequeued).length id) :=
    ⟨hs.toTabled.setNumber (commitCount_dequeued u₃), hmeta, hpair⟩
  refine ⟨allows_backEnd hi (by rw [World.store_cur_of_ne _ _ _ _ _ (by decide)]; exact id), ?_⟩
  refine Ensures.flush fun u₄ hr₄ hu₄ => ⟨allows_backEnd (hu₄.flush _) id, ?_⟩
  have hcount : u₄.cur .numberOfEntries = (tableOf regions u₃.log.dequeued).length :=
    (hr₄.1.cur .numberOfEntries rfl).trans (World.store_cur_self _ _ _ _)
  have hs := hs.stable hr₄
  have hs : Paired regions u₃.log.dequeued
      (u₄.flush .backEnd [.numberOfEntries, .uncommitedNumberOfEntries]) :=
    ⟨hs.toTabled.flush _, (Untouched.flush (by simp)).durable hs.metadata, hs.paired⟩
  refine Ensures.fence fun u₅ hr₅ hu₅ => ⟨allows_backEnd hu₅.fence id, ?_⟩
  have hs := hs.stable hr₅
  refine hf _ hu₅.fence ⟨hs.fence, ?_, fun i hi l hl => World.durable_fence (hs.settled i hi l hl)⟩
    ?_
  · rw [World.fence_cur, hr₅.1.cur .numberOfEntries rfl, World.flush_cur]
    exact hcount
  · exact (hr₅.2.1.trans hr₄.2.1).trans hl

theorem ensures_prepareCommit {f : Unit → Code β} (hs : Tabled regions w.log.dequeued w)
    (hf : ∀ u, TableInv regions u → Committing regions w.log.dequeued u →
      u.log.toBackLog = w.log.toBackLog → Ensures S (tableProtocol regions) .backEnd (f ()) Q u) :
    Ensures S (tableProtocol regions) .backEnd (prepareCommit >>= f) Q w := by
  simp only [prepareCommit, Prog.bind_assoc]
  refine Ensures.load fun u₁ hr₁ hu₁ => ?_
  have hs := hs.stable hr₁
  rw [hs.counted]
  refine Ensures.load fun u₂ hr₂ hu₂ => ?_
  have hs := hs.stable hr₂
  have hl₂ : u₂.log.toBackLog = w.log.toBackLog := hr₂.2.1.trans hr₁.2.1
  rw [← congrArg BackLog.dequeued hl₂] at hs hf ⊢
  refine ensures_storePair (f := fun _ => regionTableCommit >>= fun _ => fence >>= f) hs
    fun u₃ hu₃ hs hl₃ => ?_
  rw [← congrArg BackLog.dequeued hl₃] at hs hf
  refine ensures_regionTableCommit hs fun u₄ hu₄ hs hl₄ => ?_
  refine Ensures.fence fun u₅ hr₅ hu₅ => ⟨allows_backEnd hu₅.fence id, ?_⟩
  have hdur :=
    fun i hi l hl => World.durable_fence
    (hr₅.1.durable l (owned_record hl) (hs.durable i hi l hl)).settled
  refine hf _ hu₅.fence ⟨(hs.toPaired.stable hr₅).fence, ?_, hdur⟩ ?_
  · rw [World.fence_cur, hr₅.1.cur .numberOfEntries rfl]
    exact hs.count
  · exact hr₅.2.1.trans (hl₄.trans (hl₃.trans hl₂))

theorem Ok.of_length_le {cs : List Entry} {B : List Entry → Prop} {i : Nat}
    (hi : (tableOf regions cs).length ≤ i)
    {l : Loc} (hl : l ∈ recordLocs i) (x : Val l) : Ok regions cs B l x := by
  have hnone : (tableOf regions cs)[i]? = none := List.getElem?_eq_none hi
  simp only [recordLocs, List.mem_cons, List.not_mem_nil, or_false] at hl
  rcases hl with rfl | rfl | rfl | rfl <;> intro r hr <;> rw [hnone] at hr <;> cases hr

theorem Committing.every {B : List Entry → Prop} (hi : TableInv regions w)
    (hs : Committing regions ds w) (hB : B ds) : w.Every (Ok regions ds B) := by
  have hcopies : ∀ {l : Loc} {P : Val l → Prop}, Owned .backEnd l →
      w.Durable .backEnd l → P (w.cur l) →
      P (w.cur l) ∧ P (w.per l) ∧ ∀ a x, w.pending a l = some x → P x := by
    intro l P ho hd hP
    refine ⟨hP, hd.2 ▸ hP, fun a x hx => ?_⟩
    cases a with
    | frontEnd => rw [hi.quiet l ho] at hx; cases hx
    | backEnd => rw [hd.1] at hx; cases hx
  have hrec : ∀ i l, l ∈ recordLocs i →
      (i < (tableOf regions ds).length → Ok regions ds B l (w.cur l)) →
      Ok regions ds B l (w.cur l) ∧ Ok regions ds B l (w.per l) ∧ ∀ a x, w.pending a l = some x →
      Ok regions ds B l x := by
    intro i l hl hok
    rcases Nat.lt_or_ge i (tableOf regions ds).length with hlt | hge
    · exact hcopies (owned_record hl) (hs.durable i hlt l hl) (hok hlt)
    · exact ⟨.of_length_le hge hl _, .of_length_le hge hl _, fun _ _ _ => .of_length_le hge hl _⟩
  intro l
  cases l with
  | recordAddress i =>
    exact hrec i _ (by simp [recordLocs]) fun _ r hr => (hs.records i r hr).address
  | recordSize i => exact hrec i _ (by simp [recordLocs]) fun _ r hr => (hs.records i r hr).size
  | recordFileIndex i =>
    exact hrec i _ (by simp [recordLocs]) fun _ r hr => (hs.records i r hr).fileIndex
  | recordCommitIndex i =>
    exact hrec i _ (by simp [recordLocs]) fun _ r hr => (hs.records i r hr).commitIndex
  | tableCommitIndex => exact hi.values .tableCommitIndex
  | commitMetadata =>
      exact hcopies (P := Ok regions ds B .commitMetadata) rfl hs.metadata
        (.inr ⟨ds, List.prefix_refl _, hB, hs.paired⟩)
  | _ => exact ⟨trivial, trivial, fun _ _ _ => trivial⟩

theorem Committing.storeHead (n : Nat) (hi : TableInv regions w)
    (hs : Committing regions w.log.dequeued w) : TableInv regions (w.store .remoteHead n
        (fun g => { g with committed := g.dequeued.length, committedBefore := g.committed })) ∧
      Tabled regions w.log.dequeued (w.store .remoteHead n
        (fun g => { g with committed := g.dequeued.length, committedBefore := g.committed })) := by
  have hall := hs.every hi (prepared_dequeued w)
  generalize hv : w.store .remoteHead n _ = v
  have hcur : ∀ l, l ≠ .remoteHead → v.cur l = w.cur l := fun l hl => by
    rw [← hv]; exact World.store_cur_of_ne w l _ _ _ hl
  have hlog : v.log =
      { w.log with committed := w.log.dequeued.length, committedBefore := w.log.committed } := by
    rw [← hv]; rfl
  have hc : committedEntries v.log = w.log.dequeued := by
    rw [hlog]; exact List.take_length
  have hprep : ∀ es, Prepared w es → Prepared v es := fun es hes =>
    hes.congr (by rw [hlog]) (hcur _ (by decide)) (by rw [hlog])
  have hrec : ∀ i, ∀ l ∈ recordLocs i, l ≠ .remoteHead := by
    intro i l hl h
    subst h
    simp [recordLocs] at hl
  refine ⟨⟨?_, ?_, ?_, fun h => ?_⟩, ?_, ?_, fun i r hr => ?_, fun i hlt l hl => ?_, ?_⟩
  · rw [← hv]; exact hi.quiet
  · rw [hlog]
  · rw [hc, ← hv]
    refine World.Every.store ?_ trivial _
    rw [hv]
    exact hall.mono fun l x hx => hx.mono (List.prefix_refl _) hprep
  · rw [hcur _ (by decide)] at h
    rw [hlog]
    exact hi.asleep h
  · rw [hc]
  · rw [hcur _ (by decide)]; exact hs.counted
  · exact (hs.records i r hr).congr fun l hl => hcur l (hrec i l hl)
  · rw [← hv]; exact World.settled_store_of_ne (hrec i l hl) (hs.settled i hlt l hl)
  · rw [hc, hcur _ (by decide)]
    exact ⟨_, List.prefix_refl _, hprep _ (prepared_dequeued w), hs.count⟩

theorem ensures_ringBufferCommitDequeuedEntries {f : Unit → Code β}
    (hs : Committing regions w.log.dequeued w)
    (hf : ∀ u, TableInv regions u → Tabled regions u.log.dequeued u →
      Ensures S (tableProtocol regions) .backEnd (f ()) Q u) :
    Ensures S (tableProtocol regions) .backEnd (ringBufferCommitDequeuedEntries >>= f) Q w := by
  simp only [ringBufferCommitDequeuedEntries, Prog.bind_assoc]
  refine Ensures.load fun u hru hu => ?_
  refine Ensures.storeRecord fun v hrv hv => ?_
  have hrv := (tableProtocol regions).rely_trans .backEnd _ _ _ hru hrv
  have hs : Committing regions v.log.dequeued v := by
    rw [congrArg BackLog.dequeued hrv.2.1]
    refine ⟨hs.toPaired.stable hrv, ?_, fun i hi l hl => hrv.1.durable l (owned_record hl)
      (hs.durable i hi l hl)⟩
    rw [hrv.1.cur .numberOfEntries rfl]
    exact hs.count
  obtain ⟨hi, ht⟩ := hs.storeHead (u.cur .globalLocalHead) hv
  refine ⟨allows_backEnd hi (by rw [World.store_cur_of_ne _ _ _ _ _ (by decide)]; exact id), ?_⟩
  have hrest :
      (do
        flush [.remoteHead]; fence; let head ← load .remoteHead; store .lastPersistedHead head :
        Code Unit).Confined
      Apart SameRing .backEnd :=
    .op (by simp [Op.Confined, Apart]) fun _ => .op trivial fun _ => .op trivial fun _ =>
      ⟨⟨trivial, sameRing_refl⟩, fun _ => trivial⟩
  have hdone :=
    ensures_apart (S := S) (f := f) (Q := Q) hrest hi ht fun _ x hx ht hl _ => hf x hx (by
    rw [congrArg BackLog.dequeued hl]; exact ht)
  simpa only [Prog.bind_assoc] using hdone

/-- Between two entries the table has the records of those that have been taken. -/
def Listed (regions : List (Nat × Nat)) (w : State) : Prop := Tabled regions w.log.dequeued w

theorem Listed.stable {u v : State} (hs : Listed regions u)
    (hr : (tableProtocol regions).rely .backEnd u v) : Listed regions v := by
  rw [Listed, congrArg BackLog.dequeued hr.2.1]
  exact Tabled.stable hs hr

theorem Tabled.listed {e : Entry} (hs : Tabled regions ds w) (he : addedRegion e = none)
    (hd : w.log.dequeued = ds ++ [e]) : Listed regions w := by
  have htable : tableOf regions (ds ++ [e]) = tableOf regions ds := by
    rw [tableOf_concat, he, Option.toList_none, List.append_nil]
  rw [Listed, hd]
  refine ⟨hs.behind.trans (List.prefix_append _ _), ?_, ?_, ?_, hs.number⟩
  · rw [htable]; exact hs.counted
  · rw [htable]; exact hs.records
  · rw [htable]; exact hs.settled

theorem ensures_besideTable {e : Entry} {p : Code Unit} (hs : Listed regions w)
    (he : addedRegion e = none) (hp : p.Confined Apart SameRing .backEnd) :
    Ensures S (tableProtocol regions) .backEnd (recordDequeued e >>= fun _ => p)
    (fun _ u => Listed regions u) w := by
  refine ensures_recordDequeued hs fun u hu hs hd => ?_
  rw [← Prog.bind_ret p]
  refine ensures_apart hp hu hs fun _ v hv hs hl _ => Ensures.ret fun x hr _ =>
    Listed.stable (hs.listed he ?_) hr
  rw [congrArg BackLog.dequeued hl]
  exact hd

theorem ensures_handleEntry {held : Nat → Bool} {slot : Nat} {type : EntryType}
    (hs : Listed regions w) :
    Ensures S (tableProtocol regions) .backEnd (handleEntry held slot type)
    (fun _ u => Listed regions u) w := by
  cases type with
  | mmap =>
      refine Ensures.load fun u₁ hr₁ _ => ?_
      have hs := hs.stable hr₁
      refine Ensures.load fun u₂ hr₂ _ => ?_
      have hs := hs.stable hr₂
      refine ensures_recordDequeued hs fun v hv hs hd => ?_
      refine ensures_addRegionRecord hs fun x hx hs hl => ?_
      rw [← hd, ← congrArg BackLog.dequeued hl] at hs
      have hrest : ∀ addr size : Nat,
          (do let index ← createPmemFile; mapFixed ⟨addr, size, .file index⟩ : Code Unit).Confined
          Apart SameRing .backEnd := fun addr size =>
        (confined_createPmemFile (fun _ => trivial) trivial sameRing_refl).bind fun _ =>
          confined_mapFixed trivial sameRing_refl _
      have hdone := ensures_apart (S := S) (f := .ret) (Q := fun _ u => Listed regions u)
        (hrest (u₁.cur (.entryAddr slot)) (u₂.cur (.entrySize slot))) hx hs
        fun _ y hy hs hl _ => Ensures.ret fun z hr _ => Listed.stable (by
          rw [Listed, congrArg BackLog.dequeued hl]; exact hs) hr
      simpa only [Prog.bind_ret] using hdone
  | transientMmap =>
      refine Ensures.load fun u₁ hr₁ _ => ?_
      have hs := hs.stable hr₁
      refine Ensures.load fun u₂ hr₂ _ => ?_
      have hs := hs.stable hr₂
      exact ensures_besideTable hs rfl
        (confined_transientMmap (fun _ => trivial) trivial sameRing_refl _ _)
  | redo =>
      refine Ensures.load fun u₁ hr₁ hu₁ => ?_
      have hs := hs.stable hr₁
      refine Ensures.loads (R := fun _ _ => True) (fun _ _ _ _ => trivial) hu₁
        fun p u₂ _ hr₂ _ => ?_
      exact ensures_besideTable (hs.stable hr₂) rfl
        (confined_applyRedo (fun _ => trivial) sameRing_noteWrite _ _ p)
  | commit =>
      simp only [handleEntry, commitRbBatch_eq, Prog.bind_assoc]
      refine ensures_recordDequeued hs fun u hu hs hd => ?_
      refine ensures_prepareCommit (hs.listed rfl hd) fun v hv hs hl => ?_
      rw [← congrArg BackLog.dequeued hl] at hs
      refine ensures_ringBufferCommitDequeuedEntries hs fun x hx hs => ?_
      rw [← Prog.bind_ret fence]
      refine Ensures.fence fun y hr hy => ⟨allows_backEnd hy.fence id, ?_⟩
      exact Ensures.ret fun z hr' _ => Listed.stable (Tabled.fence (Listed.stable hs hr)) hr'

theorem ensures_processEntry {held : Nat → Bool} (N : Nat) (hw : TableInv regions w)
    (hs : Listed regions w) :
    Ensures S (tableProtocol regions) .backEnd (processEntry N held)
    (fun _ u => Listed regions u) w := by
  rw [processEntry]
  refine ensures_apart (confined_ringBufferDequeue trivial trivial sameRing_refl N) hw hs
    fun slot u hu hs hl _ => ?_
  refine Ensures.load fun v hr _ => ensures_handleEntry (Listed.stable ?_ hr)
  rw [Listed, congrArg BackLog.dequeued hl]
  exact hs

theorem ensures_runConsumer (N : Nat) (hs : Listed regions w) :
    Ensures S (tableProtocol regions) .backEnd (runConsumer N) (fun _ u => Listed regions u) w := by
  rw [runConsumer]
  refine Ensures.load fun u hru _ => ?_
  have hs := hs.stable hru
  refine Ensures.load fun v hrv hv => ?_
  have hs := hs.stable hrv
  split
  · exact Ensures.pure fun x hr _ => hs.stable hr
  · exact ensures_processEntry N hv hs

theorem ensures_startBackEnd (hs : Listed regions w)
    (hne : (w.cur .commitMetadata).numberOfRegions ≠ 0) :
    Ensures S (tableProtocol regions) .backEnd startBackEnd (fun _ u => Listed regions u) w := by
  simp only [startBackEnd, remapBackend, Prog.bind_assoc]
  refine Ensures.load fun u₁ hr₁ hu₁ => ?_
  have hs := hs.stable hr₁
  refine ensures_apart (confined_remapRegions _ 0) hu₁ hs fun _ u₂ hu₂ hs hl hm => ?_
  rw [← congrArg BackLog.dequeued hl] at hs
  have hm : u₂.cur .commitMetadata = w.cur .commitMetadata :=
    hm.trans (hr₁.1.cur .commitMetadata rfl)
  refine Ensures.load fun u₃ hr₃ hu₃ => ?_
  have hs := Listed.stable hs hr₃
  have hm : u₃.cur .commitMetadata = w.cur .commitMetadata :=
    (hr₃.1.cur .commitMetadata rfl).trans hm
  refine Ensures.store fun u₄ hr₄ hu₄ => ?_
  have hs := hs.stable hr₄
  have hm' : u₄.cur .commitMetadata = u₃.cur .commitMetadata := hr₄.1.cur .commitMetadata rfl
  have hn : CommitCount regions (committedEntries u₄.log) (Prepared u₄)
      (u₃.cur .commitMetadata).numberOfRegions := by
    have hok := (hu₄.values .commitMetadata).1
    rw [hm'] at hok
    exact hok.resolve_left (hm ▸ hne)
  have hi := hu₄.store (l := .numberOfEntries) (x := (u₃.cur .commitMetadata).numberOfRegions) (by
    decide) trivial (f := id) rfl rfl
  refine ⟨allows_backEnd hi (by rw [World.store_cur_of_ne _ _ _ _ _ (by decide)]; exact id), ?_⟩
  have hs : Listed regions (u₄.store .numberOfEntries (u₃.cur .commitMetadata).numberOfRegions
      id) := Tabled.setNumber hs hn
  refine Ensures.flush fun u₅ hr₅ hu₅ => ⟨allows_backEnd (hu₅.flush _) id, ?_⟩
  have hs : Listed regions (u₅.flush .backEnd [.numberOfEntries, .uncommitedNumberOfEntries]) :=
    Tabled.flush (hs.stable hr₅) _
  rw [← Prog.bind_ret fence]
  refine Ensures.fence fun u₆ hr₆ hu₆ => ⟨allows_backEnd hu₆.fence id, ?_⟩
  exact Ensures.ret fun v hr _ => Listed.stable (Tabled.fence (hs.stable hr₆)) hr

end Rules

section Relaunch

variable {N : Nat} {I : List SessionRecord → Prop} {w : State} (hr : RingInv N true I w)
include hr

theorem committedEntries_relaunch :
    committedEntries (relaunch w).log = w.log.enqueued.take (durableHead w) ∧
    w.log.enqueued.take (durableHead w) <+: committedEntries w.log := by
  obtain ⟨hdh, -, -⟩ := durableHead_le hr
  refine ⟨?_, ?_⟩
  · rw [committedEntries, relaunch, surviving, List.take_take, Nat.min_self]
  · obtain ⟨es, hes⟩ := hr.history.dequeued
    rw [← hes, List.take_append_of_le_length hdh]
    exact List.take_prefix_take_left hr.counts.base_le

variable (ht : TableInv regions w)
include ht

theorem Prepared.relaunch {ds : List Entry} (h : Prepared w ds) : Prepared (relaunch w) ds := by
  obtain ⟨-, hdt, -⟩ := durableHead_le hr
  have hsem : (Incarnations.relaunch w).cur .semaphore = 0 :=
    relaunch_cur w (by decide) (by decide) (by decide) (by decide) (by decide)
  refine .inr ⟨hsem, List.prefix_take_iff.mpr ?_⟩
  rcases h with h | ⟨h0, h⟩
  · exact ⟨h.trans hr.history.dequeued, h.length_le.trans hdt⟩
  · refine ⟨h, h.length_le.trans ?_⟩
    rw [← ht.asleep h0]
    exact hr.counts.visible_le

theorem ok_relaunch (l : Loc) :
    Ok regions (committedEntries (relaunch w).log) (Prepared (relaunch w)) l (w.per l) := by
  obtain ⟨hc, hpre⟩ := committedEntries_relaunch hr
  rw [hc]
  exact (ht.values l).2.1.mono hpre fun ds hds => hds.relaunch hr ht

theorem tableInv_relaunch : TableInv regions (relaunch w) := by
  obtain ⟨hdh, hdt, htl⟩ := durableHead_le hr
  refine ⟨fun _ _ => rfl, ?_, fun l => ?_, fun _ => ?_⟩
  · simp only [relaunch, surviving, List.length_take]
    omega
  · have hok := ok_relaunch hr ht l
    have hcopies : (relaunch w).cur l = w.per l → (relaunch w).per l = w.per l →
        Ok regions (committedEntries (relaunch w).log) (Prepared (relaunch w)) l
        ((relaunch w).cur l) ∧
        Ok regions (committedEntries (relaunch w).log) (Prepared (relaunch w)) l
        ((relaunch w).per l) ∧ ∀ a x, (relaunch w).pending a l = some x →
          Ok regions (committedEntries (relaunch w).log) (Prepared (relaunch w)) l x := by
      intro hcur hper
      rw [hcur, hper]
      exact ⟨hok, hok, fun _ _ hx => by cases hx⟩
    cases l with
    | recordAddress | recordSize | recordFileIndex | recordCommitIndex
    | tableCommitIndex | commitMetadata =>
        exact hcopies (relaunch_cur w (by simp) (by simp) (by simp) (by simp) (by simp)) rfl
    | _ => exact ⟨trivial, trivial, fun _ _ _ => trivial⟩
  · simp only [relaunch, surviving, List.length_take]
    omega

/-- Where the table has the records that replay will not add again, the next
launch goes on as this one did. -/
theorem listed_relaunch (hnew : newProcess (launchMangosteen w) = false)
    (hres : Restorable regions w) :
    Listed regions (relaunch w) ∧ ((relaunch w).cur .commitMetadata).numberOfRegions ≠ 0 := by
  obtain ⟨hc, -⟩ := committedEntries_relaunch hr
  have hmeta : (relaunch w).cur .commitMetadata = w.per .commitMetadata :=
    relaunch_cur w (by decide) (by decide) (by decide) (by decide) (by decide)
  have hnum : (relaunch w).cur .numberOfEntries = (w.per .commitMetadata).numberOfRegions :=
    launchMangosteen_numberOfEntries w
  have hne : (w.per .commitMetadata).numberOfRegions ≠ 0 := by
    rw [newProcess, launchMangosteen_numberOfEntries] at hnew
    simpa using hnew
  have hok := ok_relaunch hr ht
  rw [hc] at hok
  refine ⟨⟨hc ▸ List.prefix_refl _, ?_, fun i r hi => ⟨?_, ?_, ?_, ?_⟩, fun i _ l hl => ?_, ?_⟩,
    hmeta ▸ hne⟩
  · exact (relaunch_cur w (by decide) (by decide) (by decide) (by decide) (by decide)).trans hres
  · rw [relaunch_cur w (by simp) (by simp) (by simp) (by simp) (by simp)]
    exact hok (.recordAddress i) r hi
  · rw [relaunch_cur w (by simp) (by simp) (by simp) (by simp) (by simp)]
    exact hok (.recordSize i) r hi
  · rw [relaunch_cur w (by simp) (by simp) (by simp) (by simp) (by simp)]
    exact hok (.recordFileIndex i) r hi
  · rw [relaunch_cur w (by simp) (by simp) (by simp) (by simp) (by simp)]
    exact hok (.recordCommitIndex i) r hi
  · refine World.Durable.settled ?_
    simp only [recordLocs, List.mem_cons, List.not_mem_nil, or_false] at hl
    rcases hl with rfl | rfl | rfl | rfl <;>
      exact relaunch_durable w _ (by simp) (by simp) (by simp) (by simp) (by simp)
  · rw [hnum, hc]
    exact (hok .commitMetadata).resolve_left hne

end Relaunch

section Runs

variable {N : Nat} {S : System Actor Loc Val Log Stage} {u v w : State}

/-- The ring and the table. -/
def launchProtocol (N : Nat) (regions : List (Nat × Nat)) : Protocol Actor Loc Val Log :=
  (ringProtocol N true fun _ => True).both (tableProtocol regions)

/-- What each process knows between two of its programs. Until the front end is
woken the log does not grow. -/
def AtStage (N : Nat) (regions : List (Nat × Nat)) : Actor → Stage → State → Prop
  | .frontEnd, _, w => Idle N true w ∧ w.cur .semaphore ≠ 0
  | .backEnd, x, w => Resting N w ∧ Listed regions w ∧ (x ≠ .running → w.cur .semaphore = 0) ∧
      (x = .replayed → w.log.committed = w.log.enqueued.length)

theorem AtStage.stable {a : Actor} {x : Stage} (h : AtStage N regions a x u)
    (hr : (launchProtocol N regions).rely a u v) : AtStage N regions a x v := by
  cases a with
  | frontEnd => exact ⟨h.1.stable hr.1, hr.2 h.2⟩
  | backEnd =>
      obtain ⟨hrest, hlist, hsem, hdone⟩ := h
      obtain ⟨hring, htab⟩ := hr
      refine ⟨hrest.stable hring, hlist.stable htab, fun hx => htab.2.2.1.trans (hsem hx),
        fun hx => ?_⟩
      have h0 : u.cur .semaphore = 0 := hsem (by rw [hx]; decide)
      rw [congrArg BackLog.committed htab.2.1, congrArg FrontLog.enqueued (htab.2.2.2 h0)]
      exact hdone hx

theorem ensures_session (hN : 1 < N)
    (hadm : ∀ w label, S.admits w label → admitsHead N true w label)
    {bs : List (List Entry)} {memory : Nat → UInt8} (hbs : ∀ es ∈ bs, Entry.commit ∉ es)
    (hs : AtStage N regions .frontEnd .running w) : Ensures S (launchProtocol N regions) .frontEnd
      (do session N bs memory; pure Stage.running) (AtStage N regions .frontEnd) w := by
  have hring : Ensures S (ringProtocol N true fun _ => True) .frontEnd
      (do session N bs memory; pure Stage.running) (fun _ u => Idle N true u) w :=
    Enqueue.ensures_session hadm hN hbs hs.1 trivial fun u _ hidle _ => Ensures.pure fun v hr _ =>
    hidle.stable hr
  have htable :=
    Ensures.confined (S := S) (P := tableProtocol regions) (A := fun u => u.cur .semaphore ≠ 0)
    (p := do session N bs memory; pure Stage.running) (w := w)
    ((confined_session_sessionSide bs memory).bind fun _ => trivial) SameBack.refl False.elim hs.2
    (fun u v h hr _ => hr h)
    fun u v hf hu h => ⟨allows_frontEnd hu h hf, by rw [semaphore_of_sessionSide hf]; exact h⟩
  exact (hring.both htable).mono fun _ _ _ h => h

theorem ensures_startFrontEnd (hs : Idle N true w) :
    Ensures S (launchProtocol N regions) .frontEnd startFrontEnd
    (AtStage N regions .frontEnd) w := by
  refine Ensures.await (fun h => h.elim False.elim False.elim) fun u hr _ _ hne => ?_
  exact Ensures.pure fun v hrv _ => AtStage.stable (x := .running) ⟨hs.stable hr.1, hne⟩ hrv

section Semaphore

/-- The work of the back end beside the semaphore. -/
def Unposted (l : Loc) : Prop := l ≠ .semaphore

def AnyLog (_ _ : Log) : Prop := True

theorem unposted_of_aside {l : Loc} (hl : Aside l) : Unposted l := by
  rintro rfl
  exact absurd hl.1 (by decide)

theorem confined_processEntry (N : Nat) (held : Nat → Bool) :
    (processEntry N held).Confined Unposted AnyLog .backEnd := by
  refine ((Consumer.confined_processEntry N held).of_own fun l hl h => ?_).mono fun _ _ _ => trivial
  subst h
  exact hl.elim (by decide) (by decide)

end Semaphore

theorem ensures_bothProcessEntry {held : Nat → Bool} (hN : 1 < N)
    (hw : (launchProtocol N regions).inv w) (hrest : Resting N w)
    (hlist : Listed regions w) : Ensures S (launchProtocol N regions) .backEnd (processEntry N held)
      (fun _ u => (Resting N u ∧ Listed regions u) ∧ u.cur .semaphore = w.cur .semaphore) w := by
  have hring : Ensures S (ringProtocol N true fun _ => True) .backEnd (processEntry N held)
      (fun _ u => Resting N u) w := by
    rw [← Prog.bind_ret (processEntry N held)]
    exact Consumer.ensures_processEntry hN hrest fun u hu hrest => Ensures.ret fun v hr _ =>
      hrest.stable hr
  refine (hring.both (ensures_processEntry N hw.2 hlist)).and_confined
    (confined_processEntry N held) (fun _ => trivial) rfl
    (fun u v hu hr _ => hr.2.2.2.1.trans hu) fun u v hf hu =>
    (hf.cur .semaphore fun h => h rfl).trans hu

theorem ensures_runConsumerStage (hN : 1 < N) (hs : AtStage N regions .backEnd .running w) :
    Ensures S (launchProtocol N regions) .backEnd (do runConsumer N; pure Stage.running)
    (AtStage N regions .backEnd) w := by
  simp only [runConsumer, Prog.bind_assoc]
  refine Ensures.load fun u hru _ => ?_
  have hs := hs.stable hru
  refine Ensures.load fun v hrv hv => ?_
  have hs := hs.stable hrv
  split
  · exact Ensures.pure fun x hr _ => hs.stable hr
  · refine Ensures.bind hv ((ensures_bothProcessEntry hN hv hs.1 hs.2.1).mono fun _ x hx hs => ?_)
    exact Ensures.pure fun y hr _ => AtStage.stable (x := .running)
      ⟨hs.1.1, hs.1.2, fun h => absurd rfl h, fun h => by cases h⟩ hr

/-- A round of the replay: the loop ends when all that is in the ring has been
committed. -/
theorem ensures_replayStage {held : Nat → Bool} (hN : 1 < N)
    (hs : AtStage N regions .backEnd .replaying w) : Ensures S (launchProtocol N regions) .backEnd
      (do let more ← replay N held; pure (if more then Stage.replaying else .replayed))
      (AtStage N regions .backEnd) w := by
  simp only [replay, Prog.bind_assoc]
  refine Ensures.load fun u hru hu => ?_
  have hs := hs.stable hru
  have hhead := hu.1.head.cur
  refine Ensures.load fun v hrv hv => ?_
  have hs := hs.stable hrv
  have hsem : v.cur .semaphore = 0 := hs.2.2.1 (by decide)
  split
  · rename_i heq
    refine Ensures.pure fun x hr _ => AtStage.stable (x := .replayed)
      ⟨hs.1, hs.2.1, fun _ => hsem, fun _ => ?_⟩ hr
    rw [hhead, hv.1.tail.cur, ← congrArg BackLog.committed hrv.2.2.1] at heq
    have hc := hv.1.counts
    have hle := hc.base_le_enqueued
    have hcp : v.log.committed ≤ v.log.published :=
      hc.committed_le.trans (hc.dequeued_le.trans (hc.visible_le.trans hc.tail_le))
    have hroom := hc.room
    have hbase := hc.base_le
    have heq := Cyclic.eq_of_mod_eq hcp (by omega) heq
    have hvis := hv.2.asleep hsem
    have hvp := hc.visible_le.trans hc.tail_le
    omega
  · rw [Prog.bind_assoc]
    refine Ensures.bind hv ((ensures_bothProcessEntry hN hv hs.1 hs.2.1).mono fun _ x hx hs => ?_)
    exact Ensures.pure fun y hr _ => AtStage.stable (x := .replaying)
      ⟨hs.1.1, hs.1.2, fun _ => hs.2.trans hsem, fun h => by cases h⟩ hr

theorem ringInv_semPost (hi : RingInv N true (fun _ => True) w) (n : Nat) :
    RingInv N true (fun _ => True) (w.store .semaphore n id) ∧
    FrontRely N true w (w.store .semaphore n id) := by
  have hne : ∀ l, l ≠ .semaphore → (w.store .semaphore n id).cur l = w.cur l := fun l hl =>
    World.store_cur_of_ne w l _ _ _ hl
  refine ⟨?_, frontRely_of (by decide) (by decide) (by decide) rfl rfl rfl⟩
  refine hi.congr hi.quiet (.store (by decide)) (.store (by decide)) (hne _ (by decide)) ?_ rfl rfl
    (hi.filled.store_of_slotOf rfl)
  rw [hne _ (by decide)]
  exact hi.persistedHead

theorem ensures_semPost (hs : AtStage N regions .backEnd .replayed w) :
    Ensures S (launchProtocol N regions) .backEnd
    (do store .semaphore 1; pure Stage.running) (AtStage N regions .backEnd) w := by
  refine Ensures.store fun u hr hu => ?_
  obtain ⟨hrest, hlist, hsem, hdone⟩ := hs.stable hr
  obtain ⟨hring, htable⟩ := hu
  have hall : u.log.dequeued = u.log.enqueued := by
    refine hring.history.dequeued.eq_of_length_le ?_
    rw [← hdone rfl]
    exact htable.committed_le
  have hne : ∀ l, l ≠ .semaphore → (u.store .semaphore 1 id).cur l = u.cur l := fun l hl =>
    World.store_cur_of_ne u l _ _ _ hl
  have hprep : ∀ ds, Prepared u ds → Prepared (u.store .semaphore 1 id) ds := by
    intro ds hds
    refine .inl ?_
    rcases hds with h | ⟨-, h⟩
    · exact h
    · rw [World.store_log, id, hall]
      exact h
  have hawake : (u.store .semaphore 1 id).cur .semaphore ≠ 0 := by
    rw [World.store_cur_self]
    decide
  obtain ⟨hring', hrely⟩ := ringInv_semPost hring 1
  have htable' : TableInv regions (u.store .semaphore 1 id) := by
    refine ⟨htable.quiet, htable.committed_le, ?_, fun h => absurd h hawake⟩
    refine World.Every.store ?_ trivial _
    exact htable.values.mono fun l x hx => hx.mono (List.prefix_refl _) hprep
  have hlist' : Listed regions (u.store .semaphore 1 id) := by
    have hrec : ∀ {i m}, m ∈ recordLocs i → m ≠ .semaphore := by
      intro i m hm h
      subst h
      simp [recordLocs] at hm
    exact Tabled.congr hlist rfl hprep (hne _ (by decide)) (hne _ (by decide))
      (fun i _ l hl => hne l (hrec hl))
      fun i _ l hl hset => World.settled_store_of_ne (hrec hl) hset
  refine ⟨(Channel.allows_backEnd hring' hrely).both (allows_backEnd htable' fun _ => hawake), ?_⟩
  refine Ensures.pure fun v hr _ => AtStage.stable (x := .running)
    ⟨?_, hlist', fun h => absurd rfl h, fun h => by cases h⟩ hr
  exact ⟨hrest.toCopies.congr (hne _ (by decide)) (hne _ (by decide)) le_rfl,
    (Untouched.store (by decide)).durable hrest.durable⟩

theorem ensures_next (hN : 1 < N) (hadm : ∀ w label, S.admits w label → admitsHead N true w label)
    {admits : State → Label Actor Loc Val Log → Prop} {a : Actor} {x : Stage} {p : Code Stage}
    (hs : AtStage N regions a x w) (hp : (restartSystem N admits).next a x p) :
    Ensures S (launchProtocol N regions) a p (AtStage N regions a) w := by
  cases a with
  | frontEnd =>
      obtain ⟨rfl, bs, memory, hbs, rfl⟩ := hp
      exact ensures_session hN hadm hbs hs
  | backEnd =>
      cases x with
      | replaying =>
          obtain ⟨held, rfl⟩ := hp
          exact ensures_replayStage hN hs
      | replayed =>
          obtain rfl := hp
          exact ensures_semPost hs
      | running =>
          obtain rfl := hp
          exact ensures_runConsumerStage hN hs

theorem ensures_bothStartBackEnd (hw : (launchProtocol N regions).inv w) (hrest : Resting N w)
    (hlist : Listed regions w)
    (hne : (w.cur .commitMetadata).numberOfRegions ≠ 0) (hsem : w.cur .semaphore = 0) :
    Ensures S (launchProtocol N regions) .backEnd (do startBackEnd; pure Stage.replaying)
    (AtStage N regions .backEnd) w := by
  have haside : startBackEnd.Confined Aside SameRing .backEnd := by
    have hremap : ∀ n i, (remapRegions n i).Confined Aside SameRing .backEnd := by
      intro n
      induction n with
      | zero => exact fun _ => trivial
      | succ n ih =>
          exact fun i => .op trivial fun _ => .op trivial fun _ =>
            .bind (confined_mapFixed aside_addressMap sameRing_refl _) fun _ => ih (i + 1)
    refine .bind (.op trivial fun n => hremap n 0) fun _ => .op trivial fun _ =>
      .op ⟨?_, sameRing_refl⟩ fun _ =>
      .op ?_ fun _ => ⟨trivial, fun _ => trivial⟩
    · simp [Aside, Owned, owner]
    · simp [Op.Confined, Aside, Owned, owner]
  have hring : Ensures S (ringProtocol N true fun _ => True) .backEnd startBackEnd
      (fun _ u => Resting N u) w := by
    rw [← Prog.bind_ret startBackEnd]
    exact ensures_aside haside hw.1 hrest fun _ u hu hrest _ _ => Ensures.ret fun v hr _ =>
      hrest.stable hr
  have hunposted : startBackEnd.Confined Unposted AnyLog .backEnd :=
    Prog.Confined.mono (haside.of_own fun _ => unposted_of_aside) fun _ _ _ => trivial
  have hboth :=
    (hring.both (ensures_startBackEnd hlist hne)).and_confined hunposted (fun _ => trivial)
    (A := fun u => u.cur .semaphore = 0) hsem (fun u v hu hr _ => hr.2.2.2.1.trans hu)
    fun u v hf hu => (hf.cur .semaphore fun h => h rfl).trans hu
  refine Ensures.bind hw (hboth.mono fun _ u _ hu => Ensures.pure fun v hr _ =>
    AtStage.stable (x := .replaying) ?_ hr)
  exact ⟨hu.1.1, hu.1.2, fun _ => hu.2, fun h => by cases h⟩

theorem ok_initial (bytes : Cell → UInt8) (B : List Entry → Prop) (l : Loc) :
    Ok regions [] B l ((initial bytes regions).cur l) := by
  have htable : tableOf regions [] = regions := List.append_nil _
  cases l with
  | recordAddress i | recordSize i =>
      intro r hr
      rw [htable] at hr
      simp [initial, initialValue, List.getD_eq_getElem?_getD, hr]
  | recordFileIndex i | recordCommitIndex i => exact fun r _ => rfl
  | tableCommitIndex => rfl
  | commitMetadata => exact .inl rfl
  | _ => trivial

theorem tableInv_firstLaunch (bytes : Cell → UInt8) :
    TableInv regions (firstLaunch bytes regions).world := by
  refine ⟨fun _ _ => rfl, le_rfl, ?_, fun h => ?_⟩
  · have hstart : (initial bytes regions).Every
        (Ok regions [] (Prepared (firstLaunch bytes regions).world)) := by
      refine fun l => ⟨ok_initial bytes _ l, ok_initial bytes _ l, fun a x hx => ?_⟩
      cases hx
    have hok : Ok regions [] (Prepared (firstLaunch bytes regions).world) .semaphore 1 := trivial
    exact hstart.store hok id
  · rw [firstLaunch, World.store_cur_self] at h
    cases h

theorem listed_firstLaunch (bytes : Cell → UInt8) :
    Listed regions (firstLaunch bytes regions).world := by
  have htable : tableOf regions [] = regions := List.append_nil _
  have hcur : ∀ l, l ≠ .semaphore → (firstLaunch bytes regions).world.cur l =
      (initial bytes regions).cur l :=
    fun l hl => World.store_cur_of_ne _ l _ _ _ hl
  have hok : ∀ l, Ok regions [] (fun _ => True) l ((initial bytes regions).cur l) :=
    ok_initial bytes _
  refine ⟨List.nil_prefix, ?_, fun i r hr => ⟨?_, ?_, ?_, ?_⟩, fun i _ l hl => ?_, ?_⟩
  · rw [hcur _ (by decide)]
    exact (congrArg List.length htable).symm
  · rw [hcur _ (by simp)]; exact hok (.recordAddress i) r hr
  · rw [hcur _ (by simp)]; exact hok (.recordSize i) r hr
  · rw [hcur _ (by simp)]; exact hok (.recordFileIndex i) r hr
  · rw [hcur _ (by simp)]; exact hok (.recordCommitIndex i) r hr
  · refine World.settled_store_of_ne ?_ (.inr ⟨rfl, rfl⟩)
    rintro rfl
    simp [recordLocs] at hl
  · rw [hcur _ (by decide)]
    exact ⟨[], List.nil_prefix, .inl List.nil_prefix, (congrArg List.length htable).symm⟩

theorem ensures_of_reaches (hN : 1 < N) (bytes : Cell → UInt8) {c : Config Actor Loc Val Log Stage}
    (hc : (restartSystem N (admitsRestorable N regions)).Reaches (firstLaunch bytes regions) c) :
    (launchProtocol N regions).inv c.world ∧ ∀ a, Ensures
    (restartSystem N (admitsRestorable N regions))
      (launchProtocol N regions) a (c.prog a) (AtStage N regions a) c.world := by
  have hfirst : RingInv N true (fun _ => True) (firstLaunch bytes regions).world :=
    (ringInv_semPost (Delivery.ringInv_initial hN trivial) 1).1
  have hrely : FrontRely N true (initial bytes regions) (firstLaunch bytes regions).world :=
    (ringInv_semPost (Delivery.ringInv_initial hN trivial) 1).2
  refine System.Reaches.ensures hc ⟨hfirst, tableInv_firstLaunch bytes⟩ (fun a => ?_)
    (fun a x p w _ hs hp => ?_) (fun w l hw _ => ?_) fun w hw ha => ?_
  · refine Ensures.ret fun u hr _ => AtStage.stable ?_ hr
    cases a with
    | frontEnd =>
        refine ⟨(Delivery.idle_initial hN).stable hrely, ?_⟩
        rw [firstLaunch, World.store_cur_self]
        decide
    | backEnd =>
        refine ⟨?_, listed_firstLaunch bytes, fun h => absurd rfl h, fun h => by cases h⟩
        exact ⟨Delivery.resting_initial.toCopies.congr (World.store_cur_of_ne _ _ _ _ _ (by decide))
          (World.store_cur_of_ne _ _ _ _ _ (by decide)) le_rfl, ⟨rfl, rfl⟩⟩
  · have hadm : ∀ w label, (restartSystem N (admitsRestorable N regions)).admits w label →
        admitsHead N true w label :=
      fun _ _ h => h.1.1
    exact ensures_next hN hadm hs hp
  · refine ⟨⟨(hw.1.writeBack l).1, hw.2.writeBack l⟩, fun a => ⟨rely_writeBack hw.1 l a, ?_⟩⟩
    cases a with
    | frontEnd => exact id
    | backEnd => exact ⟨Undisturbed.writeBack _ _ w l, rfl, rfl, fun _ => rfl⟩
  · obtain ⟨⟨-, hnew⟩, hres⟩ := ha
    obtain ⟨hring, htable⟩ := hw
    have hi : (launchProtocol N regions).inv (relaunch w) :=
      ⟨ringInv_relaunch hring hN, tableInv_relaunch hring htable⟩
    obtain ⟨hlist, hne⟩ := listed_relaunch hring htable (hnew rfl) (hres rfl)
    refine ⟨hi, fun a => ?_⟩
    cases a with
    | frontEnd => exact ensures_startFrontEnd (idle_relaunch hring)
    | backEnd =>
        refine ensures_bothStartBackEnd hi (resting_relaunch hring) hlist hne ?_
        exact relaunch_cur w (by decide) (by decide) (by decide) (by decide) (by decide)

end Runs

/-- Where every restart finds in the table the records of the entries that it does
not replay, recovery leaves a table of all regions, each listed once. -/
theorem recovered_table (N : Nat) (hN : 2 ≤ N) (bytes : Cell → UInt8) (regions : List (Nat × Nat))
    (c : Config Actor Loc Val Log Stage)
    (hc : (restartSystem N (admitsRestorable N regions)).Reaches (firstLaunch bytes regions) c)
    (hdone : c.prog .backEnd = .ret .replayed) : ListsRegions regions c.world := by
  obtain ⟨hi, he⟩ := ensures_of_reaches hN bytes hc
  have he := he .backEnd
  rw [hdone] at he
  obtain ⟨-, hlist, hsem, hall⟩ :=
    he c.world ((launchProtocol N regions).rely_refl .backEnd c.world) hi
  obtain ⟨hring, htable⟩ := hi
  have hcommitted := hall rfl
  have heq : c.world.log.dequeued = c.world.log.enqueued := by
    refine hring.history.dequeued.eq_of_length_le ?_
    rw [← hcommitted]
    exact htable.committed_le
  have hpub : c.world.log.published = c.world.log.enqueued.length := by
    have hcounts := hring.counts
    have := htable.asleep (hsem (by decide))
    have := hcounts.visible_le.trans hcounts.tail_le
    have := hcounts.published_le
    omega
  have hlist : Tabled regions c.world.log.enqueued c.world := heq ▸ hlist
  have hnumber : c.world.cur .numberOfEntries = (tableOf regions c.world.log.enqueued).length := by
    obtain ⟨ds, hcs, hds, hn⟩ := hlist.number
    rw [committedEntries, hcommitted, heq, List.take_length] at hcs
    have hle : ds <+: c.world.log.enqueued := by
      rcases hds with h | ⟨-, h⟩
      · exact heq ▸ h
      · exact h
    rw [hn, hle.eq_of_length_le hcs.length_le]
  exact ⟨hpub, hnumber, hlist.counted.trans hnumber.symm, hlist.records⟩

section LeftOver

variable {N : Nat}

theorem admitsRecovery_op (w : State) {a : Actor} {o : Op Actor Loc Val Log}
    (h : a = .backEnd ∨ ∀ l busy, o ≠ .await l busy) : admitsRecovery N w (.op a o) := by
  refine ⟨?_, fun hcrash => by cases hcrash⟩
  cases a with
  | backEnd => trivial
  | frontEnd =>
      cases o with
      | await l busy => exact absurd rfl (h.resolve_left (by decide) l busy)
      | _ => trivial

theorem admitsRecovery_crash {w : State} {committed count : Nat}
    (h : LeftOver (committed + 1) count w.per) : admitsRecovery N w .crash := by
  refine ⟨trivial, fun _ => ?_⟩
  rw [newProcess, launchMangosteen_numberOfEntries, h.metadata]
  rfl

/-- A crash right after a commit. -/
theorem recovered_table_leftOver : ∃ c : Config Actor Loc Val Log Stage,
    c.prog .backEnd = .ret .replayed ∧ c.world.log.enqueued = [.commit, .mmap 16384 4096, .commit] ∧
      ListsRegions [(4096, 8192)] c.world := by
  let S := restartSystem ringBufferSize (admitsRestorable ringBufferSize [(4096, 8192)])
  have hF : S.Lenient .frontEnd :=
    fun w o ho => ⟨admitsRecovery_op w (.inr ho), fun hcrash => by cases hcrash⟩
  have hB : S.Unrestricted .backEnd :=
    fun w o => ⟨admitsRecovery_op w (.inl rfl), fun hcrash => by cases hcrash⟩
  have hwb : ∀ u l, S.admits u (.writeBack l) := fun u l =>
    ⟨⟨trivial, fun hcrash => by cases hcrash⟩, fun hcrash => by cases hcrash⟩
  obtain ⟨w, hw, hfirst⟩ :=
    exists_firstCommit (by decide) hF hB (fun _ => 0) [(4096, 8192)] 16384 4096
  obtain ⟨u, hu, hcur, hlog, hleft⟩ := leftOver_move hwb hw hfirst.leftOver
  have hhead : durableHead u = 1 := by
    rw [durableHead, hcur, hleft.head, hfirst.leftOver.head, if_pos rfl, hlog, hfirst.committed]
  have htail : durableTail u = 3 := by
    rw [durableTail, hcur, hleft.tail, hfirst.leftOver.tail, if_pos rfl, hlog, hfirst.published]
  have hres : Restorable [(4096, 8192)] u := by
    rw [Restorable, hleft.counted, hhead, hlog, hfirst.enqueued]
    rfl
  obtain ⟨v, p, hv, hdone, -, henq⟩ :=
    replayed_move (by decide) hB hu ⟨admitsRecovery_crash hleft, fun _ => hres⟩ hleft (by decide)
  rw [htail, hlog, hfirst.enqueued] at henq
  exact ⟨⟨v, p⟩, hdone, henq, recovered_table ringBufferSize (by decide) (fun _ => 0)
    [(4096, 8192)] ⟨v, p⟩ hv hdone⟩

/-- A crash between a map entry and the commit of its batch, before which the line
of the counters is written back. -/
theorem not_recovered_table :
    ¬ ∀ c, (restartSystem ringBufferSize (admitsRecovery ringBufferSize)).Reaches
    (firstLaunch (fun _ => 0) [(4096, 8192)]) c → c.prog .backEnd = .ret .replayed → ListsRegions
    [(4096, 8192)] c.world := by
  intro h
  let S := restartSystem ringBufferSize (admitsRecovery ringBufferSize)
  have hF : S.Lenient .frontEnd := fun w o ho => admitsRecovery_op w (.inr ho)
  have hB : S.Unrestricted .backEnd := fun w o => admitsRecovery_op w (.inl rfl)
  have hwb : ∀ u l, S.admits u (.writeBack l) := fun u l => ⟨trivial, fun hcrash => by cases hcrash⟩
  obtain ⟨w, hw, hfirst⟩ :=
    exists_firstCommit (by decide) hF hB (fun _ => 0) [(4096, 8192)] 16384 4096
  obtain ⟨u, hu, hmk⟩ :=
    Relaunch.mmap_move hB hw rfl (show Overrun.Consumes S ringBufferSize .running from rfl)
    (by rw [hfirst.persistedTail, hfirst.persistedHead]; decide)
    (by rw [hfirst.localHead, hfirst.localTail]; exact fun h => absurd h (by decide))
    (by rw [hfirst.localHead]; exact hfirst.leftOver.first)
    (by rw [hfirst.leftOver.counted]; decide)
  have hkeep : ∀ l, ¬ Relaunch.Mapped l → l ≠ .globalLocalHead →
      l ≠ .globalLocalTail → u.cur l = w.cur l :=
    fun l h₁ h₂ h₃ => (hmk.untouched l h₁).cur.trans (SoloRing.takeSlot_cur h₂ h₃)
  have hleft : LeftOver 1 2 u.cur := by
    constructor
    case counted =>
      rw [hmk.counted, SoloRing.takeSlot_cur (by decide) (by decide), hfirst.leftOver.counted]; rfl
    case head =>
      rw [hkeep _ (by simp [Relaunch.Mapped, RegionTable.recordLocs]) (by decide) (by decide),
        hfirst.leftOver.head]
    case tail =>
      rw [hkeep _ (by simp [Relaunch.Mapped, RegionTable.recordLocs]) (by decide) (by decide),
        hfirst.leftOver.tail]
    case first =>
      rw [hkeep _ (by simp [Relaunch.Mapped, RegionTable.recordLocs]) (by simp) (by simp),
        hfirst.leftOver.first]
    case second =>
      rw [hkeep _ (by simp [Relaunch.Mapped, RegionTable.recordLocs]) (by simp) (by simp),
        hfirst.leftOver.second]
    case metadata =>
      rw [hkeep _ (by simp [Relaunch.Mapped, RegionTable.recordLocs]) (by decide) (by decide),
        hfirst.leftOver.metadata]
      rfl
  obtain ⟨v, hv, -, hlog, hleft⟩ := leftOver_move hwb hu hleft
  obtain ⟨x, p, hx, hdone, hnumber, henq⟩ :=
    replayed_move (by decide) hB hv (admitsRecovery_crash hleft) hleft (by decide)
  have hlist := (h ⟨x, p⟩ hx hdone).number
  -- no run of the three entries has more than one region
  rw [hnumber, henq, hlog, hmk.front, SoloRing.takeSlot_log, hfirst.enqueued] at hlist
  have hle : (tableOf [(4096, 8192)] _).length ≤ _ :=
    (tableOf_mono (List.take_prefix (durableTail v) [.commit, .mmap 16384 4096, .commit])).length_le
  rw [← hlist] at hle
  exact absurd hle (by decide)

end LeftOver

end Mangosteen.RecoveredTable
