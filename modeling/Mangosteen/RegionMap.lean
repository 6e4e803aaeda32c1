import Mangosteen.RecoveredTable
import Mangosteen.Recovery

namespace Mangosteen.RegionMap

open PersistentMemory Prog Memory RingBuffer RegionTable BackEnd Session Channel Dequeue Consumer
  Delivery Isolation Restart Recovery
open RecoveredTable (addedRegion tableOf tableOf_concat)
open Image (SameDequeued sameDequeued_refl)

/-- The fixed mapping that the back end makes for an entry, with so many region
files created before. -/
def mappingOf (files : Nat) : Entry → Option Mapping
  | .mmap addr size => some ⟨addr, size, .file files⟩
  | .transientMmap addr size => some ⟨addr, size, .anonymous⟩
  | .redo _ _ | .commit => none

def entryMappings (files : Nat) : List Entry → List Mapping
  | [] => []
  | e :: es =>
    (mappingOf files e).toList ++ entryMappings (files + (addedRegion e).toList.length) es

/-- The fixed mappings of the initial synchronisation and of entries after it, the
latest first. -/
def mapsOf (regions : List (Nat × Nat)) (es : List Entry) : List Mapping :=
  (entryMappings regions.length es).reverse ++ initialMappings regions

section Lists

variable {regions : List (Nat × Nat)} {ds : List Entry} {e : Entry}

theorem entryMappings_concat (files : Nat) : entryMappings files (ds ++ [e]) =
    entryMappings files ds ++ (mappingOf (files + (ds.filterMap addedRegion).length) e).toList := by
  induction ds generalizing files with
  | nil => simp [entryMappings]
  | cons d ds ih =>
      rw [List.cons_append, entryMappings, ih, entryMappings, List.append_assoc]
      cases h : addedRegion d with
      | none => simp [h]
      | some r => simp [h, Nat.add_assoc, Nat.add_comm 1]

theorem mapsOf_concat :
    mapsOf regions (ds ++ [e]) = (mappingOf (tableOf regions ds).length e).toList ++
    mapsOf regions ds := by
  rw [mapsOf, entryMappings_concat, List.reverse_append, List.append_assoc,
    tableOf, List.length_append]
  cases mappingOf (regions.length + (ds.filterMap addedRegion).length) e <;> rfl

theorem initialMappings_concat (r : Nat × Nat) :
    initialMappings (regions ++ [r]) = ⟨r.1, r.2, .file regions.length⟩ ::
    initialMappings regions := by
  simp [initialMappings, List.mapIdx_append]

/-- Where no entry maps memory of the process itself, every region has the file of
its number. -/
theorem mapsOf_eq_initialMappings (h : ∀ e ∈ ds, e.entryType ≠ .transientMmap) :
    mapsOf regions ds = initialMappings (tableOf regions ds) := by
  induction ds using List.reverseRecOn with
  | nil => simp [mapsOf, entryMappings, tableOf]
  | append_singleton ds e ih =>
      rw [mapsOf_concat, tableOf_concat, ih fun d hd => h d (by simp [hd])]
      cases e with
      | mmap addr size => exact (initialMappings_concat (addr, size)).symm
      | transientMmap addr size => exact absurd rfl (h (.transientMmap addr size) (by simp))
      | redo addr payload => simp [mappingOf, addedRegion]
      | commit => simp [mappingOf, addedRegion]

theorem tableOf_filter : tableOf regions (ds.filter (· ≠ .commit)) = tableOf regions ds := by
  rw [tableOf, List.filterMap_filter, tableOf]
  congr 2
  funext d
  cases d <;> rfl

theorem entryMappings_filter (files : Nat) :
    entryMappings files (ds.filter (· ≠ .commit)) = entryMappings files ds := by
  induction ds generalizing files with
  | nil => rfl
  | cons d ds ih =>
      by_cases hd : d = .commit
      · subst hd
        rw [List.filter_cons_of_neg (by simp), ih]
        rfl
      · rw [List.filter_cons_of_pos (by simpa using hd), entryMappings, entryMappings, ih]

theorem mapsOf_filter : mapsOf regions (ds.filter (· ≠ .commit)) = mapsOf regions ds := by
  rw [mapsOf, mapsOf, entryMappings_filter]

end Lists

/-- Where a record says what is mapped. -/
def rangeLocs (index : Nat) : List Loc := [.recordAddress index, .recordSize index]

structure IsRange (mem : (l : Loc) → Val l) (i : Nat) (r : Nat × Nat) : Prop where
  address : mem (.recordAddress i) = r.1
  size : mem (.recordSize i) = r.2

/-- The back end with so many entries taken, with these records in its table, the
given number of files created and these fixed mappings made. -/
structure Kept (ds : List Entry) (t : List (Nat × Nat)) (files : Nat) (ms : List Mapping)
    (w : State) : Prop where
  taken : w.log.dequeued = ds
  counted : w.cur .uncommitedNumberOfEntries = t.length
  ranges : ∀ i r, t[i]? = some r → IsRange w.cur i r
  settled : ∀ i, i < t.length → ∀ l ∈ rangeLocs i, w.Settled .backEnd l
  files : w.cur .sequenceNumber = files
  mapped : w.cur .addressMap = ms

/-- The table is durable, with as many entries as it has records. -/
structure Saved (t : List (Nat × Nat)) (w : State) : Prop where
  ranges : ∀ i, i < t.length → ∀ l ∈ rangeLocs i, w.Durable .backEnd l
  durable : w.Durable .backEnd .numberOfEntries
  number : w.cur .numberOfEntries = t.length

/-- So is the pair of the commit. -/
structure Paired (t : List (Nat × Nat)) (w : State) : Prop where
  durable : w.Durable .backEnd .commitMetadata
  number : (w.cur .commitMetadata).numberOfRegions = t.length

def mapProtocol : Protocol Actor Loc Val Log where
  inv := BackQuiet
  rely := SideRely
  live := False
  rely_refl := SideRely.refl
  rely_trans := SideRely.trans

/-- What the back end touches beside its table and its mappings. -/
def Outside : Loc → Prop
  | .uncommitedNumberOfEntries | .sequenceNumber | .addressMap | .recordAddress _
  | .recordSize _ | .numberOfEntries
  | .commitMetadata => False
  | _ => True

section Assertions

variable {ds : List Entry} {t : List (Nat × Nat)} {n : Nat} {ms : List Mapping} {u v w : State}

theorem allows_backEnd (h : BackQuiet v) : mapProtocol.Allows .backEnd u v :=
  Protocol.allows_of_other Actor.eq_frontEnd h trivial

theorem allows_frontEnd (h : BackQuiet u) (hf : Frame FrontSide SameBack .frontEnd u v) :
    mapProtocol.Allows .frontEnd u v := by
  refine Protocol.allows_of_other Actor.eq_backEnd (fun l hl => ?_) ⟨h.undisturbed hf, hf.log⟩
  rw [(h.untouched hf hl).pending]
  exact h l hl

theorem owned_range {i : Nat} {l : Loc} (hl : l ∈ rangeLocs i) : Owned .backEnd l := by
  simp only [rangeLocs, List.mem_cons, List.not_mem_nil, or_false] at hl
  rcases hl with rfl | rfl <;> rfl

theorem not_outside_range {i : Nat} {l : Loc} (hl : l ∈ rangeLocs i) : ¬ Outside l := by
  simp only [rangeLocs, List.mem_cons, List.not_mem_nil, or_false] at hl
  rcases hl with rfl | rfl <;> exact id

theorem IsRange.congr {mem mem' : (l : Loc) → Val l} {i : Nat} {r : Nat × Nat} (h : IsRange mem i r)
    (hl : ∀ l ∈ rangeLocs i, mem' l = mem l) : IsRange mem' i r :=
  ⟨(hl _ (by simp [rangeLocs])).trans h.address, (hl _ (by simp [rangeLocs])).trans h.size⟩

theorem IsRange.store {l : Loc} {x : Val l} {f : Log → Log} {i : Nat} {r : Nat × Nat}
    (h : IsRange w.cur i r) (hl : l ∉ rangeLocs i) : IsRange (w.store l x f).cur i r :=
  h.congr fun _ hm => World.store_cur_of_ne w _ _ _ _ fun he => hl (he ▸ hm)

theorem settled_range_store {l : Loc} {x : Val l} {f : Log → Log} {i : Nat}
    (hl : l ∉ rangeLocs i) {m : Loc}
    (hm : m ∈ rangeLocs i) (hs : w.Settled .backEnd m) : (w.store l x f).Settled .backEnd m :=
  World.settled_store_of_ne (fun he => hl (he ▸ hm)) hs

theorem Kept.congr (h : Kept ds t n ms u) (hd : v.log.dequeued = u.log.dequeued)
    (hc : v.cur .uncommitedNumberOfEntries = u.cur .uncommitedNumberOfEntries)
    (hs : v.cur .sequenceNumber = u.cur .sequenceNumber)
    (hm : v.cur .addressMap = u.cur .addressMap)
    (hcur : ∀ i, i < t.length → ∀ l ∈ rangeLocs i, v.cur l = u.cur l)
    (hset : ∀ i, i < t.length → ∀ l ∈ rangeLocs i, u.Settled .backEnd l → v.Settled .backEnd l) :
    Kept ds t n ms v where
  taken := hd.trans h.taken
  counted := hc.trans h.counted
  ranges i r hr := (h.ranges i r hr).congr (hcur i (List.getElem?_eq_some_iff.mp hr).1)
  settled i hi l hl := hset i hi l hl (h.settled i hi l hl)
  files := hs.trans h.files
  mapped := hm.trans h.mapped

theorem Kept.stable (h : Kept ds t n ms u) (hr : mapProtocol.rely .backEnd u v) :
    Kept ds t n ms v := by
  obtain ⟨hu, hl⟩ := hr
  refine h.congr (congrArg BackLog.dequeued hl.1) (hu.cur _ rfl) (hu.cur _ rfl)
    (hu.cur _ rfl) (fun i _ l hl => ?_) fun i _ l hl => ?_
  · exact hu.cur l (owned_range hl)
  · exact hu.settled l (owned_range hl)

theorem Kept.frame (h : Kept ds t n ms u) (hf : Frame Outside SameDequeued .backEnd u v) :
    Kept ds t n ms v := by
  refine h.congr hf.log (hf.cur _ id) (hf.cur _ id) (hf.cur _ id) (fun i _ l hl => ?_)
    fun i _ l hl hs => ?_
  · exact hf.cur l (not_outside_range hl)
  · exact hf.settled (not_outside_range hl) hs

theorem Kept.flush (h : Kept ds t n ms w) (ls : List Loc) : Kept ds t n ms (w.flush .backEnd ls) :=
  h.congr rfl rfl rfl rfl (fun _ _ _ _ => rfl) fun _ _ _ _ hs => World.settled_flush hs

theorem Kept.fence (h : Kept ds t n ms w) : Kept ds t n ms (w.fence .backEnd) :=
  h.congr rfl rfl rfl rfl (fun _ _ _ _ => rfl) fun _ _ _ _ hs => (World.durable_fence hs).settled

theorem Kept.store (h : Kept ds t n ms w) {l : Loc} {x : Val l} {f : Log → Log}
    (hd : (f w.log).dequeued = w.log.dequeued)
    (hc : l ≠ .uncommitedNumberOfEntries) (hs : l ≠ .sequenceNumber) (hm : l ≠ .addressMap)
    (hr : ∀ i, i < t.length → l ∉ rangeLocs i) : Kept ds t n ms (w.store l x f) := by
  refine h.congr hd ?_ ?_ ?_ (fun i hi m hmem => ?_) fun i hi m hmem hset => ?_
  · exact World.store_cur_of_ne w _ _ _ _ hc.symm
  · exact World.store_cur_of_ne w _ _ _ _ hs.symm
  · exact World.store_cur_of_ne w _ _ _ _ hm.symm
  · exact World.store_cur_of_ne w _ _ _ _ fun he => hr i hi (he ▸ hmem)
  · exact settled_range_store (hr i hi) hmem hset

theorem Saved.stable (h : Saved t u) (hr : mapProtocol.rely .backEnd u v) : Saved t v where
  ranges i hi l hl := hr.1.durable l (owned_range hl) (h.ranges i hi l hl)
  durable := hr.1.durable _ rfl h.durable
  number := (hr.1.cur .numberOfEntries rfl).trans h.number

theorem Saved.frame (h : Saved t u) (hf : Frame Outside SameDequeued .backEnd u v) : Saved t v where
  ranges i hi l hl := hf.durable (not_outside_range hl) (h.ranges i hi l hl)
  durable := hf.durable id h.durable
  number := (hf.cur .numberOfEntries id).trans h.number

theorem Paired.stable (h : Paired t u) (hr : mapProtocol.rely .backEnd u v) : Paired t v where
  durable := hr.1.durable _ rfl h.durable
  number :=
    (congrArg AtomicPmemCommit.numberOfRegions (hr.1.cur .commitMetadata rfl)).trans h.number

theorem Paired.frame (h : Paired t u) (hf : Frame Outside SameDequeued .backEnd u v) :
    Paired t v where
  durable := hf.durable id h.durable
  number := (congrArg AtomicPmemCommit.numberOfRegions (hf.cur .commitMetadata id)).trans h.number

end Assertions

section Rules

variable {α β Phase : Type} {S : System Actor Loc Val Log Phase} {Q : β → State → Prop}
variable {ds : List Entry} {t : List (Nat × Nat)} {n : Nat} {ms : List Mapping} {w : State}

theorem ensures_outside {p : Code α} {f : α → Code β} {A : State → Prop}
    (hp : p.Confined Outside SameDequeued .backEnd)
    (hw : BackQuiet w) (hA : A w) (hstable : ∀ u v, A u → mapProtocol.rely .backEnd u v → A v)
    (hframe : ∀ u v, A u → Frame Outside SameDequeued .backEnd u v → A v)
    (hf : ∀ x u, BackQuiet u → A u → Ensures S mapProtocol .backEnd (f x) Q u) :
    Ensures S mapProtocol .backEnd (p >>= f) Q w := by
  have hc := Ensures.confined (S := S) (P := mapProtocol) (A := A) hp (fun _ => rfl) False.elim hA
    (fun u v hu hr _ => hstable u v hu hr) fun u v hf hu hA =>
    ⟨allows_backEnd (hu.frame hf), hframe u v hA hf⟩
  exact Ensures.bind hw (hc.mono fun x u hu hA => hf x u hu hA)

theorem ensures_keeping {p : Code α} {f : α → Code β}
    (hp : p.Confined Outside SameDequeued .backEnd) (hw : BackQuiet w) (hs : Kept ds t n ms w)
    (hf : ∀ x u, BackQuiet u → Kept ds t n ms u → Ensures S mapProtocol .backEnd (f x) Q u) :
    Ensures S mapProtocol .backEnd (p >>= f) Q w :=
  ensures_outside hp hw hs (fun _ _ h hr => h.stable hr) (fun _ _ h hf => h.frame hf) hf

theorem ensures_recordDequeued {e : Entry} {f : Unit → Code β} (hs : Kept ds t n ms w)
    (hf : ∀ u, BackQuiet u → Kept (ds ++ [e]) t n ms u →
      Ensures S mapProtocol .backEnd (f ()) Q u) :
    Ensures S mapProtocol .backEnd (recordDequeued e >>= f) Q w := by
  refine Ensures.record fun u hr hu => ?_
  have hs := hs.stable hr
  refine ⟨allows_backEnd hu, hf _ hu ⟨?_, hs.counted, hs.ranges, hs.settled, hs.files, hs.mapped⟩⟩
  exact congrArg (· ++ [e]) hs.taken

theorem Kept.count {addr size : Nat} (h : Kept ds t n ms w)
    (hr : IsRange w.cur t.length (addr, size))
    (hset : ∀ l ∈ rangeLocs t.length, w.Settled .backEnd l) {f : Log → Log}
    (hd : (f w.log).dequeued = w.log.dequeued) :
    Kept ds (t ++ [(addr, size)]) n ms (w.store .uncommitedNumberOfEntries (t.length + 1) f) := by
  have hne : ∀ i, .uncommitedNumberOfEntries ∉ rangeLocs i := by simp [rangeLocs]
  refine ⟨hd.trans h.taken, ?_, fun i r hi => ?_, fun i hi l hl => ?_, ?_, ?_⟩
  · rw [World.store_cur_self, List.length_append]
    rfl
  · rcases Nat.lt_or_ge i t.length with hlt | hge
    · rw [List.getElem?_append_left hlt] at hi
      exact (h.ranges i r hi).store (hne i)
    · have hlast := (List.getElem?_eq_some_iff.mp hi).1
      simp only [List.length_append, List.length_singleton] at hlast
      obtain rfl : i = t.length := by omega
      rw [List.getElem?_concat_length] at hi
      obtain rfl := Option.some.inj hi
      exact hr.store (hne _)
  · refine settled_range_store (hne i) hl ?_
    rw [List.length_append] at hi
    rcases Nat.lt_succ_iff_lt_or_eq.mp hi with hlt | rfl
    · exact h.settled i hlt l hl
    · exact hset l hl
  · exact (World.store_cur_of_ne w _ _ _ _ (by decide)).trans h.files
  · exact (World.store_cur_of_ne w _ _ _ _ (by decide)).trans h.mapped

theorem ensures_addRegionRecord {addr size : Nat} {f : Unit → Code β} (hs : Kept ds t n ms w)
    (hf : ∀ u, BackQuiet u → Kept ds (t ++ [(addr, size)]) n ms u →
      Ensures S mapProtocol .backEnd (f ()) Q u) :
    Ensures S mapProtocol .backEnd (regionTableAddRegionRecord addr size >>= f) Q w := by
  have hnew : ∀ i, i < t.length → ∀ l ∈ rangeLocs t.length, l ∉ rangeLocs i := by
    intro i hi l hl hmem
    simp only [rangeLocs, List.mem_cons, List.not_mem_nil, or_false] at hl hmem
    rcases hl with rfl | rfl <;> simp at hmem <;> omega
  simp only [regionTableAddRegionRecord, Prog.bind_assoc]
  refine Ensures.load fun u₁ hr₁ hu₁ => ?_
  have hs := hs.stable hr₁
  rw [hs.counted]
  split
  · simp only [Prog.bind_assoc]
    refine Ensures.load fun u₂ hr₂ hu₂ => ?_
    have hs := hs.stable hr₂
    simp only [storeAll, Prog.bind_assoc, Prog.pure_bind]
    refine Ensures.storeRecord fun u₃ hr₃ hu₃ => ⟨allows_backEnd hu₃, ?_⟩
    have hs := (hs.stable hr₃).store (l := .recordAddress t.length) (x := addr) (f := id) rfl
      (by simp) (by simp) (by simp) fun i hi => hnew i hi _ (by simp [rangeLocs])
    refine Ensures.storeRecord fun u₄ hr₄ hu₄ => ⟨allows_backEnd hu₄, ?_⟩
    have haddr : u₄.cur (.recordAddress t.length) = addr :=
      (hr₄.1.cur (.recordAddress t.length) rfl).trans (World.store_cur_self _ _ _ _)
    have hs := (hs.stable hr₄).store (l := .recordSize t.length) (x := size) (f := id) rfl
      (by simp) (by simp) (by simp) fun i hi => hnew i hi _ (by simp [rangeLocs])
    have hrange : IsRange (u₄.store (.recordSize t.length) size id).cur t.length (addr, size) := by
      refine ⟨?_, World.store_cur_self _ _ _ _⟩
      rw [World.store_cur_of_ne _ _ _ _ _ (by simp)]
      exact haddr
    have hrest : ∀ index : Nat, (do
        storeRecord (.recordFileIndex t.length) t.length id
        storeRecord (.recordCommitIndex t.length) index id :
          Code Unit).Confined Outside SameDequeued .backEnd :=
      fun index => .op ⟨trivial, fun _ => rfl⟩ fun _ => ⟨⟨trivial, fun _ => rfl⟩, fun _ => trivial⟩
    rw [← Prog.bind_assoc]
    refine ensures_outside (A := fun u => Kept ds t n ms u ∧ IsRange u.cur t.length (addr, size))
      (hrest _) hu₄ ⟨hs, hrange⟩ ?_ ?_ ?_
    · rintro u v ⟨hs, hrange⟩ hr
      exact ⟨hs.stable hr, hrange.congr fun l hl => hr.1.cur l (owned_range hl)⟩
    · rintro u v ⟨hs, hrange⟩ hf
      exact ⟨hs.frame hf, hrange.congr fun l hl => hf.cur l (not_outside_range hl)⟩
    · rintro _ u₅ hu₅ ⟨hs, hrange⟩
      refine Ensures.flush fun u₆ hr₆ hu₆ => ⟨allows_backEnd (hu₆.flush _), ?_⟩
      have hs := (hs.stable hr₆).flush (recordLocs t.length)
      have hrange := hrange.congr fun l hl => hr₆.1.cur l (owned_range hl)
      refine Ensures.storeRecord fun u₇ hr₇ hu₇ => ⟨allows_backEnd hu₇, hf _ hu₇ ?_⟩
      refine (hs.stable hr₇).count (hrange.congr fun l hl => hr₇.1.cur l (owned_range hl))
        (fun l hl => ?_) rfl
      refine hr₇.1.settled l (owned_range hl) (World.settled_flush_of_mem ?_)
      simp only [rangeLocs, recordLocs, List.mem_cons, List.not_mem_nil, or_false] at hl ⊢
      exact hl.elim .inl fun h => .inr (.inl h)
  · exact Ensures.kernel False.elim fun _ _ _ _ hx => by cases hx

theorem ensures_createPmemFile {f : Nat → Code β} (hs : Kept ds t n ms w)
    (hf : ∀ u, BackQuiet u → Kept ds t (n + 1) ms u → Ensures S mapProtocol .backEnd (f n) Q u) :
    Ensures S mapProtocol .backEnd (createPmemFile >>= f) Q w := by
  simp only [createPmemFile, Prog.bind_assoc]
  refine Ensures.load fun u₁ hr₁ hu₁ => ?_
  have hs := hs.stable hr₁
  rw [hs.files]
  refine Ensures.kernel False.elim fun u₂ hr₂ hu₂ v hv => ?_
  obtain rfl := Option.some.inj hv
  have hframe : Frame Outside SameDequeued .backEnd u₂ (truncate n u₂) :=
    frame_truncate (fun _ => trivial) sameDequeued_refl n u₂
  have hs := (hs.stable hr₂).frame hframe
  refine ⟨allows_backEnd (hu₂.frame hframe), Ensures.store fun u₃ hr₃ hu₃ =>
    ⟨allows_backEnd hu₃, ?_⟩⟩
  have hs := hs.stable hr₃
  have hne : ∀ l, l ≠ .sequenceNumber → (u₃.store .sequenceNumber (n + 1) id).cur l = u₃.cur l :=
    fun l hl => World.store_cur_of_ne u₃ _ _ _ _ hl
  have hrange : ∀ i, .sequenceNumber ∉ rangeLocs i := by simp [rangeLocs]
  refine hf _ hu₃ ⟨hs.taken, (hne _ (by decide)).trans hs.counted,
    fun i r hr => ?_, fun i hi l hl => ?_,
    World.store_cur_self _ _ _ _, (hne _ (by decide)).trans hs.mapped⟩
  · exact (hs.ranges i r hr).store (hrange i)
  · exact settled_range_store (hrange i) hl (hs.settled i hi l hl)

theorem ensures_mapFixed {m : Mapping} {f : Unit → Code β} (hs : Kept ds t n ms w)
    (hf : ∀ u, BackQuiet u → Kept ds t n (m :: ms) u → Ensures S mapProtocol .backEnd (f ()) Q u) :
    Ensures S mapProtocol .backEnd (mapFixed m >>= f) Q w := by
  simp only [mapFixed, Prog.bind_assoc]
  refine Ensures.load fun u₁ hr₁ hu₁ => ?_
  have hs := hs.stable hr₁
  rw [hs.mapped]
  refine Ensures.store fun u₂ hr₂ hu₂ => ⟨allows_backEnd hu₂, ?_⟩
  have hs := hs.stable hr₂
  have hne : ∀ l, l ≠ .addressMap → (u₂.store .addressMap (m :: ms) id).cur l = u₂.cur l :=
    fun l hl => World.store_cur_of_ne u₂ _ _ _ _ hl
  have hrange : ∀ i, .addressMap ∉ rangeLocs i := by simp [rangeLocs]
  refine hf _ hu₂ ⟨hs.taken, (hne _ (by decide)).trans hs.counted,
    fun i r hr => ?_, fun i hi l hl => ?_,
    (hne _ (by decide)).trans hs.files, World.store_cur_self _ _ _ _⟩
  · exact (hs.ranges i r hr).store (hrange i)
  · exact settled_range_store (hrange i) hl (hs.settled i hi l hl)

theorem ensures_regionTableCommit (hs : Kept ds t n ms w) :
    Ensures S mapProtocol .backEnd regionTableCommit
    (fun _ u => Kept ds t n ms u ∧ Saved t u) w := by
  refine Ensures.fence fun u₁ hr₁ hu₁ => ⟨allows_backEnd hu₁.fence, ?_⟩
  have hs := hs.stable hr₁
  have hdur : ∀ i, i < t.length → ∀ l ∈ rangeLocs i, (u₁.fence .backEnd).Durable .backEnd l :=
    fun i hi l hl => World.durable_fence (hs.settled i hi l hl)
  have hs := hs.fence
  refine Ensures.load fun u₂ hr₂ hu₂ => ?_
  have hs := hs.stable hr₂
  have hdur : ∀ i, i < t.length → ∀ l ∈ rangeLocs i, u₂.Durable .backEnd l :=
    fun i hi l hl => hr₂.1.durable l (owned_range hl) (hdur i hi l hl)
  rw [hs.counted]
  refine Ensures.store fun u₃ hr₃ hu₃ => ⟨allows_backEnd hu₃, ?_⟩
  have hne : ∀ i, ∀ l ∈ rangeLocs i, l ≠ .numberOfEntries ∧ l ≠ .uncommitedNumberOfEntries := by
    intro i l hl
    simp only [rangeLocs, List.mem_cons, List.not_mem_nil, or_false] at hl
    rcases hl with rfl | rfl <;> simp
  have hs := (hs.stable hr₃).store (l := .numberOfEntries) (x := t.length) (f := id) rfl (by decide)
    (by decide) (by decide) fun i _ hmem => (hne i _ hmem).1 rfl
  have hdur : ∀ i, i < t.length → ∀ l ∈ rangeLocs i,
      (u₃.store .numberOfEntries t.length id).Durable .backEnd l :=
    fun i hi l hl => (Untouched.store (hne i l hl).1).durable
    (hr₃.1.durable l (owned_range hl) (hdur i hi l hl))
  refine Ensures.flush fun u₄ hr₄ hu₄ => ⟨allows_backEnd (hu₄.flush _), ?_⟩
  have hnumber : u₄.cur .numberOfEntries = t.length :=
    (hr₄.1.cur .numberOfEntries rfl).trans (World.store_cur_self _ _ _ _)
  have hs := (hs.stable hr₄).flush [.numberOfEntries, .uncommitedNumberOfEntries]
  have hdur : ∀ i, i < t.length → ∀ l ∈ rangeLocs i,
      (u₄.flush .backEnd [.numberOfEntries, .uncommitedNumberOfEntries]).Durable .backEnd l := by
    intro i hi l hl
    have hnot : l ∉ [Loc.numberOfEntries, .uncommitedNumberOfEntries] := by
      simpa using hne i l hl
    exact (Untouched.flush hnot).durable (hr₄.1.durable l (owned_range hl) (hdur i hi l hl))
  rw [← Prog.bind_ret Prog.fence]
  refine Ensures.fence fun u₅ hr₅ hu₅ => ⟨allows_backEnd hu₅.fence, ?_⟩
  have hs := (hs.stable hr₅).fence
  have hsaved : Saved t (u₅.fence .backEnd) := by
    refine ⟨fun i hi l hl => ?_, ?_, ?_⟩
    · exact World.durable_fence (hr₅.1.durable l (owned_range hl) (hdur i hi l hl)).settled
    · exact World.durable_fence
        (hr₅.1.settled .numberOfEntries rfl (World.settled_flush_of_mem (by simp)))
    · rw [World.fence_cur, hr₅.1.cur .numberOfEntries rfl, World.flush_cur]
      exact hnumber
  exact Ensures.ret fun v hr _ => ⟨hs.stable hr, hsaved.stable hr⟩

/-- What `region_table_commit` stores to. -/
def Numbers (l : Loc) : Prop := l = .numberOfEntries ∨ l = .uncommitedNumberOfEntries

theorem confined_regionTableCommit : regionTableCommit.Confined Numbers SameDequeued .backEnd := by
  refine .op trivial fun _ => .op trivial fun _ => .op ⟨.inl rfl, sameDequeued_refl⟩ fun _ =>
    .op ?_ fun _ =>
    ⟨trivial, fun _ => trivial⟩
  simp [Op.Confined, Numbers]

theorem ensures_prepareCommit {f : Unit → Code β} (hs : Kept ds t n ms w)
    (hf : ∀ u, BackQuiet u → Kept ds t n ms u → Saved t u → Paired t u →
      Ensures S mapProtocol .backEnd (f ()) Q u) :
    Ensures S mapProtocol .backEnd (prepareCommit >>= f) Q w := by
  simp only [prepareCommit, Prog.bind_assoc]
  refine Ensures.load fun u₁ hr₁ hu₁ => ?_
  have hs := hs.stable hr₁
  rw [hs.counted]
  refine Ensures.load fun u₂ hr₂ hu₂ => ?_
  have hs := hs.stable hr₂
  have hnot : ∀ i, .commitMetadata ∉ rangeLocs i := by simp [rangeLocs]
  refine Ensures.storeRecord fun u₃ hr₃ hu₃ => ⟨allows_backEnd hu₃, ?_⟩
  have hs := (hs.stable hr₃).store (l := .commitMetadata) (x := ⟨t.length, u₂.cur .globalLocalHead⟩)
    (f := fun g => { g with
      commits :=
        ⟨⟨t.length, u₂.cur .globalLocalHead⟩, g.dequeued.length, g.writes.length⟩ :: g.commits })
    rfl (by decide) (by decide) (by decide) fun i _ => hnot i
  refine Ensures.flush fun u₄ hr₄ hu₄ => ⟨allows_backEnd (hu₄.flush _), ?_⟩
  have hs := (hs.stable hr₄).flush [.commitMetadata]
  have hpair : (u₄.cur .commitMetadata).numberOfRegions = t.length := by
    rw [hr₄.1.cur .commitMetadata rfl, World.store_cur_self]
  refine Ensures.fence fun u₅ hr₅ hu₅ => ⟨allows_backEnd hu₅.fence, ?_⟩
  have hs := (hs.stable hr₅).fence
  have hpaired : Paired t (u₅.fence .backEnd) := by
    refine ⟨World.durable_fence
      (hr₅.1.settled .commitMetadata rfl (World.settled_flush_of_mem (by simp))), ?_⟩
    rw [World.fence_cur, hr₅.1.cur .commitMetadata rfl]
    exact hpair
  have hcommit := (ensures_regionTableCommit (S := S) hs).and_confined confined_regionTableCommit
    sameDequeued_refl hpaired
    (fun u v h hr _ => h.stable hr) fun u v hf h => ⟨hf.durable (by simp [Numbers]) h.durable, by
      rw [hf.cur .commitMetadata (by simp [Numbers])]
      exact h.number⟩
  refine Ensures.bind hu₅.fence (hcommit.mono fun _ u₆ hu₆ hpost => ?_)
  obtain ⟨⟨hs, hsaved⟩, hpaired⟩ := hpost
  refine Ensures.fence fun u₇ hr₇ hu₇ => ⟨allows_backEnd hu₇.fence, ?_⟩
  have hframe : Frame Outside SameDequeued .backEnd u₇ (u₇.fence .backEnd) :=
    Op.Confined.frame (o := .fence) (r := ()) sameDequeued_refl trivial rfl
  exact hf _ hu₇.fence (hs.stable hr₇).fence ((hsaved.stable hr₇).frame hframe)
    ((hpaired.stable hr₇).frame hframe)

end Rules

/-- Nothing has been taken since the last commit. -/
def Committed (ds : List Entry) : Prop := ds = [] ∨ ds.getLast? = some .commit

/-- The back end with these entries handled. -/
def Handled (regions : List (Nat × Nat)) (ds : List Entry) (w : State) : Prop :=
  Kept ds (tableOf regions ds) (tableOf regions ds).length (mapsOf regions ds) w

/-- The back end between two entries. -/
structure Rest (regions : List (Nat × Nat)) (w : State) : Prop where
  handled : Handled regions w.log.dequeued w
  saved : Committed w.log.dequeued → Saved (tableOf regions w.log.dequeued) w
  paired : w.log.dequeued.getLast? = some .commit → Paired (tableOf regions w.log.dequeued) w

section Consumer

variable {α β Phase : Type} {S : System Actor Loc Val Log Phase} {Q : β → State → Prop}
variable {N : Nat} {regions : List (Nat × Nat)} {ds : List Entry} {u v w : State}

theorem Rest.stable (h : Rest regions u) (hr : mapProtocol.rely .backEnd u v) : Rest regions v := by
  have hd : v.log.dequeued = u.log.dequeued := congrArg BackLog.dequeued hr.2.1
  refine ⟨?_, fun hc => ?_, fun hc => ?_⟩
  · rw [hd]
    exact Kept.stable h.handled hr
  · rw [hd] at hc ⊢
    exact (h.saved hc).stable hr
  · rw [hd] at hc ⊢
    exact (h.paired hc).stable hr

theorem Handled.rest {e : Entry} (h : Handled regions (ds ++ [e]) w) (he : e ≠ .commit) :
    Rest regions w := by
  have hd : w.log.dequeued = ds ++ [e] := Kept.taken h
  have hlast : ¬ (ds ++ [e]).getLast? = some .commit := by simpa using he
  rw [← hd] at h
  refine ⟨h, fun hc => ?_, fun hc => ?_⟩
  · rw [hd] at hc
    rcases hc with hnil | hc
    · simp at hnil
    · exact absurd hc hlast
  · rw [hd] at hc
    exact absurd hc hlast

theorem ensures_rest {e : Entry} {t : List (Nat × Nat)} {n : Nat} {ms : List Mapping}
    (h : Kept (ds ++ [e]) t n ms w)
    (he : e ≠ .commit) (ht : t = tableOf regions ds ++ (addedRegion e).toList) (hn : n = t.length)
    (hm : ms = (mappingOf (tableOf regions ds).length e).toList ++ mapsOf regions ds) :
    Ensures S mapProtocol .backEnd (.ret ()) (fun _ u => Rest regions u) w := by
  have hhandled : Handled regions (ds ++ [e]) w := by
    rw [Handled, tableOf_concat, mapsOf_concat, ← ht, ← hn, ← hm]
    exact h
  exact Ensures.ret fun _ hr _ => (hhandled.rest he).stable hr

/-- Whatever the slot holds, the table and the mappings are those of the entries
that have been taken. -/
theorem ensures_handleEntry {held : Nat → Bool} {slot : Nat} {type : EntryType}
    (hs : Handled regions ds w) :
    Ensures S mapProtocol .backEnd (handleEntry held slot type) (fun _ u => Rest regions u) w := by
  rw [← Prog.bind_ret (handleEntry held slot type)]
  cases type with
  | mmap =>
      simp only [handleEntry, regionTableCreateMemoryRegion, Prog.bind_assoc]
      refine Ensures.load fun u₁ hr₁ _ => ?_
      refine Ensures.load fun u₂ hr₂ _ => ?_
      have hs := (Kept.stable hs hr₁).stable hr₂
      refine ensures_recordDequeued hs fun u₃ _ hs => ?_
      refine ensures_addRegionRecord hs fun u₄ _ hs => ?_
      refine ensures_createPmemFile hs fun u₅ _ hs => ?_
      exact ensures_mapFixed hs fun u₆ _ hs => ensures_rest hs (by simp) rfl (by simp) rfl
  | transientMmap =>
      simp only [handleEntry, Prog.bind_assoc]
      refine Ensures.load fun u₁ hr₁ _ => ?_
      refine Ensures.load fun u₂ hr₂ _ => ?_
      have hs := (Kept.stable hs hr₁).stable hr₂
      refine ensures_recordDequeued hs fun u₃ hu₃ hs => ?_
      have hzero :
          (kernel (fun w =>
            some (zeroPages (u₁.cur (.entryAddr slot)) (u₂.cur (.entrySize slot)) w)) :
          Code Unit).Confined Outside SameDequeued .backEnd := by
        refine ⟨fun w u h => ?_, fun _ => trivial⟩
        obtain rfl := Option.some.inj h
        exact frame_zeroPages (fun _ => trivial) sameDequeued_refl _ _ w
      refine ensures_keeping hzero hu₃ hs fun _ u₄ _ hs => ?_
      exact ensures_mapFixed hs fun u₅ _ hs => ensures_rest hs (by simp)
        (List.append_nil _).symm rfl rfl
  | redo =>
      simp only [handleEntry, Prog.bind_assoc]
      refine Ensures.load fun u₁ hr₁ hu₁ => ?_
      have hs := Kept.stable hs hr₁
      refine Ensures.loads (R := fun _ _ => True) (fun _ _ _ _ => trivial) hu₁
        fun payload u₂ _ hr₂ _ => ?_
      refine ensures_recordDequeued (hs.stable hr₂) fun u₃ hu₃ hs => ?_
      have hnote : ∀ s g, SameDequeued g (noteWrite s g) :=
        fun s g => congrArg BackLog.dequeued (sameRing_noteWrite s g).2
      exact ensures_keeping (confined_applyRedo (fun _ => trivial) hnote _ _ payload) hu₃ hs
        fun _ u₄ _ hs => ensures_rest hs (by simp) (List.append_nil _).symm rfl rfl
  | commit =>
      simp only [handleEntry, commitRbBatch_eq, Prog.bind_assoc]
      refine ensures_recordDequeued hs fun u₁ _ hs => ?_
      have hs : Handled regions (ds ++ [.commit]) u₁ := by
        rw [Handled, tableOf_concat, mapsOf_concat]
        simpa [addedRegion, mappingOf] using hs
      refine ensures_prepareCommit hs fun u₂ hu₂ hs hsaved hpaired => ?_
      have hrest : (do ringBufferCommitDequeuedEntries; fence : Code Unit).Confined Outside
          SameDequeued .backEnd :=
        (confined_ringBufferCommitDequeuedEntries trivial trivial (fun _ _ _ => rfl)
          sameDequeued_refl).bind fun _ =>
          ⟨trivial, fun _ => trivial⟩
      generalize ds ++ [Entry.commit] = es at hs hsaved hpaired
      rw [← Prog.bind_assoc]
      refine ensures_outside (A := fun u => Handled regions es u ∧ Saved (tableOf regions es) u ∧
        Paired (tableOf regions es) u) hrest hu₂ ⟨hs, hsaved, hpaired⟩ ?_ ?_ ?_
      · rintro u v ⟨hs, hsaved, hpaired⟩ hr
        exact ⟨Kept.stable hs hr, hsaved.stable hr, hpaired.stable hr⟩
      · rintro u v ⟨hs, hsaved, hpaired⟩ hf
        exact ⟨Kept.frame hs hf, hsaved.frame hf, hpaired.frame hf⟩
      · rintro _ u₃ _ ⟨hs, hsaved, hpaired⟩
        have hd : u₃.log.dequeued = es := Kept.taken hs
        rw [← hd] at hs hsaved hpaired
        exact Ensures.ret fun v hr _ => Rest.stable ⟨hs, fun _ => hsaved, fun _ => hpaired⟩ hr

theorem ensures_runConsumer (hs : Rest regions w) :
    Ensures S mapProtocol .backEnd (runConsumer N) (fun _ u => Rest regions u) w := by
  refine Ensures.load fun u₁ hr₁ _ => ?_
  have hs := hs.stable hr₁
  refine Ensures.load fun u₂ hr₂ hu₂ => ?_
  have hs := hs.stable hr₂
  split
  · exact Ensures.pure fun v hr _ => hs.stable hr
  · refine ensures_keeping (confined_ringBufferDequeue trivial trivial sameDequeued_refl N) hu₂
      hs.handled fun slot u₃ _ hs => ?_
    exact Ensures.load fun u₄ hr₄ _ => ensures_handleEntry (Kept.stable hs hr₄)

theorem rest_initial (bytes : Cell → UInt8) (regions : List (Nat × Nat)) :
    Rest regions (initial bytes regions) := by
  have htable : tableOf regions (initial bytes regions).log.dequeued = regions :=
    List.append_nil regions
  have hrange : ∀ i r, regions[i]? = some r → IsRange (initial bytes regions).cur i r := by
    intro i r hi
    have hget : regions.getD i (0, 0) = r := by
      rw [List.getD_eq_getElem?_getD, hi, Option.getD_some]
    exact ⟨congrArg Prod.fst hget, congrArg Prod.snd hget⟩
  constructor
  case handled =>
    rw [Handled, htable]
    exact ⟨rfl, rfl, hrange, fun _ _ _ _ => .inr ⟨rfl, rfl⟩, rfl, rfl⟩
  case saved =>
    rw [htable]
    exact fun _ => ⟨fun _ _ _ _ => ⟨rfl, rfl⟩, ⟨rfl, rfl⟩, rfl⟩
  case paired =>
    intro h
    cases h

/-- Whatever the front end logs, the back end between two entries has the records
and the mappings of the entries that it has taken. -/
theorem rest_of_serves {I : List SessionRecord → Prop} {J : Phase → List SessionRecord → Prop}
    (hs : Serves S N I J)
    {bytes : Cell → UInt8} {c : Config Actor Loc Val Log Phase}
    (h : S.Reachable (initial bytes regions) c) {x : Phase}
    (hrest : c.prog .backEnd = .ret x) : Rest regions c.world := by
  refine (inv_and_rest_of_reachable (P := mapProtocol) hs not_false (fun _ _ => rfl)
    (rest_initial bytes regions)
    (fun u v hu hr => hu.stable hr) (fun u v hu hf => allows_frontEnd hu hf)
    (fun w l hw _ => ⟨hw.writeBack l, fun a => ?_⟩)
    (fun w hw => ensures_runConsumer hw) h).2 x hrest
  cases a with
  | frontEnd => trivial
  | backEnd => exact ⟨.writeBack _ _ w l, .refl _⟩

end Consumer

end Mangosteen.RegionMap
