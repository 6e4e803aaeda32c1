import Mangosteen.Described
import Mangosteen.Image

namespace Mangosteen.CommitOrder

open PersistentMemory Prog Memory RingBuffer RegionTable BackEnd Session Slots Channel
  Dequeue Consumer Delivery Isolation Metadata Described

variable {N : Nat} {u v w : State} {dirty : List Loc}

theorem beside (hi : DescribedInv u) (ht : Tidy dirty u) (hq : BackQuiet v)
    (hd : u.log.dequeued <+: v.log.dequeued)
    (hl : v.log.toImageLog = u.log.toImageLog) (hm : Untouched u v .commitMetadata)
    (hn : ∀ l, Noted u.log l → Untouched u v l) (hs : Shown v) : DescribedInv v ∧ Tidy dirty v := by
  refine ⟨hi.congr hn hl hq hd hm hs, hm.durable ht.metadata, ?_,
    ht.settled.congr hn (by rw [hl]) (by rw [hl])⟩
  rw [latest, hl]
  exact Describes.congr hn (by rw [hl]) (by rw [hl]) ht.described

/-- Locations that no note is about. -/
structure Aloof (g : Log) (l : Loc) : Prop where
  noted : ¬ Noted g l
  metadata : l ≠ .commitMetadata
  counter : l ≠ .uncommitedNumberOfEntries
  index : l ≠ .tableCommitIndex
  sequence : l ≠ .sequenceNumber
  map : l ≠ .addressMap

theorem noted_cases {g : Log} {l : Loc} (h : Noted g l) :
    (∃ c, l = .byte c) ∨ ∃ i, i < g.regions.length ∧ l ∈ recordLocs i := by
  cases h with
  | byte _ => exact .inl ⟨_, rfl⟩
  | record hi hl => exact .inr ⟨_, hi, hl⟩

theorem not_noted {g : Log} {l : Loc} (hb : ∀ c, l ≠ .byte c)
    (hr : ∀ i, i < g.regions.length → l ∉ recordLocs i) : ¬ Noted g l := by
  intro h
  rcases noted_cases h with ⟨c, rfl⟩ | ⟨i, hi, hl⟩
  · exact hb c rfl
  · exact hr i hi hl

theorem store_aloof (hi : DescribedInv u) (ht : Tidy dirty u) {l : Loc} (ha : Aloof u.log l)
    {x : Val l} {f : Log → Log}
    (hb : u.log.dequeued <+: (f u.log).dequeued) (hl : (f u.log).toImageLog = u.log.toImageLog) :
    DescribedInv (u.store l x f) ∧ Tidy dirty (u.store l x f) := by
  have hn : ∀ m, Noted u.log m → Untouched u (u.store l x f) m := by
    intro m hm
    refine .store ?_
    rintro rfl
    exact ha.noted hm
  have hcur : ∀ m, m ≠ l → (u.store l x f).cur m = u.cur m :=
    fun m hm => World.store_cur_of_ne u m l f x hm
  refine beside hi ht hi.quiet hb hl (.store ha.metadata.symm) hn ?_
  refine hi.shown.congr hn (by rw [World.store_log, hl]) (by rw [World.store_log, hl])
    (hcur _ ha.counter.symm) (hcur _ ha.index.symm) (hcur _ ha.sequence.symm).ge ?_
  rw [hcur _ ha.map.symm, hcur _ ha.sequence.symm]
  exact hi.shown.mapped

theorem flush_aloof (hi : DescribedInv u) (ht : Tidy dirty u) {ls : List Loc}
    (hm : .commitMetadata ∉ ls)
    (hls : ∀ l ∈ ls, ¬ Noted u.log l) :
    DescribedInv (u.flush .backEnd ls) ∧ Tidy dirty (u.flush .backEnd ls) :=
  beside hi ht (hi.quiet.flush ls) (List.prefix_refl _) rfl (.flush hm)
  (fun l hl => .flush fun h => hls l h hl)
    (hi.shown.of_cur rfl rfl)

theorem aloof_of {g : Log} {l : Loc} (hm : l ≠ .commitMetadata)
    (hc : l ≠ .uncommitedNumberOfEntries)
    (hi : l ≠ .tableCommitIndex) (hs : l ≠ .sequenceNumber) (ha : l ≠ .addressMap)
    (hb : ∀ c, l ≠ .byte c) (hr : ∀ i, l ∉ recordLocs i) : Aloof g l :=
  ⟨not_noted hb fun i _ => hr i, hm, hc, hi, hs, ha⟩

section Aloof

variable {g : Log}

theorem aloof_globalLocalHead : Aloof g .globalLocalHead := by apply aloof_of <;> simp [recordLocs]
theorem aloof_globalLocalTail : Aloof g .globalLocalTail := by apply aloof_of <;> simp [recordLocs]
theorem aloof_numberOfEntries : Aloof g .numberOfEntries := by apply aloof_of <;> simp [recordLocs]
theorem aloof_remoteHead : Aloof g .remoteHead := by apply aloof_of <;> simp [recordLocs]
theorem aloof_lastPersistedHead : Aloof g .lastPersistedHead := by
  apply aloof_of <;> simp [recordLocs]

end Aloof

section Rules

variable {α β Phase : Type} {S : System Actor Loc Val Log Phase} {Q : β → State → Prop}

theorem ensures_store_aloof {l : Loc} {x : Val l} {f : Unit → Code β} (ht : Tidy dirty w)
    (ha : ∀ g : Log, Aloof g l)
    (hf : ∀ u, DescribedInv u → Tidy dirty u → SameBack w.log u.log →
      Ensures S describedProtocol .backEnd (f ()) Q u) :
    Ensures S describedProtocol .backEnd (Prog.store l x >>= f) Q w := by
  refine Ensures.store fun u hr hu => ?_
  obtain ⟨hi, ht⟩ :=
    store_aloof hu (ht.stable hr) (ha u.log) (x := x) (f := id) (List.prefix_refl _) rfl
  exact ⟨allows_backEnd hi, hf _ hi ht hr.2.1⟩

theorem ensures_waitForEntry {head tail : Nat} {f : Unit → Code β}
    (hw : DescribedInv w) (ht : Tidy dirty w)
    (hf : ∀ u, DescribedInv u → Tidy dirty u → SameBack w.log u.log →
      Ensures S describedProtocol .backEnd (f ()) Q u) :
    Ensures S describedProtocol .backEnd (waitForEntry head tail >>= f) Q w := by
  rw [waitForEntry]
  split
  · rw [Prog.bind_assoc]
    refine Ensures.await False.elim fun u hr hu _ _ => ?_
    exact ensures_store_aloof (ht.stable hr) (fun _ => aloof_globalLocalTail) fun v hv ht hl =>
      hf v hv ht (.trans hr.2.1 hl)
  · exact hf w hw ht (.refl _)

theorem ensures_ringBufferDequeue {f : Nat → Code β} (ht : Tidy dirty w)
    (hf : ∀ slot u, DescribedInv u → Tidy dirty u → SameBack w.log u.log →
      Ensures S describedProtocol .backEnd (f slot) Q u) :
    Ensures S describedProtocol .backEnd (ringBufferDequeue N >>= f) Q w := by
  simp only [ringBufferDequeue, Prog.bind_assoc]
  refine Ensures.load fun u₁ hr₁ hu => ?_
  have ht := ht.stable hr₁
  refine Ensures.load fun u₂ hr₂ hu => ?_
  refine ensures_waitForEntry hu (ht.stable hr₂) fun u₃ hu ht hl => ?_
  refine ensures_store_aloof ht (fun _ => aloof_globalLocalHead) fun u₄ hu ht hl' => ?_
  exact hf _ u₄ hu ht (.trans hr₁.2.1 (.trans hr₂.2.1 (hl.trans hl')))

theorem ensures_recordDequeued {e : Entry} {f : Unit → Code β} (ht : Tidy dirty w)
    (hf : ∀ u, DescribedInv u → Tidy dirty u → u.log.dequeued = w.log.dequeued ++ [e] →
      u.log.toImageLog = w.log.toImageLog → Ensures S describedProtocol .backEnd (f ()) Q u) :
    Ensures S describedProtocol .backEnd (recordDequeued e >>= f) Q w := by
  refine Ensures.record fun u hr hu => ?_
  obtain ⟨hi, ht⟩ :=
    beside (v := { u with log := { u.log with dequeued := u.log.dequeued ++ [e] } }) hu
    (ht.stable hr) hu.quiet (List.prefix_append _ _) rfl (.record _) (fun _ _ => .record _)
    ⟨hu.shown.bytes, hu.shown.created, hu.shown.mapped, hu.shown.counted,
      hu.shown.commitIndex, hu.shown.records⟩
  exact ⟨allows_backEnd hi, hf _ hi ht (congrArg (·.dequeued ++ [e]) hr.2.1.1) hr.2.1.2⟩

end Rules

section Regions

variable {β Phase : Type} {S : System Actor Loc Val Log Phase} {Q : β → State → Prop}

def recordStores (i addr size : Nat) : List (Sigma Val) :=
  [⟨.recordAddress i, addr⟩, ⟨.recordSize i, size⟩, ⟨.recordFileIndex i, i⟩,
    ⟨.recordCommitIndex i, 1⟩]

theorem isRecord_of_stores {i addr size : Nat} {mem : (l : Loc) → Val l}
    (h : ∀ s ∈ recordStores i addr size, mem s.1 = s.2) : IsRecord mem i (addr, size) :=
  ⟨h ⟨.recordAddress i, addr⟩ (by simp [recordStores]),
    h ⟨.recordSize i, size⟩ (by simp [recordStores]),
    h ⟨.recordFileIndex i, i⟩ (by simp [recordStores]),
    h ⟨.recordCommitIndex i, 1⟩ (by simp [recordStores])⟩

theorem mem_recordLocs {i addr size : Nat} {s : Sigma Val} (h : s ∈ recordStores i addr size) :
    s.1 ∈ recordLocs i := by
  simp only [recordStores, List.mem_cons, List.not_mem_nil, or_false] at h
  rcases h with rfl | rfl | rfl | rfl <;> simp [recordLocs]

theorem recordStores_injective {i addr size : Nat} {s t : Sigma Val}
    (hs : s ∈ recordStores i addr size)
    (ht : t ∈ recordStores i addr size) (h : s.1 = t.1) : s = t := by
  simp only [recordStores, List.mem_cons, List.not_mem_nil, or_false] at hs ht
  rcases hs with rfl | rfl | rfl | rfl <;> rcases ht with rfl | rfl | rfl | rfl <;>
    first | rfl | cases h

theorem eq_of_mem_recordLocs {i j : Nat} {l : Loc} (hi : l ∈ recordLocs i) (hj : l ∈ recordLocs j) :
    i = j := by
  simp only [recordLocs, List.mem_cons, List.not_mem_nil, or_false] at hi hj
  rcases hi with rfl | rfl | rfl | rfl <;> rcases hj with h | h | h | h <;> cases h <;> rfl

theorem aloof_record {g : Log} {l : Loc} (hl : l ∈ recordLocs g.regions.length) : Aloof g l := by
  have hnot : ¬ Noted g l := by
    refine not_noted ?_ fun i hi hmem => ?_
    · rintro c rfl
      simp [recordLocs] at hl
    · exact absurd (eq_of_mem_recordLocs hmem hl) (Nat.ne_of_lt hi)
  refine ⟨hnot, ?_, ?_, ?_, ?_, ?_⟩ <;> rintro rfl <;> simp [recordLocs] at hl

theorem count_record (hi : DescribedInv u) (ht : Tidy [] u) {addr size : Nat}
    (hrec : IsRecord u.cur u.log.regions.length (addr, size))
    (hset : ∀ l ∈ recordLocs u.log.regions.length, u.Settled .backEnd l) :
    DescribedInv (u.store .uncommitedNumberOfEntries (u.log.regions.length + 1)
        (fun g => { g with regions := g.regions ++ [(addr, size)] })) ∧
      Tidy [] (u.store .uncommitedNumberOfEntries (u.log.regions.length + 1)
        (fun g => { g with regions := g.regions ++ [(addr, size)] })) := by
  generalize hv : u.store .uncommitedNumberOfEntries (u.log.regions.length + 1)
    (fun g => { g with regions := g.regions ++ [(addr, size)] }) = v
  have hcur : ∀ l, l ≠ .uncommitedNumberOfEntries → v.cur l = u.cur l := fun l hl => by
    rw [← hv]; exact World.store_cur_of_ne u l _ _ _ hl
  have hper : v.per = u.per := by rw [← hv]; rfl
  have hpend : v.pending = u.pending := by rw [← hv]; rfl
  have hlog : v.log = { u.log with regions := u.log.regions ++ [(addr, size)] } := by rw [← hv]; rfl
  have hne : ∀ {i : Nat} {l : Loc}, l ∈ recordLocs i → l ≠ .uncommitedNumberOfEntries := by
    rintro i l hl rfl
    simp [recordLocs] at hl
  have hshown : Shown v := by
    refine ⟨?_, ?_, ?_, ?_, ?_, fun i r hr => ?_⟩
    · intro i o hw
      rw [hlog] at hw ⊢
      rw [hcur _ (by simp)]
      exact hi.shown.bytes i o hw
    · intro i o hw
      rw [hlog] at hw
      rw [hcur _ (by decide)]
      exact hi.shown.created i o hw
    · rw [hcur _ (by decide), hcur _ (by decide)]; exact hi.shown.mapped
    · rw [hlog, ← hv, World.store_cur_self, List.length_append]; rfl
    · rw [hcur _ (by decide)]; exact hi.shown.commitIndex
    · rw [hlog] at hr
      rcases Nat.lt_trichotomy i u.log.regions.length with hlt | rfl | hgt
      · rw [List.getElem?_append_left hlt] at hr
        exact (hi.shown.records i r hr).congr fun l hl => hcur l (hne hl)
      · rw [List.getElem?_concat_length] at hr
        obtain rfl := Option.some.inj hr
        exact hrec.congr fun l hl => hcur l (hne hl)
      · rw [List.getElem?_eq_none (by simp; omega)] at hr
        cases hr
  have htidy : Tidy [] v := by
    refine ⟨?_, ?_, fun l hn _ => ?_⟩
    · rw [← hv]; exact (Untouched.store (by decide)).durable ht.metadata
    · have hd := ht.described
      refine ⟨?_, ?_, fun i o hw => ?_, fun i l hi hl => ?_⟩
      · rw [hlog]; exact hd.writes_le
      · rw [hlog]; exact hd.regions_le.trans (by simp)
      · rw [hlog] at hw ⊢
        rw [hper, hpend]
        exact hd.bytes i o hw
      · rw [hlog] at hi
        rw [hper, hpend, hcur l (hne hl)]
        exact hd.records i l hi hl
    · have hsame : ∀ m, m ≠ .uncommitedNumberOfEntries → u.Settled .backEnd m →
          v.Settled .backEnd m := by
        intro m hm hs
        rw [World.Settled, hper, hpend, hcur m hm]
        exact hs
      cases hn with
      | byte hw =>
        exact hsame _ (by simp) (ht.settled _ (.byte (by rw [hlog] at hw; exact hw)) (by simp))
      | @record i _ hlt hl =>
          rw [hlog, List.length_append, List.length_singleton] at hlt
          rcases Nat.lt_succ_iff_lt_or_eq.mp hlt with hlt | rfl
          · exact hsame _ (hne hl) (ht.settled _ (.record hlt hl) (by simp))
          · exact hsame _ (hne hl) (hset l hl)
  refine ⟨htidy.inv ?_ ?_ hshown ?_, htidy⟩
  · rw [BackQuiet, hpend]; exact hi.quiet
  · rw [hlog]; exact hi.covers
  · rw [hcur _ (by decide), hlog]; exact hi.stored

theorem ensures_addRegionRecord {addr size : Nat} {f : Unit → Code β} (ht : Tidy [] w)
    (hf : ∀ u, DescribedInv u → Tidy [] u → u.log.toBackLog = w.log.toBackLog →
      u.log.writes = w.log.writes → Ensures S describedProtocol .backEnd (f ()) Q u) :
    Ensures S describedProtocol .backEnd (regionTableAddRegionRecord addr size >>= f) Q w := by
  simp only [regionTableAddRegionRecord, Prog.bind_assoc]
  refine Ensures.load fun u₁ hr₁ hu => ?_
  have ht := ht.stable hr₁
  rw [hu.shown.counted]
  split
  · simp only [Prog.bind_assoc]
    refine Ensures.load fun u₂ hr₂ hu₂ => ?_
    have ht := ht.stable hr₂
    have hlen : u₂.log.regions = u₁.log.regions := congrArg ImageLog.regions hr₂.2.1.2
    rw [hu₂.shown.commitIndex, ← hlen]
    -- the fields are stored one after the other, at the index after the last record
    refine Ensures.storeAll (J := fun ss v => ∃ done,
      done ++ ss = recordStores u₂.log.regions.length addr size ∧
      (∀ s ∈ done, v.cur s.1 = s.2) ∧ Tidy [] v ∧ SameBack u₂.log v.log) hu₂ ⟨[], rfl, by
      simp, ht, .refl _⟩ ?_ ?_ ?_
    · rintro ss v x ⟨done, hss, hcur, ht, hl⟩ hr _
      refine ⟨done, hss, fun s hs => ?_, ht.stable hr, hl.trans hr.2.1⟩
      have hmem : s ∈ recordStores u₂.log.regions.length addr size :=
        hss ▸ List.mem_append_left _ hs
      rw [hr.1.cur _ (owned_record (mem_recordLocs hmem))]
      exact hcur s hs
    · rintro s ss v ⟨done, hss, hcur, ht, hl⟩ hv
      have hmem : s ∈ recordStores u₂.log.regions.length addr size := hss ▸ by simp
      have ha : Aloof v.log s.1 := aloof_record (by rw [hl.2]; exact mem_recordLocs hmem)
      obtain ⟨hi, ht⟩ := store_aloof hv ht ha (x := s.2) (f := id) (List.prefix_refl _) rfl
      refine ⟨allows_backEnd hi, done ++ [s], by simpa using hss, fun t htd => ?_, ht, hl⟩
      by_cases hts : t.1 = s.1
      · have htm : t ∈ recordStores u₂.log.regions.length addr size := by
          rcases List.mem_append.mp htd with htd | htd
          · exact hss ▸ List.mem_append_left _ htd
          · rw [List.mem_singleton.mp htd]; exact hmem
        obtain rfl := recordStores_injective htm hmem hts
        exact World.store_cur_self _ _ _ _
      · rcases List.mem_append.mp htd with htd | htd
        · rw [World.store_cur_of_ne v _ _ _ _ hts]; exact hcur t htd
        · exact absurd (by rw [List.mem_singleton.mp htd]) hts
    · rintro v hv ⟨done, hss, hcur, ht, hl⟩
      rw [List.append_nil] at hss
      rw [hss] at hcur
      have hrec : IsRecord v.cur u₂.log.regions.length (addr, size) := isRecord_of_stores hcur
      refine Ensures.flush fun x hr hx => ?_
      have hrec := hrec.congr fun l hl => hr.1.cur l (owned_record hl)
      have hl := hl.trans hr.2.1
      have hlx : x.log.regions.length = u₂.log.regions.length := by rw [hl.2]
      obtain ⟨hi, ht⟩ := flush_aloof hx (ht.stable hr)
        (show .commitMetadata ∉ recordLocs u₂.log.regions.length by simp [recordLocs]) fun l hl =>
        (aloof_record (by rw [hlx]; exact hl)).noted
      refine ⟨allows_backEnd hi, Ensures.storeRecord fun y hry hy => ?_⟩
      have hrec := hrec.congr fun l hl => hry.1.cur l (owned_record hl)
      have hset : ∀ l ∈ recordLocs u₂.log.regions.length, y.Settled .backEnd l :=
        fun l hl => hry.1.settled l (owned_record hl) (World.settled_flush_of_mem hl)
      have hly : SameBack u₂.log y.log := hl.trans hry.2.1
      have hlen : u₂.log.regions.length = y.log.regions.length := by rw [hly.2]
      rw [hlen] at hrec hset ⊢
      obtain ⟨hi, ht⟩ := count_record hy (ht.stable hry) hrec hset
      refine ⟨allows_backEnd hi, hf _ hi ht ?_ ?_⟩
      · exact (hly.1.trans hr₂.2.1.1).trans hr₁.2.1.1
      · show y.log.writes = w.log.writes
        rw [hly.2, hr₂.2.1.2, hr₁.2.1.2]
  · exact Ensures.kernel False.elim fun _ _ _ _ hx => by cases hx

end Regions

section Files

variable {β Phase : Type} {S : System Actor Loc Val Log Phase} {Q : β → State → Prop}

theorem backQuiet_truncate (h : BackQuiet w) (index : Nat) : BackQuiet (truncate index w) := by
  intro l hl
  cases l with
  | byte cell =>
      cases cell with
      | file i o =>
          show (if i = index then none else w.pending .frontEnd (.byte (.file i o))) = none
          split
          · rfl
          · exact h _ hl
      | anonymous a => exact h _ hl
  | _ => exact h _ hl

theorem untouched_truncate (hs : Shown w) {l : Loc} (hn : Noted w.log l) :
    Untouched w (truncate (w.cur .sequenceNumber) w) l := by
  cases hn with
  | @byte i o hw =>
      have hne : i ≠ w.cur .sequenceNumber := Nat.ne_of_lt (hs.created i o hw)
      refine ⟨if_neg hne, if_neg hne, fun a => if_neg hne⟩
  | record hi hl =>
      simp only [recordLocs, List.mem_cons, List.not_mem_nil, or_false] at hl
      rcases hl with rfl | rfl | rfl | rfl <;> exact ⟨rfl, rfl, fun _ => rfl⟩

theorem ensures_createPmemFile {f : Nat → Code β} (ht : Tidy dirty w)
    (hf : ∀ i u, DescribedInv u → Tidy dirty u → SameBack w.log u.log → i < u.cur .sequenceNumber →
      Ensures S describedProtocol .backEnd (f i) Q u) :
    Ensures S describedProtocol .backEnd (createPmemFile >>= f) Q w := by
  simp only [createPmemFile, Prog.bind_assoc]
  refine Ensures.load fun u₁ hr₁ hu => ?_
  have ht := ht.stable hr₁
  generalize hseq : u₁.cur .sequenceNumber = i
  refine Ensures.kernel False.elim fun u₂ hr₂ hu v hv => ?_
  have hseq : u₂.cur .sequenceNumber = i := (hr₂.1.cur .sequenceNumber rfl).trans hseq
  obtain rfl := Option.some.inj hv
  have hn : ∀ l, Noted u₂.log l → Untouched u₂ (truncate i u₂) l :=
    fun l hl => hseq ▸ untouched_truncate hu.shown hl
  obtain ⟨hi, ht⟩ :=
    beside hu (ht.stable hr₂) (backQuiet_truncate hu.quiet i) (List.prefix_refl _) rfl
    ⟨rfl, rfl, fun _ => rfl⟩ hn (hu.shown.congr hn rfl rfl rfl rfl le_rfl hu.shown.mapped)
  refine ⟨allows_backEnd hi, Ensures.store fun u₃ hr₃ hu => ?_⟩
  have hseq : u₃.cur .sequenceNumber = i := (hr₃.1.cur .sequenceNumber rfl).trans hseq
  have hn : ∀ l, Noted u₃.log l → Untouched u₃ (u₃.store .sequenceNumber (i + 1) id) l := by
    intro l hl
    refine .store ?_
    rintro rfl
    rcases noted_cases hl with ⟨c, hc⟩ | ⟨j, -, hj⟩
    · cases hc
    · simp [recordLocs] at hj
  have hle : u₃.cur .sequenceNumber ≤ (u₃.store .sequenceNumber (i + 1) id).cur
      .sequenceNumber := by
    rw [World.store_cur_self, hseq]; exact Nat.le_succ i
  obtain ⟨hi, ht⟩ := beside (v := u₃.store .sequenceNumber (i + 1) id) hu (ht.stable hr₃) hu.quiet
    (List.prefix_refl _) rfl
    (.store (by decide)) hn
    (hu.shown.congr hn rfl rfl (World.store_cur_of_ne u₃ _ _ _ _ (by decide))
      (World.store_cur_of_ne u₃ _ _ _ _ (by decide)) hle (by
        rw [World.store_cur_of_ne u₃ _ _ _ _ (by decide)]
        exact fun m hm j hj => (hu.shown.mapped m hm j hj).trans_le hle))
  refine ⟨allows_backEnd hi, hf i _ hi ht (.trans hr₁.2.1 (.trans hr₂.2.1 hr₃.2.1)) ?_⟩
  rw [World.store_cur_self]
  exact Nat.lt_succ_self i

theorem ensures_mapFixed {m : Mapping} {f : Unit → Code β} (ht : Tidy dirty w)
    (hm : ∀ i, m.backing = .file i → i < w.cur .sequenceNumber)
    (hf : ∀ u, DescribedInv u → Tidy dirty u → SameBack w.log u.log →
      Ensures S describedProtocol .backEnd (f ()) Q u) :
    Ensures S describedProtocol .backEnd (mapFixed m >>= f) Q w := by
  simp only [mapFixed, Prog.bind_assoc]
  refine Ensures.load fun u₁ hr₁ hu => ?_
  have ht := ht.stable hr₁
  refine Ensures.store fun u₂ hr₂ hu => ?_
  have hms : u₁.cur .addressMap = u₂.cur .addressMap := (hr₂.1.cur .addressMap rfl).symm
  have hseq : u₂.cur .sequenceNumber = w.cur .sequenceNumber :=
    (hr₂.1.cur .sequenceNumber rfl).trans (hr₁.1.cur .sequenceNumber rfl)
  have hn : ∀ l, Noted u₂.log l →
      Untouched u₂ (u₂.store .addressMap (m :: u₁.cur .addressMap) id) l := by
    intro l hl
    refine .store ?_
    rintro rfl
    rcases noted_cases hl with ⟨c, hc⟩ | ⟨j, -, hj⟩
    · cases hc
    · simp [recordLocs] at hj
  have hcur : ∀ l, l ≠ .addressMap →
      (u₂.store .addressMap (m :: u₁.cur .addressMap) id).cur l = u₂.cur l :=
    fun l hl => World.store_cur_of_ne u₂ l _ _ _ hl
  obtain ⟨hi, ht⟩ :=
    beside (v := u₂.store .addressMap (m :: u₁.cur .addressMap) id) hu (ht.stable hr₂) hu.quiet
    (List.prefix_refl _) rfl (.store (by decide)) hn (hu.shown.congr hn rfl rfl (hcur _ (by decide))
      (hcur _ (by decide)) (hcur _ (by decide)).ge (by
      rw [World.store_cur_self, hcur _ (by decide), hms]
      intro m' hm' i hi
      rcases List.mem_cons.mp hm' with rfl | hm'
      · rw [hseq]; exact hm i hi
      · exact hu.shown.mapped m' hm' i hi))
  exact ⟨allows_backEnd hi, hf _ hi ht (.trans hr₁.2.1 hr₂.2.1)⟩

theorem ensures_zeroPages {addr size : Nat} {f : Unit → Code β} (ht : Tidy dirty w)
    (hf : ∀ u, DescribedInv u → Tidy dirty u → SameBack w.log u.log →
      Ensures S describedProtocol .backEnd (f ()) Q u) :
    Ensures S describedProtocol .backEnd
    (Prog.kernel (fun w => some (zeroPages addr size w)) >>= f) Q w := by
  refine Ensures.kernel False.elim fun u hr hu v hv => ?_
  obtain rfl := Option.some.inj hv
  have hn : ∀ l, Noted u.log l → Untouched u (zeroPages addr size u) l := by
    intro l hl
    cases hl with
    | byte _ => exact ⟨rfl, rfl, fun _ => rfl⟩
    | record hi hl =>
        simp only [recordLocs, List.mem_cons, List.not_mem_nil, or_false] at hl
        rcases hl with rfl | rfl | rfl | rfl <;> exact ⟨rfl, rfl, fun _ => rfl⟩
  obtain ⟨hi, ht⟩ :=
    beside (v := zeroPages addr size u) hu (ht.stable hr) hu.quiet (List.prefix_refl _) rfl
    ⟨rfl, rfl, fun _ => rfl⟩ hn (hu.shown.congr hn rfl rfl rfl rfl le_rfl hu.shown.mapped)
  exact ⟨allows_backEnd hi, hf _ hi ht hr.2.1⟩

end Files

section Redo

variable {β Phase : Type} {S : System Actor Loc Val Log Phase} {Q : β → State → Prop}

theorem translate_created {ms : List Mapping} {n : Nat}
    (h : ∀ m ∈ ms, ∀ i, m.backing = .file i → i < n) {a i o : Nat}
    (ht : Memory.translate ms a = .file i o) : i < n := by
  rcases Image.translate_cases ms a with hc | ⟨m, hm, j, hj, -, hc⟩
  · rw [hc] at ht; cases ht
  · rw [hc] at ht
    obtain ⟨rfl, -⟩ := Cell.file.inj ht
    exact h m hm j hj

theorem written_concat {ws : List (Cell × UInt8)} {c d : Cell} {x : UInt8}
    (h : Written (ws ++ [(c, x)]) d) : Written ws d ∨ c = d := by
  obtain ⟨y, hy, rfl⟩ := h
  rcases List.mem_append.mp hy with hy | hy
  · exact .inl ⟨y, hy, rfl⟩
  · rw [List.mem_singleton.mp hy]; exact .inr rfl

theorem store_byte (hi : DescribedInv u) (ht : Tidy dirty u) {c : Cell} (x : UInt8)
    (hd : .byte c ∈ dirty) (hc : ∀ i o, c = .file i o → i < u.cur .sequenceNumber) :
    DescribedInv (u.store (.byte c) x (noteWrite ⟨.byte c, x⟩)) ∧
      Tidy dirty (u.store (.byte c) x (noteWrite ⟨.byte c, x⟩)) := by
  generalize hv : u.store (.byte c) x (noteWrite ⟨.byte c, x⟩) = v
  have hcur : ∀ l, l ≠ .byte c → v.cur l = u.cur l := fun l hl => by
    rw [← hv]; exact World.store_cur_of_ne u l (.byte c) _ x hl
  have hself : v.cur (.byte c) = x := by rw [← hv]; exact World.store_cur_self u (.byte c) _ x
  have hper : v.per = u.per := by rw [← hv]; rfl
  have hpend : v.pending = u.pending := by rw [← hv]; rfl
  have hlog : v.log = { u.log with writes := u.log.writes ++ [(c, x)] } := by rw [← hv]; rfl
  have hrec : ∀ {i : Nat} {l : Loc}, l ∈ recordLocs i → l ≠ .byte c := by
    rintro i l hl rfl
    simp [recordLocs] at hl
  have hshown : Shown v := by
    refine ⟨fun i o hw => ?_, fun i o hw => ?_, ?_, ?_, ?_, fun i r hr => ?_⟩
    · rw [hlog] at hw ⊢
      rw [lastWritten, RedoLog.apply_concat]
      by_cases hcell : c = .file i o
      · subst hcell
        rw [hself, Function.update_self]
      · rw [hcur _ (by simpa using Ne.symm hcell), Function.update_of_ne (Ne.symm hcell)]
        exact hi.shown.bytes i o ((written_concat hw).resolve_right hcell)
    · rw [hlog] at hw
      rw [hcur _ (by simp)]
      rcases written_concat hw with hw | hw
      · exact hi.shown.created i o hw
      · exact hc i o hw
    · rw [hcur _ (by simp), hcur _ (by simp)]; exact hi.shown.mapped
    · rw [hcur _ (by simp), hlog]; exact hi.shown.counted
    · rw [hcur _ (by simp)]; exact hi.shown.commitIndex
    · rw [hlog] at hr
      exact (hi.shown.records i r hr).congr fun l hl => hcur l (hrec hl)
  have htidy : Tidy dirty v := by
    refine ⟨?_, ?_, fun l hn hnd => ?_⟩
    · rw [← hv]; exact (Untouched.store (by simp)).durable ht.metadata
    · have hdes := ht.described
      refine ⟨?_, ?_, fun i o hw => ?_, fun i l hi hl => ?_⟩
      · rw [hlog]; exact hdes.writes_le.trans (by simp)
      · rw [hlog]; exact hdes.regions_le
      · rw [hlog] at hw ⊢
        rw [hper, hpend]
        change Written ((u.log.writes ++ [(c, x)]).take (latest u.log).writes) _ at hw
        rw [List.take_append_of_le_length hdes.writes_le] at hw
        obtain ⟨h₁, h₂⟩ := hdes.bytes i o hw
        exact ⟨h₁.append, fun v hv => (h₂ v hv).append⟩
      · rw [hlog] at hi
        rw [hper, hpend, hcur l (hrec hl)]
        exact hdes.records i l hi hl
    · have hne : l ≠ .byte c := by rintro rfl; exact hnd hd
      rw [World.Settled, hper, hpend, hcur l hne]
      refine ht.settled l ?_ hnd
      cases hn with
      | @byte i o hw =>
          rw [hlog] at hw
          exact .byte ((written_concat hw).resolve_right fun h => hne (by rw [h]))
      | record hi hl => exact .record (by rw [hlog] at hi; exact hi) hl
  refine ⟨htidy.inv ?_ ?_ hshown ?_, htidy⟩
  · rw [BackQuiet, hpend]; exact hi.quiet
  · rw [hlog]; exact hi.covers
  · rw [hcur _ (by simp), hlog]; exact hi.stored

/-- The bytes of a redo entry are noted as they are stored, and settled by the
flush that follows them. -/
theorem ensures_applyRedo {held : Nat → Bool} {addr : Nat} {payload : Payload}
    {f : Unit → Code β} (ht : Tidy [] w)
    (hf : ∀ u, DescribedInv u → Tidy [] u → u.log.toBackLog = w.log.toBackLog →
      u.log.writes.length = w.log.writes.length + payloadSize →
      Ensures S describedProtocol .backEnd (f ()) Q u) :
    Ensures S describedProtocol .backEnd (applyRedo held addr payload >>= f) Q w := by
  simp only [applyRedo, Prog.bind_assoc]
  refine Ensures.load fun u hr₀ hu => ?_
  have ht := ht.stable hr₀
  split
  case isFalse => exact Ensures.stuck id
  rw [Prog.bind_assoc]
  have hseq : ∀ m ∈ u.cur .addressMap, ∀ i, m.backing = .file i → i < u.cur .sequenceNumber :=
    hu.shown.mapped
  generalize hss : redoStores (u.cur .addressMap) addr payload = all
  have hlen : all.length = payloadSize := by
    rw [← hss, redoStores, List.length_map, List.length_finRange]
  have hall : ∀ s ∈ all, ∃ a x, s = ⟨.byte (Memory.translate (u.cur .addressMap) a), x⟩ := by
    rw [← hss]
    intro s hs
    obtain ⟨k, -, rfl⟩ := List.mem_map.mp hs
    exact ⟨_, _, rfl⟩
  have hdirty : Tidy (all.map (·.1)) u :=
    ⟨ht.metadata, ht.described, fun l hn _ => ht.settled l hn (by simp)⟩
  refine Ensures.storeAll (J := fun ss v => ss <:+ all ∧ Tidy (all.map (·.1)) v ∧
    v.cur .sequenceNumber = u.cur .sequenceNumber ∧ v.log.toBackLog = u.log.toBackLog ∧
    v.log.writes.length + ss.length = u.log.writes.length + all.length) hu
    ⟨List.suffix_refl _, hdirty, rfl, rfl, rfl⟩ ?_ ?_ ?_
  · rintro ss v x ⟨hsub, ht, hq, hb, hc⟩ hr _
    refine ⟨hsub, ht.stable hr, (hr.1.cur .sequenceNumber rfl).trans hq, hr.2.1.1.trans hb, ?_⟩
    rw [hr.2.1.2]; exact hc
  · rintro s ss v ⟨hsub, ht, hq, hb, hc⟩ hv
    have hmem : s ∈ all := hsub.subset (by simp)
    obtain ⟨a, x, rfl⟩ := hall s hmem
    obtain ⟨hi, ht⟩ := store_byte hv ht x (List.mem_map.mpr ⟨_, hmem, rfl⟩) fun i o hio => by
      rw [hq]; exact translate_created hseq hio
    refine ⟨allows_backEnd hi, (List.suffix_cons _ _).trans hsub, ht, ?_, hb, ?_⟩
    · exact (World.store_cur_of_ne v .sequenceNumber (.byte _) _ x (by simp)).trans hq
    · rw [List.length_cons] at hc
      show (v.log.writes ++ [_]).length + ss.length = _
      rw [List.length_append, List.length_singleton]
      omega
  · rintro v hv ⟨-, ht, -, hb, hc⟩
    refine Ensures.flush fun x hr hx => ?_
    have ht := ht.stable hr
    have hm : (x.flush .backEnd (all.map (·.1))).Durable .backEnd .commitMetadata := by
      refine (Untouched.flush ?_).durable ht.metadata
      intro h
      obtain ⟨s, hs, he⟩ := List.mem_map.mp h
      obtain ⟨a, y, rfl⟩ := hall s hs
      cases he
    have htidy : Tidy [] (x.flush .backEnd (all.map (·.1))) :=
      ⟨hm, Describes.flush ht.described hx.shown _, ht.settled.flush_dirty⟩
    have hi := htidy.inv (hx.quiet.flush _) hx.covers (hx.shown.of_cur rfl rfl) hx.stored
    refine ⟨allows_backEnd hi, hf _ hi htidy (hr.2.1.1.trans (hb.trans hr₀.2.1.1)) ?_⟩
    rw [List.length_nil, Nat.add_zero, hlen, hr₀.2.1.2] at hc
    show x.log.writes.length = _
    rw [hr.2.1.2, hc]

end Redo

section Commit

variable {β Phase : Type} {S : System Actor Loc Val Log Phase} {Q : β → State → Prop}

/-- Between two entries: all that was read has been stored and flushed. -/
structure AtEntry (w : State) : Prop extends Tidy [] w where
  tally : w.log.writes.length = payloadSize * redos w.log.dequeued

theorem AtEntry.stable (h : AtEntry u) (hr : describedProtocol.rely .backEnd u v) : AtEntry v := by
  refine ⟨h.toTidy.stable hr, ?_⟩
  rw [hr.2.1.1, hr.2.1.2]
  exact h.tally

theorem store_metadata (hi : DescribedInv u) (ht : AtEntry u) {x : AtomicPmemCommit}
    (hx : x.numberOfRegions = u.log.regions.length) :
    DescribedInv (u.store .commitMetadata x (fun g => { g with
        commits := ⟨x, g.dequeued.length, g.writes.length⟩ :: g.commits })) ∧
      Ready (u.store .commitMetadata x (fun g => { g with
        commits := ⟨x, g.dequeued.length, g.writes.length⟩ :: g.commits })) := by
  have hne : ∀ l, Noted u.log l → l ≠ .commitMetadata := by
    rintro l hl rfl
    rcases noted_cases hl with ⟨c, hc⟩ | ⟨j, -, hj⟩
    · cases hc
    · simp [recordLocs] at hj
  have hn : ∀ l, Noted u.log l → Untouched u (u.store .commitMetadata x (fun g => { g with
      commits := ⟨x, g.dequeued.length, g.writes.length⟩ :: g.commits })) l :=
        fun l hl => .store (hne l hl)
  have hready : Ready (u.store .commitMetadata x (fun g => { g with
      commits := ⟨x, g.dequeued.length, g.writes.length⟩ :: g.commits })) :=
    ⟨rfl, hx, ht.settled.congr hn rfl rfl⟩
  have hcur : ∀ l, l ≠ .commitMetadata → (u.store .commitMetadata x (fun g => { g with
      commits := ⟨x, g.dequeued.length, g.writes.length⟩ :: g.commits })).cur l = u.cur l :=
    fun l hl => World.store_cur_of_ne u l _ _ _ hl
  refine ⟨⟨hi.quiet, ?_, ?_, World.store_cur_self _ _ _ _, .inr ⟨?_, ?_, hready⟩,
    .inl ht.metadata.1⟩, hready⟩
  · intro r hr
    rcases List.mem_cons.mp hr with rfl | hr
    · refine ⟨le_rfl, show u.log.writes.length = payloadSize * redos
        (u.log.dequeued.take u.log.dequeued.length) from ?_⟩
      rw [List.take_length]
      exact ht.tally
    · exact hi.covers r hr
  · refine hi.shown.congr hn rfl rfl (hcur _ (by decide)) (hcur _ (by decide))
      (hcur _ (by decide)).ge ?_
    rw [hcur _ (by decide), hcur _ (by decide)]
    exact hi.shown.mapped
  · exact ht.metadata.2.trans hi.stored
  · exact Describes.congr hn rfl rfl ht.described

theorem flush_metadata (hi : DescribedInv u) (hr : Ready u) :
    DescribedInv (u.flush .backEnd [.commitMetadata]) ∧
    Ready (u.flush .backEnd [.commitMetadata]) := by
  have hready : Ready (u.flush .backEnd [.commitMetadata]) :=
    ⟨hr.writes, hr.regions, hr.settled.flush _⟩
  refine ⟨⟨hi.quiet.flush _, hi.covers, hi.shown.of_cur rfl rfl, hi.stored, ?_, .inr ⟨?_, hready⟩⟩,
    hready⟩
  · exact hi.durable.imp (fun hd => ⟨hd.1, Describes.flush hd.2 hi.shown _⟩)
      fun hd => ⟨hd.1, Describes.flush hd.2.1 hi.shown _, hready⟩
  · rw [World.flush_pending_of_mem u _ _ _ (by simp), hi.stored]
    rfl

theorem ensures_fence {f : Unit → Code β} (ht : Tidy [] w)
    (hf : ∀ u, DescribedInv u → Tidy [] u → SameBack w.log u.log →
      Ensures S describedProtocol .backEnd (f ()) Q u) :
    Ensures S describedProtocol .backEnd (Prog.fence >>= f) Q w := by
  refine Ensures.fence fun u hr hu => ?_
  exact ⟨allows_backEnd hu.fence, hf _ hu.fence (ht.stable hr).fence hr.2.1⟩

theorem ensures_flush_aloof {ls : List Loc} {f : Unit → Code β} (ht : Tidy [] w)
    (hm : .commitMetadata ∉ ls) (hb : ∀ l ∈ ls, ∀ g : Log, ¬ Noted g l)
    (hf : ∀ u, DescribedInv u → Tidy [] u → SameBack w.log u.log →
      Ensures S describedProtocol .backEnd (f ()) Q u) :
    Ensures S describedProtocol .backEnd (Prog.flush ls >>= f) Q w := by
  refine Ensures.flush fun u hr hu => ?_
  obtain ⟨hi, ht⟩ := flush_aloof hu (ht.stable hr) hm fun l hl => hb l hl u.log
  exact ⟨allows_backEnd hi, hf _ hi ht hr.2.1⟩

theorem ensures_regionTableCommit {f : Unit → Code β} (ht : Tidy [] w)
    (hf : ∀ u, DescribedInv u → Tidy [] u → SameBack w.log u.log →
      Ensures S describedProtocol .backEnd (f ()) Q u) :
    Ensures S describedProtocol .backEnd (regionTableCommit >>= f) Q w := by
  simp only [regionTableCommit, Prog.bind_assoc]
  refine ensures_fence ht fun u₁ _ ht hl₁ => ?_
  refine Ensures.load fun u₂ hr _ => ?_
  refine ensures_store_aloof (ht.stable hr) (fun _ => aloof_numberOfEntries) fun u₃ _ ht hl₃ => ?_
  refine ensures_flush_aloof ht (by decide) ?_ fun u₄ _ ht hl₄ => ?_
  · intro l hl g
    simp only [List.mem_cons, List.not_mem_nil, or_false] at hl
    rcases hl with rfl | rfl <;> exact not_noted (by simp) (by simp [recordLocs])
  · refine ensures_fence ht fun u₅ hu ht hl₅ => hf u₅ hu ht ?_
    exact hl₁.trans (.trans hr.2.1 (hl₃.trans (hl₄.trans hl₅)))

theorem ensures_commitRbBatch {f : Unit → Code β} (ht : AtEntry w)
    (hf : ∀ u, DescribedInv u → Tidy [] u → u.log.dequeued = w.log.dequeued →
      u.log.writes = w.log.writes → Ensures S describedProtocol .backEnd (f ()) Q u) :
    Ensures S describedProtocol .backEnd (commitRbBatch >>= f) Q w := by
  simp only [commitRbBatch, commitBatch, ringBufferCommitDequeuedEntries, Prog.bind_assoc]
  refine Ensures.load fun u₁ hr₁ hu => ?_
  have ht := ht.stable hr₁
  rw [hu.shown.counted]
  refine Ensures.load fun u₂ hr₂ hu => ?_
  have ht := ht.stable hr₂
  refine Ensures.storeRecord fun u₃ hr₃ hu => ?_
  have hl₃ : SameBack w.log u₃.log := .trans hr₁.2.1 (.trans hr₂.2.1 hr₃.2.1)
  obtain ⟨hi, hready⟩ :=
    store_metadata (x := ⟨u₁.log.regions.length, u₂.cur .globalLocalHead⟩) hu (ht.stable hr₃) (by
    rw [hr₃.2.1.2, hr₂.2.1.2])
  refine ⟨allows_backEnd hi, Ensures.flush fun u₄ hr₄ hu => ?_⟩
  obtain ⟨hi, hready⟩ := flush_metadata hu (hready.stable hr₄)
  have hset : (u₄.flush .backEnd [.commitMetadata]).Settled .backEnd .commitMetadata :=
    World.settled_flush_of_mem (by simp)
  refine ⟨allows_backEnd hi, Ensures.fence fun u₅ hr₅ hu => ?_⟩
  have hready := hready.stable hr₅
  have hd₅ : u₅.log.dequeued = w.log.dequeued := by
    rw [hr₅.2.1.1, World.flush_log, hr₄.2.1.1]
    exact congrArg BackLog.dequeued hl₃.1
  have hw₅ : u₅.log.writes = w.log.writes := by
    rw [hr₅.2.1.2, World.flush_log, hr₄.2.1.2]
    show u₃.log.writes = w.log.writes
    rw [hl₃.2]
  have ht : Tidy [] (u₅.fence .backEnd) :=
    ⟨World.durable_fence (hr₅.1.settled _ rfl hset), hready.describes_fence hu.shown,
      hready.settled.fence⟩
  refine ⟨allows_backEnd hu.fence, ensures_regionTableCommit ht fun u₆ _ ht hl₆ => ?_⟩
  refine ensures_fence ht fun u₇ _ ht hl₇ => ?_
  refine Ensures.load fun u₈ hr₈ _ => ?_
  refine Ensures.storeRecord fun u₉ hr₉ hu => ?_
  obtain ⟨hi, ht⟩ :=
    store_aloof hu ((ht.stable hr₈).stable hr₉) aloof_remoteHead (x := u₈.cur .globalLocalHead)
    (f := fun g => { g with committed := g.dequeued.length, committedBefore := g.committed })
    (List.prefix_refl _) rfl
  refine ⟨allows_backEnd hi, ?_⟩
  have hl₉ : SameBack u₅.log u₉.log := hl₆.trans (hl₇.trans (.trans hr₈.2.1 hr₉.2.1))
  refine ensures_flush_aloof ht (by decide) (by
    intro l hl g
    rw [List.mem_singleton.mp hl]
    exact aloof_remoteHead.noted) fun u₁₀ _ ht hl₁₀ => ?_
  refine ensures_fence ht fun u₁₁ _ ht hl₁₁ => ?_
  refine Ensures.load fun u₁₂ hr₁₂ _ => ?_
  refine ensures_store_aloof (ht.stable hr₁₂) (fun _ => aloof_lastPersistedHead)
    fun u₁₃ hu ht hl₁₃ => ?_
  have hl := hl₁₀.trans (hl₁₁.trans (.trans hr₁₂.2.1 hl₁₃))
  refine hf u₁₃ hu ht ?_ ?_
  · rw [hl.1, ← hd₅]
    show u₉.log.dequeued = u₅.log.dequeued
    rw [hl₉.1]
  · rw [hl.2, ← hw₅]
    exact congrArg ImageLog.writes hl₉.2

theorem redos_concat (es : List Entry) (e : Entry) :
    redos (es ++ [e]) = redos es + if e.entryType = .redo then 1 else 0 := by
  simp [redos, List.countP_append, List.countP_singleton]

theorem ensures_handleEntry {held : Nat → Bool} {slot : Nat} {type : EntryType} (ht : AtEntry w) :
    Ensures S describedProtocol .backEnd (handleEntry held slot type) (fun _ u => AtEntry u) w := by
  have hdone : ∀ {u : State}, AtEntry u → Ensures S describedProtocol .backEnd (.ret ())
      (fun _ u => AtEntry u) u :=
    fun h => Ensures.ret fun x hr _ => h.stable hr
  rw [← Prog.bind_ret (handleEntry held slot type)]
  cases type with
  | mmap =>
      simp only [handleEntry, Prog.bind_assoc]
      refine Ensures.load fun u hr _ => ?_
      have ht := ht.stable hr
      refine Ensures.load fun u' hr _ => ?_
      have ht := ht.stable hr
      refine ensures_recordDequeued ht.toTidy fun v _ hv hd hl => ?_
      simp only [regionTableCreateMemoryRegion, Prog.bind_assoc]
      refine ensures_addRegionRecord hv fun x _ hx hb hw => ?_
      refine ensures_createPmemFile hx fun i y _ hy hl' hi => ?_
      refine ensures_mapFixed hy (fun j hj => Backing.file.inj hj ▸ hi) fun z _ hz hl'' =>
        hdone ⟨hz, ?_⟩
      rw [hl''.1, hl''.2, hl'.1, hl'.2, hb, hw, hd, redos_concat, hl]
      exact ht.tally
  | transientMmap =>
      simp only [handleEntry, Prog.bind_assoc]
      refine Ensures.load fun u hr _ => ?_
      have ht := ht.stable hr
      refine Ensures.load fun u' hr _ => ?_
      have ht := ht.stable hr
      refine ensures_recordDequeued ht.toTidy fun v _ hv hd hl => ?_
      refine ensures_zeroPages hv fun x _ hx hl' => ?_
      refine ensures_mapFixed hx (fun j hj => by cases hj) fun z _ hz hl'' => hdone ⟨hz, ?_⟩
      rw [hl''.1, hl''.2, hl'.1, hl'.2, hd, redos_concat, hl]
      exact ht.tally
  | redo =>
      simp only [handleEntry, Prog.bind_assoc]
      refine Ensures.load fun u hr hu => ?_
      have ht := ht.stable hr
      refine Ensures.loads (R := fun _ _ => True) (fun _ _ _ _ => trivial) hu fun p u' _ hr _ => ?_
      have ht := ht.stable hr
      refine ensures_recordDequeued ht.toTidy fun v _ hv hd hl => ?_
      refine ensures_applyRedo hv fun x _ hx hb hw => hdone ⟨hx, ?_⟩
      rw [hw, hb, hd, redos_concat, hl, ht.tally,
        if_pos (show (Entry.redo _ _).entryType = .redo from rfl), Nat.mul_succ]
  | commit =>
      simp only [handleEntry, Prog.bind_assoc]
      refine ensures_recordDequeued ht.toTidy fun v _ hv hd hl => ?_
      have hv : AtEntry v := by
        refine ⟨hv, ?_⟩
        rw [hd, redos_concat, hl]
        exact ht.tally
      refine ensures_commitRbBatch hv fun x _ hx hd hw => ?_
      refine ensures_fence hx fun y _ hy hl => hdone ⟨hy, ?_⟩
      rw [hl.1, hl.2, hd, hw]
      exact hv.tally

theorem ensures_runConsumer (ht : AtEntry w) :
    Ensures S describedProtocol .backEnd (runConsumer N) (fun _ u => AtEntry u) w := by
  refine Ensures.load fun u hr _ => ?_
  have ht := ht.stable hr
  refine Ensures.load fun u' hr _ => ?_
  have ht := ht.stable hr
  split
  · exact Ensures.pure fun v hr _ => ht.stable hr
  · refine ensures_ringBufferDequeue ht.toTidy fun slot v _ hv hl => ?_
    have hv : AtEntry v := ⟨hv, by rw [hl.1, hl.2]; exact ht.tally⟩
    refine Ensures.load fun v' hr _ => ?_
    exact ensures_handleEntry (hv.stable hr)

end Commit

section Initial

variable (bytes : Cell → UInt8) (regions : List (Nat × Nat))

theorem shown_initial : Shown (initial bytes regions) := by
  refine ⟨?_, ?_, ?_, rfl, rfl, ?_⟩
  · rintro i o ⟨x, hx, -⟩
    cases hx
  · rintro i o ⟨x, hx, -⟩
    cases hx
  · intro m hm i hi
    simp only [initial, initialValue, initialMappings, List.mem_reverse, List.mem_mapIdx] at hm
    obtain ⟨j, hj, rfl⟩ := hm
    obtain rfl := Backing.file.inj hi
    exact hj
  · intro i r hr
    have hget : regions.getD i (0, 0) = r := by
      rw [List.getD_eq_getElem?_getD, show regions[i]? = some r from hr]; rfl
    exact ⟨congrArg Prod.fst hget, congrArg Prod.snd hget, rfl, rfl⟩

theorem atEntry_initial : AtEntry (initial bytes regions) := by
  refine ⟨⟨⟨rfl, rfl⟩, ⟨Nat.zero_le _, Nat.zero_le _, ?_, ?_⟩, fun l _ _ => .inr ⟨rfl, rfl⟩⟩, rfl⟩
  · rintro i o ⟨x, hx, -⟩
    cases hx
  · exact fun i l hi _ => absurd hi (Nat.not_lt_zero i)

theorem describedInv_initial : DescribedInv (initial bytes regions) := by
  refine (atEntry_initial bytes regions).inv (fun _ _ => rfl) ?_ (shown_initial bytes regions) rfl
  intro r hr
  cases hr

end Initial

/-- The durable pair is the one of a commit, and all that this commit describes
is durable: its records, and every byte that the redo entries before its head
wrote, unless a later entry has written it again. -/
structure Behind (N : Nat) (regions : List (Nat × Nat)) (w : State) (r : CommitRecord) : Prop where
  pair : w.per .commitMetadata = r.metadata
  head : r ∈ w.log.commits → Counted N regions w.log.dequeued r ∧ Covers w.log.dequeued r
  records : ∀ i, i < r.metadata.numberOfRegions → ∃ reg, w.log.regions[i]? = some reg ∧
    IsRecord w.per i reg
  bytes : ∀ i o, Written (w.log.writes.take r.writes) (.file i o) →
    RedoLog.Since w.log.writes (fun _ => 0) r.writes (.file i o) (w.per (.byte (.file i o)))

/-- `commit_metadata` is not durable ahead of what it describes. -/
def MetadataBehind (N : Nat) (regions : List (Nat × Nat)) (w : State) : Prop :=
  ∃ r ∈ creation :: w.log.commits, Behind N regions w r

theorem metadataBehind_of_inv {regions : List (Nat × Nat)} (hi : DescribedInv w)
    (hm : MetadataInv N regions w) : MetadataBehind N regions w := by
  have hof : ∀ r ∈ creation :: w.log.commits, w.per .commitMetadata = r.metadata →
      DescribesCommit r w → MetadataBehind N regions w := by
    intro r hr hp hd
    refine ⟨r, hr, hp, fun hr => ⟨hm.counted r hr, hi.covers r hr⟩, fun i hlt => ?_,
      fun i o hw => (hd.bytes i o hw).1⟩
    have hget := List.getElem?_eq_getElem (hlt.trans_le hd.regions_le)
    exact ⟨_, hget, (hi.shown.records i _ hget).congr fun l hl => (hd.records i l hlt hl).1⟩
  rcases hi.durable with ⟨hp, hd⟩ | ⟨hp, hd, -⟩
  · exact hof _ (Relaunch.latest_mem _) hp hd
  · exact hof _ (Relaunch.previous_mem _) hp hd

/-- In every run in which the cache does not write `commit_metadata` back before
what it describes is durable, it is never durable ahead of it. -/
theorem metadata_behind (N : Nat) (hN : 2 ≤ N) (bytes : Cell → UInt8) (regions : List (Nat × Nat))
    (c : Config Actor Loc Val Log Unit)
    (h : (ringSystem N admitsMetadata).Reachable (initial bytes regions) c) :
    MetadataBehind N regions c.world := by
  have hs := serves_ringSystem (N := N) admitsMetadata
  refine metadataBehind_of_inv ?_ (metadataInv_of_reachable hs hN h)
  refine inv_of_reachable (P := describedProtocol) (R := AtEntry) hs not_false
    (describedInv_initial bytes regions)
    (atEntry_initial bytes regions) (fun u v hu hr => hu.stable hr)
    (fun u v hu hf => Described.allows_frontEnd hu hf)
    (fun w l hw ha => ⟨hw.writeBack ha.2, fun a => ?_⟩) (fun w hw => ensures_runConsumer hw) h
  cases a with
  | frontEnd => trivial
  | backEnd => exact ⟨.writeBack _ _ _ _, .refl _, fun k n hd => hd.writeBack hw.shown l⟩

open SoloRing Overrun SoloBackEnd

/-- Two commits: the first counts a region that was mapped, the second covers an
entry that writes to it. -/
theorem metadata_behind_committed :
    ∃ c, (ringSystem ringBufferSize admitsMetadata).Reachable
    (initial (fun _ => 0) [(4096, 8192)]) c ∧
      c.world.per .commitMetadata = ⟨2, 4⟩ ∧ .redo 16384 (fun _ => 0) ∈ c.world.log.dequeued ∧
      MetadataBehind ringBufferSize [(4096, 8192)] c.world := by
  have hF : (ringSystem ringBufferSize admitsMetadata).Lenient .frontEnd :=
    fun _ _ _ => ⟨by simp, trivial⟩
  have hB : (ringSystem ringBufferSize admitsMetadata).Unrestricted .backEnd :=
    fun _ _ => ⟨by simp, trivial⟩
  obtain ⟨v, hv, hs⟩ := Relaunch.exists_secondRegion hF hB (by decide) (fun _ => 0)
    (Relaunch.opens_mmap 16384 4096) consumes_ring reachable_atRest
  obtain ⟨u, hu, hround⟩ := hs.round_move hB (by decide) hv consumes_ring
  obtain ⟨x, hx, ht⟩ :=
    transfer_move hF hB (by decide) (by decide) hround.level hu (opens_redo 16384) consumes_ring
  refine ⟨_, hx, ?_, ?_, metadata_behind ringBufferSize (by decide)
    (fun _ => 0) [(4096, 8192)] _ hx⟩
  · show x.per .commitMetadata = _
    rw [ht.metadata, hround.counted]
    rfl
  · show _ ∈ x.log.dequeued
    rw [ht.dequeued]
    simp

section Early

variable {Phase : Type} {S : System Actor Loc Val Log Phase} {w₀ : State} {z : Phase}
  {procs : Actor → Code Phase}

/-- Handling a commit entry up to the store to `commit_metadata`. -/
def storeMetadata : Code Unit := do
  recordDequeued .commit
  let numberOfRegions ← load .uncommitedNumberOfEntries
  let ringBufferHead ← load .globalLocalHead
  storeRecord .commitMetadata ⟨numberOfRegions, ringBufferHead⟩
    (fun g => { g with
      commits :=
        ⟨⟨numberOfRegions, ringBufferHead⟩, g.dequeued.length, g.writes.length⟩ :: g.commits })

/-- What is left of handling a commit entry. -/
def finishCommit : Code Unit := do
  flush [.commitMetadata]
  fence
  regionTableCommit
  commitBatch
  fence

theorem handleEntry_commit_eq (held : Nat → Bool) (slot : Nat) :
    handleEntry held slot .commit = (do storeMetadata; finishCommit) := by
  simp only [handleEntry, commitRbBatch, storeMetadata, finishCommit, Prog.bind_assoc]

/-- The pair is stored and nothing else has changed for what is durable. -/
structure MetadataStored (r : AtomicPmemCommit) (w u : State) : Prop where
  stored : u.cur .commitMetadata = r
  durable : u.per = w.per
  regions : u.log.regions = w.log.regions
  commits : ∃ k n, u.log.commits = ⟨r, k, n⟩ :: w.log.commits

theorem runs_storeMetadata (hB : S.Unrestricted .backEnd) : S.Runs .backEnd storeMetadata
    (fun _ u => MetadataStored ⟨w.cur .uncommitedNumberOfEntries, w.cur .globalLocalHead⟩ w u)
    w := by
  rw [← Prog.bind_ret storeMetadata]
  simp only [storeMetadata, recordDequeued, Prog.bind_assoc, System.Runs.record hB.lenient,
    System.Runs.load hB.lenient, System.Runs.storeRecord hB.lenient]
  exact System.Runs.pure.mpr ⟨World.store_cur_self _ _ _ _, rfl, rfl, _, _, rfl⟩

/-- The consumer takes a commit entry, stores the pair, and the cache writes the
pair back at once. -/
theorem early_move (hB : S.Unrestricted .backEnd)
    (hwb : ∀ u, S.admits u (.writeBack .commitMetadata))
    (h : S.Reachable w₀ ⟨w, procs⟩) (hz : procs .backEnd = .ret z)
    (hc : Consumes S N z) (hlt : w.cur .lastPersistedTail ≠ w.cur .lastPersistedHead)
    (hne : w.cur .globalLocalHead = w.cur .globalLocalTail →
      w.cur .lastPersistedTail ≠ w.cur .globalLocalHead)
    (htype : w.cur (.entryType (w.cur .globalLocalHead)) = .commit) :
    ∃ u p, S.Reachable w₀ ⟨u.writeBack .commitMetadata, p⟩ ∧
      MetadataStored ⟨w.cur .uncommitedNumberOfEntries, nextIndex N (w.cur .globalLocalHead)⟩
      (takeSlot N w) u := by
  have htake := take_move hB h hz hc hlt hne
  rw [htype, handleEntry_commit_eq, Prog.bind_assoc] at htake
  obtain ⟨_, u, hu, hfacts⟩ := htake.resume (Function.update_self _ _ _) (runs_storeMetadata hB)
  rw [takeSlot_localHead, takeSlot_cur (by decide) (by decide)] at hfacts
  exact ⟨u, _, hu.tail (.writeBack _ (hwb u)), hfacts⟩

theorem not_metadata_behind :
    ¬ ∀ c, (anyRun ringBufferSize).Reachable (initial (fun _ => 0) [(4096, 8192)]) c →
    MetadataBehind ringBufferSize [(4096, 8192)] c.world := by
  intro h
  obtain ⟨v, hv, hs⟩ :=
    Relaunch.exists_secondRegion (N := ringBufferSize) (unrestricted_anyRun .frontEnd).lenient
    (unrestricted_anyRun .backEnd) (by decide) (fun _ => 0)
    (Relaunch.opens_mmap 16384 4096) consumes_anyRun reachable_initial
  obtain ⟨u, p, hu, hm⟩ :=
    early_move (z := ()) (unrestricted_anyRun .backEnd) (fun _ => ⟨by simp, trivial⟩) hv rfl
    consumes_anyRun (by rw [hs.persistedTail, hs.persistedHead]; decide)
    (by rw [hs.localHead, hs.localTail]; exact fun h => absurd h (by decide))
    (by rw [hs.localHead]; exact hs.closed)
  rw [hs.counted] at hm
  obtain ⟨k, n, hcom⟩ := hm.commits
  obtain ⟨r, hr, hb⟩ := h _ hu
  have hpair : r.metadata.numberOfRegions = 2 := by
    rw [← hb.pair, World.writeBack_per_self, hm.stored]
    rfl
  obtain ⟨reg, hreg, hrec⟩ := hb.records 1 (by rw [hpair]; decide)
  have hreg : reg = (16384, 4096) := by
    rw [World.writeBack_log, hm.regions, takeSlot_log, hs.regions] at hreg
    exact (Option.some.inj hreg).symm
  have haddr := hrec.address
  rw [(World.writeBack_of_ne u .backEnd _ _ (by simp)).1, hm.durable,
    (takeSlot_untouched (by simp) (by simp)).per,
    hs.records 1 _ (by simp [recordLocs]), hreg] at haddr
  exact absurd haddr (by decide)

end Early

end Mangosteen.CommitOrder
