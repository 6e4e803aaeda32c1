import Mangosteen.Consumer
import Mangosteen.Isolation
import Mangosteen.Transactions

namespace Mangosteen.Image

open PersistentMemory Prog Memory RingBuffer RegionTable BackEnd Session Slots Channel Consumer
  Isolation Transactions

variable {N : Nat}

section Translate

/-- No two mappings lead to the same file. -/
def Separate (ms : List Mapping) : Prop :=
  ∀ m ∈ ms, ∀ m' ∈ ms, ∀ i, m.backing = .file i → m'.backing = .file i → m = m'

theorem translate_cases (ms : List Mapping) (a : Nat) :
    translate ms a = .anonymous a ∨
      ∃ m ∈ ms, ∃ i, m.backing = .file i ∧ m.start ≤ a ∧
      translate ms a = .file i (a - m.start) := by
  rw [Memory.translate]
  split
  · rename_i start size i h
    have hm := List.mem_of_find?_eq_some h
    have hc := List.find?_some h
    simp only [Mapping.covers, Bool.and_eq_true, decide_eq_true_eq] at hc
    exact .inr ⟨_, hm, i, rfl, hc.1, rfl⟩
  · exact .inl rfl
  · exact .inl rfl

theorem Separate.injective {ms : List Mapping} (h : Separate ms) :
    Function.Injective (translate ms) := by
  intro a b hab
  rcases translate_cases ms a with ha | ⟨m, hm, i, hi, hle, ha⟩ <;>
    rcases translate_cases ms b with hb | ⟨m', hm', j, hj, hle', hb⟩ <;> rw [ha, hb] at hab
  · exact Cell.anonymous.inj hab
  · cases hab
  · cases hab
  · obtain ⟨rfl, he⟩ := Cell.file.inj hab
    obtain rfl := h m hm m' hm' i hi hj
    omega

theorem separate_initialMappings (regions : List (Nat × Nat)) :
    Separate (initialMappings regions) := by
  intro m hm m' hm' i hi hi'
  simp only [initialMappings, List.mem_reverse, List.mem_mapIdx] at hm hm'
  obtain ⟨j, hj, rfl⟩ := hm
  obtain ⟨k, hk, rfl⟩ := hm'
  obtain rfl := Backing.file.inj hi
  obtain rfl := Backing.file.inj hi'
  rfl

end Translate

/-- The memory that the back end has at an address. -/
def image (w : State) (a : Nat) : UInt8 := w.cur (.byte (translate (w.cur .addressMap) a))

/-- Entries that map no memory. -/
def Plain (es : List Entry) : Prop := ∀ e ∈ es, e = .commit ∨ ∃ addr payload, e = .redo addr payload

/-- The locations that make up the image. -/
def Pictured (l : Loc) : Prop := l = .addressMap ∨ ∃ c, l = .byte c

def SameDequeued (g g' : Log) : Prop := g'.dequeued = g.dequeued

theorem sameDequeued_refl (g : Log) : SameDequeued g g := rfl

variable (ms : List Mapping) (memory : Nat → UInt8)

/-- The log so far has been applied to the memory at the start. As soon as the
back end maps memory this says nothing. -/
def Applied (w : State) : Prop :=
  Plain w.log.dequeued → w.cur .addressMap = ms ∧
  image w = RedoLog.apply (writes w.log.dequeued) memory

/-- What holds of the image at any moment: at the end of a batch all of it has
been applied. -/
structure ImageInv (w : State) : Prop where
  mapped : Plain w.log.dequeued → w.cur .addressMap = ms
  applied : w.log.dequeued.getLast? = some .commit → Applied ms memory w

def imageProtocol : Protocol Actor Loc Val Log where
  inv := ImageInv ms memory
  rely a u v := match a with
    | .frontEnd => True
    | .backEnd => (∀ l, Pictured l → v.cur l = u.cur l) ∧ v.log.dequeued = u.log.dequeued
  live := False
  rely_refl a w := by cases a <;> simp
  rely_trans a u v w h h' := by
    cases a with
    | frontEnd => trivial
    | backEnd => exact ⟨fun l hl => (h'.1 l hl).trans (h.1 l hl), h'.2.trans h.2⟩

variable {ms memory} {u v w : State}

theorem image_congr (h : ∀ l, Pictured l → v.cur l = u.cur l) : image v = image u := by
  funext a
  rw [image, image, h _ (.inl rfl), h _ (.inr ⟨_, rfl⟩)]

theorem Applied.congr (h : Applied ms memory u) (hc : ∀ l, Pictured l → v.cur l = u.cur l)
    (hl : v.log.dequeued = u.log.dequeued) : Applied ms memory v := by
  intro hp
  rw [hl] at hp ⊢
  rw [image_congr hc, hc _ (.inl rfl)]
  exact h hp

theorem ImageInv.congr (h : ImageInv ms memory u) (hc : ∀ l, Pictured l → v.cur l = u.cur l)
    (hl : v.log.dequeued = u.log.dequeued) : ImageInv ms memory v := by
  refine ⟨fun hp => ?_, fun hlast => ?_⟩
  · rw [hc _ (.inl rfl)]; exact h.mapped (hl ▸ hp)
  · exact (h.applied (hl ▸ hlast)).congr hc hl

theorem Applied.flush (h : Applied ms memory w) (ls : List Loc) :
    Applied ms memory (w.flush .backEnd ls) :=
  h.congr (fun _ _ => rfl) rfl

theorem Applied.fence (h : Applied ms memory w) : Applied ms memory (w.fence .backEnd) :=
  h.congr (fun _ _ => rfl) rfl

theorem Applied.imageInv (h : Applied ms memory w) : ImageInv ms memory w :=
  ⟨fun hp => (h hp).1, fun _ => h⟩

theorem allows_backEnd (h : ImageInv ms memory v) : (imageProtocol ms memory).Allows .backEnd u v :=
  Protocol.allows_of_other Actor.eq_frontEnd h trivial

theorem allows_frontEnd (hi : ImageInv ms memory u) (hf : Frame FrontSide SameBack .frontEnd u v) :
    (imageProtocol ms memory).Allows .frontEnd u v := by
  have hc : ∀ l, Pictured l → v.cur l = u.cur l := by
    rintro l (rfl | ⟨c, rfl⟩) <;> exact hf.cur _ (by simp [FrontSide, Owned, owner])
  have hd : v.log.dequeued = u.log.dequeued := by rw [hf.log.1]
  exact Protocol.allows_of_other Actor.eq_backEnd (hi.congr hc hd) ⟨hc, hd⟩

section Rules

variable {α β Phase : Type} {S : System Actor Loc Val Log Phase} {Q : β → State → Prop}

theorem ensures_unpictured {p : Code α} {f : α → Code β}
    (hp : p.Confined (fun l => ¬ Pictured l) SameDequeued .backEnd) (hw : Applied ms memory w)
    (h : ∀ x u, Applied ms memory u → Ensures S (imageProtocol ms memory) .backEnd (f x) Q u) :
    Ensures S (imageProtocol ms memory) .backEnd (p >>= f) Q w := by
  have hc := Ensures.confined (S := S) (P := imageProtocol ms memory) (A := Applied ms memory) hp
    (fun _ => rfl) False.elim hw (fun u v hu hr _ => hu.congr hr.1 hr.2) ?_
  · exact Ensures.bind hw.imageInv (hc.mono fun x u _ hu => h x u hu)
  · intro u v hf _ hu
    have hv := hu.congr (fun l hl => hf.cur l (not_not.mpr hl)) hf.log
    exact ⟨allows_backEnd hv.imageInv, hv⟩

theorem ensures_notPlain {p : Code α} {f : α → Code β} {own : Loc → Prop}
    (hp : p.Confined own SameDequeued .backEnd) (hw : ¬ Plain w.log.dequeued)
    (h : ∀ x u, Applied ms memory u → Ensures S (imageProtocol ms memory) .backEnd (f x) Q u) :
    Ensures S (imageProtocol ms memory) .backEnd (p >>= f) Q w := by
  have happlied : ∀ {u : State}, ¬ Plain u.log.dequeued → Applied ms memory u :=
    fun hn hpl => absurd hpl hn
  have hc := Ensures.confined (S := S) (P := imageProtocol ms memory)
    (A := fun u => ¬ Plain u.log.dequeued) hp
    (fun _ => rfl) False.elim hw (fun u v hu hr _ => by rw [hr.2]; exact hu) ?_
  · exact Ensures.bind (happlied hw).imageInv (hc.mono fun x u _ hu => h x u (happlied hu))
  · intro u v hf _ hu
    have hv : ¬ Plain v.log.dequeued := by rw [show v.log.dequeued = _ from hf.log]; exact hu
    exact ⟨allows_backEnd (happlied hv).imageInv, hv⟩

theorem writes_concat (es : List Entry) (e : Entry) :
    writes (es ++ [e]) = writes es ++ entryWrites e := by
  simp [writes]

theorem Plain.concat_left {es : List Entry} {e : Entry} (h : Plain (es ++ [e])) : Plain es :=
  fun x hx => h x (by simp [hx])

theorem redoStores_eq (ms : List Mapping) (addr : Nat) (payload : Payload) :
    redoStores ms addr payload =
      (entryWrites (.redo addr payload)).map
      (fun w => (⟨.byte (translate ms w.1), w.2⟩ : Sigma Val)) := by
  simp [redoStores, entryWrites]

/-- A redo entry that has been read and of which some writes are still to be
made. -/
structure Applying (ms : List Mapping) (memory : Nat → UInt8) (es : List Entry)
    (todo : List (Nat × UInt8)) (w : State) : Prop where
  dequeued : w.log.dequeued = es
  redo : ∃ ds addr payload, es = ds ++ [.redo addr payload]
  mapped : Plain es → w.cur .addressMap = ms
  rest : Plain es → RedoLog.apply todo (image w) = RedoLog.apply (writes es) memory

theorem Applying.stable {es : List Entry} {todo : List (Nat × UInt8)}
    (h : Applying ms memory es todo u)
    (hc : ∀ l, Pictured l → v.cur l = u.cur l) (hl : v.log.dequeued = u.log.dequeued) :
    Applying ms memory es todo v := by
  refine ⟨hl.trans h.dequeued, h.redo, fun hp => ?_, fun hp => ?_⟩
  · rw [hc _ (.inl rfl)]; exact h.mapped hp
  · rw [image_congr hc]; exact h.rest hp

theorem Applying.imageInv {es : List Entry} {todo : List (Nat × UInt8)}
    (h : Applying ms memory es todo w) : ImageInv ms memory w := by
  refine ⟨fun hp => h.mapped (h.dequeued ▸ hp), fun hlast => ?_⟩
  obtain ⟨ds, addr, payload, rfl⟩ := h.redo
  rw [h.dequeued] at hlast
  simp at hlast

theorem Applying.applied {es : List Entry} (h : Applying ms memory es [] w) :
    Applied ms memory w := by
  intro hp
  rw [h.dequeued] at hp ⊢
  exact ⟨h.mapped hp, h.rest hp⟩

theorem image_store (hinj : Function.Injective (translate (w.cur .addressMap))) (a : Nat)
    (x : UInt8) (f : Log → Log) :
    image (w.store (.byte (translate (w.cur .addressMap) a)) x f) =
    Function.update (image w) a x := by
  have hmap : (w.store (.byte (translate (w.cur .addressMap) a)) x f).cur .addressMap =
      w.cur .addressMap :=
    World.store_cur_of_ne w .addressMap (.byte (translate (w.cur .addressMap) a)) f x (by simp)
  funext b
  rw [image, hmap]
  by_cases hb : b = a
  · subst hb
    rw [World.store_cur_self, Function.update_self]
  · rw [Function.update_of_ne hb]
    refine World.store_cur_of_ne w (.byte (translate (w.cur .addressMap) b)) (.byte _) f x ?_
    simpa using fun h => hb (hinj h)

theorem Applying.store (hinj : Function.Injective (translate ms)) {es : List Entry}
    {todo : List (Nat × UInt8)}
    {a : Nat} {x : UInt8} {ms' : List Mapping} (hms : Plain es → ms' = ms)
    (h : Applying ms memory es ((a, x) :: todo) w) :
    Applying ms memory es todo
    (w.store (.byte (translate ms' a)) x (noteWrite ⟨.byte (translate ms' a), x⟩)) := by
  refine ⟨h.dequeued, h.redo, fun hp => ?_, fun hp => ?_⟩
  · rw [World.store_cur_of_ne w _ _ _ _ (by simp)]; exact h.mapped hp
  · have hm := h.mapped hp
    rw [hms hp, ← hm, image_store (hm ▸ hinj)]
    exact h.rest hp

theorem ensures_applyRedo {held : Nat → Bool} (hinj : Function.Injective (translate ms))
    {es : List Entry} {addr : Nat} {payload : Payload}
    {f : Unit → Code β} (hw : Applying ms memory es (entryWrites (.redo addr payload)) w)
    (h : ∀ u, Applied ms memory u → Ensures S (imageProtocol ms memory) .backEnd (f ()) Q u) :
    Ensures S (imageProtocol ms memory) .backEnd (applyRedo held addr payload >>= f) Q w := by
  simp only [applyRedo, Prog.bind_assoc]
  refine Ensures.load fun u hr hu => ?_
  have hw := hw.stable hr.1 hr.2
  have hms : Plain es → u.cur .addressMap = ms := hw.mapped
  split
  case isFalse => exact Ensures.stuck id
  rw [redoStores_eq, Prog.bind_assoc]
  generalize u.cur .addressMap = ms' at hms
  refine Ensures.storeAll (J := fun ss v => ∃ todo : List (Nat × UInt8),
    ss = todo.map (fun w => (⟨.byte (translate ms' w.1), w.2⟩ : Sigma Val)) ∧
    Applying ms memory es todo v) hu ⟨_, rfl, hw⟩ ?_ ?_ ?_
  · rintro ss v v' ⟨todo, rfl, hv⟩ hr _
    exact ⟨todo, rfl, hv.stable hr.1 hr.2⟩
  · rintro s ss v ⟨todo, hss, hv⟩ _
    obtain ⟨⟨a, x⟩, todo, rfl⟩ : ∃ x t, todo = x :: t := by
      cases todo with
      | nil => cases hss
      | cons x t => exact ⟨x, t, rfl⟩
    obtain ⟨rfl, rfl⟩ := List.cons.inj hss
    have hv := hv.store hinj hms
    exact ⟨allows_backEnd hv.imageInv, todo, rfl, hv⟩
  · rintro v _ ⟨todo, hss, hv⟩
    obtain rfl := List.map_eq_nil_iff.mp hss.symm
    refine Ensures.flush fun v' hr _ => ?_
    have hv := hv.applied.congr hr.1 hr.2
    exact ⟨allows_backEnd (hv.flush _).imageInv, h _ (hv.flush _)⟩

theorem ensures_recordDequeued {e : Entry} {f : Unit → Code β}
    (h : ∀ u, Applied ms memory u →
      ImageInv ms memory { u with log := { u.log with dequeued := u.log.dequeued ++ [e] } } ∧
        Ensures S (imageProtocol ms memory) .backEnd (f ()) Q
          { u with log := { u.log with dequeued := u.log.dequeued ++ [e] } })
    (hw : Applied ms memory w) :
    Ensures S (imageProtocol ms memory) .backEnd (recordDequeued e >>= f) Q w := by
  refine Ensures.record fun u hr _ => ?_
  obtain ⟨hi, hf⟩ := h u (hw.congr hr.1 hr.2)
  exact ⟨allows_backEnd hi, hf⟩

theorem Applied.redo {addr : Nat} {payload : Payload} (h : Applied ms memory u) :
    Applying ms memory (u.log.dequeued ++ [.redo addr payload]) (entryWrites (.redo addr payload))
      { u with log := { u.log with dequeued := u.log.dequeued ++ [.redo addr payload] } } := by
  refine ⟨rfl, ⟨_, _, _, rfl⟩, fun hp => (h hp.concat_left).1, fun hp => ?_⟩
  rw [writes_concat, RedoLog.apply_append, ← (h hp.concat_left).2]
  rfl

theorem Applied.commit (h : Applied ms memory u) :
    Applied ms memory { u with log := { u.log with dequeued := u.log.dequeued ++ [.commit] } } := by
  intro hp
  obtain ⟨hm, hi⟩ := h (Plain.concat_left hp)
  refine ⟨hm, ?_⟩
  rw [writes_concat, show entryWrites .commit = [] from rfl, List.append_nil, ← hi]
  rfl

theorem confined_unpictured_dequeue :
    (ringBufferDequeue N).Confined (fun l => ¬ Pictured l) SameDequeued .backEnd := by
  refine confined_ringBufferDequeue ?_ ?_ sameDequeued_refl N
  all_goals simp [Pictured]

theorem confined_unpictured_commit :
    commitRbBatch.Confined (fun l => ¬ Pictured l) SameDequeued .backEnd := by
  rw [commitRbBatch_eq]
  refine .bind (confined_prepareCommit ?_ ?_ ?_ (fun _ _ => rfl) sameDequeued_refl) fun _ =>
    confined_ringBufferCommitDequeuedEntries ?_ ?_ (fun _ _ _ => rfl) sameDequeued_refl
  all_goals simp [Pictured]

/-- However the entry came to be in its slot, the image afterwards is what the
entry makes of the image before. -/
theorem ensures_handleEntry {held : Nat → Bool} (hinj : Function.Injective (translate ms))
    {slot : Nat} {type : EntryType} {f : Unit → Code β} (hw : Applied ms memory w)
    (h : ∀ u, Applied ms memory u → Ensures S (imageProtocol ms memory) .backEnd (f ()) Q u) :
    Ensures S (imageProtocol ms memory) .backEnd (handleEntry held slot type >>= f) Q w := by
  have hmapped : ∀ {es : List Entry} {e : Entry},
      (e ≠ .commit ∧ ∀ addr payload, e ≠ .redo addr payload) → ¬ Plain (es ++ [e]) := by
    rintro es e ⟨hc, hr⟩ hp
    rcases hp e (by simp) with he | ⟨addr, payload, he⟩
    · exact hc he
    · exact hr addr payload he
  have hnone : ∀ {u : State}, ¬ Plain u.log.dequeued → ImageInv ms memory u :=
    fun hn => ⟨fun hp => absurd hp hn, fun _ hp => absurd hp hn⟩
  cases type with
  | mmap =>
      simp only [handleEntry, Prog.bind_assoc]
      refine Ensures.load fun u hr _ => ?_
      have hw := hw.congr hr.1 hr.2
      refine Ensures.load fun u' hr _ => ?_
      have hw := hw.congr hr.1 hr.2
      refine ensures_recordDequeued (fun v _ => ⟨hnone (hmapped (by simp)), ?_⟩) hw
      exact ensures_notPlain ((confined_createMemoryRegion _ _).mono fun g g' hg => congrArg _ hg.2)
        (hmapped (by simp)) fun _ => h
  | transientMmap =>
      simp only [handleEntry, Prog.bind_assoc]
      refine Ensures.load fun u hr _ => ?_
      have hw := hw.congr hr.1 hr.2
      refine Ensures.load fun u' hr _ => ?_
      have hw := hw.congr hr.1 hr.2
      refine ensures_recordDequeued (fun v _ => ⟨hnone (hmapped (by simp)), ?_⟩) hw
      rw [← Prog.bind_assoc]
      exact ensures_notPlain
        ((confined_transientMmap aside_byte aside_addressMap sameRing_refl _ _).mono fun g g' hg =>
          congrArg _ hg.2)
        (hmapped (by simp)) fun _ => h
  | redo =>
      simp only [handleEntry, Prog.bind_assoc]
      refine Ensures.load fun u hr _ => ?_
      have hw := hw.congr hr.1 hr.2
      refine Ensures.loads (R := fun _ _ => True) (fun _ _ _ _ => trivial) hw.imageInv
        fun p u' _ hr _ => ?_
      have hw := hw.congr hr.1 hr.2
      exact ensures_recordDequeued
        (fun v hv => ⟨hv.redo.imageInv, ensures_applyRedo hinj hv.redo h⟩) hw
  | commit =>
      simp only [handleEntry, Prog.bind_assoc]
      refine ensures_recordDequeued (fun v hv => ⟨hv.commit.imageInv, ?_⟩) hw
      refine ensures_unpictured confined_unpictured_commit hv.commit fun _ u hu => ?_
      refine Ensures.fence fun u' hr _ => ?_
      have hu := hu.congr hr.1 hr.2
      exact ⟨allows_backEnd hu.fence.imageInv, h _ hu.fence⟩

theorem ensures_runConsumer (hinj : Function.Injective (translate ms)) (hw : Applied ms memory w) :
    Ensures S (imageProtocol ms memory) .backEnd (runConsumer N)
    (fun _ u => Applied ms memory u) w := by
  refine Ensures.load fun u hr _ => ?_
  have hw := hw.congr hr.1 hr.2
  refine Ensures.load fun u' hr _ => ?_
  have hw := hw.congr hr.1 hr.2
  split
  · exact Ensures.pure fun v hr _ => hw.congr hr.1 hr.2
  · refine ensures_unpictured confined_unpictured_dequeue hw fun slot u hu => ?_
    refine Ensures.load fun u' hr _ => ?_
    rw [← Prog.bind_ret (handleEntry _ _ _)]
    exact ensures_handleEntry hinj (hu.congr hr.1 hr.2) fun v hv => Ensures.ret fun v' hr _ =>
      hv.congr hr.1 hr.2

end Rules

end Mangosteen.Image
