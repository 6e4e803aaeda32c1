import Mangosteen.ReferenceAgreement

namespace Mangosteen.LineSet

open RegisterMachine HashSet ReferenceAgreement
open OpenAddressing (Holding)

/-- The arguments of a call. -/
structure Stub where
  address : Nat
  size : Nat

/-- The calls one after the other. -/
def addStubs : List Stub → AddressHashSet → Option AddressHashSet
  | [], s => some s
  | x :: xs, s => (addRedoLogStub s .bytes64 x.address x.size).bind (addStubs xs)

/-- Calls that keep clear of the first line and of the last one. -/
structure Stub.Valid (x : Stub) : Prop where
  address : 64 ≤ x.address
  size : 1 ≤ x.size
  bound : x.address + x.size ≤ 2 ^ 64 - 64

/-- What the assertion of a resize asks of a size and a threshold. -/
structure Parameters (n : Nat) (t : ℚ) : Prop where
  size : 1 ≤ n
  pos : 0 < t
  le : t ≤ 1
  exact : ∃ k : Nat, 0 < k ∧ n * t = k

/-- The lines that meet the range of one of the calls. -/
def Touched (xs : List Stub) (line : Nat) : Prop :=
  64 ∣ line ∧ ∃ x ∈ xs, line < x.address + x.size ∧ x.address < line + 64

/-- The value of a counter of type `int` that was incremented so many times from
zero. -/
def counter (count : Nat) : Int := (count : Int).bmod (2 ^ 32)

/-- The slots hold the touched lines, each of them once and reachable from its
home, and the statistics count them. -/
structure IsLineSet (xs : List Stub) (s : AddressHashSet) : Prop where
  lines : ∀ w : Word, (w ≠ 0 ∧ ∃ i < s.size, s.setOfEntries i = w) ↔ Touched xs w.toNat
  once : ∀ i < s.size, ∀ j < s.size, s.setOfEntries i ≠ 0 →
    s.setOfEntries i = s.setOfEntries j → i = j
  entries : s.stats.numberOfEntries = ((Finset.range s.size).filter (s.setOfEntries · ≠ 0)).card
  entries_le : s.stats.numberOfEntries ≤ s.maxElementsBeforeResize
  max_le : s.maxElementsBeforeResize ≤ s.size
  path : ∀ i < s.size, s.setOfEntries i ≠ 0 → ∃ d < s.size,
    ((s.setOfEntries i).toNat % s.size + d) % s.size = i ∧
    ∀ e < d, s.setOfEntries (((s.setOfEntries i).toNat % s.size + e) % s.size) ≠ 0
  duplicates : counter s.stats.numberOfDuplicates ≤ counter s.stats.numberOfCollisions

section Operations

variable {s s' : AddressHashSet} {keys : Finset Word} {w : Word}

/-- The invariant of a set: its slots hold the keys, and there is room for as
many as the threshold allows. -/
structure Sound (keys : Finset Word) (s : AddressHashSet) : Prop where
  size : 0 < s.size
  threshold : s.resizeThreshold ≤ 1
  max : (s.maxElementsBeforeResize : ℚ) = s.size * s.resizeThreshold
  max_pos : 0 < s.maxElementsBeforeResize
  entries : s.stats.numberOfEntries ≤ s.maxElementsBeforeResize
  holding : Holding s.size 0 (fun k => k.toNat % s.size) keys 0 s.contents
  duplicates : s.stats.numberOfDuplicates ≤ s.stats.numberOfCollisions

theorem Sound.max_le (h : Sound keys s) : s.maxElementsBeforeResize ≤ s.size := by
  have hle : (s.maxElementsBeforeResize : ℚ) ≤ s.size := by
    rw [h.max]
    exact mul_le_of_le_one_right (Nat.cast_nonneg _) h.threshold
  exact Nat.cast_le.mp hle

theorem Sound.card (h : Sound keys s) : s.stats.numberOfEntries = keys.card := by
  rw [← Nat.zero_add keys.card]
  exact h.holding.count

theorem Sound.home_lt (h : Sound keys s) (k : Word) : k.toNat % s.size < s.size :=
  Nat.mod_lt _ h.size

theorem Sound.insertAligned (h : Sound keys s) (hw : w ≠ 0)
    (hroom : (insert w keys).card ≤ s.maxElementsBeforeResize) :
    ∃ s', insertAlignedBlockAddress s w = some s' ∧ Framed s s' ∧ Sound (insert w keys) s' := by
  have hfits : (insert w keys).card ≤ s.size := hroom.trans h.max_le
  obtain ⟨u, hu⟩ : ∃ u, OpenAddressing.recordAll s.size 0 (fun k => k.toNat % s.size)
    [w] s.contents = some u :=
    h.holding.exists_recordAll h.size h.home_lt (by simpa using hw.symm)
    (Finset.subset_insert w keys) (by simp) hfits
  obtain ⟨v, hv, -⟩ := Option.bind_eq_some_iff.mp hu
  have hholding := h.holding.record h.size (h.home_lt w) hv
  rw [if_neg hw, if_neg hw] at hholding
  rw [← insertAlignedBlockAddress_contents h.size] at hv
  obtain ⟨s', hs', rfl⟩ := Option.map_eq_some_iff.mp hv
  have hframe := insertAlignedBlockAddress_framed hs'
  have hcount : s'.stats.numberOfEntries = 0 + (insert w keys).card := hholding.count
  exact ⟨s', hs', hframe, {
    size := by rw [hframe.size]; exact h.size
    threshold := by rw [hframe.threshold]; exact h.threshold
    max := by rw [hframe.max, hframe.size, hframe.threshold]; exact h.max
    max_pos := by rw [hframe.max]; exact h.max_pos
    entries := by rw [hframe.max, hcount, Nat.zero_add]; exact hroom
    holding := by rw [hframe.size]; exact hholding
    duplicates := hframe.duplicates h.duplicates }⟩

theorem Sound.insertAll {ws : List Word} (h : Sound keys s)
    (hroom : (keys ∪ ws.toFinset.erase 0).card ≤ s.maxElementsBeforeResize) :
    ∃ s', insertAll ws s = some s' ∧ Framed s s' ∧ Sound (keys ∪ ws.toFinset.erase 0) s' := by
  induction ws generalizing s keys with
  | nil => exact ⟨s, rfl, Framed.refl s, by simpa using h⟩
  | cons w ws ih =>
      rw [HashSet.insertAll]
      by_cases hw : w = 0
      · subst hw
        rw [List.toFinset_cons, Finset.erase_insert_eq_erase] at hroom ⊢
        rw [if_pos rfl]
        exact ih h hroom
      · rw [List.toFinset_cons, Finset.erase_insert_of_ne hw, Finset.union_insert,
          ← Finset.insert_union] at hroom ⊢
        obtain ⟨s₁, h₁, hframe, hsound⟩ :=
          h.insertAligned hw ((Finset.card_le_card Finset.subset_union_left).trans hroom)
        rw [if_neg hw, h₁]
        obtain ⟨s', hs', hframe', hsound'⟩ := ih hsound (by rw [hframe.max]; exact hroom)
        exact ⟨s', hs', hframe.trans hframe', hsound'⟩

theorem sound_initialise {n : Nat} {t : ℚ} (hp : Parameters n t) : Sound ∅ (initialise n t) := by
  obtain ⟨k, hpos, hk⟩ := hp.exact
  have hmax : (initialise n t).maxElementsBeforeResize = k := by
    rw [initialise, hk, Nat.floor_natCast]
  exact {
    size := hp.size
    threshold := hp.le
    max := by rw [hmax]; exact hk.symm
    max_pos := by rw [hmax]; exact hpos
    entries := Nat.zero_le _
    holding := OpenAddressing.holding_blank
    duplicates := le_rfl }

theorem Sound.slots (h : Sound keys s) :
    ((List.range s.size).map s.setOfEntries).toFinset.erase 0 = keys := by
  ext w
  rw [← h.holding.stores, Finset.mem_erase, List.mem_toFinset, List.mem_map]
  simp only [List.mem_range]
  rfl

theorem Sound.resize (h : Sound keys s) :
    ∃ s', HashSet.resize s = some s' ∧ Sound keys s' ∧ s'.stats.numberOfEntries <
    s'.maxElementsBeforeResize := by
  have hproduct : ((s.size * 2 : Nat) : ℚ) * s.resizeThreshold =
      (s.maxElementsBeforeResize * 2 : Nat) := by
    rw [Nat.cast_mul, Nat.cast_mul, mul_right_comm, h.max]
  have hmax : (initialise (s.size * 2) s.resizeThreshold).maxElementsBeforeResize =
      s.maxElementsBeforeResize * 2 := by
    rw [initialise, hproduct, Nat.floor_natCast]
  have hassert : (initialise (s.size * 2) s.resizeThreshold).size = s.size * 2 ∧
      ((initialise (s.size * 2) s.resizeThreshold).maxElementsBeforeResize : ℚ) =
        (s.size * 2 : Nat) * s.resizeThreshold := by
    rw [hmax]
    exact ⟨rfl, hproduct.symm⟩
  have hmax_pos := h.max_pos
  have hentries := h.entries
  have hsize := h.size
  have hcard := h.card
  -- the new table is empty and inherits the counters
  obtain ⟨s', hs', hframe, hsound⟩ :
    ∃ s', HashSet.insertAll ((List.range s.size).map s.setOfEntries)
      { initialise (s.size * 2) s.resizeThreshold with
        stats.numberOfResizes := s.stats.numberOfResizes + 1
        stats.numberOfCollisions := s.stats.numberOfCollisions
        stats.numberOfDuplicates := s.stats.numberOfDuplicates } = some s' ∧
      Framed _ s' ∧ Sound (∅ ∪ ((List.range s.size).map s.setOfEntries).toFinset.erase 0) s' := by
    apply Sound.insertAll
    · exact {
        size := by change 0 < s.size * 2; omega
        threshold := h.threshold
        max := hassert.2
        max_pos := by
          change 0 < (initialise (s.size * 2) s.resizeThreshold).maxElementsBeforeResize; omega
        entries := Nat.zero_le _
        holding := OpenAddressing.holding_blank
        duplicates := h.duplicates }
    · rw [h.slots, Finset.empty_union]
      change keys.card ≤ (initialise (s.size * 2) s.resizeThreshold).maxElementsBeforeResize
      omega
  rw [h.slots, Finset.empty_union] at hsound
  have hsize' : s'.maxElementsBeforeResize = s.maxElementsBeforeResize * 2 := hframe.max.trans hmax
  have hcard' := hsound.card
  refine ⟨s', ?_, hsound, by omega⟩
  rw [HashSet.resize]
  simp only [if_pos hassert]
  exact hs'

end Operations

section Calls

variable {s s' : AddressHashSet} {keys : Finset Word} {x : Stub} {xs : List Stub}

theorem Sound.addLine (h : Sound keys s) {w : Word} (hw : w ≠ 0) :
    ∃ s₁, (if s.stats.numberOfEntries = s.maxElementsBeforeResize then HashSet.resize s
      else some s) = some s₁ ∧
      ∃ s', insertAlignedBlockAddress s₁ w = some s' ∧ Sound (insert w keys) s' := by
  obtain ⟨s₁, h₁, hsound, hroom⟩ :
    ∃ s₁, (if s.stats.numberOfEntries = s.maxElementsBeforeResize then
      HashSet.resize s else some s) =
      some s₁ ∧ Sound keys s₁ ∧ s₁.stats.numberOfEntries < s₁.maxElementsBeforeResize := by
    by_cases hfull : s.stats.numberOfEntries = s.maxElementsBeforeResize
    · rw [if_pos hfull]
      exact h.resize
    · rw [if_neg hfull]
      exact ⟨s, rfl, h, Nat.lt_of_le_of_ne h.entries hfull⟩
  have hcard := hsound.card
  have hinsert := Finset.card_insert_le w keys
  obtain ⟨s', hs', -, hsound'⟩ := hsound.insertAligned hw (by omega)
  exact ⟨s₁, h₁, s', hs', hsound'⟩

theorem Sound.addLines {range line : Nat} (h : Sound keys s) (hline : 64 ∣ line) (hpos : 0 < line)
    (hrange : range ≤ 2 ^ 64 - 64) :
    ∃ s' keys', addLines .bytes64 range line s = some s' ∧ Sound keys' s' ∧
      ∀ w, w ∈ keys' ↔ w ∈ keys ∨ 64 ∣ w.toNat ∧ line ≤ w.toNat ∧ w.toNat < range := by
  induction line, s using addLines.induct .bytes64 range generalizing keys with
  | case1 line s hlt ih =>
      have hword : (BitVec.ofNat 64 line).toNat = line := by
        rw [BitVec.toNat_ofNat, Nat.mod_eq_of_lt (by omega)]
      have hne : BitVec.ofNat 64 line ≠ 0 := by
        intro he
        rw [he] at hword
        exact absurd hword (by simp; omega)
      obtain ⟨s₁, h₁, s₂, h₂, hsound⟩ := h.addLine hne
      obtain ⟨s', keys', hs', hsound', hkeys⟩ :=
        ih s₂ hsound (Nat.dvd_add hline (by decide)) (Nat.add_pos_left hpos _)
      refine ⟨s', keys', ?_, hsound', fun w => ?_⟩
      · rw [HashSet.addLines, if_pos hlt, h₁, Option.bind_some, h₂, Option.bind_some, hs']
      · rw [hkeys, Finset.mem_insert, ← BitVec.toNat_inj, hword]
        change _ ∨ 64 ∣ w.toNat ∧ line + 64 ≤ w.toNat ∧ w.toNat < range ↔ _
        by_cases hmem : w ∈ keys
        · simp only [hmem, or_true, true_or]
        · simp only [hmem, or_false, false_or]
          omega
  | case2 line s hge =>
      refine ⟨s, keys, ?_, h, fun w => ?_⟩
      · rw [HashSet.addLines, if_neg hge]
      · by_cases hmem : w ∈ keys
        · simp only [hmem, true_or]
        · simp only [hmem, false_or, false_iff]
          omega

theorem Sound.addRedoLogStub (h : Sound keys s) (hx : x.Valid) :
    ∃ s' keys', addRedoLogStub s .bytes64 x.address x.size = some s' ∧ Sound keys' s' ∧
      ∀ w, w ∈ keys' ↔ w ∈ keys ∨ Touched [x] w.toNat := by
  have hlow := hx.address
  have hbound := hx.bound
  have hsize := hx.size
  have hmask : (BitVec.ofNat 64 x.address &&& bitmask .bytes64).toNat =
      x.address - x.address % 64 :=
    maskedAddress_eq .bytes64 (by omega)
  have hline : 64 ∣ x.address - x.address % 64 := Nat.dvd_sub_mod _
  obtain ⟨s', keys', hs', hsound, hkeys⟩ := h.addLines hline (by omega) hbound
  refine ⟨s', keys', ?_, hsound, fun w => ?_⟩
  · rw [HashSet.addRedoLogStub, hmask]
    exact hs'
  · rw [hkeys]
    refine or_congr_right ⟨?_, ?_⟩
    · rintro ⟨hdvd, hle, hlt⟩
      exact ⟨hdvd, x, List.mem_singleton_self x, hlt, by omega⟩
    · rintro ⟨hdvd, y, hy, hlt, hle⟩
      obtain rfl := List.mem_singleton.mp hy
      exact ⟨hdvd, by omega, hlt⟩

theorem touched_cons {line : Nat} :
    Touched (x :: xs) line ↔ Touched [x] line ∨ Touched xs line := by
  simp only [Touched, List.mem_cons, List.not_mem_nil, or_false, exists_eq_or_imp, exists_eq_left]
  tauto

theorem Sound.addStubs (h : Sound keys s) (hxs : ∀ x ∈ xs, x.Valid) :
    ∃ s' keys', addStubs xs s = some s' ∧ Sound keys' s' ∧ ∀ w, w ∈ keys' ↔ w ∈ keys ∨
    Touched xs w.toNat := by
  induction xs generalizing s keys with
  | nil => exact ⟨s, keys, rfl, h, fun w => by simp [Touched]⟩
  | cons x xs ih =>
      obtain ⟨s₁, keys₁, h₁, hsound₁, hkeys₁⟩ := h.addRedoLogStub (hxs x (by simp))
      obtain ⟨s', keys', hs', hsound', hkeys'⟩ := ih hsound₁ fun y hy => hxs y (by simp [hy])
      refine ⟨s', keys', ?_, hsound', fun w => ?_⟩
      · rw [LineSet.addStubs, h₁]
        exact hs'
      · rw [hkeys', hkeys₁, or_assoc]
        exact or_congr_right touched_cons.symm

end Calls

section Runs

variable {s : AddressHashSet} {keys : Finset Word} {n : Nat} {t : ℚ} {xs : List Stub}

theorem counter_eq {count : Nat} (h : count < 2 ^ 31) : counter count = count := by
  unfold counter
  rw [Int.bmod_eq_of_le]
  · omega
  · omega

theorem Sound.card_slots (h : Sound keys s) :
    ((Finset.range s.size).filter (s.setOfEntries · ≠ 0)).card = keys.card := by
  have himage : ((Finset.range s.size).filter (s.setOfEntries · ≠ 0)).image
      s.setOfEntries = keys := by
    ext w
    rw [← h.holding.stores]
    simp only [Finset.mem_image, Finset.mem_filter, Finset.mem_range, OpenAddressing.Stores]
    constructor
    · rintro ⟨i, ⟨hi, hne⟩, rfl⟩
      exact ⟨hne, i, hi, rfl⟩
    · rintro ⟨hne, i, hi, rfl⟩
      exact ⟨i, ⟨hi, hne⟩, rfl⟩
  rw [← himage, Finset.card_image_of_injOn]
  intro i hi j hj he
  simp only [Finset.coe_filter, Finset.mem_range, Set.mem_ofPred_eq] at hi hj
  exact h.holding.placed.injective hi.1 hj.1 hi.2 he

theorem Sound.path (h : Sound keys s) {i : Nat} (hi : i < s.size) (hne : s.setOfEntries i ≠ 0) :
    ∃ d < s.size, ((s.setOfEntries i).toNat % s.size + d) % s.size = i ∧
      ∀ e < d, s.setOfEntries (((s.setOfEntries i).toNat % s.size + e) % s.size) ≠ 0 := by
  obtain ⟨d, hd, hbefore⟩ := h.holding.placed i hi hne
  refine ⟨d, ?_, hd, fun e he => (hbefore e he).1⟩
  by_contra hge
  apply (hbefore (d - s.size) (by have := h.size; omega)).2
  have hround : OpenAddressing.seat s.size (fun k : Word => k.toNat % s.size) (s.setOfEntries i)
      (d - s.size) = i := by
    rw [OpenAddressing.seat, ← Nat.add_mod_right, Nat.add_assoc,
      Nat.sub_add_cancel (Nat.not_lt.mp hge)]
    exact hd
  exact congrArg s.setOfEntries hround

/-- At every point of the run, the calls up to there have met fewer occupied slots
than an `int` can count. -/
def FewCollisions (xs : List Stub) (s : AddressHashSet) : Prop :=
  ∀ ys, ys <+: xs → ∀ s', addStubs ys s = some s' → s'.stats.numberOfCollisions < 2 ^ 31

theorem addStubs_append (xs ys : List Stub) (s : AddressHashSet) :
    addStubs (xs ++ ys) s = (addStubs xs s).bind (addStubs ys) := by
  induction xs generalizing s with
  | nil => rfl
  | cons x xs ih =>
      rw [List.cons_append, addStubs, addStubs, Option.bind_assoc]
      congr 1
      exact funext ih

theorem addStubs_collisions {s' : AddressHashSet} (h : addStubs xs s = some s') :
    s.stats.numberOfCollisions ≤ s'.stats.numberOfCollisions := by
  induction xs generalizing s with
  | nil =>
      obtain rfl := Option.some.inj h
      exact le_rfl
  | cons x xs ih =>
      obtain ⟨s₁, h₁, hrest⟩ := Option.bind_eq_some_iff.mp h
      exact (addLines_counts h₁).2.trans (ih hrest)

theorem fewCollisions_of_last {s' : AddressHashSet} (h : addStubs xs s = some s')
    (hlast : s'.stats.numberOfCollisions < 2 ^ 31) : FewCollisions xs s := by
  rintro ys ⟨zs, rfl⟩ u hu
  rw [addStubs_append, hu, Option.bind_some] at h
  exact (addStubs_collisions h).trans_lt hlast

/-- Calls leave the set of the lines that they touch, whatever the number of
resizes, while their collisions can be counted. -/
theorem resizing_set_of_lines (hp : Parameters n t) (hxs : ∀ x ∈ xs, x.Valid)
    (hfew : FewCollisions xs (initialise n t)) :
    ∃ s, addStubs xs (initialise n t) = some s ∧ IsLineSet xs s := by
  obtain ⟨s, keys, hs, hsound, hkeys⟩ := (sound_initialise hp).addStubs hxs
  have hcollisions := hfew xs (List.prefix_refl xs) s hs
  have hduplicates := hsound.duplicates
  refine ⟨s, hs, {
    lines := fun w => ?_
    once := fun i hi j hj => hsound.holding.placed.injective hi hj
    entries := by rw [hsound.card_slots]; exact hsound.card
    entries_le := hsound.entries
    max_le := hsound.max_le
    path := fun i hi => hsound.path hi
    duplicates := ?_ }⟩
  · have hmem := hkeys w
    rw [← hsound.holding.stores] at hmem
    simp only [Finset.notMem_empty, false_or] at hmem
    exact hmem
  · rw [counter_eq hcollisions, counter_eq (by omega)]
    exact_mod_cast hduplicates

/-- A set of four slots that has taken two lines with the same home, and so has
had one collision. -/
def collided : AddressHashSet := { initialise 4 1 with
  setOfEntries := Function.update (Function.update (fun _ => 0) 0 64#64) 1 128#64
  stats.numberOfEntries := 2
  stats.numberOfCollisions := 1
  lastUsedIndex := 1 }

theorem addRedoLogStub_line {line : Nat} (hdvd : 64 ∣ line) (hlt : line < 2 ^ 64)
    (s : AddressHashSet) : addRedoLogStub s .bytes64 line 1 =
      (if s.stats.numberOfEntries = s.maxElementsBeforeResize then resize s
        else some s).bind fun s =>
        insertAlignedBlockAddress s (BitVec.ofNat 64 line) := by
  have hmask : (BitVec.ofNat 64 line &&& bitmask .bytes64).toNat = line := by
    have hmasked : _ = line - line % 64 := maskedAddress_eq .bytes64 hlt
    rw [Nat.mod_eq_zero_of_dvd hdvd] at hmasked
    exact hmasked
  have hlast : ∀ s, addLines .bytes64 (line + 1) (line + Coverage.bytes64.size) s = some s := by
    intro s
    rw [addLines, if_neg (by simp only [Coverage.size]; omega)]
  rw [addRedoLogStub, hmask, addLines, if_pos (Nat.lt_succ_self line)]
  simp only [hlast, Option.bind_fun_some]

/-- The counters after a line that is at its home was added again, so many
times. -/
def repeated (k : Nat) (s : AddressHashSet) : AddressHashSet := { s with
  stats := { s.stats with
    numberOfCollisions := s.stats.numberOfCollisions + k
    numberOfDuplicates := s.stats.numberOfDuplicates + k } }

theorem addRedoLogStub_repeated (hsize : 0 < s.size) (hhome : s.setOfEntries (64 % s.size) = 64#64)
    (hroom : s.stats.numberOfEntries ≠ s.maxElementsBeforeResize) :
    addRedoLogStub s .bytes64 64 1 = some (repeated 1 s) := by
  obtain ⟨m, hm⟩ := Nat.exists_eq_succ_of_ne_zero hsize.ne'
  have hindex : (64#64).toNat % s.size = 64 % s.size := rfl
  rw [addRedoLogStub_line (by decide) (by decide), if_neg hroom, Option.bind_some,
    insertAlignedBlockAddress, hm,
    processFrom, ← hm, hindex, addressIsProcessed_duplicate (by rw [hhome]; decide) hhome]
  rfl

theorem addStubs_replicate (k : Nat) (hsize : 0 < s.size)
    (hhome : s.setOfEntries (64 % s.size) = 64#64)
    (hroom : s.stats.numberOfEntries ≠ s.maxElementsBeforeResize) :
    addStubs (List.replicate k ⟨64, 1⟩) s = some (repeated k s) := by
  induction k generalizing s with
  | zero => rfl
  | succ k ih =>
      rw [List.replicate_succ, addStubs, addRedoLogStub_repeated hsize hhome hroom,
        Option.bind_some]
      rw [@ih (repeated 1 s) hsize hhome hroom]
      simp only [repeated, Nat.add_assoc, Nat.add_comm 1 k]

theorem addStubs_collided : addStubs [⟨64, 1⟩, ⟨128, 1⟩] (initialise 4 1) = some collided := by
  have hmax : (initialise 4 1).maxElementsBeforeResize = 4 := by
    rw [initialise, mul_one, Nat.floor_natCast]
  have hfirst : addRedoLogStub (initialise 4 1) .bytes64 64 1 = some { initialise 4 1 with
      setOfEntries := Function.update (fun _ => 0) 0 64#64
      stats.numberOfEntries := 1 } := by
    rw [addRedoLogStub_line (by decide) (by decide), if_neg (by rw [hmax]; decide)]
    rfl
  have hsecond : addRedoLogStub { initialise 4 1 with
      setOfEntries := Function.update (fun _ => 0) 0 64#64
      stats.numberOfEntries := 1 } .bytes64 128 1 = some collided := by
    rw [addRedoLogStub_line (by decide) (by decide), if_neg (by rw [hmax]; decide)]
    rfl
  rw [addStubs, hfirst, Option.bind_some, addStubs, hsecond]
  rfl

theorem parameters_four : Parameters 4 1 := ⟨by decide, one_pos, le_rfl, 4, by decide, by norm_num⟩

theorem resizing_set_of_lines_two :
    ∃ s, addStubs [⟨64, 1⟩, ⟨128, 1⟩] (initialise 4 1) = some s ∧
    IsLineSet [⟨64, 1⟩, ⟨128, 1⟩] s := by
  refine resizing_set_of_lines parameters_four ?_ ?_
  · simp only [List.forall_mem_cons, List.not_mem_nil, false_implies, implies_true, and_true]
    exact ⟨⟨by decide, by decide, by decide⟩, ⟨by decide, by decide, by decide⟩⟩
  · exact fewCollisions_of_last addStubs_collided (by decide)

/-- The second line collides with the first, which is then added again until the
counter of the collisions has passed the largest `int`. -/
def overflowing : List Stub := [⟨64, 1⟩, ⟨128, 1⟩] ++ List.replicate (2 ^ 31 - 1) ⟨64, 1⟩

theorem addStubs_overflowing :
    addStubs overflowing (initialise 4 1) = some (repeated (2 ^ 31 - 1) collided) := by
  have hmax : collided.maxElementsBeforeResize = 4 := by
    rw [collided, initialise, mul_one, Nat.floor_natCast]
  rw [overflowing, addStubs_append, addStubs_collided, Option.bind_some]
  exact addStubs_replicate _ (by decide) rfl (by rw [hmax]; decide)

theorem not_resizing_set_of_lines :
    Parameters 4 1 ∧ (∀ x ∈ overflowing, x.Valid) ∧
      ¬ ∃ s, addStubs overflowing (initialise 4 1) = some s ∧ IsLineSet overflowing s := by
  refine ⟨parameters_four, fun x hx => ?_, ?_⟩
  · have hcases : x = ⟨64, 1⟩ ∨ x = ⟨128, 1⟩ := by
      rcases List.mem_append.mp hx with hx | hx
      · simpa using hx
      · exact .inl (List.eq_of_mem_replicate hx)
    rcases hcases with rfl | rfl
    · exact ⟨by decide, by decide, by decide⟩
    · exact ⟨by decide, by decide, by decide⟩
  · rintro ⟨s, hs, hset⟩
    obtain rfl := Option.some.inj (addStubs_overflowing.symm.trans hs)
    have hwrapped : counter (0 + (2 ^ 31 - 1)) ≤ counter (1 + (2 ^ 31 - 1)) := hset.duplicates
    revert hwrapped
    decide

end Runs

end Mangosteen.LineSet
