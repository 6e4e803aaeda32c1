import Mathlib.Data.Finset.Card
import Mathlib.Data.Finset.Insert
import Mathlib.Logic.Function.Basic

namespace Mangosteen.OpenAddressing

variable {α : Type} (n : Nat) (blank : α) (home : α → Nat)

def next (i : Nat) : Nat := if i + 1 < n then i + 1 else 0

/-- The search for the slot of a key, from one index on. The fuel is the number
of slots still to be looked at: a search that has seen them all goes on for
ever. -/
def probe [DecidableEq α] (t : Nat → α) (key : α) : Nat → Nat → Option Nat
  | 0, _ => none
  | fuel + 1, i => if t i = blank ∨ t i = key then some i else probe t key fuel (next n i)

def insert [DecidableEq α] (t : Nat → α) (key : α) : Option (Nat → α) :=
  (probe n blank t key n (home key)).map fun i => Function.update t i key

/-- Insertion into a table with a counter, which grows where an empty slot is
taken. -/
def record [DecidableEq α] (key : α) (s : (Nat → α) × Nat) : Option ((Nat → α) × Nat) :=
  (probe n blank s.1 key n (home key)).map fun i =>
    (Function.update s.1 i key, if s.1 i = blank then s.2 + 1 else s.2)

def recordAll [DecidableEq α] : List α → (Nat → α) × Nat → Option ((Nat → α) × Nat)
  | [], s => some s
  | key :: keys, s => (record n blank home key s).bind (recordAll keys)

/-- The slot that is `d` steps after a key's home. -/
def seat (key : α) (d : Nat) : Nat := (home key + d) % n

/-- Whoever looks for a stored key finds it before an empty slot. -/
def Placed (t : Nat → α) : Prop :=
  ∀ j, j < n → t j ≠ blank → ∃ d, seat n home (t j) d = j ∧
    ∀ e, e < d → t (seat n home (t j) e) ≠ blank ∧ t (seat n home (t j) e) ≠ t j

def Stores (t : Nat → α) (key : α) : Prop := key ≠ blank ∧ ∃ j, j < n ∧ t j = key

variable {n blank home} {t u : Nat → α} {key : α}

theorem next_seat (hn : 0 < n) (d : Nat) :
    next n (seat n home key d) = seat n home key (d + 1) := by
  have hlt : (home key + d) % n < n := Nat.mod_lt _ hn
  rw [next, seat, seat, ← Nat.add_assoc, Nat.add_mod (home key + d) 1 n]
  split
  · rename_i h
    rw [Nat.add_mod_mod, Nat.mod_eq_of_lt h]
  · rename_i h
    rw [Nat.add_mod_mod, show (home key + d) % n + 1 = n by omega, Nat.mod_self]

theorem exists_seat (key : α) {j : Nat} (hj : j < n) : ∃ k, k < n ∧ seat n home key k = j := by
  have hn : 0 < n := Nat.zero_lt_of_lt hj
  refine ⟨(j + n - home key % n) % n, Nat.mod_lt _ hn, ?_⟩
  have hlt := Nat.mod_lt (home key) hn
  rw [seat, Nat.add_mod_mod, ← Nat.mod_add_mod,
    show home key % n + (j + n - home key % n) = j + n by omega,
    Nat.add_mod_right, Nat.mod_eq_of_lt hj]

theorem Placed.injective (h : Placed n blank home t) {i j : Nat} (hi : i < n)
    (hj : j < n) (hb : t i ≠ blank) (he : t i = t j) : i = j := by
  obtain ⟨d, hd, hbefore⟩ := h i hi hb
  obtain ⟨e, hej, hbefore'⟩ := h j hj (he ▸ hb)
  rw [← he] at hej hbefore'
  rcases Nat.lt_trichotomy d e with hlt | rfl | hlt
  · exact absurd (by rw [hd]) (hbefore' d hlt).2
  · exact hd.symm.trans hej
  · exact absurd (by rw [hej, he]) (hbefore e hlt).2

theorem placed_blank : Placed n blank home (fun _ => blank) := fun _ _ h => absurd rfl h

variable [DecidableEq α]

/-- What a search from the home of a key has seen when it stops. -/
theorem probe_eq_some (hn : 0 < n) {fuel d i : Nat}
    (h : probe n blank t key fuel (seat n home key d) = some i) :
    ∃ e, d ≤ e ∧ i = seat n home key e ∧ (t i = blank ∨ t i = key) ∧
      ∀ k, d ≤ k → k < e → t (seat n home key k) ≠ blank ∧ t (seat n home key k) ≠ key := by
  induction fuel generalizing d with
  | zero => cases h
  | succ fuel ih =>
      rw [probe] at h
      split at h
      · rename_i hd
        obtain rfl := Option.some.inj h
        exact ⟨d, le_rfl, rfl, hd, fun k hk hk' => absurd hk' (Nat.not_lt.mpr hk)⟩
      · rename_i hd
        rw [next_seat hn] at h
        obtain ⟨e, hle, hi, ht, hk⟩ := ih h
        refine ⟨e, (Nat.le_succ d).trans hle, hi, ht, fun k hdk hke => ?_⟩
        rcases hdk.lt_or_eq with hlt | rfl
        · exact hk k hlt hke
        · exact not_or.mp hd

theorem probe_eq_none (hn : 0 < n) {fuel d : Nat}
    (h : probe n blank t key fuel (seat n home key d) = none) :
    ∀ k, k < fuel → t (seat n home key (d + k)) ≠ blank ∧ t (seat n home key (d + k)) ≠ key := by
  induction fuel generalizing d with
  | zero => exact fun k hk => absurd hk (Nat.not_lt_zero k)
  | succ fuel ih =>
      intro k hk
      rw [probe] at h
      split at h
      · cases h
      · rename_i hd
        rw [next_seat hn] at h
        cases k with
        | zero => exact not_or.mp hd
        | succ k =>
            have := ih h k (Nat.lt_of_succ_lt_succ hk)
            rwa [Nat.succ_add_eq_add_succ] at this

/-- A search fails only in a full table that lacks the key, so never while the
keys that are stored or to be stored are at most as many as the slots. -/
theorem Placed.insert_isSome (h : Placed n blank home t) {keys : Finset α} (hcard : keys.card ≤ n)
    (hkey : key ∈ keys) (hkeys : ∀ k, Stores n blank t k → k ∈ keys) (hhome : home key < n) :
    (insert n blank home t key).isSome := by
  have hn : 0 < n := Nat.zero_lt_of_lt hhome
  rw [insert, Option.isSome_map]
  by_contra hnone
  rw [Option.not_isSome_iff_eq_none, ← show seat n home key 0 = home key from
    Nat.mod_eq_of_lt hhome] at hnone
  have hfull : ∀ j, j < n → t j ≠ blank ∧ t j ≠ key := by
    intro j hj
    obtain ⟨k, hk, rfl⟩ : ∃ k < n, seat n home key k = j := exists_seat key hj
    simpa using probe_eq_none hn hnone k hk
  have hle : (Finset.range n).card ≤ (keys.erase key).card := by
    refine Finset.card_le_card_of_injOn t (fun j hj => ?_) (fun i hi j hj he => ?_)
    · have hj := Finset.mem_range.mp hj
      exact Finset.mem_coe.mpr (Finset.mem_erase.mpr
        ⟨(hfull j hj).2, hkeys _ ⟨(hfull j hj).1, j, hj, rfl⟩⟩)
    · have hi := Finset.mem_range.mp hi
      exact h.injective hi (Finset.mem_range.mp hj) (hfull i hi).1 he
  rw [Finset.card_range, Finset.card_erase_of_mem hkey] at hle
  have hpos := Finset.card_pos.mpr ⟨key, hkey⟩
  omega

theorem insert_eq_some (hn : 0 < n) (hhome : home key < n)
    (h : insert n blank home t key = some u) :
    ∃ d, (t (seat n home key d) = blank ∨ t (seat n home key d) = key) ∧
      u = Function.update t (seat n home key d) key ∧
      ∀ k, k < d → t (seat n home key k) ≠ blank ∧ t (seat n home key k) ≠ key := by
  obtain ⟨i, hi, rfl⟩ := Option.map_eq_some_iff.mp h
  rw [← show seat n home key 0 = home key from Nat.mod_eq_of_lt hhome] at hi
  obtain ⟨d, -, rfl, ht, hk⟩ := probe_eq_some hn hi
  exact ⟨d, ht, rfl, fun k => hk k (Nat.zero_le k)⟩

theorem Placed.insert (h : Placed n blank home t) (hn : 0 < n) (hhome : home key < n)
    (hu : insert n blank home t key = some u) : Placed n blank home u := by
  obtain ⟨d, ht, rfl, hbefore⟩ := insert_eq_some hn hhome hu
  rcases ht with ht | ht
  · have hother : ∀ j, t j ≠ blank → Function.update t (seat n home key d) key j = t j := by
      intro j hj
      refine Function.update_of_ne ?_ _ _
      rintro rfl
      exact hj ht
    intro j hj hb
    by_cases he : j = seat n home key d
    · subst he
      refine ⟨d, by rw [Function.update_self], fun e hed => ?_⟩
      rw [Function.update_self, hother _ (hbefore e hed).1]
      exact hbefore e hed
    · rw [Function.update_of_ne he] at hb ⊢
      obtain ⟨e, hej, hbefore'⟩ := h j hj hb
      refine ⟨e, hej, fun k hk => ?_⟩
      rw [hother _ (hbefore' k hk).1]
      exact hbefore' k hk
  · have hsame : Function.update t (seat n home key d) key = t := by
      rw [Function.update_eq_self_iff, ht]
    rw [hsame]
    exact h

theorem stores_insert (hn : 0 < n) (hhome : home key < n) (hb : key ≠ blank)
    (hu : insert n blank home t key = some u) (k : α) :
    Stores n blank u k ↔ k = key ∨ Stores n blank t k := by
  obtain ⟨d, ht, rfl, -⟩ := insert_eq_some hn hhome hu
  have hlt : seat n home key d < n := Nat.mod_lt _ hn
  constructor
  · rintro ⟨hk, j, hj, rfl⟩
    by_cases he : j = seat n home key d
    · subst he
      exact .inl (Function.update_self _ _ _)
    · rw [Function.update_of_ne he] at hk ⊢
      exact .inr ⟨hk, j, hj, rfl⟩
  · rintro (rfl | ⟨hk, j, hj, rfl⟩)
    · exact ⟨hb, _, hlt, Function.update_self _ _ _⟩
    · refine ⟨hk, j, hj, ?_⟩
      by_cases he : j = seat n home key d
      · subst he
        rw [Function.update_self]
        exact (ht.resolve_left hk).symm
      · exact Function.update_of_ne he _ _

theorem Placed.probe_stored (h : Placed n blank home t) (hn : 0 < n) (hhome : home key < n)
    (hs : Stores n blank t key)
    {i : Nat} (hi : probe n blank t key n (home key) = some i) : t i = key := by
  obtain ⟨hb, j, hj, rfl⟩ := hs
  rw [← show seat n home (t j) 0 = home (t j) from Nat.mod_eq_of_lt hhome] at hi
  obtain ⟨e, -, rfl, ht, hbefore⟩ := probe_eq_some hn hi
  obtain ⟨d, hd, hbefore'⟩ := h j hj hb
  rcases Nat.lt_trichotomy e d with hlt | rfl | hlt
  · exact absurd ht (not_or.mpr (hbefore' e hlt))
  · rw [hd]
  · exact absurd (by rw [hd]) (hbefore d (Nat.zero_le d) hlt).2

/-- What a table with a counter holds after keys have been put into an empty one.
Blank keys are counted each time, others once. -/
structure Holding (n : Nat) (blank : α) (home : α → Nat) (keys : Finset α) (blanks : Nat)
    (s : (Nat → α) × Nat) : Prop where
  placed : Placed n blank home s.1
  stores : ∀ k, Stores n blank s.1 k ↔ k ∈ keys
  count : s.2 = blanks + keys.card

section Record

variable {keys : Finset α} {blanks : Nat} {s s' : (Nat → α) × Nat}

omit [DecidableEq α] in
theorem holding_blank : Holding n blank home ∅ 0 (fun _ => blank, 0) := by
  refine ⟨placed_blank, fun k => ⟨?_, fun h => absurd h (Finset.notMem_empty k)⟩, rfl⟩
  rintro ⟨hk, j, -, rfl⟩
  exact absurd rfl hk

theorem record_eq_some (hr : record n blank home key s = some s') :
    insert n blank home s.1 key = some s'.1 ∧ ∃ i, probe n blank s.1 key n (home key) = some i ∧
      s'.2 = if s.1 i = blank then s.2 + 1 else s.2 := by
  obtain ⟨i, hi, rfl⟩ := Option.map_eq_some_iff.mp hr
  exact ⟨by rw [insert, hi]; rfl, i, hi, rfl⟩

theorem Holding.record (h : Holding n blank home keys blanks s) (hn : 0 < n) (hhome : home key < n)
    (hr : record n blank home key s = some s') :
    Holding n blank home (if key = blank then keys else Insert.insert key keys)
      (if key = blank then blanks + 1 else blanks) s' := by
  obtain ⟨hins, i, hi, hc⟩ := record_eq_some hr
  have hplaced := h.placed.insert hn hhome hins
  have hfound : s.1 i = blank ∨ s.1 i = key := by
    rw [← show seat n home key 0 = home key from Nat.mod_eq_of_lt hhome] at hi
    obtain ⟨e, -, -, ht, -⟩ := probe_eq_some hn hi
    exact ht
  have hlt : i < n := by
    rw [← show seat n home key 0 = home key from Nat.mod_eq_of_lt hhome] at hi
    obtain ⟨e, -, rfl, -, -⟩ := probe_eq_some hn hi
    exact Nat.mod_lt _ hn
  by_cases hb : key = blank
  · -- an empty slot takes the blank key and stays empty
    subst hb
    have hsame : s'.1 = s.1 := by
      obtain ⟨d, ht, hu, -⟩ := insert_eq_some hn hhome hins
      rw [hu, Function.update_eq_self_iff]
      exact (or_self_iff.mp ht).symm
    rw [if_pos rfl, if_pos rfl]
    refine ⟨hplaced, fun k => by rw [hsame]; exact h.stores k, ?_⟩
    rw [hc, if_pos (or_self_iff.mp hfound), h.count]
    omega
  · rw [if_neg hb, if_neg hb]
    refine ⟨hplaced, fun k => ?_, ?_⟩
    · rw [stores_insert hn hhome hb hins, h.stores, Finset.mem_insert]
    · by_cases hmem : key ∈ keys
      · have hkey := h.placed.probe_stored hn hhome ((h.stores key).mpr hmem) hi
        rw [hc, if_neg (by rw [hkey]; exact hb), Finset.insert_eq_self.mpr hmem, h.count]
      · have hblank : s.1 i = blank := by
          refine hfound.resolve_right fun hk => hmem ((h.stores key).mp ⟨hb, i, hlt, hk⟩)
        rw [hc, if_pos hblank, Finset.card_insert_of_notMem hmem, h.count]
        omega

theorem Holding.recordAll (h : Holding n blank home keys blanks s) (hn : 0 < n)
    (hhome : ∀ k, home k < n) {ks : List α} (hr : recordAll n blank home ks s = some s') :
    Holding n blank home (keys ∪ (ks.toFinset.erase blank)) (blanks + ks.count blank) s' := by
  induction ks generalizing keys blanks s with
  | nil =>
      obtain rfl := Option.some.inj hr
      simpa using h
  | cons key ks ih =>
      obtain ⟨s₁, h₁, hrest⟩ := Option.bind_eq_some_iff.mp hr
      have hrec := ih (h.record hn (hhome key) h₁) hrest
      by_cases hb : key = blank
      · subst hb
        rw [if_pos rfl, if_pos rfl] at hrec
        rw [List.toFinset_cons, List.count_cons_self, Finset.erase_insert_eq_erase,
          Nat.add_comm (ks.count key), ← Nat.add_assoc]
        exact hrec
      · rw [if_neg hb, if_neg hb] at hrec
        rw [List.toFinset_cons, List.count_cons_of_ne hb, Finset.erase_insert_of_ne hb,
          Finset.union_insert, ← Finset.insert_union]
        exact hrec

/-- Keys that are not blank fit in as long as they are at most as many as the
slots. -/
theorem Holding.exists_recordAll (h : Holding n blank home keys blanks s) (hn : 0 < n)
    (hhome : ∀ k, home k < n) {ks : List α}
    (hks : blank ∉ ks) {all : Finset α} (hkeys : keys ⊆ all) (hall : ∀ k ∈ ks, k ∈ all)
    (hcard : all.card ≤ n) : ∃ s', OpenAddressing.recordAll n blank home ks s = some s' := by
  induction ks generalizing keys blanks s with
  | nil => exact ⟨s, rfl⟩
  | cons key ks ih =>
      have hkey := hall key (by simp)
      have hsome :=
        h.placed.insert_isSome hcard hkey (fun k hk => hkeys ((h.stores k).mp hk)) (hhome key)
      rw [insert, Option.isSome_map] at hsome
      obtain ⟨s₁, hrec⟩ : ∃ s₁, OpenAddressing.record n blank home key s = some s₁ := by
        rw [← Option.isSome_iff_exists, OpenAddressing.record, Option.isSome_map]
        exact hsome
      have hb : key ≠ blank := fun hb => hks (by simp [hb])
      have h₁ := h.record hn (hhome key) hrec
      rw [if_neg hb, if_neg hb] at h₁
      obtain ⟨s', hs'⟩ :=
        ih h₁ (fun hm => hks (List.mem_cons_of_mem _ hm)) (Finset.insert_subset hkey hkeys)
        fun k hk => hall k (by simp [hk])
      exact ⟨s', by rw [OpenAddressing.recordAll, hrec, Option.bind_some, hs']⟩

theorem Holding.card_le (h : Holding n blank home keys blanks s) : keys.card ≤ n := by
  have hsub : keys ⊆ (Finset.range n).image s.1 := by
    intro k hk
    obtain ⟨-, j, hj, rfl⟩ := (h.stores k).mpr hk
    exact Finset.mem_image_of_mem s.1 (Finset.mem_range.mpr hj)
  have hle := (Finset.card_le_card hsub).trans Finset.card_image_le
  rwa [Finset.card_range] at hle

end Record

section Map

variable {β : Type} [DecidableEq β] {home' : β → Nat} {f : α → β} {S : Set α}
  {s s' : (Nat → α) × Nat}

/-- A search sees no difference where the entries and the key are renamed one to
one. -/
theorem probe_map (hf : Set.InjOn f S) (hb : blank ∈ S) (ht : ∀ i, t i ∈ S)
    (hk : key ∈ S) (fuel i : Nat) :
    probe n (f blank) (f ∘ t) (f key) fuel i = probe n blank t key fuel i := by
  induction fuel generalizing i with
  | zero => rfl
  | succ fuel ih =>
      have hseat : ((f ∘ t) i = f blank ∨ (f ∘ t) i = f key) ↔ (t i = blank ∨ t i = key) :=
        or_congr (hf.eq_iff (ht i) hb) (hf.eq_iff (ht i) hk)
      simp only [probe, hseat, ih]

theorem record_map (hf : Set.InjOn f S) (hb : blank ∈ S) (ht : ∀ i, s.1 i ∈ S) (hk : key ∈ S)
    (hhome : home' (f key) = home key) :
    record n (f blank) home' (f key) (f ∘ s.1, s.2) = (record n blank home key s).map fun s' =>
    (f ∘ s'.1, s'.2) := by
  rw [record, record, hhome, probe_map hf hb ht hk, Option.map_map]
  congr 1
  funext i
  simp only [Function.comp_apply, hf.eq_iff (ht i) hb, Function.comp_update]

theorem record_range (ht : ∀ i, s.1 i ∈ S) (hk : key ∈ S)
    (h : record n blank home key s = some s') (i : Nat) : s'.1 i ∈ S := by
  obtain ⟨j, -, rfl⟩ := Option.map_eq_some_iff.mp h
  by_cases hij : i = j
  · subst hij
    simpa using hk
  · simpa [Function.update_of_ne hij] using ht i

theorem recordAll_range {keys : List α} (ht : ∀ i, s.1 i ∈ S) (hk : ∀ key ∈ keys, key ∈ S)
    (h : recordAll n blank home keys s = some s') (i : Nat) : s'.1 i ∈ S := by
  induction keys generalizing s with
  | nil =>
      obtain rfl := Option.some.inj h
      exact ht i
  | cons key keys ih =>
      obtain ⟨s₁, h₁, hrest⟩ := Option.bind_eq_some_iff.mp h
      exact ih (record_range ht (hk key (by simp)) h₁) (fun k hks => hk k (by simp [hks])) hrest

theorem recordAll_map (hf : Set.InjOn f S) (hb : blank ∈ S)
    (hhome : ∀ key ∈ S, home' (f key) = home key) {keys : List α}
    (ht : ∀ i, s.1 i ∈ S) (hk : ∀ key ∈ keys, key ∈ S) :
    recordAll n (f blank) home' (keys.map f) (f ∘ s.1, s.2) =
      (recordAll n blank home keys s).map fun s' => (f ∘ s'.1, s'.2) := by
  induction keys generalizing s with
  | nil => rfl
  | cons key keys ih =>
      have hkey := hk key (by simp)
      rw [List.map_cons, recordAll, recordAll, record_map hf hb ht hkey (hhome key hkey)]
      cases h : record n blank home key s with
      | none => rfl
      | some s₁ => exact ih (record_range ht hkey h) fun k hks => hk k (by simp [hks])

end Map

end Mangosteen.OpenAddressing
