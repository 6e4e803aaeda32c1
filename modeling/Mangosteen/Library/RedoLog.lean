import Mathlib.Logic.Function.Basic

namespace Mangosteen.RedoLog

variable {A V : Type} [DecidableEq A]

/-- The memory after a log of writes has been applied, from the first to the
last. -/
def apply (ws : List (A × V)) (m : A → V) : A → V :=
  ws.foldl (fun m w => Function.update m w.1 w.2) m

theorem apply_append (ws xs : List (A × V)) (m : A → V) :
    apply (ws ++ xs) m = apply xs (apply ws m) :=
  List.foldl_append

theorem apply_cons (w : A × V) (ws : List (A × V)) (m : A → V) :
    apply (w :: ws) m = apply ws (Function.update m w.1 w.2) := rfl

theorem apply_concat (ws : List (A × V)) (w : A × V) (m : A → V) :
    apply (ws ++ [w]) m = Function.update (apply ws m) w.1 w.2 :=
  apply_append ws [w] m

theorem apply_of_not_mem {ws : List (A × V)} {a : A} (h : ∀ w ∈ ws, w.1 ≠ a) (m : A → V) :
    apply ws m a = m a := by
  induction ws generalizing m with
  | nil => rfl
  | cons w ws ih =>
      rw [apply_cons, ih fun x hx => h x (by simp [hx])]
      exact Function.update_of_ne (h w (by simp)).symm _ _

/-- Where something is written, the memory before does not matter: the last
write decides. -/
theorem apply_eq_of_mem {ws : List (A × V)} {a : A} (h : ∃ w ∈ ws, w.1 = a) (m x : A → V) :
    apply ws m a = apply ws x a := by
  induction ws generalizing m x with
  | nil => simp at h
  | cons w ws ih =>
      rw [apply_cons, apply_cons]
      by_cases hmem : ∃ y ∈ ws, y.1 = a
      · exact ih hmem _ _
      · have hne : ∀ y ∈ ws, y.1 ≠ a := fun y hy he => hmem ⟨y, hy, he⟩
        obtain ⟨y, hy, rfl⟩ := h
        rcases List.mem_cons.mp hy with rfl | hy
        · rw [apply_of_not_mem hne, apply_of_not_mem hne, Function.update_self,
            Function.update_self]
        · exact absurd rfl (hne y hy)

/-- Writes that all come from one snapshot carry it over wherever they write. -/
theorem apply_snapshot {ws : List (A × V)} {s m : A → V} (hs : ∀ w ∈ ws, w.2 = s w.1)
    (h : ∀ a, (∃ w ∈ ws, w.1 = a) ∨ m a = s a) : apply ws m = s := by
  induction ws generalizing m with
  | nil => funext a; simpa [apply] using h a
  | cons w ws ih =>
      rw [apply_cons]
      refine ih (fun x hx => hs x (by simp [hx])) fun a => ?_
      by_cases ha : a = w.1
      · subst ha
        right
        rw [Function.update_self, hs w (by simp)]
      · rw [Function.update_of_ne ha]
        refine (h a).imp_left ?_
        rintro ⟨x, hx, rfl⟩
        rcases List.mem_cons.mp hx with rfl | hx
        · exact absurd rfl ha
        · exact ⟨x, hx, rfl⟩

theorem apply_snapshot_of_mem {ws : List (A × V)} {s : A → V} (hs : ∀ w ∈ ws, w.2 = s w.1)
    (m : A → V) {a : A} (h : ∃ w ∈ ws, w.1 = a) : apply ws m a = s a := by
  rw [apply_eq_of_mem h m s, apply_snapshot hs fun _ => .inr rfl]

/-- So the order and the number of such writes do not matter. -/
theorem apply_snapshot_congr {ws xs : List (A × V)} {s : A → V} (hs : ∀ w ∈ ws, w.2 = s w.1)
    (hx : ∀ w, w ∈ xs ↔ w ∈ ws) (m : A → V) : apply xs m = apply ws m := by
  have hs' : ∀ w ∈ xs, w.2 = s w.1 := fun w hw => hs w ((hx w).mp hw)
  funext a
  by_cases h : ∃ w ∈ ws, w.1 = a
  · have h' : ∃ w ∈ xs, w.1 = a := by
      obtain ⟨w, hw, ha⟩ := h
      exact ⟨w, (hx w).mpr hw, ha⟩
    rw [apply_snapshot_of_mem hs m h, apply_snapshot_of_mem hs' m h']
  · have hne : ∀ w ∈ ws, w.1 ≠ a := fun w hw ha => h ⟨w, hw, ha⟩
    rw [apply_of_not_mem hne, apply_of_not_mem fun w hw => hne w ((hx w).mp hw)]

/-- A value that an address had at some moment after the first `k` writes. -/
def Since (ws : List (A × V)) (m : A → V) (k : Nat) (a : A) (v : V) : Prop :=
  ∃ j, k ≤ j ∧ j ≤ ws.length ∧ v = apply (ws.take j) m a

theorem Since.now {ws : List (A × V)} {k : Nat} (hk : k ≤ ws.length) (m : A → V) (a : A) :
    Since ws m k a (apply ws m a) :=
  ⟨ws.length, hk, Nat.le_refl _, by rw [List.take_length]⟩

theorem Since.append {ws xs : List (A × V)} {m : A → V} {k : Nat} {a : A} {v : V}
    (h : Since ws m k a v) : Since (ws ++ xs) m k a v := by
  obtain ⟨j, hk, hj, hv⟩ := h
  refine ⟨j, hk, Nat.le_trans hj (by simp), ?_⟩
  rw [List.take_append_of_le_length hj]
  exact hv

theorem Since.of_le {ws : List (A × V)} {m : A → V} {k l : Nat} {a : A} {v : V}
    (h : Since ws m l a v) (hk : k ≤ l) : Since ws m k a v := by
  obtain ⟨j, hj, hlen, hv⟩ := h
  exact ⟨j, Nat.le_trans hk hj, hlen, hv⟩

theorem Since.eq {ws : List (A × V)} {m : A → V} {a : A} {v : V} (h : Since ws m ws.length a v) :
    v = apply ws m a := by
  obtain ⟨j, hj, hlen, hv⟩ := h
  rw [hv, List.take_of_length_le hj]

/-- The next write gives its address the next value, and an address that it
leaves alone has its value at the next moment too. -/
theorem Since.write {ws : List (A × V)} {m x : A → V} {k : Nat} {w : A × V}
    (hw : ws[k]? = some w) {a : A}
    (h : Since ws m k a (x a)) : Since ws m (k + 1) a (Function.update x w.1 w.2 a) := by
  have hk := (List.getElem?_eq_some_iff.mp hw).1
  have htake : ws.take (k + 1) = ws.take k ++ [w] := by
    rw [List.take_add_one, hw]
    rfl
  by_cases ha : a = w.1
  · subst ha
    refine ⟨k + 1, Nat.le_refl _, hk, ?_⟩
    rw [htake, apply_concat, Function.update_self, Function.update_self]
  · rw [Function.update_of_ne ha]
    obtain ⟨j, hj, hlen, hv⟩ := h
    rcases Nat.lt_or_eq_of_le hj with hlt | rfl
    · exact ⟨j, hlt, hlen, hv⟩
    · refine ⟨k + 1, Nat.le_refl _, hk, ?_⟩
      rw [hv, htake, apply_concat, Function.update_of_ne ha]

/-- The later writes, made again on what is there at any moment after the earlier
ones, lead to the end. -/
theorem Since.replay {ws xs : List (A × V)} {m x : A → V} {a : A}
    (h : Since (ws ++ xs) m ws.length a (x a)) :
    apply xs x a = apply (ws ++ xs) m a := by
  rw [apply_append]
  by_cases hmem : ∃ w ∈ xs, w.1 = a
  · exact apply_eq_of_mem hmem x _
  · have hne : ∀ w ∈ xs, w.1 ≠ a := fun w hw ha => hmem ⟨w, hw, ha⟩
    obtain ⟨j, hj, -, hv⟩ := h
    rw [List.take_append, List.take_of_length_le hj, apply_append,
      apply_of_not_mem fun w hw => hne w (List.mem_of_mem_take hw)] at hv
    rw [apply_of_not_mem hne, apply_of_not_mem hne, hv]

/-- Writes through a renaming of the addresses. -/
theorem apply_map {B : Type} [DecidableEq B] {f : A → B} (hf : Function.Injective f)
    (ws : List (A × V)) (m : B → V)
    (a : A) : apply (ws.map fun w => (f w.1, w.2)) m (f a) = apply ws (m ∘ f) a := by
  induction ws generalizing m with
  | nil => rfl
  | cons w ws ih =>
    rw [List.map_cons, apply_cons, apply_cons, ih, Function.update_comp_eq_of_injective _ hf]

end Mangosteen.RedoLog
