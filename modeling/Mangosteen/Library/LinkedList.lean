import Mathlib.Data.List.Basic

namespace Mangosteen.LinkedList

variable {α : Type} (next : α → α) (null : α)

/-- The nodes of a list that ends with the null pointer. -/
def Chain : α → List α → Prop
  | p, [] => p = null
  | p, n :: ns => p = n ∧ n ≠ null ∧ Chain (next n) ns

/-- A walk over all nodes, with as many tests for the end as the fuel allows. -/
def nodes [DecidableEq α] : Nat → α → Option (List α)
  | 0, _ => none
  | fuel + 1, p => if p = null then some [] else (nodes fuel (next p)).map (p :: ·)

/-- A walk to the node that has no successor. -/
def last [DecidableEq α] : Nat → α → Option α
  | 0, _ => none
  | fuel + 1, p => if next p ≠ null then last fuel (next p) else some p

variable {next null} {next' : α → α} {p n l : α} {ns : List α}

theorem Chain.congr (h : Chain next null p ns) (hnext : ∀ n ∈ ns, next' n = next n) :
    Chain next' null p ns := by
  induction ns generalizing p with
  | nil => exact h
  | cons n ns ih =>
      obtain ⟨rfl, hn, htail⟩ := h
      refine ⟨rfl, hn, ?_⟩
      rw [hnext p List.mem_cons_self]
      exact ih htail fun k hk => hnext k (List.mem_cons_of_mem p hk)

theorem Chain.ne_null (h : Chain next null p ns) : ∀ n ∈ ns, n ≠ null := by
  induction ns generalizing p with
  | nil => exact fun n hn => absurd hn List.not_mem_nil
  | cons n ns ih =>
      obtain ⟨-, hn, htail⟩ := h
      exact List.forall_mem_cons.mpr ⟨hn, ih htail⟩

theorem Chain.eq_nil_iff (h : Chain next null p ns) : p = null ↔ ns = [] := by
  cases ns with
  | nil => exact ⟨fun _ => rfl, fun _ => h⟩
  | cons n ns =>
      obtain ⟨rfl, hn, -⟩ := h
      exact ⟨fun he => absurd he hn, fun he => by cases he⟩

theorem Chain.next_mem (h : Chain next null p ns) (hn : n ∈ ns) (hnext : next n ≠ null) :
    next n ∈ ns := by
  induction ns generalizing p with
  | nil => cases hn
  | cons k ns ih =>
      obtain ⟨rfl, -, htail⟩ := h
      rcases List.mem_cons.mp hn with rfl | hn
      · cases ns with
        | nil => exact absurd htail hnext
        | cons k ns =>
            obtain ⟨hk, -⟩ := htail
            rw [hk]
            simp
      · exact List.mem_cons_of_mem p (ih htail hn)

/-- A node put behind the last one. -/
theorem Chain.snoc (h : Chain next null p (ns ++ [l])) (hns : ∀ n ∈ ns, next' n = next n)
    (hl : next' l = n)
    (hn : n ≠ null) (hend : next' n = null) : Chain next' null p (ns ++ [l] ++ [n]) := by
  induction ns generalizing p with
  | nil =>
      obtain ⟨rfl, hp, -⟩ := h
      exact ⟨rfl, hp, hl, hn, hend⟩
  | cons k ns ih =>
      obtain ⟨rfl, hp, htail⟩ := h
      refine ⟨rfl, hp, ?_⟩
      rw [hns p List.mem_cons_self]
      exact ih htail fun k hk => hns k (List.mem_cons_of_mem p hk)

variable [DecidableEq α] {fuel : Nat}

theorem Chain.nodes (h : Chain next null p ns) (hfuel : ns.length < fuel) :
    nodes next null fuel p = some ns := by
  induction ns generalizing p fuel with
  | nil =>
      obtain ⟨fuel, rfl⟩ := Nat.exists_eq_succ_of_ne_zero (Nat.ne_zero_of_lt hfuel)
      rw [LinkedList.nodes, if_pos (show p = null from h)]
  | cons n ns ih =>
      obtain ⟨fuel, rfl⟩ := Nat.exists_eq_succ_of_ne_zero (Nat.ne_zero_of_lt hfuel)
      obtain ⟨rfl, hn, htail⟩ := h
      rw [LinkedList.nodes, if_neg hn, ih htail (Nat.lt_of_succ_lt_succ hfuel)]
      rfl

theorem Chain.last (h : Chain next null p (ns ++ [l])) (hfuel : ns.length < fuel) :
    last next null fuel p = some l := by
  induction ns generalizing p fuel with
  | nil =>
      obtain ⟨fuel, rfl⟩ := Nat.exists_eq_succ_of_ne_zero (Nat.ne_zero_of_lt hfuel)
      obtain ⟨rfl, -, hend⟩ := h
      rw [LinkedList.last, if_neg (not_not.mpr (show next p = null from hend))]
  | cons n ns ih =>
      obtain ⟨fuel, rfl⟩ := Nat.exists_eq_succ_of_ne_zero (Nat.ne_zero_of_lt hfuel)
      obtain ⟨rfl, -, htail⟩ := h
      have hmore : next p ≠ null := by
        intro he
        have hnil := htail.eq_nil_iff.mp he
        simp at hnil
      rw [LinkedList.last, if_pos hmore]
      exact ih htail (Nat.lt_of_succ_lt_succ hfuel)

end Mangosteen.LinkedList
