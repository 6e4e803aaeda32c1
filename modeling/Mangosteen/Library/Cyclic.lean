import Mathlib.Data.Nat.ModEq
import Mathlib.Algebra.Order.Sub.Basic

namespace Mangosteen.Cyclic

variable {N : Nat}

/-- Two counts less than one turn apart are told apart by their indices. -/
theorem eq_of_mod_eq {i j : Nat} (hij : i ≤ j) (hj : j < i + N) (h : i % N = j % N) : i = j := by
  have hm : (j - i) % N = 0 := Nat.sub_mod_eq_zero_of_mod_eq h.symm
  have hz : j - i = 0 := by
    by_contra hne
    have := Nat.le_of_dvd (by omega) (Nat.dvd_of_mod_eq_zero hm)
    omega
  omega

theorem mod_ne_of_lt {i j : Nat} (hij : i < j) (hj : j < i + N) : i % N ≠ j % N := by
  intro h
  have := eq_of_mod_eq hij.le hj h
  omega

theorem succ_mod (hN : 1 < N) (i : Nat) :
    (if i % N + 1 = N then 0 else i % N + 1) = (i + 1) % N := by
  have hlt := Nat.mod_lt i (show 0 < N by omega)
  have hadd : (i + 1) % N = (i % N + 1) % N := by rw [Nat.mod_add_mod]
  rw [hadd]
  by_cases h : i % N + 1 = N
  · simp [h]
  · rw [if_neg h, Nat.mod_eq_of_lt (show i % N + 1 < N by omega)]

/-- An index is reached from another by going forward over their distance. -/
theorem add_distance {h i : Nat} (hi : i < N) : (h + (i + N - h % N) % N) % N = i := by
  have hm := Nat.mod_lt h (show 0 < N by omega)
  have e : h % N + (i + N - h % N) = i + N := by omega
  rw [Nat.add_mod_mod, ← Nat.mod_add_mod, e, Nat.add_mod_right, Nat.mod_eq_of_lt hi]

/-- The distance from one index forward to another, for counts less than one
turn apart. -/
theorem distance {h b : Nat} (hb : h ≤ b) (hlt : b < h + N) : (b % N + N - h % N) % N = b - h := by
  have hN : 0 < N := by omega
  have e := add_distance (h := h) (Nat.mod_lt b hN)
  have hd := Nat.mod_lt (b % N + N - h % N) hN
  have hc : h + (b % N + N - h % N) % N ≡ h + (b - h) [MOD N] := by
    rw [Nat.ModEq, e, Nat.add_sub_cancel' hb]
  have := Nat.ModEq.add_left_cancel' h hc
  rwa [Nat.ModEq, Nat.mod_eq_of_lt hd, Nat.mod_eq_of_lt (show b - h < N by omega)] at this

end Mangosteen.Cyclic
