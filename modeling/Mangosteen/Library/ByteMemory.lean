import Mathlib.Algebra.Order.Ring.Nat
import Mathlib.Data.List.Basic

namespace Mangosteen.ByteMemory

/-- The bytes at all addresses, with the ranges (address and width) that were
written, the latest first. -/
structure Memory where
  bytes : Nat → UInt8
  written : List (Nat × Nat) := []

/-- The number in some bytes, the lowest of them first. -/
def valueAt (bytes : Nat → UInt8) (a : Nat) : Nat → Nat
  | 0 => 0
  | w + 1 => (bytes a).toNat + 256 * valueAt bytes (a + 1) w

namespace Memory

def load (m : Memory) (a w : Nat) : Nat := valueAt m.bytes a w

def overwrite (m : Memory) (a w : Nat) (f : Nat → UInt8) : Memory where
  bytes := fun b => if a ≤ b ∧ b < a + w then f (b - a) else m.bytes b
  written := (a, w) :: m.written

def store (m : Memory) (a w v : Nat) : Memory := m.overwrite a w fun i => UInt8.ofNat (v / 256 ^ i)

variable {m m' m'' : Memory} {a b w n v : Nat} {f : Nat → UInt8}

theorem overwrite_of_lt {i : Nat} (h : i < w) : (m.overwrite a w f).bytes (a + i) = f i := by
  rw [overwrite]
  simp only [if_pos (show a ≤ a + i ∧ a + i < a + w by omega), Nat.add_sub_cancel_left]

theorem overwrite_of_not_mem (h : b < a ∨ a + w ≤ b) : (m.overwrite a w f).bytes b = m.bytes b := by
  rw [overwrite]
  simp only [if_neg (show ¬ (a ≤ b ∧ b < a + w) by omega)]

theorem store_of_not_mem (h : b < a ∨ a + w ≤ b) : (m.store a w v).bytes b = m.bytes b :=
  overwrite_of_not_mem h

theorem load_succ (m : Memory) (a w : Nat) :
    m.load a (w + 1) = (m.bytes a).toNat + 256 * m.load (a + 1) w := rfl

theorem load_congr (h : ∀ i < w, m'.bytes (a + i) = m.bytes (a + i)) :
    m'.load a w = m.load a w := by
  induction w generalizing a with
  | zero => rfl
  | succ w ih =>
      have htail : ∀ i < w, m'.bytes (a + 1 + i) = m.bytes (a + 1 + i) := by
        intro i hi
        rw [Nat.add_right_comm, Nat.add_assoc]
        exact h (i + 1) (Nat.succ_lt_succ hi)
      have hhead : m'.bytes a = m.bytes a := h 0 (Nat.succ_pos w)
      rw [load_succ, load_succ, ih htail, hhead]

theorem load_overwrite_of_disjoint (h : a + w ≤ b ∨ b + n ≤ a) :
    (m.overwrite b n f).load a w = m.load a w := by
  apply load_congr
  intro i hi
  apply overwrite_of_not_mem
  omega

theorem load_store_of_disjoint (h : a + w ≤ b ∨ b + n ≤ a) :
    (m.store b n v).load a w = m.load a w :=
  load_overwrite_of_disjoint h

theorem load_of_bytes (h : ∀ i < w, m.bytes (a + i) = UInt8.ofNat (v / 256 ^ i))
    (hv : v < 256 ^ w) : m.load a w = v := by
  induction w generalizing a v with
  | zero =>
      rw [Nat.lt_one_iff.mp hv]
      rfl
  | succ w ih =>
      have htail : ∀ i < w, m.bytes (a + 1 + i) = UInt8.ofNat (v / 256 / 256 ^ i) := by
        intro i hi
        rw [Nat.div_div_eq_div_mul, ← Nat.pow_succ', Nat.add_right_comm, Nat.add_assoc]
        exact h (i + 1) (Nat.succ_lt_succ hi)
      have hhead : (m.bytes a).toNat = v % 256 := by
        have hbyte := h 0 (Nat.succ_pos w)
        rw [Nat.add_zero, Nat.pow_zero, Nat.div_one] at hbyte
        rw [hbyte, UInt8.toNat_ofNat']
      rw [load_succ, hhead, ih htail (Nat.div_lt_of_lt_mul (by rwa [← Nat.pow_succ'])),
        Nat.mod_add_div]

theorem load_store (hv : v < 256 ^ w) : (m.store a w v).load a w = v := by
  apply load_of_bytes _ hv
  intro i hi
  exact overwrite_of_lt hi

theorem load_zero (h : ∀ i < w, m.bytes (a + i) = 0) : m.load a w = 0 := by
  apply load_of_bytes
  · intro i hi
    rw [h i hi, Nat.zero_div]
    rfl
  · exact Nat.pow_pos (by decide)

theorem byte_of_load {i : Nat} (hi : i < w) :
    (m.bytes (a + i)).toNat = m.load a w / 256 ^ i % 256 := by
  induction w generalizing a i with
  | zero => cases hi
  | succ w ih =>
      have hbyte := (m.bytes a).toNat_lt
      rw [load_succ]
      cases i with
      | zero =>
          rw [Nat.pow_zero, Nat.div_one, Nat.add_zero]
          omega
      | succ i =>
          have hdiv : ((m.bytes a).toNat + 256 * m.load (a + 1) w) / 256 = m.load (a + 1) w := by
            omega
          rw [Nat.pow_succ', ← Nat.div_div_eq_div_mul, hdiv, ← ih (Nat.lt_of_succ_lt_succ hi),
            Nat.add_right_comm, Nat.add_assoc]

/-- Only bytes between two addresses are written on the way from one memory to
another. -/
structure Within (lo hi : Nat) (m m' : Memory) : Prop where
  written : ∀ r ∈ m'.written, r ∈ m.written ∨ lo ≤ r.1 ∧ r.1 + r.2 ≤ hi
  bytes : ∀ b, b < lo ∨ hi ≤ b → m'.bytes b = m.bytes b

variable {lo hi : Nat}

theorem Within.refl (lo hi : Nat) (m : Memory) : Within lo hi m m := ⟨fun _ => .inl, fun _ _ => rfl⟩

theorem Within.trans (h : Within lo hi m m') (h' : Within lo hi m' m'') : Within lo hi m m'' where
  written := fun r hr => (h'.written r hr).elim (h.written r) .inr
  bytes := fun b hb => (h'.bytes b hb).trans (h.bytes b hb)

theorem Within.mono {lo' hi' : Nat} (h : Within lo hi m m') (hlo : lo' ≤ lo) (hhi : hi ≤ hi') :
    Within lo' hi' m m' where
  written := fun r hr => (h.written r hr).imp_right fun h => ⟨hlo.trans h.1, h.2.trans hhi⟩
  bytes := fun b hb => h.bytes b (by omega)

theorem within_overwrite (hlo : lo ≤ a) (hhi : a + w ≤ hi) :
    Within lo hi m (m.overwrite a w f) where
  written := by
    rintro r (_ | hr)
    · exact .inr ⟨hlo, hhi⟩
    · exact .inl (by assumption)
  bytes := fun b hb => overwrite_of_not_mem (by omega)

theorem within_store (hlo : lo ≤ a) (hhi : a + w ≤ hi) : Within lo hi m (m.store a w v) :=
  within_overwrite hlo hhi

theorem Within.load (h : Within lo hi m m') (ha : a + w ≤ lo ∨ hi ≤ a) :
    m'.load a w = m.load a w := by
  apply load_congr
  intro i hi
  apply h.bytes
  omega

end Memory

end Mangosteen.ByteMemory
