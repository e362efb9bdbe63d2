import Mathlib.Data.List.Induction
import Mathlib.Data.Nat.Digits.Defs

/-!
# Digits of a fixed number

The lowest digits of a number, the highest of them first, and the number that digits make up. Digits
of one base are regrouped to digits of another one, with a factor `c` for what is left in the last
of them (`regroup`), and back (`ungroup`).
-/

namespace Radix

variable {b B c d e k m n : ℕ} {ds es : List ℕ}

/-- The `k` lowest digits in base `b`, the highest first. -/
def digits (b : ℕ) : ℕ → ℕ → List ℕ
  | 0, _ => []
  | k + 1, n => digits b k (n / b) ++ [n % b]

/-- The number with the digits `ds`, the highest first. -/
def value (b : ℕ) (ds : List ℕ) : ℕ := Nat.ofDigits b ds.reverse

theorem value_concat : value b (ds ++ [d]) = value b ds * b + d := by
  rw [value, List.reverse_append, List.reverse_singleton, List.singleton_append, Nat.ofDigits_cons,
    Nat.mul_comm, Nat.add_comm, value]

theorem length_digits : (digits b k n).length = k := by
  induction k generalizing n with
  | zero => rfl
  | succ k ih => rw [digits, List.length_append, ih, List.length_singleton]

theorem lt_of_mem_digits (hb : 0 < b) (h : d ∈ digits b k n) : d < b := by
  induction k generalizing n with
  | zero => exact absurd h List.not_mem_nil
  | succ k ih =>
    rcases List.mem_append.mp h with h | h
    · exact ih h
    · rw [List.mem_singleton.mp h]
      exact Nat.mod_lt n hb

theorem value_lt (hb : 1 < b) (h : ∀ d ∈ ds, d < b) : value b ds < b ^ ds.length := by
  rw [← List.length_reverse]
  exact Nat.ofDigits_lt_base_pow_length hb fun d hd => h d (List.mem_reverse.mp hd)

theorem value_digits (h : n < b ^ k) : value b (digits b k n) = n := by
  induction k generalizing n with
  | zero =>
    rw [Nat.pow_zero] at h
    rw [Nat.lt_one_iff.mp h]
    rfl
  | succ k ih =>
    rw [Nat.pow_succ'] at h
    rw [digits, value_concat, ih (Nat.div_lt_of_lt_mul h), Nat.div_add_mod']

theorem digits_value (h : ∀ d ∈ ds, d < b) : digits b ds.length (value b ds) = ds := by
  induction ds using List.reverseRecOn with
  | nil => rfl
  | append_singleton ds d ih =>
    have hd : d < b := h d (List.mem_append_right _ (List.mem_singleton_self d))
    have ih := ih fun d hd => h d (List.mem_append_left _ hd)
    rw [List.length_append, List.length_singleton, digits, value_concat, Nat.add_comm _ d,
      Nat.add_mul_div_right _ _ (Nat.zero_lt_of_lt hd), Nat.div_eq_of_lt hd, Nat.zero_add, ih,
      Nat.add_mul_mod_self_right, Nat.mod_eq_of_lt hd]

/-! ## Two bases -/

/-- Digits of base `B` as `k` digits of base `b`. -/
def regroup (B b k c : ℕ) (ds : List ℕ) : List ℕ := digits b k (value B ds * c)

/-- Digits of base `b` as `m` digits of base `B`. -/
def ungroup (B b m c : ℕ) (es : List ℕ) : List ℕ := digits B m (value b es / c)

theorem ungroup_regroup (hB : 1 < B) (hc : 0 < c) (hds : ∀ d ∈ ds, d < B)
    (hroom : B ^ ds.length * c ≤ b ^ k) : ungroup B b ds.length c (regroup B b k c ds) = ds := by
  have hvalue : value B ds * c < b ^ k :=
    (Nat.mul_lt_mul_of_pos_right (value_lt hB hds) hc).trans_le hroom
  rw [ungroup, regroup, value_digits hvalue, Nat.mul_div_cancel _ hc, digits_value hds]

/-- What is left in the last digit is cleared. -/
theorem regroup_ungroup (hb : 1 < b) (hc : c ∣ b) (hes : ∀ d ∈ es ++ [e], d < b)
    (hroom : b ^ (es.length + 1) ≤ B ^ m * c) :
    regroup B b (es.length + 1) c (ungroup B b m c (es ++ [e])) = es ++ [e / c * c] := by
  have hpos : 0 < c := Nat.pos_of_dvd_of_pos hc (Nat.zero_lt_of_lt hb)
  have hvalue : value b (es ++ [e]) < b ^ (es.length + 1) := by
    have hlt := value_lt hb hes
    rwa [List.length_append, List.length_singleton] at hlt
  have hquotient : value b (es ++ [e]) / c < B ^ m :=
    Nat.div_lt_of_lt_mul (Nat.mul_comm c _ ▸ hvalue.trans_le hroom)
  have hcleared : value b (es ++ [e]) / c * c = value b (es ++ [e / c * c]) := by
    obtain ⟨q, rfl⟩ := hc
    have hfactor : value (c * q) es * (c * q) = value (c * q) es * q * c := by
      rw [Nat.mul_comm c, Nat.mul_assoc]
    rw [value_concat, value_concat, hfactor, Nat.add_comm, Nat.add_mul_div_right _ _ hpos,
      Nat.add_mul, Nat.add_comm]
  have hlast : e / c * c < b :=
    (Nat.div_mul_le_self e c).trans_lt (hes e (List.mem_append_right _ (List.mem_singleton_self e)))
  have hdigits : ∀ d ∈ es ++ [e / c * c], d < b := by
    intro d hd
    rcases List.mem_append.mp hd with hd | hd
    · exact hes d (List.mem_append_left _ hd)
    · rwa [List.mem_singleton.mp hd]
  have hback := digits_value hdigits
  rw [List.length_append, List.length_singleton] at hback
  rw [regroup, ungroup, value_digits hquotient, hcleared, hback]

end Radix
