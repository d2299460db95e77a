import Mathlib.Tactic

set_option autoImplicit false

/-! # Numbers with two digits

`a * k + b` with `b` below `k`: the digits are the quotient and the remainder, and numbers compare
by their first digits, then by the second.
-/

theorem mul_add_div_of_lt {a b k : ℕ} (h : b < k) : (a * k + b) / k = a := by
  rw [Nat.add_comm, Nat.add_mul_div_right _ _ (Nat.zero_lt_of_lt h), Nat.div_eq_of_lt h,
    Nat.zero_add]

theorem mul_add_mod_of_lt {a b k : ℕ} (h : b < k) : (a * k + b) % k = b := by
  rw [Nat.mul_add_mod', Nat.mod_eq_of_lt h]

theorem mul_add_lt_iff {a b a' b' k : ℕ} (h : b < k) (h' : b' ≤ k) :
    a * k + b < a' * k + b' ↔ a < a' ∨ (a = a' ∧ b < b') := by
  rcases Nat.lt_trichotomy a a' with hlt | rfl | hgt
  · have hle : (a + 1) * k ≤ a' * k := Nat.mul_le_mul_right k hlt
    rw [Nat.succ_mul] at hle
    simp only [hlt, true_or, iff_true]
    omega
  · simp
  · have hle : (a' + 1) * k ≤ a * k := Nat.mul_le_mul_right k hgt
    rw [Nat.succ_mul] at hle
    simp only [hgt.not_gt, hgt.ne', false_and, or_self, iff_false]
    omega

theorem mul_add_inj {a b a' b' k : ℕ} (h : b < k) (h' : b' < k) :
    a * k + b = a' * k + b' ↔ a = a' ∧ b = b' := by
  constructor
  · intro heq
    have hdiv := congrArg (· / k) heq
    have hmod := congrArg (· % k) heq
    simp only [mul_add_div_of_lt h, mul_add_div_of_lt h', mul_add_mod_of_lt h,
      mul_add_mod_of_lt h'] at hdiv hmod
    exact ⟨hdiv, hmod⟩
  · rintro ⟨rfl, rfl⟩
    rfl

theorem mul_add_lt_mul {a b k n : ℕ} (ha : a < n) (hb : b < k) : a * k + b < n * k := by
  have hle : (a + 1) * k ≤ n * k := Nat.mul_le_mul_right k ha
  rw [Nat.succ_mul] at hle
  omega
