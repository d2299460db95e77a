import Mathlib.Data.Nat.Log
import Mathlib.Tactic

set_option autoImplicit false

/-! # Linear hashing

A table that grows one bucket at a time addresses a hash by its low bits: `p` of them where
that names a bucket that exists, one fewer where it does not (`address`). Growing the table
from `n` to `m` buckets then splits buckets and merges none: a hash that lies in bucket `c`
of the larger table lies, in the smaller one, in the bucket of `c` itself (`address_address`).
A bucket is the set of all hashes with some fixed low bits, whose number depends on the
bucket (`address_eq_iff`).
-/

namespace LinearHash

open Nat

/-- The bucket of `h` in a table of `n` buckets, with `p` bits in use. -/
def address (p n h : Nat) : Nat := if h % 2 ^ p < n then h % 2 ^ p else h % 2 ^ (p - 1)

/-- The number of bits is right for the number of buckets. -/
def Depth (p n : Nat) : Prop := 2 ^ (p - 1) ≤ n ∧ n ≤ 2 ^ p

/-- The number of low bits that decide whether a hash lies in bucket `s`. -/
def bucketBits (p n s : Nat) : Nat := if s % 2 ^ (p - 1) < n % 2 ^ (p - 1) then p else p - 1

variable {p q n m h s : Nat}

theorem address_lt (hd : Depth p n) : address p n h < n := by
  unfold address
  split_ifs with hlt
  · exact hlt
  · exact lt_of_lt_of_le (Nat.mod_lt _ (by positivity)) hd.1

theorem address_of_lt (hd : Depth p n) (hs : s < n) : address p n s = s := by
  have hmod : s % 2 ^ p = s := Nat.mod_eq_of_lt (lt_of_lt_of_le hs hd.2)
  rw [address, hmod, if_pos hs]

theorem mod_two_mul (h K : Nat) : h % (2 * K) = h % K ∨ h % (2 * K) = h % K + K := by
  have hmul : h % (K * 2) = h % K + K * (h / K % 2) := mod_mul
  rw [mul_comm 2 K, hmul]
  rcases mod_two_eq_zero_or_one (h / K) with h0 | h1
  · exact .inl (by rw [h0]; simp)
  · exact .inr (by rw [h1]; simp)

theorem two_pow_pred (hp : 0 < p) : 2 ^ p = 2 * 2 ^ (p - 1) := by
  obtain ⟨k, rfl⟩ : ∃ k, p = k + 1 := ⟨p - 1, by omega⟩
  rw [pow_succ, Nat.add_sub_cancel]
  ring

theorem address_eq_of_depth (hp : Depth p n) (hq : Depth q n) : address p n h = address q n h := by
  -- both depths are right only if `n` is a power of two and one of them is one too large
  have key : ∀ {p q : Nat}, p < q → Depth p n → Depth q n → address p n h = address q n h := by
    intro p q hlt hp hq
    have hle : 2 ^ p ≤ 2 ^ (q - 1) := Nat.pow_le_pow_right (by omega) (by omega)
    have hn : n = 2 ^ (q - 1) := le_antisymm (hp.2.trans hle) hq.1
    have hpow : 2 ^ p = 2 ^ (q - 1) := le_antisymm hle (hn ▸ hp.2)
    have hsmall : h % 2 ^ (q - 1) < 2 ^ (q - 1) := Nat.mod_lt _ (by positivity)
    unfold address
    rw [hpow, two_pow_pred (by omega : 0 < q), hn, if_pos hsmall]
    rcases mod_two_mul h (2 ^ (q - 1)) with hm | hm
    · rw [hm, if_pos hsmall]
    · rw [hm, if_neg (by omega)]
  rcases lt_trichotomy p q with hlt | rfl | hgt
  · exact key hlt hp hq
  · rfl
  · exact (key hgt hq hp).symm

/-- **A bucket is a class of hashes with the same low bits.** -/
theorem address_eq_iff (hp : 0 < p) (hlo : 2 ^ (p - 1) ≤ n) (hhi : n < 2 ^ p) (hs : s < n) :
    address p n h = s ↔ h % 2 ^ bucketBits p n s = s := by
  unfold address bucketBits
  rw [two_pow_pred hp] at hhi ⊢
  generalize hK : 2 ^ (p - 1) = K at *
  have hKpos : 0 < K := by rw [← hK]; positivity
  have hr : h % K < K := Nat.mod_lt _ hKpos
  have hnK : n % K = n - K := by
    rw [mod_eq_sub_mod hlo, Nat.mod_eq_of_lt (by omega)]
  have hsK : s % K = if s < K then s else s - K := by
    split_ifs with hlt
    · exact Nat.mod_eq_of_lt hlt
    · rw [mod_eq_sub_mod (by omega), Nat.mod_eq_of_lt (by omega)]
  have hmod := mod_two_mul h K
  rw [hnK, hsK]
  by_cases hin : (if s < K then s else s - K) < n - K
  · rw [if_pos hin, two_pow_pred hp, hK]
    split_ifs at hin ⊢ <;> omega
  · rw [if_neg hin, hK]
    split_ifs at hin ⊢ <;> omega

/-- Bits that the table does not look at. -/
theorem address_mod {b : Nat} (hpb : p ≤ b) : address p n (h % 2 ^ b) = address p n h := by
  have hdvd : 2 ^ p ∣ 2 ^ b := pow_dvd_pow 2 hpb
  have hdvd' : 2 ^ (p - 1) ∣ 2 ^ b := pow_dvd_pow 2 (by omega)
  rw [address, address, mod_mod_of_dvd _ hdvd, mod_mod_of_dvd _ hdvd']

/-- **Growing the table only splits buckets.** -/
theorem address_address (hn : Depth p n) (hm : Depth q m) (hle : n ≤ m) :
    address p n (address q m h) = address p n h := by
  by_cases hfull : h % 2 ^ q < m
  · -- all `q` bits are kept, and the smaller table looks at no more of them
    have haddr : address q m h = h % 2 ^ q := by rw [address, if_pos hfull]
    rw [haddr]
    rcases le_or_gt p q with hpq | hpq
    · exact address_mod hpq
    · -- more bits for fewer buckets: the tables are equal
      have hle' : 2 ^ q ≤ 2 ^ (p - 1) := Nat.pow_le_pow_right (by omega) (by omega)
      have hnm : n = m := le_antisymm hle (hm.2.trans (hle'.trans hn.1))
      subst hnm
      rw [address_eq_of_depth hn hm, address_eq_of_depth hn hm (h := h), haddr]
      exact address_of_lt hm hfull
  · have haddr : address q m h = h % 2 ^ (q - 1) := by rw [address, if_neg hfull]
    rw [haddr]
    rcases lt_or_ge p q with hpq | hpq
    · exact address_mod (by omega)
    · have hdepth : Depth q n := by
        refine ⟨?_, hle.trans hm.2⟩
        exact (Nat.pow_le_pow_right (by omega) (by omega)).trans hn.1
      have hcut : address q n h = h % 2 ^ (q - 1) := by rw [address, if_neg (by omega)]
      rw [address_eq_of_depth hn hdepth, address_eq_of_depth hn hdepth (h := h), hcut]
      exact address_of_lt hdepth (lt_of_lt_of_le (Nat.mod_lt _ (by positivity)) hdepth.1)

/-- Without its highest bit, a hash that is no bucket lies in the same bucket. -/
theorem address_mod_top {b : Nat} (hd : Depth p n) (hhi : h < 2 ^ b) (hle : n ≤ h) :
    address p n (h % 2 ^ (b - 1)) = address p n h := by
  by_cases hpb : p ≤ b - 1
  · -- the bits that count are below the highest one
    exact address_mod hpb
  · have hall : h % 2 ^ p = h :=
      Nat.mod_eq_of_lt (lt_of_lt_of_le hhi (Nat.pow_le_pow_right (by omega) (by omega)))
    have hpow : 2 ^ (p - 1) ≤ n := hd.1
    have hb : b - 1 = p - 1 := by
      by_contra hne
      have hlt : 2 ^ b ≤ 2 ^ (p - 1) := Nat.pow_le_pow_right (by omega) (by omega)
      omega
    have haddr : address p n h = h % 2 ^ (p - 1) := by rw [address, hall, if_neg (by omega)]
    rw [haddr, hb]
    exact address_of_lt hd (by omega)

end LinearHash
