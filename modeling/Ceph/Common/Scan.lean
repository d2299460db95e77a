import Ceph.Common.HobjectStr
import Mathlib.Data.Nat.Digits.Lemmas

set_option autoImplicit false

/-! # Numbers that are printed and scanned

`ritoa` (`common/strtol.h`) writes the digits of a number. The conversions `%u`, `%llu` and `%x` of
`sscanf` accept more than it writes: white space in front, a sign, leading zeros, capital letters,
`0x`, and numbers that do not fit. What is written is read back (`scanNumber_ritoa`).
-/

namespace Ceph.Scan

open Nat List Hobject

/-! ## The model -/

/-- `ritoa`, with a width of one digit. -/
def ritoa (base n : ℕ) : Bytes :=
  if n = 0 then [0x30] else ((Nat.digits base n).map lowerHexDigit).reverse

/-- The value of a digit; 16 if it is none. -/
def digitValue (c : UInt8) : ℕ :=
  if 0x30 ≤ c ∧ c ≤ 0x39 then c.toNat - 0x30
  else if 0x61 ≤ c ∧ c ≤ 0x66 then c.toNat - 0x57
  else if 0x41 ≤ c ∧ c ≤ 0x46 then c.toNat - 0x37
  else 16

def isDigit (base : ℕ) (c : UInt8) : Bool := digitValue c < base

def isSpace (c : UInt8) : Bool := c = 0x20 ∨ (0x09 ≤ c ∧ c ≤ 0x0d)

/-- What digits mean. -/
def value (base : ℕ) (digits : Bytes) : ℕ := digits.foldl (fun n c => n * base + digitValue c) 0

/-- A number in 64 bits, as `strtoull` returns it. -/
def strtoull (negative : Bool) (n : ℕ) : UInt64 :=
  if 2 ^ 64 ≤ n then 0xffffffffffffffff
  else if negative then 0 - UInt64.ofNat n
  else UInt64.ofNat n

/-- A sign is skipped. -/
def skipSign (s : Bytes) : Bytes := if s.head? = some 0x2d ∨ s.head? = some 0x2b then s.tail else s

/-- With base 16, `0x` is skipped. -/
def skipMark (base : ℕ) (s : Bytes) : Bytes :=
  if base = 16 ∧ s.head? = some 0x30 ∧ (s.tail.head? = some 0x78 ∨ s.tail.head? = some 0x58) then
    s.drop 2
  else s

/-- **A conversion of `sscanf`**: the number, before it is cut to the type of the argument, and what
is behind it. -/
def scanNumber (base : ℕ) (s : Bytes) : Option (UInt64 × Bytes) :=
  let s := s.dropWhile isSpace
  let digits := skipSign s
  if digits.takeWhile (isDigit base) = [] then none
  else
    let digits := skipMark base digits
    some (strtoull (s.head? = some 0x2d) (value base (digits.takeWhile (isDigit base))),
      digits.dropWhile (isDigit base))

/-! ## What is written -/

section Ritoa

variable {base n : ℕ}

theorem digitValue_lowerHexDigit : ∀ i < 16, digitValue (lowerHexDigit i) = i := by decide

theorem isDigit_lowerHexDigit {i : ℕ} (hi : i < base) (hbase : base ≤ 16) :
    isDigit base (lowerHexDigit i) = true := by
  rw [isDigit, digitValue_lowerHexDigit i (by omega)]
  exact decide_eq_true hi

theorem mem_ritoa (hbase : 1 < base) {c : UInt8} (hc : c ∈ ritoa base n) :
    ∃ i < base, c = lowerHexDigit i := by
  rw [ritoa] at hc
  split at hc
  · exact ⟨0, by omega, mem_singleton.mp hc⟩
  · rw [mem_reverse] at hc
    obtain ⟨i, hi, rfl⟩ := mem_map.mp hc
    exact ⟨i, digits_lt_base hbase hi, rfl⟩

theorem ritoa_ne_nil (base n : ℕ) : ritoa base n ≠ [] := by
  rw [ritoa]
  split
  · exact cons_ne_nil _ _
  · rename_i hn
    rw [ne_eq, reverse_eq_nil_iff, map_eq_nil_iff, digits_eq_nil_iff_eq_zero]
    exact hn

theorem length_ritoa_le (hbase : 1 < base) (k : ℕ) (hn : n < base ^ k) :
    (ritoa base n).length ≤ k + 1 := by
  rw [ritoa]
  split
  · rw [length_singleton]
    omega
  · rw [length_reverse, length_map]
    exact ((digits_length_le_iff hbase n).mpr hn).trans (le_succ k)

theorem value_ritoa (hbase : 1 < base) (hle : base ≤ 16) : value base (ritoa base n) = n := by
  rw [ritoa]
  split
  · rename_i hn
    rw [hn, value, foldl_cons, foldl_nil, zero_mul]
    rfl
  · rw [value, foldl_reverse, foldr_map]
    have hdigits : ∀ ds : List ℕ, (∀ d ∈ ds, d < base) →
        ds.foldr (fun d n => n * base + digitValue (lowerHexDigit d)) 0 = Nat.ofDigits base ds := by
      intro ds
      induction ds with
      | nil =>
        intro _
        rfl
      | cons d ds ih =>
        intro h
        have hd := h d mem_cons_self
        rw [foldr_cons, ih fun d' hd' => h d' (mem_cons_of_mem d hd'),
          digitValue_lowerHexDigit d (by omega), ofDigits_cons, mul_comm, add_comm]
    rw [hdigits _ fun d hd => digits_lt_base hbase hd, ofDigits_digits]

theorem takeWhile_ritoa (hbase : 1 < base) (hle : base ≤ 16) {rest : Bytes}
    (hrest : ∀ c ∈ rest.head?, isDigit base c = false) :
    (ritoa base n ++ rest).takeWhile (isDigit base) = ritoa base n ∧
      (ritoa base n ++ rest).dropWhile (isDigit base) = rest := by
  have hall : ∀ c ∈ ritoa base n, isDigit base c = true := by
    intro c hc
    obtain ⟨i, hi, rfl⟩ := mem_ritoa hbase hc
    exact isDigit_lowerHexDigit hi hle
  rw [takeWhile_append_of_pos hall, dropWhile_append_of_pos hall]
  cases rest with
  | nil => simp
  | cons c rest =>
    have hc := hrest c rfl
    rw [takeWhile_cons_of_neg (by simp [hc]), dropWhile_cons_of_neg (by simp [hc])]
    exact ⟨append_nil _, rfl⟩

theorem not_digit_char : ∀ i < 16, isSpace (lowerHexDigit i) = false ∧ lowerHexDigit i ≠ 0x2d ∧
    lowerHexDigit i ≠ 0x2b ∧ lowerHexDigit i ≠ 0x78 ∧ lowerHexDigit i ≠ 0x58 := by
  decide

/-- **A number that was written is read back.** -/
theorem scanNumber_ritoa (hbase : 1 < base) (hle : base ≤ 16) (hn : n < 2 ^ 64) (rest : Bytes)
    (hrest : ∀ c ∈ rest.head?, isDigit base c = false ∧ c ≠ 0x78 ∧ c ≠ 0x58) :
    scanNumber base (ritoa base n ++ rest) = some (UInt64.ofNat n, rest) := by
  obtain ⟨htake, hdrop⟩ := takeWhile_ritoa (n := n) hbase hle fun c hc => (hrest c hc).1
  cases htext : ritoa base n with
  | nil => exact absurd htext (ritoa_ne_nil base n)
  | cons c t =>
    rw [htext] at htake hdrop
    obtain ⟨i, hi, hc⟩ := mem_ritoa (n := n) hbase (htext ▸ mem_cons_self)
    obtain ⟨hspace, hminus, hplus, -⟩ := not_digit_char i (by omega)
    rw [← hc] at hspace hminus hplus
    -- the second character is no `x`
    have hsecond : ∀ x ∈ (t ++ rest).head?, x ≠ 0x78 ∧ x ≠ 0x58 := by
      intro x hx
      cases t with
      | nil => exact (hrest x hx).2
      | cons d t =>
        cases hx
        obtain ⟨j, hj, rfl⟩ := mem_ritoa (n := n) hbase
          (htext ▸ mem_cons_of_mem _ mem_cons_self)
        exact (not_digit_char j (by omega)).2.2.2
    have hspaces : (c :: t ++ rest).dropWhile isSpace = c :: t ++ rest :=
      dropWhile_cons_of_neg (by simp [hspace])
    have hsign : skipSign (c :: t ++ rest) = c :: t ++ rest := if_neg (by simp [hminus, hplus])
    have hmark : skipMark base (c :: t ++ rest) = c :: t ++ rest := by
      refine if_neg ?_
      rintro ⟨-, -, hx | hx⟩
      · exact (hsecond _ hx).1 rfl
      · exact (hsecond _ hx).2 rfl
    have hvalue : value base (c :: t) = n := htext ▸ value_ritoa hbase hle
    have hhead : decide ((c :: t ++ rest).head? = some 0x2d) = false := by simp [hminus]
    rw [scanNumber]
    dsimp only
    rw [hspaces, hsign, htake, if_neg (cons_ne_nil c t), hmark, htake, hdrop, hvalue, hhead,
      strtoull, if_neg (by omega), if_neg Bool.false_ne_true]

end Ritoa

end Ceph.Scan
