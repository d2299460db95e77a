import Ceph.Lib.MachineInt
import Mathlib.Data.List.Lex
import Mathlib.Tactic

set_option autoImplicit false

/-! # Codes that respect the lexicographic order

Sort keys are built by concatenating the encodings of the fields of a record. Whether the
byte order of the keys is the intended order of the records is decided field by field, and
this file has the three facts such an argument uses:

* blocks of equal length compare block first, rest second (`append_lt_append_iff`);
* a number of fixed width, most significant digit first, compares like the number
  (`fixedWidth_append_lt_iff`, `bigEndian_append_lt_iff`);
* a string, written letter by letter in a code whose words are pairwise decisive and closed
  by a terminator below every word, compares like the string of ranks of its letters
  (`TermCode.encode_append_lt_iff`).
-/

namespace LexCode

open Nat List

section Append

variable {β : Type} [LinearOrder β]

theorem append_lt_append_left_iff (u x y : List β) : u ++ x < u ++ y ↔ x < y := by
  induction u with
  | nil => rfl
  | cons a u ih => rw [cons_append, cons_append, cons_lt_cons_self, ih]

/-- **Blocks of equal length**: the first block decides, the rest breaks ties. -/
theorem append_lt_append_iff {u v : List β} (h : u.length = v.length) (x y : List β) :
    u ++ x < v ++ y ↔ u < v ∨ (u = v ∧ x < y) := by
  induction u generalizing v with
  | nil =>
    have hv : v = [] := length_eq_zero_iff.mp h.symm
    subst hv
    simp
  | cons a u ih =>
    cases v with
    | nil => simp at h
    | cons b v =>
      have hlen : u.length = v.length := by simpa using h
      rw [cons_append, cons_append, cons_lt_cons_iff,
        cons_lt_cons_iff, ih hlen, List.cons.injEq]
      tauto

end Append

/-- Two lexicographic comparisons with the same tie agree exactly if they agree on the field
that breaks no tie and, on a tie, on what follows. -/
theorem lex_iff_iff {R L E X Y : Prop} (hR : R → ¬ E) (hL : L → ¬ E) :
    ((R ∨ (E ∧ X)) ↔ (L ∨ (E ∧ Y))) ↔ ((R ↔ L) ∧ (E → (X ↔ Y))) := by
  by_cases hE : E
  · have hR' : ¬ R := fun h => hR h hE
    have hL' : ¬ L := fun h => hL h hE
    simp [hE, hR', hL']
  · simp [hE]

/-! ## Numbers of fixed width -/

section FixedWidth

/-- The `k` low-order base-`b` digits of `n`, most significant first. -/
def fixedWidth {β : Type} (b : Nat) (digit : Nat → β) : Nat → Nat → List β
  | 0, _ => []
  | k + 1, n => digit (n / b ^ k) :: fixedWidth b digit k (n % b ^ k)

@[simp] theorem fixedWidth_length {β : Type} (b : Nat) (digit : Nat → β) (k n : Nat) :
    (fixedWidth b digit k n).length = k := by
  induction k generalizing n with
  | zero => rfl
  | succ k ih => simp [fixedWidth, ih]

theorem take_fixedWidth {β : Type} (b : Nat) (digit : Nat → β) (k j n : Nat) :
    (fixedWidth b digit (k + j) n).take k = fixedWidth b digit k (n / b ^ j) := by
  induction k generalizing n with
  | zero => simp [fixedWidth]
  | succ k ih =>
    have hwidth : k + 1 + j = (k + j) + 1 := by omega
    have hpow : b ^ (k + j) = b ^ j * b ^ k := by rw [Nat.add_comm, pow_add]
    rw [hwidth, fixedWidth, fixedWidth, take_succ_cons, ih, hpow, Nat.div_div_eq_div_mul,
      Nat.mod_mul_right_div_self]

variable {β : Type} [LinearOrder β] {b k n m : Nat} {digit : Nat → β}

theorem div_pow_lt (hpos : 0 < b ^ k) (h : n < b ^ (k + 1)) : n / b ^ k < b := by
  rw [div_lt_iff_lt_mul hpos, mul_comm]
  rwa [pow_succ] at h

variable (hdigit : ∀ i < b, ∀ j < b, digit i < digit j ↔ i < j)

include hdigit

theorem digit_eq_iff {i j : Nat} (hi : i < b) (hj : j < b) : digit i = digit j ↔ i = j := by
  constructor
  · intro h
    have hij := hdigit i hi j hj
    have hji := hdigit j hj i hi
    simp only [h, lt_self_iff_false, false_iff] at hij hji
    omega
  · rintro rfl
    rfl

/-- **A number of fixed width compares like the number**, if its digits do. -/
theorem fixedWidth_lt_iff (hn : n < b ^ k) (hm : m < b ^ k) :
    fixedWidth b digit k n < fixedWidth b digit k m ↔ n < m := by
  induction k generalizing n m with
  | zero =>
    simp only [pow_zero, lt_one_iff] at hn hm
    subst hn hm
    simp [fixedWidth]
  | succ k ih =>
    have hpos : 0 < b ^ k := by
      rcases Nat.eq_zero_or_pos (b ^ k) with h0 | h0
      · rw [pow_succ, h0, zero_mul] at hn
        omega
      · exact h0
    have hmn : n % b ^ k < b ^ k := mod_lt _ hpos
    have hmm : m % b ^ k < b ^ k := mod_lt _ hpos
    have hdn := div_pow_lt hpos hn
    have hdm := div_pow_lt hpos hm
    simp only [fixedWidth]
    rw [cons_lt_cons_iff, hdigit _ hdn _ hdm, digit_eq_iff hdigit hdn hdm, ih hmn hmm]
    have dn := div_add_mod n (b ^ k)
    have dm := div_add_mod m (b ^ k)
    constructor
    · rintro (h | ⟨h, h'⟩)
      · -- the leading digit decides: the quotients differ by at least one
        calc n = b ^ k * (n / b ^ k) + n % b ^ k := dn.symm
          _ < b ^ k * (n / b ^ k) + b ^ k := Nat.add_lt_add_left hmn _
          _ = b ^ k * (n / b ^ k + 1) := (Nat.mul_succ _ _).symm
          _ ≤ b ^ k * (m / b ^ k) := Nat.mul_le_mul_left _ h
          _ ≤ m := mul_div_le m _
      · rw [h] at dn
        omega
    · intro h
      have hle : n / b ^ k ≤ m / b ^ k := Nat.div_le_div_right h.le
      rcases Nat.lt_or_eq_of_le hle with hlt | heq
      · exact .inl hlt
      · refine .inr ⟨heq, ?_⟩
        rw [heq] at dn
        omega

theorem fixedWidth_inj (hn : n < b ^ k) (hm : m < b ^ k) :
    fixedWidth b digit k n = fixedWidth b digit k m ↔ n = m := by
  constructor
  · intro h
    have hnm := fixedWidth_lt_iff hdigit hn hm
    have hmn := fixedWidth_lt_iff hdigit hm hn
    simp only [h, lt_self_iff_false, false_iff] at hnm hmn
    omega
  · rintro rfl
    rfl

theorem fixedWidth_append_lt_iff (hn : n < b ^ k) (hm : m < b ^ k) (x y : List β) :
    fixedWidth b digit k n ++ x < fixedWidth b digit k m ++ y ↔ n < m ∨ (n = m ∧ x < y) := by
  rw [append_lt_append_iff (by simp), fixedWidth_lt_iff hdigit hn hm,
    fixedWidth_inj hdigit hn hm]

end FixedWidth

/-! ## Big-endian numbers -/

/-- The `k` low-order base-256 digits of `n`, most significant first. -/
def bigEndian : Nat → Nat → List UInt8
  | 0, _ => []
  | k + 1, n => UInt8.ofNat (n / 256 ^ k) :: bigEndian k (n % 256 ^ k)

@[simp] theorem bigEndian_length (k n : Nat) : (bigEndian k n).length = k := by
  induction k generalizing n with
  | zero => rfl
  | succ k ih => simp [bigEndian, ih]

/-- The number a string of base-256 digits stands for, most significant first. -/
def ofBigEndian (l : List UInt8) : Nat := l.foldl (fun n c => n * 256 + c.toNat) 0

theorem foldl_bigEndian (k n acc : Nat) (h : n < 256 ^ k) :
    (bigEndian k n).foldl (fun n c => n * 256 + c.toNat) acc = acc * 256 ^ k + n := by
  induction k generalizing n acc with
  | zero =>
    simp only [pow_zero, lt_one_iff] at h
    simp [bigEndian, h]
  | succ k ih =>
    have hpos : 0 < 256 ^ k := by positivity
    have hdigit : n / 256 ^ k < 256 := by
      rw [div_lt_iff_lt_mul hpos]
      omega
    have hval : (UInt8.ofNat (n / 256 ^ k)).toNat = n / 256 ^ k := by
      rw [UInt8.toNat_ofNat']
      exact mod_eq_of_lt hdigit
    rw [bigEndian, foldl_cons, ih _ _ (mod_lt _ hpos), hval]
    calc (acc * 256 + n / 256 ^ k) * 256 ^ k + n % 256 ^ k
        = acc * 256 ^ (k + 1) + (256 ^ k * (n / 256 ^ k) + n % 256 ^ k) := by ring
      _ = acc * 256 ^ (k + 1) + n := by rw [div_add_mod]

/-- **Reading back a fixed-width number.** -/
theorem ofBigEndian_bigEndian (k : Nat) {n : Nat} (h : n < 256 ^ k) :
    ofBigEndian (bigEndian k n) = n := by
  rw [ofBigEndian, foldl_bigEndian k n 0 h]
  omega

theorem bigEndian_eq_fixedWidth (k n : Nat) : bigEndian k n = fixedWidth 256 UInt8.ofNat k n := by
  induction k generalizing n with
  | zero => rfl
  | succ k ih => rw [bigEndian, fixedWidth, ih]

theorem ofNat_lt_ofNat_iff (a : Nat) (ha : a < 256) (b : Nat) (hb : b < 256) :
    UInt8.ofNat a < UInt8.ofNat b ↔ a < b := by
  rw [UInt8.lt_iff_toNat_lt, UInt8.toNat_ofNat', UInt8.toNat_ofNat']
  rw [mod_eq_of_lt (by simpa using ha), mod_eq_of_lt (by simpa using hb)]

theorem bigEndian_append_lt_iff (k : Nat) {n m : Nat} (hn : n < 256 ^ k) (hm : m < 256 ^ k)
    (x y : List UInt8) : bigEndian k n ++ x < bigEndian k m ++ y ↔ n < m ∨ (n = m ∧ x < y) := by
  rw [bigEndian_eq_fixedWidth, bigEndian_eq_fixedWidth,
    fixedWidth_append_lt_iff ofNat_lt_ofNat_iff hn hm]

/-! ## Terminated codes -/

/-- A letter code with a terminator. Two different letters have words that differ before
either ends, in the order of the letters' ranks, and the terminator is below the first
letter of every word. -/
structure TermCode (α β γ : Type) [LinearOrder β] [LinearOrder γ] where
  word : α → List β
  term : β
  rank : α → γ
  rank_inj : Function.Injective rank
  word_lt : ∀ {a b : α}, rank a < rank b → ∀ x y : List β, word a ++ x < word b ++ y
  term_lt : ∀ (a : α) (x y : List β), term :: x < word a ++ y

namespace TermCode

variable {α β γ : Type} [LinearOrder β] [LinearOrder γ] (C : TermCode α β γ)

/-- The code of a string: the words of its letters, then the terminator. -/
def encode (s : List α) : List β := s.flatMap C.word ++ [C.term]

theorem encode_nil_append (x : List β) : C.encode [] ++ x = C.term :: x := rfl

theorem encode_cons_append (a : α) (s : List α) (x : List β) :
    C.encode (a :: s) ++ x = C.word a ++ (C.encode s ++ x) := by
  simp [encode, flatMap_cons, append_assoc]

/-- Words of different letters compare like the letters, whatever follows them. -/
theorem word_append_lt_iff (a b : α) (x y : List β) :
    C.word a ++ x < C.word b ++ y ↔ C.rank a < C.rank b ∨ (a = b ∧ x < y) := by
  rcases lt_trichotomy (C.rank a) (C.rank b) with h | h | h
  · exact ⟨fun _ => .inl h, fun _ => C.word_lt h x y⟩
  · have hab : a = b := C.rank_inj h
    subst hab
    simp [append_lt_append_left_iff]
  · have hgt : C.word b ++ y < C.word a ++ x := C.word_lt h y x
    constructor
    · intro hlt
      exact absurd (hgt.trans hlt) (lt_irrefl _)
    · rintro (hlt | ⟨rfl, -⟩)
      · exact absurd hlt h.not_gt
      · exact absurd h (lt_irrefl _)

/-- **A terminated string compares like the string of its letters' ranks**, and strings
that are equal leave the decision to what follows. -/
theorem encode_append_lt_iff (s t : List α) (x y : List β) :
    C.encode s ++ x < C.encode t ++ y
      ↔ s.map C.rank < t.map C.rank ∨ (s = t ∧ x < y) := by
  induction s generalizing t with
  | nil =>
    cases t with
    | nil => simp [encode_nil_append]
    | cons b t =>
      rw [encode_nil_append, encode_cons_append]
      simp [C.term_lt b]
  | cons a s ih =>
    cases t with
    | nil =>
      rw [encode_nil_append, encode_cons_append]
      have hlt := C.term_lt a y (C.encode s ++ x)
      simp [hlt.not_gt]
    | cons b t =>
      rw [encode_cons_append, encode_cons_append, word_append_lt_iff, ih,
        map_cons, map_cons, cons_lt_cons_iff, C.rank_inj.eq_iff,
        List.cons.injEq]
      tauto

end TermCode

end LexCode
