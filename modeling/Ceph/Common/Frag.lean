import Mathlib.Data.Nat.Bitwise
import Mathlib.Tactic

set_option autoImplicit false

/-! # Fragments of a directory

The entries of a large directory are spread over fragments by the 24-bit hashes of their names. A
fragment is one of the `2 ^ b` equal parts of the hash space. It is a 32-bit word: the depth `b` in
the upper 8 bits, and the hash where the part begins in the lower 24 (`word`).

The helpers of `ceph_frag.h` act on the words like the operations of a binary tree on the numbers of
the parts (`parent_word`, `makeChild_word`, `sibling_word`, `next_word`). One of them does not:
`isRightChild` compares a single bit, wherever it is, with 1. Only at the greatest depth is this the
lowest bit (`frag_laws_iff`).
-/

namespace Ceph.Frag

open Nat

/-! ## The helpers -/

def make (b v : ℕ) : ℕ := b <<< 24 ||| (v &&& 0xffffff <<< (24 - b) &&& 0xffffff)

def bits (f : ℕ) : ℕ := f >>> 24

def value (f : ℕ) : ℕ := f &&& 0xffffff

def mask (f : ℕ) : ℕ := 0xffffff <<< (24 - bits f) &&& 0xffffff

def containsValue (f v : ℕ) : Bool := v &&& mask f == value f

/-- `ceph_frag_parent`, of a fragment that is not the root. -/
def parent (f : ℕ) : ℕ := make (bits f - 1) (value f &&& mask f <<< 1)

def isLeftChild (f : ℕ) : Bool := bits f > 0 && value f &&& 0x1000000 >>> bits f == 0

def isRightChild (f : ℕ) : Bool := bits f > 0 && value f &&& 0x1000000 >>> bits f == 1

def sibling (f : ℕ) : ℕ := make (bits f) (value f ^^^ 0x1000000 >>> bits f)

def makeChild (f n i : ℕ) : ℕ := make (bits f + n) (value f ||| i <<< (24 - (bits f + n)))

def next (f : ℕ) : ℕ := make (bits f) (value f + 0x1000000 >>> bits f)

def compare (a b : ℕ) : ℤ :=
  if value a < value b then -1
  else if value b < value a then 1
  else if bits a < bits b then -1
  else if bits b < bits a then 1
  else 0

/-! ## The parts of the hash space -/

/-- The word of the part `k` at the depth `b`. -/
def word (b k : ℕ) : ℕ := b <<< 24 + k <<< (24 - b)

/-- The number of the part that a hash is in. -/
def part (b v : ℕ) : ℕ := (v % 2 ^ 24) >>> (24 - b)

variable {b k v : ℕ}

theorem part_succ (hb : b < 24) (v : ℕ) : part b v = part (b + 1) v / 2 := by
  have hshift : 24 - b = 24 - (b + 1) + 1 := by omega
  rw [part, part, hshift, shiftRight_add, shiftRight_eq_div_pow _ 1, pow_one]

/-- A masked hash is where a part begins. -/
theorem and_mask (b v : ℕ) : v &&& 0xffffff <<< (24 - b) &&& 0xffffff = part b v <<< (24 - b) := by
  refine Nat.eq_of_testBit_eq fun i => ?_
  have hones : (0xffffff : ℕ) = 2 ^ 24 - 1 := rfl
  simp only [part, hones, testBit_and, testBit_shiftLeft, testBit_shiftRight,
    testBit_two_pow_sub_one, testBit_mod_two_pow]
  by_cases hi : 24 - b ≤ i
  · have hback : 24 - b + (i - (24 - b)) = i := by omega
    simp only [hi, hback]
    grind
  · simp [hi]

section Word

variable (hb : b ≤ 24)

include hb

theorem two_pow_split : 2 ^ b * 2 ^ (24 - b) = 2 ^ 24 := by
  rw [← pow_add, Nat.add_sub_of_le hb]

theorem shiftLeft_lt (hk : k < 2 ^ b) : k <<< (24 - b) < 2 ^ 24 := by
  rw [shiftLeft_eq, ← two_pow_split hb]
  exact Nat.mul_lt_mul_of_pos_right hk (by positivity)

theorem part_lt (v : ℕ) : part b v < 2 ^ b := by
  rw [part, shiftRight_eq_div_pow, Nat.div_lt_iff_lt_mul (by positivity), two_pow_split hb]
  exact mod_lt v (by positivity)

theorem part_shiftLeft (k : ℕ) : part b (k <<< (24 - b)) = k % 2 ^ b := by
  rw [part, shiftLeft_eq, ← two_pow_split hb, Nat.mul_mod_mul_right, shiftRight_eq_div_pow,
    Nat.mul_div_cancel _ (by positivity)]

theorem make_eq_word (v : ℕ) : make b v = word b (part b v) := by
  rw [make, and_mask, word, shiftLeft_eq b, mul_comm,
    ← two_pow_add_eq_or_of_lt (shiftLeft_lt hb (part_lt hb v))]

theorem make_shiftLeft (k : ℕ) : make b (k <<< (24 - b)) = word b (k % 2 ^ b) := by
  rw [make_eq_word hb, part_shiftLeft hb]

theorem shiftRight_bits : 0x1000000 >>> b = 1 <<< (24 - b) :=
  (shiftLeft_sub 1 hb).symm

variable (hk : k < 2 ^ b)

include hk

theorem bits_word : bits (word b k) = b := by
  have := shiftLeft_lt hb hk
  rw [bits, word, shiftRight_eq_div_pow, shiftLeft_eq b]
  generalize k <<< (24 - b) = first at *
  omega

theorem value_word : value (word b k) = k <<< (24 - b) := by
  have := shiftLeft_lt hb hk
  rw [value, word, show (0xffffff : ℕ) = 2 ^ 24 - 1 from rfl, and_two_pow_sub_one_eq_mod,
    shiftLeft_eq b]
  generalize k <<< (24 - b) = first at *
  omega

theorem containsValue_word (v : ℕ) : containsValue (word b k) v = decide (part b v = k) := by
  rw [containsValue, mask, bits_word hb hk, value_word hb hk, ← Nat.and_assoc, and_mask,
    beq_eq_decide, decide_eq_decide]
  refine ⟨fun h => ?_, fun h => by rw [h]⟩
  rw [← shiftLeft_shiftRight (part b v) (24 - b), h, shiftLeft_shiftRight]

theorem next_word : next (word b k) = word b ((k + 1) % 2 ^ b) := by
  rw [next, bits_word hb hk, value_word hb hk, shiftRight_bits hb, shiftLeft_eq, shiftLeft_eq,
    ← Nat.add_mul, ← shiftLeft_eq, make_shiftLeft hb]

/-- The bit that tells the children of one parent apart. -/
theorem and_last : value (word b k) &&& 0x1000000 >>> bits (word b k) = (k % 2) <<< (24 - b) := by
  rw [bits_word hb hk, value_word hb hk, shiftRight_bits hb, ← shiftLeft_and_distrib, and_one_is_mod]

theorem isLeftChild_word : isLeftChild (word b k) = decide (0 < b ∧ k % 2 = 0) := by
  rw [isLeftChild, and_last hb hk, bits_word hb hk]
  simp [shiftLeft_eq, beq_eq_decide]

theorem isRightChild_word : isRightChild (word b k) = decide (b = 24 ∧ k % 2 = 1) := by
  rw [isRightChild, and_last hb hk, bits_word hb hk, Bool.eq_iff_iff]
  simp [shiftLeft_eq]
  omega

end Word

theorem sibling_word (hb : b + 1 ≤ 24) (hk : k < 2 ^ (b + 1)) :
    sibling (word (b + 1) k) = word (b + 1) (k ^^^ 1) := by
  rw [sibling, bits_word hb hk, value_word hb hk, shiftRight_bits hb, ← shiftLeft_xor_distrib,
    make_shiftLeft hb, mod_eq_of_lt (xor_lt_two_pow hk (Nat.one_lt_two_pow (by omega)))]

theorem makeChild_word (hb : b + 1 ≤ 24) (hk : k < 2 ^ b) {i : ℕ} (hi : i < 2) :
    makeChild (word b k) 1 i = word (b + 1) (2 * k + i) := by
  have hb' : b ≤ 24 := by omega
  have hshift : 24 - b = 1 + (24 - (b + 1)) := by omega
  have hor : k <<< 1 ||| i = 2 * k + i := by
    rw [shiftLeft_eq, mul_comm, ← two_pow_add_eq_or_of_lt (by omega), pow_one]
  rw [makeChild, bits_word hb' hk, value_word hb' hk, hshift, shiftLeft_add, ← shiftLeft_or_distrib,
    hor, make_shiftLeft hb, mod_eq_of_lt (by omega)]

theorem parent_word (hb : b + 1 ≤ 24) (hk : k < 2 ^ (b + 1)) :
    parent (word (b + 1) k) = word b (k / 2) := by
  have hpart : part b (value (word (b + 1) k) &&& mask (word (b + 1) k) <<< 1) = k / 2 := by
    refine Nat.eq_of_testBit_eq fun i => ?_
    have hones : (0xffffff : ℕ) = 2 ^ 24 - 1 := rfl
    simp only [part, mask, value_word hb hk, bits_word hb hk, hones, testBit_shiftRight,
      testBit_mod_two_pow, testBit_and, testBit_shiftLeft, testBit_two_pow_sub_one, testBit_div_two]
    have hi : 24 - b + i - (24 - (b + 1)) = i + 1 := by omega
    rw [hi]
    by_cases hlt : i < b
    · cases k.testBit (i + 1) <;> simp
      omega
    · have hhigh : k.testBit (i + 1) = false := testBit_lt_two_pow (hk.trans_le
        (Nat.pow_le_pow_right (by omega) (by omega)))
      simp [hhigh]
  rw [parent, bits_word hb hk, Nat.add_sub_cancel, make_eq_word (by omega), hpart]

/-! ## The laws -/

/-- The two children have the fragment as their parent, are siblings, and have each of its hashes
once. The sibling of the sibling is the fragment. -/
structure TreeLaws (f : ℕ) : Prop where
  parent : bits f < 24 → ∀ i < 2, parent (makeChild f 1 i) = f
  siblings : bits f < 24 → sibling (makeChild f 1 0) = makeChild f 1 1 ∧
    sibling (makeChild f 1 1) = makeChild f 1 0
  partition : bits f < 24 → ∀ v, containsValue f v =
    (containsValue (makeChild f 1 0) v ^^ containsValue (makeChild f 1 1) v)
  involution : 0 < bits f → sibling (sibling f) = f

/-- The first child is a left one, the second is a right one, and no fragment is both or neither but
the root. -/
structure ChildLaws (f : ℕ) : Prop where
  left : bits f < 24 → isLeftChild (makeChild f 1 0)
  right : bits f < 24 → isRightChild (makeChild f 1 1)
  either : 0 < bits f → (isLeftChild f ^^ isRightChild f)
  root : bits f = 0 → isLeftChild f = false ∧ isRightChild f = false

theorem treeLaws_word (hb : b ≤ 24) (hk : k < 2 ^ b) : TreeLaws (word b k) := by
  refine ⟨?_, ?_, ?_, ?_⟩ <;> rw [bits_word hb hk] <;> intro h
  · intro i hi
    rw [makeChild_word h hk hi, parent_word h (by omega)]
    congr 1
    omega
  · rw [makeChild_word h hk (by omega), makeChild_word h hk (by omega), sibling_word h (by omega),
      sibling_word h (by omega)]
    exact ⟨congrArg _ (xor_one_of_even (even_two_mul k)),
      congrArg _ (xor_one_of_odd (odd_two_mul_add_one k))⟩
  · intro v
    rw [makeChild_word h hk (by omega), makeChild_word h hk (by omega), containsValue_word hb hk,
      containsValue_word h (by omega), containsValue_word h (by omega), part_succ h, Bool.eq_iff_iff]
    simp
    omega
  · obtain ⟨b, rfl⟩ := Nat.exists_eq_add_one.mpr h
    rw [sibling_word hb hk, sibling_word hb (xor_lt_two_pow hk (Nat.one_lt_two_pow (by omega))),
      Nat.xor_assoc, Nat.xor_self, Nat.xor_zero]

theorem childLaws_word_iff (hb : b ≤ 24) (hk : k < 2 ^ b) :
    ChildLaws (word b k) ↔ b = 24 ∨ b = 23 ∧ isLeftChild (word b k) := by
  have hsecond : b < 24 → isRightChild (makeChild (word b k) 1 1) = decide (b = 23) := by
    intro h
    rw [makeChild_word h hk (by omega), isRightChild_word h (by omega), decide_eq_decide]
    omega
  rw [isLeftChild_word hb hk, decide_eq_true_eq]
  constructor
  · rintro ⟨-, hright, heither, -⟩
    rw [bits_word hb hk, isLeftChild_word hb hk, isRightChild_word hb hk] at *
    rcases Nat.lt_or_ge b 24 with hlt | hge
    · have hdepth : b = 23 := of_decide_eq_true (hsecond hlt ▸ hright hlt)
      have := heither (by omega)
      simp [hdepth] at this ⊢
      omega
    · omega
  · intro h
    refine ⟨?_, ?_, ?_, ?_⟩ <;> rw [bits_word hb hk] <;> intro hbits
    · rw [makeChild_word hbits hk (by omega), isLeftChild_word hbits (by omega), decide_eq_true_eq]
      omega
    · rw [hsecond hbits, decide_eq_true_eq]
      omega
    · rw [isLeftChild_word hb hk, isRightChild_word hb hk]
      rcases mod_two_eq_zero_or_one k with hmod | hmod
      · simp [hmod, hbits]
      · simp [hmod]
        omega
    · omega

/-- **The order of fragments.** -/
theorem compare_order (f g h : ℕ) : compare f g = -compare g f ∧ (compare f g = 0 ↔ f = g) ∧
    (compare f g ≤ 0 → compare g h ≤ 0 → compare f h ≤ 0) := by
  have hle : ∀ f g, compare f g ≤ 0 ↔ value f < value g ∨ value f = value g ∧ bits f ≤ bits g := by
    intro f g
    unfold compare
    split_ifs <;> omega
  have hbits : ∀ f, bits f = f / 2 ^ 24 := fun f => shiftRight_eq_div_pow f 24
  have hvalue : ∀ f, value f = f % 2 ^ 24 := fun f => and_two_pow_sub_one_eq_mod f 24
  refine ⟨?_, ?_, ?_⟩
  · unfold compare
    split_ifs <;> omega
  · rw [compare, hbits, hbits, hvalue, hvalue]
    split_ifs <;> simp <;> omega
  · rw [hle, hle, hle]
    omega

/-- **`next` walks over the parts of one depth**, from hash to hash. -/
theorem iterate_next (hb : b ≤ 24) (hk : k < 2 ^ b) : next^[k] (make b 0) = word b k := by
  induction k with
  | zero => rw [Function.iterate_zero, id, make_eq_word hb, part, Nat.zero_mod, zero_shiftRight]
  | succ k ih =>
    rw [Function.iterate_succ_apply', ih (by omega), next_word hb (by omega), mod_eq_of_lt hk]

/-- **What the helpers do on every fragment.** They are the operations of a binary tree of parts, and
the fragments are in a total order in which `next` goes through the parts of one depth. But the
second child is a right one, and each fragment below the root is either a left or a right child, at
the greatest depth only: for a fragment of 24 bits, and for a left child of 23 bits. -/
theorem frag_laws_iff (b : ℕ) (hb : b ≤ 24) (v : ℕ) :
    TreeLaws (make b v) ∧
      (ChildLaws (make b v) ↔ b = 24 ∨ b = 23 ∧ isLeftChild (make b v)) ∧
      (∀ f g h, compare f g = -compare g f ∧ (compare f g = 0 ↔ f = g) ∧
        (compare f g ≤ 0 → compare g h ≤ 0 → compare f h ≤ 0)) ∧
      ∀ k < 2 ^ b, next^[k] (make b 0) = makeChild (make 0 0) b k ∧
        ∀ j < k, compare (next^[j] (make b 0)) (next^[k] (make b 0)) = -1 := by
  rw [make_eq_word hb]
  refine ⟨treeLaws_word hb (part_lt hb v), childLaws_word_iff hb (part_lt hb v), compare_order,
    fun k hk => ⟨?_, fun j hj => ?_⟩⟩
  · have hroot : makeChild (make 0 0) b k = make b (k <<< (24 - b)) := by
      simp [makeChild, bits, value, make]
    rw [hroot, iterate_next hb hk, make_shiftLeft hb, mod_eq_of_lt hk]
  · rw [iterate_next hb hk, iterate_next hb (hj.trans hk), compare, value_word hb hk,
      value_word hb (hj.trans hk), if_pos]
    rw [shiftLeft_eq, shiftLeft_eq]
    exact Nat.mul_lt_mul_of_pos_right hj (by positivity)

/-- The left half of a fragment of 22 bits. -/
theorem frag_laws_left_half : ChildLaws (make 23 0) ∧ ¬ ChildLaws (make 22 0) :=
  ⟨(frag_laws_iff 23 (by decide) 0).2.1.mpr (by decide),
    fun h => absurd ((frag_laws_iff 22 (by decide) 0).2.1.mp h) (by decide)⟩

/-- The right half of the hash space is neither a left nor a right child. -/
theorem right_half_not_right : isLeftChild (makeChild (make 0 0) 1 1) = false ∧
    isRightChild (makeChild (make 0 0) 1 1) = false := by
  decide

end Ceph.Frag
