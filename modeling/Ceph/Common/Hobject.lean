import Ceph.Lib.MachineInt
import Mathlib.Data.List.Lex
import Mathlib.Tactic

set_option autoImplicit false

/-! # Object identifiers

`hobject_t` and `ghobject_t` (`common/hobject.h`, `common/hobject.cc`): the name of an object
within the cluster, the bit-reversed hash it is sorted by, and the comparison `cmp` that
object listing, backfill and the object stores all have to agree on. Names are byte strings,
compared byte by byte as unsigned numbers, as `std::string` does.
-/

namespace Ceph

open Nat

abbrev Bytes := List UInt8

/-- `CEPH_NOSNAP`: the snapshot id of the head object. -/
def noSnap : UInt64 := 0xfffffffffffffffe

/-- `CEPH_SNAPDIR`: the snapshot id of the hidden snapshot directory object. -/
def snapDir : UInt64 := 0xffffffffffffffff

/-- One stage of `reverse_bits`: swap the groups of `s` bits that `mask` selects with their
neighbours. -/
def swapBits (mask s v : UInt32) : UInt32 := ((v >>> s) &&& mask) ||| ((v &&& mask) <<< s)

/-- `reverse_bits` (`common/reverse.c`): swap odd and even bits, then pairs, nibbles, bytes
and halves. -/
def reverseBits (v : UInt32) : UInt32 :=
  if v = 0 then v
  else
    let v := swapBits 0x55555555 1 v
    let v := swapBits 0x33333333 2 v
    let v := swapBits 0x0F0F0F0F 4 v
    let v := swapBits 0x00FF00FF 8 v
    (v >>> 16) ||| (v <<< 16)

/-! ## Bit reversal -/

/-- The place a stage takes bit `i` from: the neighbouring group of `s` bits. -/
def swapIndex (s i : Nat) : Nat := if i / s % 2 = 0 then i + s else i - s

/-- **One stage swaps neighbouring groups**, if the mask selects every other group. -/
theorem swapBits_getLsbD {mask s : UInt32} (k : Nat) (hk : s.toNat = k) (hpos : 0 < k)
    (hlt : k < 32) (hmask : ∀ j < 32, mask.toBitVec.getLsbD j = decide (j / k % 2 = 0))
    (v : UInt32) {i : Nat} (hi : i < 32) :
    (swapBits mask s v).toBitVec.getLsbD i = v.toBitVec.getLsbD (swapIndex k i) := by
  have hmod : (s.toBitVec % 32).toNat = k := by
    subst hk
    rw [BitVec.toNat_umod]
    exact Nat.mod_eq_of_lt hlt
  unfold swapBits swapIndex
  simp only [UInt32.toBitVec_or, UInt32.toBitVec_and, UInt32.toBitVec_shiftRight,
    UInt32.toBitVec_shiftLeft, BitVec.getLsbD_or, BitVec.getLsbD_and,
    BitVec.shiftLeft_eq', BitVec.ushiftRight_eq', BitVec.getLsbD_ushiftRight,
    BitVec.getLsbD_shiftLeft, hmod, hi, hmask i hi, hmask (i - k) (by omega)]
  by_cases hle : k ≤ i
  · -- the group below has the other parity
    have hdiv : i / k = (i - k) / k + 1 := div_eq_sub_div hpos hle
    by_cases h : i / k % 2 = 0
    · have h' : (i - k) / k % 2 ≠ 0 := by omega
      simp [h, h', Nat.add_comm]
    · have h' : (i - k) / k % 2 = 0 := by omega
      simp [h, h', hle]
  · have hik : i < k := Nat.lt_of_not_le hle
    simp [Nat.div_eq_of_lt hik, hik, Nat.add_comm]

/-- The last stage needs no mask: what it would drop is shifted out. -/
theorem shift_halves_eq (v : UInt32) : (v >>> 16) ||| (v <<< 16) = swapBits 0x0000FFFF 16 v := by
  rw [← UInt32.toBitVec_inj]
  apply BitVec.eq_of_getLsbD_eq
  intro i hi
  rw [swapBits_getLsbD 16 rfl (by decide) (by decide) (by decide) v hi, swapIndex]
  have h16 : ((16 : UInt32).toBitVec % 32).toNat = 16 := rfl
  simp only [UInt32.toBitVec_or, UInt32.toBitVec_shiftRight, UInt32.toBitVec_shiftLeft,
    BitVec.getLsbD_or, BitVec.shiftLeft_eq', BitVec.ushiftRight_eq',
    BitVec.getLsbD_ushiftRight, BitVec.getLsbD_shiftLeft, h16, hi]
  by_cases h : i < 16
  · simp [h, Nat.div_eq_of_lt h, Nat.add_comm]
  · have hodd : i / 16 % 2 ≠ 0 := by omega
    have hout : v.toBitVec.getLsbD (16 + i) = false := BitVec.getLsbD_of_ge _ _ (by omega)
    simp [h, hodd, hout]

/-- **`reverse_bits` mirrors the bits.** -/
theorem reverseBits_getLsbD (v : UInt32) {i : Nat} (hi : i < 32) :
    (reverseBits v).toBitVec.getLsbD i = v.toBitVec.getLsbD (31 - i) := by
  by_cases h0 : v = 0
  · subst h0
    simp [reverseBits]
  · have hlt : ∀ s ∈ [1, 2, 4, 8, 16], ∀ j < 32, swapIndex s j < 32 := by decide
    have hcomp : ∀ j < 32, swapIndex 1 (swapIndex 2 (swapIndex 4 (swapIndex 8
        (swapIndex 16 j)))) = 31 - j := by decide
    have h16 := hlt 16 (by decide) i hi
    have h8 := hlt 8 (by decide) _ h16
    have h4 := hlt 4 (by decide) _ h8
    have h2 := hlt 2 (by decide) _ h4
    rw [reverseBits, if_neg h0, shift_halves_eq,
      swapBits_getLsbD 16 rfl (by decide) (by decide) (by decide) _ hi,
      swapBits_getLsbD 8 rfl (by decide) (by decide) (by decide) _ h16,
      swapBits_getLsbD 4 rfl (by decide) (by decide) (by decide) _ h8,
      swapBits_getLsbD 2 rfl (by decide) (by decide) (by decide) _ h4,
      swapBits_getLsbD 1 rfl (by decide) (by decide) (by decide) _ h2, hcomp i hi]

@[simp] theorem reverseBits_reverseBits (v : UInt32) : reverseBits (reverseBits v) = v := by
  rw [← UInt32.toBitVec_inj]
  apply BitVec.eq_of_getLsbD_eq
  intro i hi
  rw [reverseBits_getLsbD _ hi, reverseBits_getLsbD _ (by omega)]
  exact congrArg _ (by omega)

theorem reverseBits_testBit (v : UInt32) {i : Nat} (hi : i < 32) :
    (reverseBits v).toNat.testBit i = v.toNat.testBit (31 - i) :=
  reverseBits_getLsbD v hi

/-- **A permutation of the bits that puts the low `b` bits in front**: its high bits are the same
exactly if the low bits of the hash are. -/
theorem div_eq_iff_of_permutes {f : UInt32 → UInt32} {σ : Nat → Nat}
    (hf : ∀ v : UInt32, ∀ i < 32, (f v).toNat.testBit i = v.toNat.testBit (σ i)) {b : Nat}
    (hb : b ≤ 32) (hlow : ∀ i < b, σ (32 - b + i) < b)
    (hall : ∀ j < b, ∃ i < b, σ (32 - b + i) = j) (g h : UInt32) :
    (f g).toNat / 2 ^ (32 - b) = (f h).toNat / 2 ^ (32 - b)
      ↔ g.toNat % 2 ^ b = h.toNat % 2 ^ b := by
  have hbit : ∀ (v : UInt32) (i : Nat), i < b →
      ((f v).toNat / 2 ^ (32 - b)).testBit i = v.toNat.testBit (σ (32 - b + i)) := by
    intro v i hi
    rw [testBit_div_two_pow, Nat.add_comm i, hf v _ (by omega)]
  have hzero : ∀ (v : UInt32) (i : Nat), b ≤ i →
      ((f v).toNat / 2 ^ (32 - b)).testBit i = false := by
    intro v i hi
    rw [testBit_div_two_pow]
    refine Nat.testBit_lt_two_pow (lt_of_lt_of_le (f v).toNat_lt ?_)
    exact Nat.pow_le_pow_right (by omega) (by omega)
  constructor
  · intro heq
    apply eq_of_testBit_eq
    intro j
    rw [testBit_mod_two_pow, testBit_mod_two_pow]
    by_cases hj : j < b
    · obtain ⟨i, hi, rfl⟩ := hall j hj
      rw [← hbit g i hi, ← hbit h i hi, heq]
    · simp [hj]
  · intro heq
    apply eq_of_testBit_eq
    intro i
    by_cases hi : i < b
    · rw [hbit g i hi, hbit h i hi]
      have hsame := congrArg (fun n => n.testBit (σ (32 - b + i))) heq
      simpa [testBit_mod_two_pow, hlow i hi] using hsame
    · rw [hzero g i (by omega), hzero h i (by omega)]

/-- The high bits of the reversed hash are the low bits of the hash. -/
theorem reverseBits_div_eq_iff {b : Nat} (hb : b ≤ 32) (g h : UInt32) :
    (reverseBits g).toNat / 2 ^ (32 - b) = (reverseBits h).toNat / 2 ^ (32 - b)
      ↔ g.toNat % 2 ^ b = h.toNat % 2 ^ b := by
  refine div_eq_iff_of_permutes (fun v i hi => reverseBits_testBit v hi) hb (fun i hi => ?_)
    (fun j hj => ⟨b - 1 - j, ?_, ?_⟩) g h <;> omega

theorem reverseBits_mod_eq_zero {b : Nat} (hb : b ≤ 32) {v : UInt32} (hv : v.toNat < 2 ^ b) :
    (reverseBits v).toNat % 2 ^ (32 - b) = 0 := by
  apply eq_of_testBit_eq
  intro i
  rw [testBit_mod_two_pow, zero_testBit]
  by_cases hi : i < 32 - b
  · have hhigh : v.toNat.testBit (31 - i) = false := by
      refine Nat.testBit_lt_two_pow (lt_of_lt_of_le hv ?_)
      exact Nat.pow_le_pow_right (by omega) (by omega)
    rw [reverseBits_testBit v (by omega), hhigh, Bool.and_false]
  · simp [hi]

/-- **The hashes that agree with `v` in their low `b` bits are an interval**, once reversed. -/
theorem reverseBits_interval_iff {b : Nat} (hb : b ≤ 32) {v : UInt32} (hv : v.toNat < 2 ^ b)
    (h : UInt32) :
    ((reverseBits v).toNat ≤ (reverseBits h).toNat ∧
      (reverseBits h).toNat < (reverseBits v).toNat + 2 ^ (32 - b)) ↔
      h.toNat % 2 ^ b = v.toNat := by
  have hself : v.toNat % 2 ^ b = v.toNat := Nat.mod_eq_of_lt hv
  have hzero := reverseBits_mod_eq_zero hb hv
  have hdiv := reverseBits_div_eq_iff hb h v
  rw [hself] at hdiv
  rw [← hdiv]
  -- the start is a multiple of the length, so the interval is one class of quotients
  generalize hK : 2 ^ (32 - b) = K at *
  have hKpos : 0 < K := by rw [← hK]; exact Nat.two_pow_pos _
  obtain ⟨q, hq⟩ := Nat.dvd_of_mod_eq_zero hzero
  rw [hq, Nat.mul_div_cancel_left q hKpos, Nat.div_eq_iff hKpos]
  have hcomm : q * K = K * q := Nat.mul_comm q K
  omega

/-! ## `hobject_t` -/

/-- `hobject_t`. The reversed hashes the source caches beside `hash` are functions of it and
are computed where they are read. -/
structure Hobject where
  name : Bytes
  key : Bytes
  snap : UInt64
  hash : UInt32
  max : Bool
  pool : Int64
  nspace : Bytes
  deriving DecidableEq, Repr

namespace Hobject

/-- The default constructor: the smallest object, in the pool `INT64_MIN`. -/
def default : Hobject :=
  { name := [], key := [], snap := 0, hash := 0, max := false,
    pool := Int64.minValue, nspace := [] }

/-- `hobject_t::get_max()`. -/
def getMax : Hobject := { default with max := true }

/-- The constructor from an object name, which drops a key equal to the name. -/
def mk' (name key : Bytes) (snap : UInt64) (hash : UInt32) (pool : Int64) (nspace : Bytes) :
    Hobject :=
  { name, key := if name = key then [] else key, snap, hash, max := false, pool, nspace }

def getBitwiseKeyU32 (h : Hobject) : UInt32 := reverseBits h.hash

/-- `get_bitwise_key`: the maximum sorts after every 32-bit value. -/
def getBitwiseKey (h : Hobject) : UInt64 :=
  if h.max then 0x100000000 else h.getBitwiseKeyU32.toUInt64

/-- `get_effective_key`: the locator key if there is one, else the name. -/
def getEffectiveKey (h : Hobject) : Bytes := if h.key.length ≠ 0 then h.key else h.name

/-- A key equal to the name is never stored (`set_key` and the constructors clear it). -/
def Canonical (h : Hobject) : Prop := h.key = [] ∨ h.key ≠ h.name

instance (h : Hobject) : Decidable h.Canonical := inferInstanceAs (Decidable (_ ∨ _))

theorem canonical_mk' (name key : Bytes) (snap : UInt64) (hash : UInt32) (pool : Int64)
    (nspace : Bytes) : (mk' name key snap hash pool nspace).Canonical := by
  by_cases h : name = key
  · exact .inl (by simp [mk', h])
  · exact .inr (by simpa [mk', h] using Ne.symm h)

/-- `is_temp_pool`: the pools from `POOL_TEMP_START` down. -/
def isTempPool (pool : Int64) : Bool := pool ≤ -2

def getTempPool (pool : Int64) : Int64 := -2 - pool

def isTemp (h : Hobject) : Bool := isTempPool h.pool ∧ h.pool ≠ Int64.minValue

/-- `get_logical_pool`: the pool, or the one a temporary pool belongs to. -/
def getLogicalPool (h : Hobject) : Int64 :=
  if isTempPool h.pool then getTempPool h.pool else h.pool

end Hobject

/-- One pair of tests of a comparison function: `-1` or `1` when the field decides, else the
result of the tests that follow. -/
def cmpField {α : Type} [LT α] [DecidableLT α] (l r : α) (rest : Int) : Int :=
  if l < r then -1 else if l > r then 1 else rest

section CmpField

-- the comparison may be decided by another instance than the one of the order
variable {α : Type} [LinearOrder α] [DecidableLT α]

theorem cmpField_neg_iff (l r : α) (rest : Int) :
    cmpField l r rest < 0 ↔ l < r ∨ (l = r ∧ rest < 0) := by
  unfold cmpField
  rcases lt_trichotomy l r with h | h | h
  · simp [h]
  · subst h; simp
  · simp [h, h.not_gt, h.ne']

theorem cmpField_nonpos_iff (l r : α) (rest : Int) :
    cmpField l r rest ≤ 0 ↔ l < r ∨ (l = r ∧ rest ≤ 0) := by
  unfold cmpField
  rcases lt_trichotomy l r with h | h | h
  · simp [h]
  · subst h; simp
  · simp [h, h.not_gt, h.ne']

@[simp] theorem cmpField_self (l : α) (rest : Int) : cmpField l l rest = rest := by
  simp [cmpField]

/-- A comparison that falls through to a second one when it is zero does so at its end. -/
theorem cmpField_orElse (l r : α) (rest next : Int) :
    (if cmpField l r rest ≠ 0 then cmpField l r rest else next) =
      cmpField l r (if rest ≠ 0 then rest else next) := by
  unfold cmpField
  split_ifs <;> simp_all

end CmpField

namespace Hobject

/-- `cmp(const hobject_t&, const hobject_t&)`. -/
def cmp (l r : Hobject) : Int :=
  cmpField l.max r.max <|
  cmpField l.pool r.pool <|
  cmpField l.getBitwiseKey r.getBitwiseKey <|
  cmpField l.nspace r.nspace <|
  let byName := cmpField l.name r.name <| cmpField l.snap r.snap 0
  if ¬ (l.key = [] ∧ r.key = []) then
    cmpField l.getEffectiveKey r.getEffectiveKey byName
  else byName

/-- Without keys the effective keys are the names, so the test on the keys can always be
made. -/
theorem cmp_eq_effectiveKey (l r : Hobject) :
    cmp l r =
      cmpField l.max r.max (cmpField l.pool r.pool
        (cmpField l.getBitwiseKey r.getBitwiseKey (cmpField l.nspace r.nspace
          (cmpField l.getEffectiveKey r.getEffectiveKey
            (cmpField l.name r.name (cmpField l.snap r.snap 0)))))) := by
  unfold cmp
  by_cases h : l.key = [] ∧ r.key = []
  · have hl : l.getEffectiveKey = l.name := by simp [getEffectiveKey, h.1]
    have hr : r.getEffectiveKey = r.name := by simp [getEffectiveKey, h.2]
    rw [hl, hr]
    simp only [h, and_self, not_true_eq_false, if_false]
    have hcol : ∀ rest : Int,
        cmpField l.name r.name (cmpField l.name r.name rest) = cmpField l.name r.name rest := by
      intro rest
      unfold cmpField
      split_ifs <;> rfl
    rw [hcol]
  · simp only [h, not_false_eq_true, if_true]

/-- The fields `cmp` looks at, in its order. -/
def sortKey (h : Hobject) :
    Bool ×ₗ Int64 ×ₗ UInt64 ×ₗ Bytes ×ₗ Bytes ×ₗ Bytes ×ₗ UInt64 :=
  toLex (h.max, toLex (h.pool, toLex (h.getBitwiseKey, toLex (h.nspace,
    toLex (h.getEffectiveKey, toLex (h.name, h.snap))))))

/-- The form in which objects are held: no key equal to the name, and the maximum only as the
one object `is_max` accepts. -/
structure Valid (h : Hobject) : Prop where
  canonical : h.Canonical
  max_eq : h.max = true → h = getMax

instance (h : Hobject) : Decidable h.Valid :=
  decidable_of_iff (h.Canonical ∧ (h.max = true → h = getMax))
    ⟨fun ⟨h1, h2⟩ => ⟨h1, h2⟩, fun ⟨h1, h2⟩ => ⟨h1, h2⟩⟩

theorem getBitwiseKeyU32_inj (g h : Hobject) :
    g.getBitwiseKeyU32 = h.getBitwiseKeyU32 ↔ g.hash = h.hash := by
  constructor
  · intro heq
    have hrev := congrArg reverseBits heq
    simpa [getBitwiseKeyU32] using hrev
  · intro heq
    rw [getBitwiseKeyU32, getBitwiseKeyU32, heq]

theorem getBitwiseKey_lt_iff {g h : Hobject} (hg : g.max = false) (hh : h.max = false) :
    g.getBitwiseKey < h.getBitwiseKey ↔
      (reverseBits g.hash).toNat < (reverseBits h.hash).toNat := by
  simp [getBitwiseKey, getBitwiseKeyU32, hg, hh, UInt64.lt_iff_toNat_lt]

theorem getBitwiseKey_eq_iff {g h : Hobject} (hg : g.max = false) (hh : h.max = false) :
    g.getBitwiseKey = h.getBitwiseKey ↔ g.hash = h.hash := by
  rw [← getBitwiseKeyU32_inj]
  simp [getBitwiseKey, hg, hh, ← UInt64.toNat_inj, ← UInt32.toNat_inj]

theorem key_eq_of_effectiveKey_eq {g h : Hobject} (hg : g.Canonical) (hh : h.Canonical)
    (heff : g.getEffectiveKey = h.getEffectiveKey) (hname : g.name = h.name) : g.key = h.key := by
  unfold getEffectiveKey at heff
  by_cases kg : g.key = [] <;> by_cases kh : h.key = []
  · rw [kg, kh]
  · exact absurd (by simpa [kg, kh, hname] using heff.symm) (hh.resolve_left kh)
  · exact absurd (by simpa [kg, kh, hname] using heff) (hg.resolve_left kg)
  · simpa [kg, kh] using heff

/-- **Valid objects that compare equal are equal.** -/
theorem eq_of_sortKey_eq {g h : Hobject} (hg : g.Valid) (hh : h.Valid)
    (heq : g.sortKey = h.sortKey) : g = h := by
  simp only [sortKey, toLex_inj, Prod.mk.injEq] at heq
  obtain ⟨hmax, hpool, hbits, hnspace, heff, hname, hsnap⟩ := heq
  cases hm : g.max with
  | true => rw [hg.max_eq hm, hh.max_eq (hmax ▸ hm)]
  | false =>
    have hm' : h.max = false := hmax ▸ hm
    have hhash : g.hash = h.hash := (getBitwiseKey_eq_iff hm hm').mp hbits
    have hkey := key_eq_of_effectiveKey_eq hg.canonical hh.canonical heff hname
    cases g
    cases h
    simp_all

end Hobject

/-- A valid `hobject_t`, the way log entries and missing sets hold it. -/
abbrev Soid := {h : Hobject // h.Valid}

/-- Objects are ordered by `cmp`. -/
instance : LinearOrder Soid := MachineInt.linearOrderOfKey (fun h => h.val.sortKey) fun a b h =>
  Subtype.ext (Hobject.eq_of_sortKey_eq a.property b.property h)

/-- `ghobject_t`: an object together with its generation and erasure-code shard. -/
structure Ghobject where
  hobj : Hobject
  generation : UInt64
  shardId : Int8
  max : Bool
  deriving DecidableEq, Repr

namespace Ghobject

/-- The default constructor: no generation, no shard. -/
def default : Ghobject :=
  { hobj := Hobject.default, generation := 0xffffffffffffffff, shardId := -1, max := false }

/-- `ghobject_t::get_max()`. -/
def getMax : Ghobject := { default with hobj := Hobject.getMax, max := true }

/-- `cmp(const ghobject_t&, const ghobject_t&)`. -/
def cmp (l r : Ghobject) : Int :=
  cmpField l.max r.max <|
  cmpField l.shardId r.shardId <|
  let ret := Hobject.cmp l.hobj r.hobj
  if ret ≠ 0 then ret else cmpField l.generation r.generation 0

/-- **The order of `ghobject_t` as one chain of fields.** -/
theorem cmp_eq_chain (l r : Ghobject) :
    cmp l r =
      cmpField l.max r.max (cmpField l.shardId r.shardId
        (cmpField l.hobj.max r.hobj.max (cmpField l.hobj.pool r.hobj.pool
          (cmpField l.hobj.getBitwiseKey r.hobj.getBitwiseKey
            (cmpField l.hobj.nspace r.hobj.nspace
              (cmpField l.hobj.getEffectiveKey r.hobj.getEffectiveKey
                (cmpField l.hobj.name r.hobj.name (cmpField l.hobj.snap r.hobj.snap
                  (cmpField l.generation r.generation 0))))))))) := by
  unfold cmp
  simp only [Hobject.cmp_eq_effectiveKey, cmpField_orElse, ne_eq, not_true_eq_false, if_false]

/-- What `get_object_key` is called with: not the maximum, and no key equal to the name. -/
structure Regular (g : Ghobject) : Prop where
  notMax : g.max = false
  hobjNotMax : g.hobj.max = false
  canonical : g.hobj.Canonical

end Ghobject

end Ceph
