import Ceph.Common.Hobject
import Ceph.Lib.LinearHash

set_option autoImplicit false

/-! # Placement groups and their ranges

An object belongs to the placement group its hash selects by a stable modulo
(`ceph_stable_mod`), a form of linear hashing. Object listing takes a group to be a range of
the bitwise object order instead (`get_hobj_start`, `get_hobj_end`).

`hashToSeed_eq_iff_bits` says which hashes a group holds, and `inRange_iff` which objects its
range holds. The end of a range is itself an object id, with an empty name and the snapshot
id of a head, so snapshots without a name that have the next group's first hash lie in the
range too.
-/

variable {n v : UInt32}

namespace Ceph.Osd

open Hobject LinearHash

/-! ## Placement -/

/-- `ceph_stable_mod`, in `int` arithmetic. -/
def cephStableMod (x b bmask : Int32) : Int32 :=
  if (x &&& bmask) < b then x &&& bmask else x &&& (bmask >>> 1)

/-- `cbits`: the number of significant bits. -/
def cbits (v : UInt32) : Nat := if v = 0 then 0 else v.toNat.log2 + 1

/-- `(1 << bits) - 1`. -/
def lowMask (bits : Nat) : Int32 := (1 <<< Int32.ofNat bits) - 1

/-- `pg_num_mask`, as `calc_pg_masks` computes it. -/
def pgNumMask (pgNum : UInt32) : UInt32 := (lowMask (cbits (pgNum - 1))).toUInt32

/-- The seed of the group an object hash is placed in (`raw_pg_to_pg`). -/
def hashToSeed (hash pgNum : UInt32) : UInt32 :=
  (cephStableMod hash.toInt32 pgNum.toInt32 (pgNumMask pgNum).toInt32).toUInt32

structure Pg where
  pool : UInt64
  seed : UInt32
  deriving DecidableEq, Repr

namespace Pg

/-- `get_split_bits`; nothing where an assertion fails. -/
def getSplitBits (pg : Pg) (pgNum : UInt32) : Option Nat :=
  if pgNum = 1 then some 0
  else if pgNum > 1 then
    let p := cbits pgNum
    if p = 0 then none
    else
      let half : UInt32 := 1 <<< UInt32.ofNat (p - 1)
      some (if pg.seed % half < pgNum % half then p else p - 1)
  else none

def getHobjStart (pg : Pg) : Hobject := Hobject.mk' [] [] 0 pg.seed pg.pool.toInt64 []

/-- `get_hobj_end`; nothing where an assertion fails. -/
def getHobjEnd (pg : Pg) (pgNum : UInt32) : Option Hobject := do
  let bits ← pg.getSplitBits pgNum
  let revStart : UInt64 := (reverseBits pg.seed).toUInt64
  let revEnd : UInt64 :=
    (revStart ||| ((0xffffffff : UInt32) >>> UInt32.ofNat bits).toUInt64) + 1
  if revEnd ≥ 0x100000000 then
    if revEnd = 0x100000000 then some Hobject.getMax else none
  else some (Hobject.mk' [] [] noSnap (reverseBits revEnd.toUInt32) pg.pool.toInt64 [])

end Pg

/-! ## The arithmetic without machine words

`int` arithmetic computes what the text of the source says as long as `pg_num` is below
`2^31`. -/

theorem cbits_spec (hv : 0 < v.toNat) :
    0 < cbits v ∧ 2 ^ (cbits v - 1) ≤ v.toNat ∧ v.toNat < 2 ^ cbits v := by
  have hne : v ≠ 0 := by
    rintro rfl
    simp at hv
  have hcb : cbits v = v.toNat.log2 + 1 := by rw [cbits, if_neg hne]
  rw [hcb]
  refine ⟨by omega, ?_, Nat.lt_log2_self⟩
  rw [Nat.add_sub_cancel]
  exact Nat.log2_self_le (by omega)

theorem cbits_le {k : Nat} (hv : v.toNat < 2 ^ k) : cbits v ≤ k := by
  by_cases h0 : v = 0
  · subst h0
    exact Nat.zero_le _
  · have hpos : 0 < v.toNat := by
      rcases Nat.eq_zero_or_pos v.toNat with h | h
      · exact absurd (UInt32.toNat_inj.mp (by simpa using h)) h0
      · exact h
    obtain ⟨h1, h2, -⟩ := cbits_spec hpos
    have hlt : 2 ^ (cbits v - 1) < 2 ^ k := lt_of_le_of_lt h2 hv
    have := (Nat.pow_lt_pow_iff_right (by omega : 1 < 2)).mp hlt
    omega

theorem lowMask_toUInt32 {b : Nat} (hb : b < 32) :
    (lowMask b).toUInt32.toNat = 2 ^ b - 1 ∧
      (lowMask b >>> 1).toUInt32.toNat = 2 ^ (b - 1) - 1 := by
  have htable : ∀ b < 32, (lowMask b).toUInt32.toNat = 2 ^ b - 1 ∧
      (lowMask b >>> 1).toUInt32.toNat = 2 ^ (b - 1) - 1 := by decide
  exact htable b hb

theorem toInt_eq_toNat {a : Int32} (h : a.toUInt32.toNat < 2 ^ 31) :
    a.toInt = (a.toUInt32.toNat : Int) := by
  have hint : a.toInt = a.toBitVec.toInt := rfl
  have hnat : a.toUInt32.toNat = a.toBitVec.toNat := rfl
  rw [hnat] at h ⊢
  rw [hint, BitVec.toInt_eq_toNat_of_lt (by omega)]

/-- **`ceph_stable_mod` is the address of linear hashing.** -/
theorem cephStableMod_toNat {b : Nat} (hb : b < 32) (x n : UInt32) (hn : n.toNat < 2 ^ 31) :
    (cephStableMod x.toInt32 n.toInt32 (lowMask b)).toUInt32.toNat
      = address b n.toNat x.toNat := by
  obtain ⟨hmask, hhalf⟩ := lowMask_toUInt32 hb
  have hand : (x.toInt32 &&& lowMask b).toUInt32.toNat = x.toNat % 2 ^ b := by
    show (x &&& (lowMask b).toUInt32).toNat = _
    rw [UInt32.toNat_and, hmask]
    exact Nat.and_two_pow_sub_one_eq_mod _ _
  have hand' : (x.toInt32 &&& (lowMask b >>> 1)).toUInt32.toNat = x.toNat % 2 ^ (b - 1) := by
    show (x &&& (lowMask b >>> 1).toUInt32).toNat = _
    rw [UInt32.toNat_and, hhalf]
    exact Nat.and_two_pow_sub_one_eq_mod _ _
  have hsmall : x.toNat % 2 ^ b < 2 ^ 31 :=
    lt_of_lt_of_le (Nat.mod_lt _ (by positivity)) (Nat.pow_le_pow_right (by omega) (by omega))
  have hlt : (x.toInt32 &&& lowMask b) < n.toInt32 ↔ x.toNat % 2 ^ b < n.toNat := by
    rw [Int32.lt_iff_toInt_lt, toInt_eq_toNat (by rw [hand]; exact hsmall), hand,
      toInt_eq_toNat (a := n.toInt32) hn]
    exact Int.ofNat_lt
  unfold cephStableMod address
  by_cases h : x.toNat % 2 ^ b < n.toNat
  · rw [if_pos h, if_pos (hlt.mpr h), hand]
  · rw [if_neg h, if_neg (fun hc => h (hlt.mp hc)), hand']

theorem depth_cbits_pred (hn : 0 < n.toNat) : Depth (cbits (n - 1)) n.toNat := by
  have hsub : (n - 1).toNat = n.toNat - 1 := by
    rw [UInt32.toNat_sub_of_le]
    · rfl
    · rw [UInt32.le_iff_toNat_le]
      exact hn
  rcases Nat.eq_or_lt_of_le hn with h1 | h1
  · -- a single group needs no bits
    have hzero : n - 1 = 0 := UInt32.toNat_inj.mp (by rw [hsub]; simp; omega)
    rw [hzero, ← h1]
    exact ⟨by decide, by decide⟩
  · obtain ⟨-, hlo, hhi⟩ := cbits_spec (v := n - 1) (by omega)
    exact ⟨by omega, by omega⟩

theorem depth_cbits (hn : 0 < n.toNat) : Depth (cbits n) n.toNat := by
  obtain ⟨-, hlo, hhi⟩ := cbits_spec hn
  exact ⟨hlo, hhi.le⟩

theorem hashToSeed_toNat (h n : UInt32) (hpos : 0 < n.toNat) (hn : n.toNat < 2 ^ 31) :
    (hashToSeed h n).toNat = address (cbits n) n.toNat h.toNat := by
  have hsub : (n - 1).toNat < 2 ^ 31 := by
    rw [UInt32.toNat_sub_of_le]
    · omega
    · rw [UInt32.le_iff_toNat_le]
      exact hpos
  have hb : cbits (n - 1) < 32 := lt_of_le_of_lt (cbits_le hsub) (by omega)
  have hmask : (pgNumMask n).toInt32 = lowMask (cbits (n - 1)) := by simp [pgNumMask]
  rw [hashToSeed, hmask, cephStableMod_toNat hb h n hn]
  exact address_eq_of_depth (depth_cbits_pred hpos) (depth_cbits hpos)

theorem hashToSeed_lt (h n : UInt32) (hpos : 0 < n.toNat) (hn : n.toNat < 2 ^ 31) :
    hashToSeed h n < n := by
  rw [UInt32.lt_iff_toNat_lt, hashToSeed_toNat h n hpos hn]
  exact address_lt (depth_cbits hpos)

/-- The assertions of `get_split_bits` hold, and it returns the number of low bits the hashes
of the group have in common. -/
theorem getSplitBits_eq (pg : Pg) (hpos : 0 < n.toNat) (hn : n.toNat < 2 ^ 31) :
    pg.getSplitBits n = some (bucketBits (cbits n) n.toNat pg.seed.toNat) := by
  unfold Pg.getSplitBits
  by_cases h1 : n = 1
  · -- one group: nothing is compared, as `x % 1 = 0`
    subst h1
    rw [if_pos rfl]
    have hcb : cbits 1 = 1 := by decide
    simp [hcb, bucketBits, Nat.mod_one]
  · obtain ⟨hp, hlo, hhi⟩ := cbits_spec hpos
    have hle : cbits n ≤ 31 := cbits_le hn
    have hgt : n > 1 := by
      rw [gt_iff_lt, UInt32.lt_iff_toNat_lt]
      have hne : n.toNat ≠ 1 := fun h => h1 (UInt32.toNat_inj.mp h)
      show 1 < n.toNat
      omega
    have htable : ∀ k < 32, ((1 : UInt32) <<< UInt32.ofNat k).toNat = 2 ^ k := by decide
    have hhalf := htable (cbits n - 1) (by omega)
    rw [if_neg h1, if_pos hgt]
    simp only [if_neg (by omega : ¬ cbits n = 0), UInt32.lt_iff_toNat_lt, UInt32.toNat_mod, hhalf]
    rfl

theorem bucketBits_le (pg : Pg) (hn : n.toNat < 2 ^ 31) :
    bucketBits (cbits n) n.toNat pg.seed.toNat ≤ 31 := by
  have hle : cbits n ≤ 31 := cbits_le hn
  unfold bucketBits
  split_ifs <;> omega

/-- **A group is the set of hashes with its low bits.** -/
theorem hashToSeed_eq_iff_bits (pg : Pg) (hn : n.toNat < 2 ^ 31) (hs : pg.seed < n) (h : UInt32) :
    hashToSeed h n = pg.seed ↔
      h.toNat % 2 ^ bucketBits (cbits n) n.toNat pg.seed.toNat = pg.seed.toNat := by
  have hs' : pg.seed.toNat < n.toNat := UInt32.lt_iff_toNat_lt.mp hs
  obtain ⟨hp, hlo, hhi⟩ := cbits_spec (v := n) (by omega)
  rw [← UInt32.toNat_inj, hashToSeed_toNat h n (by omega) hn]
  exact address_eq_iff hp hlo hhi hs'

theorem seed_lt_two_pow_bits (pg : Pg) (hn : n.toNat < 2 ^ 31) (hs : pg.seed < n) :
    pg.seed.toNat < 2 ^ bucketBits (cbits n) n.toNat pg.seed.toNat := by
  -- the seed is placed in its own group
  have hs' : pg.seed.toNat < n.toNat := UInt32.lt_iff_toNat_lt.mp hs
  have hself : hashToSeed pg.seed n = pg.seed := by
    rw [← UInt32.toNat_inj, hashToSeed_toNat _ n (by omega) hn]
    exact address_of_lt (depth_cbits (by omega)) hs'
  have hmod := (hashToSeed_eq_iff_bits pg hn hs pg.seed).mp hself
  calc pg.seed.toNat
      = pg.seed.toNat % 2 ^ bucketBits (cbits n) n.toNat pg.seed.toNat := hmod.symm
    _ < 2 ^ bucketBits (cbits n) n.toNat pg.seed.toNat := Nat.mod_lt _ (Nat.two_pow_pos _)

/-! ## Ranges -/

/-- The half-open range of the bitwise order that a group stands for. -/
def InRange (pg : Pg) (pgNum : UInt32) (o : Hobject) : Prop :=
  ∃ e, pg.getHobjEnd pgNum = some e ∧ Hobject.cmp pg.getHobjStart o ≤ 0 ∧ Hobject.cmp o e < 0

theorem revEnd_toNat (pg : Pg) (hn : n.toNat < 2 ^ 31) (hs : pg.seed < n) :
    ((reverseBits pg.seed).toUInt64 |||
        ((0xffffffff : UInt32) >>>
          UInt32.ofNat (bucketBits (cbits n) n.toNat pg.seed.toNat)).toUInt64).toNat
      = (reverseBits pg.seed).toNat +
        (2 ^ (32 - bucketBits (cbits n) n.toNat pg.seed.toNat) - 1) := by
  have hle := bucketBits_le pg hn
  have hlow := seed_lt_two_pow_bits pg hn hs
  generalize bucketBits (cbits n) n.toNat pg.seed.toNat = b at *
  have htable : ∀ k < 32,
      ((0xffffffff : UInt32) >>> UInt32.ofNat k).toUInt64.toNat = 2 ^ (32 - k) - 1 := by decide
  have hmask := htable b (by omega)
  have hzero := reverseBits_mod_eq_zero (by omega : b ≤ 32) hlow
  have hrev : (reverseBits pg.seed).toUInt64.toNat = (reverseBits pg.seed).toNat := by simp
  rw [UInt64.toNat_or, hmask, hrev]
  -- the seed leaves the bits of the mask zero, so `or` is addition
  obtain ⟨q, hq⟩ := Nat.dvd_of_mod_eq_zero hzero
  rw [hq, Nat.two_pow_add_eq_or_of_lt (by have := Nat.two_pow_pos (32 - b); omega)]

/-- An object with neither a name, a key nor a namespace that is no head: it sorts before the
end of a range although its hash is the first of the next group. -/
def Nameless (o : Hobject) : Prop := o.name = [] ∧ o.key = [] ∧ o.nspace = [] ∧ o.snap < noSnap

instance (o : Hobject) : Decidable (Nameless o) := inferInstanceAs (Decidable (_ ∧ _))

theorem nil_lt_or_eq (s : Bytes) : [] < s ∨ [] = s := by
  cases s with
  | nil => exact .inr rfl
  | cons c s => exact .inl (List.nil_lt_cons c s)

/-- The start of a range is the least object of its pool with its hash or a later one. -/
theorem cmp_start_le_iff (pg : Pg) (o : Hobject) (hmax : o.max = false)
    (hpool : o.pool = pg.pool.toInt64) :
    Hobject.cmp pg.getHobjStart o ≤ 0 ↔
      (reverseBits pg.seed).toNat ≤ (reverseBits o.hash).toNat := by
  have hsnap : (0 : UInt64) < o.snap ∨ 0 = o.snap := by
    rw [UInt64.lt_iff_toNat_lt, ← UInt64.toNat_inj]
    show 0 < o.snap.toNat ∨ 0 = o.snap.toNat
    omega
  -- everything but the hash is least in the start
  have hrest : cmpField pg.getHobjStart.nspace o.nspace
      (cmpField pg.getHobjStart.getEffectiveKey o.getEffectiveKey
        (cmpField pg.getHobjStart.name o.name
          (cmpField pg.getHobjStart.snap o.snap 0))) ≤ 0 := by
    simp only [cmpField_nonpos_iff]
    rcases nil_lt_or_eq o.nspace with h1 | h1
    · exact .inl h1
    · refine .inr ⟨h1, ?_⟩
      rcases nil_lt_or_eq o.getEffectiveKey with h2 | h2
      · exact .inl h2
      · refine .inr ⟨h2, ?_⟩
        rcases nil_lt_or_eq o.name with h3 | h3
        · exact .inl h3
        · refine .inr ⟨h3, ?_⟩
          rcases hsnap with h4 | h4
          · exact .inl h4
          · exact .inr ⟨h4, le_rfl⟩
  have hstart : pg.getHobjStart.max = false := rfl
  rw [cmp_eq_effectiveKey, hmax, hstart, cmpField_self, hpool]
  show cmpField pg.pool.toInt64 pg.pool.toInt64 _ ≤ 0 ↔ _
  rw [cmpField_self, cmpField_nonpos_iff, getBitwiseKey_lt_iff hstart hmax,
    getBitwiseKey_eq_iff hstart hmax]
  constructor
  · rintro (h | ⟨h, -⟩)
    · exact h.le
    · rw [← h]
      exact le_rfl
  · intro h
    rcases Nat.lt_or_eq_of_le h with hlt | heq
    · exact .inl hlt
    · have hhash : pg.seed = o.hash := by
        have hrev := congrArg reverseBits (UInt32.toNat_inj.mp heq)
        simpa using hrev
      exact .inr ⟨hhash, hrest⟩

/-- An object is before the end of a range by its hash, or if it is nameless. -/
theorem cmp_end_lt_iff (o : Hobject) (hmax : o.max = false) (hash : UInt32) (pool : Int64)
    (hpool : o.pool = pool) :
    Hobject.cmp o (Hobject.mk' [] [] noSnap hash pool []) < 0 ↔
      (reverseBits o.hash).toNat < (reverseBits hash).toNat ∨ (o.hash = hash ∧ Nameless o) := by
  have hend : (Hobject.mk' [] [] noSnap hash pool []).max = false := rfl
  have hnil : ∀ s : Bytes, ¬ s < [] := fun s => List.not_lt_nil s
  have heff : o.getEffectiveKey = [] ↔ o.key = [] ∧ o.name = [] := by
    unfold Hobject.getEffectiveKey
    by_cases hk : o.key = []
    · simp [hk]
    · simp [hk]
  rw [cmp_eq_effectiveKey, hmax, hend, cmpField_self, hpool]
  show cmpField pool pool _ < 0 ↔ _
  rw [cmpField_self, cmpField_neg_iff, getBitwiseKey_lt_iff hmax hend,
    getBitwiseKey_eq_iff hmax hend]
  refine or_congr Iff.rfl (and_congr_right fun _ => ?_)
  show cmpField o.nspace [] (cmpField o.getEffectiveKey [] (cmpField o.name []
    (cmpField o.snap noSnap 0))) < 0 ↔ _
  simp only [cmpField_neg_iff, hnil, false_or, heff, lt_self_iff_false, and_false, or_false,
    Nameless]
  tauto

theorem hashToSeed_eq_iff_interval (pg : Pg) (hn : n.toNat < 2 ^ 31) (hs : pg.seed < n)
    (h : UInt32) :
    hashToSeed h n = pg.seed ↔
      (reverseBits pg.seed).toNat ≤ (reverseBits h).toNat ∧
      (reverseBits h).toNat < (reverseBits pg.seed).toNat +
        2 ^ (32 - bucketBits (cbits n) n.toNat pg.seed.toNat) := by
  have hle := bucketBits_le pg hn
  rw [hashToSeed_eq_iff_bits pg hn hs]
  exact (reverseBits_interval_iff (by omega) (seed_lt_two_pow_bits pg hn hs) h).symm

/-- The end of a group's interval of reversed hashes. -/
def rangeEnd (pg : Pg) (n : UInt32) : Nat :=
  (reverseBits pg.seed).toNat + 2 ^ (32 - bucketBits (cbits n) n.toNat pg.seed.toNat)

theorem rangeEnd_le (pg : Pg) (hn : n.toNat < 2 ^ 31) (hs : pg.seed < n) :
    rangeEnd pg n ≤ 2 ^ 32 := by
  have hle := bucketBits_le pg hn
  have hlow := seed_lt_two_pow_bits pg hn hs
  unfold rangeEnd
  generalize bucketBits (cbits n) n.toNat pg.seed.toNat = b at *
  have hlt := (reverseBits pg.seed).toNat_lt
  have hpow : 2 ^ (32 - b) * 2 ^ b = 2 ^ 32 := by
    rw [← pow_add]
    exact congrArg _ (by omega)
  obtain ⟨q, hq⟩ := Nat.dvd_of_mod_eq_zero (reverseBits_mod_eq_zero (by omega : b ≤ 32) hlow)
  have hqlt : q < 2 ^ b := by
    by_contra hc
    have hmul := Nat.mul_le_mul_left (2 ^ (32 - b)) (Nat.le_of_not_lt hc)
    omega
  have hmul := Nat.mul_le_mul_left (2 ^ (32 - b)) hqlt
  rw [Nat.mul_succ] at hmul
  omega

/-- The assertion of `get_hobj_end` holds: the last group ends at the maximum, the others at
the hash after their last one. -/
theorem getHobjEnd_cases (pg : Pg) (hn : n.toNat < 2 ^ 31) (hs : pg.seed < n) :
    (rangeEnd pg n = 2 ^ 32 ∧ pg.getHobjEnd n = some Hobject.getMax) ∨
    (rangeEnd pg n < 2 ^ 32 ∧ ∃ hash, (reverseBits hash).toNat = rangeEnd pg n ∧
      pg.getHobjEnd n = some (Hobject.mk' [] [] noSnap hash pg.pool.toInt64 [])) := by
  have hs' : pg.seed.toNat < n.toNat := UInt32.lt_iff_toNat_lt.mp hs
  have hR := revEnd_toNat pg hn hs
  have hend := rangeEnd_le pg hn hs
  have hpow := Nat.two_pow_pos (32 - bucketBits (cbits n) n.toNat pg.seed.toNat)
  unfold rangeEnd at *
  unfold Pg.getHobjEnd
  rw [getSplitBits_eq pg (by omega : 0 < n.toNat) hn]
  generalize bucketBits (cbits n) n.toNat pg.seed.toNat = b at *
  generalize hr : (reverseBits pg.seed).toUInt64 |||
    ((0xffffffff : UInt32) >>> UInt32.ofNat b).toUInt64 = r at *
  have hval : (r + 1).toNat = (reverseBits pg.seed).toNat + 2 ^ (32 - b) := by
    rw [UInt64.toNat_add, hR]
    show (_ + 1) % 2 ^ 64 = _
    omega
  simp only [Option.bind_eq_bind, Option.bind_some, hr, ge_iff_le, UInt64.le_iff_toNat_le,
    ← UInt64.toNat_inj, hval]
  rcases Nat.lt_or_eq_of_le hend with hlt | heq
  · refine .inr ⟨hlt, reverseBits (r + 1).toUInt32, ?_, ?_⟩
    · rw [reverseBits_reverseBits, UInt64.toNat_toUInt32, hval]
      exact Nat.mod_eq_of_lt hlt
    · rw [if_neg (by simp; omega)]
  · refine .inl ⟨heq, ?_⟩
    rw [heq]
    rfl

/-- **What a range contains**: the objects placed in the group, and the nameless objects with
the hash just after it. -/
theorem inRange_iff (pg : Pg) (hn : n.toNat < 2 ^ 31) (hs : pg.seed < n) (o : Hobject)
    (hmax : o.max = false) (hpool : o.pool = pg.pool.toInt64) :
    InRange pg n o ↔ hashToSeed o.hash n = pg.seed ∨
      (Nameless o ∧ (reverseBits o.hash).toNat = rangeEnd pg n) := by
  have hint := hashToSeed_eq_iff_interval pg hn hs o.hash
  change _ ↔ _ ∧ _ < rangeEnd pg n at hint
  have holt := (reverseBits o.hash).toNat_lt
  have hstart := cmp_start_le_iff pg o hmax hpool
  have hge : (reverseBits pg.seed).toNat ≤ rangeEnd pg n := Nat.le_add_right _ _
  rw [hint]
  rcases getHobjEnd_cases pg hn hs with ⟨hK, hend⟩ | ⟨hK, hash, hrev, hend⟩
  · -- the maximum is after every object
    have hlast : Hobject.cmp o Hobject.getMax < 0 := by
      rw [cmp_eq_effectiveKey, cmpField_neg_iff, hmax]
      exact .inl (by decide)
    simp only [InRange, hend, Option.some.injEq, exists_eq_left', hstart, hlast, and_true]
    omega
  · simp only [InRange, hend, Option.some.injEq, exists_eq_left', hstart,
      cmp_end_lt_iff o hmax hash _ hpool, hrev]
    have hhash : o.hash = hash ↔ (reverseBits o.hash).toNat = rangeEnd pg n := by
      rw [← hrev, UInt32.toNat_inj]
      constructor
      · intro h
        rw [h]
      · intro h
        simpa using congrArg reverseBits h
    rw [hhash]
    constructor
    · rintro ⟨h1, h2 | ⟨h2, h3⟩⟩
      · exact .inl ⟨h1, h2⟩
      · exact .inr ⟨h3, h2⟩
    · rintro (⟨h1, h2⟩ | ⟨h3, h2⟩)
      · exact ⟨h1, .inl h2⟩
      · exact ⟨by omega, .inr ⟨h2, h3⟩⟩

end Ceph.Osd
