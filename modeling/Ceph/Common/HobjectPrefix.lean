import Ceph.Common.HobjectStr
import Ceph.Lib.OrdMap

set_option autoImplicit false

/-! # The strings of the objects of a placement group

The objects of a placement group are those whose hash has certain low bits. `to_str` writes the
nibbles of the hash from the low end, so their strings begin with one of a few prefixes, which
`get_prefixes` (`common/hobject.cc`) computes: one for each way to complete the last nibble.
`exists_prefix_iff` is what the comment in `hobject.h` promises.
-/

namespace Ceph.Hobject

open OrdMap List LexCode

/-! ## The model -/

/-- The low `bits` bits. -/
def lowMask (bits : ℕ) : UInt32 := UInt32.ofNat (2 ^ bits - 1)

def matchHash (toCheck : UInt32) (bits : ℕ) (mask : UInt32) : Bool :=
  (mask &&& lowMask bits) == (toCheck &&& lowMask bits)

/-- The number of bits, rounded up to nibbles. -/
def nibbleBits (bits : ℕ) : ℕ := (bits + 3) / 4 * 4

/-- One iteration of the loop of `get_prefixes`: both values of bit `i`. -/
def bothValues (hashes : OrdSet UInt32) (i : ℕ) : OrdSet UInt32 :=
  hashes.keys.foldl (fun next j => (next.insert (j ||| (1 <<< UInt32.ofNat i)) ()).insert j ())
    .empty

/-- The loop of `get_prefixes`. -/
def prefixHashes (bits : ℕ) (mask : UInt32) : OrdSet UInt32 :=
  (List.range' bits (nibbleBits bits - bits)).foldl bothValues
    (OrdMap.empty.insert (mask &&& lowMask bits) ())

/-- The prefix of the strings of objects with these low bits. -/
def hashPrefix (pool : Int64) (bits : ℕ) (v : UInt32) : Bytes :=
  fixedWidth 16 upperHexDigit 16 pool.toUInt64.toNat ++ 0x2e ::
    (fixedWidth 16 upperHexDigit 8 (reverseNibbles v).toNat).take (nibbleBits bits / 4)

def getPrefixes (bits : ℕ) (mask : UInt32) (pool : Int64) : OrdSet Bytes :=
  OrdMap.empty.insertAll ((prefixHashes bits mask).keys.map (hashPrefix pool bits))

/-! ## Low bits -/

variable {bits : ℕ}

theorem toNat_and_lowMask (h : bits ≤ 32) (v : UInt32) :
    (v &&& lowMask bits).toNat = v.toNat % 2 ^ bits := by
  have hmask : (lowMask bits).toNat = 2 ^ bits - 1 := by
    have hle : 2 ^ bits ≤ 2 ^ 32 := Nat.pow_le_pow_right (by decide) h
    rw [lowMask, UInt32.toNat_ofNat']
    exact Nat.mod_eq_of_lt (by omega)
  rw [UInt32.toNat_and, hmask, Nat.and_two_pow_sub_one_eq_mod]

theorem matchHash_iff (h : bits ≤ 32) (v mask : UInt32) :
    matchHash v bits mask = true ↔ v.toNat % 2 ^ bits = mask.toNat % 2 ^ bits := by
  rw [matchHash, beq_iff_eq, ← UInt32.toNat_inj, toNat_and_lowMask h, toNat_and_lowMask h, eq_comm]

theorem mem_bothValues (hashes : OrdSet UInt32) (i : ℕ) (v : UInt32) :
    v ∈ bothValues hashes i ↔ ∃ j ∈ hashes, v = j ||| (1 <<< UInt32.ofNat i) ∨ v = j := by
  have hfold : ∀ (l : List UInt32) (next : OrdSet UInt32),
      v ∈ l.foldl (fun next j => (next.insert (j ||| (1 <<< UInt32.ofNat i)) ()).insert j ()) next ↔
        v ∈ next ∨ ∃ j ∈ l, v = j ||| (1 <<< UInt32.ofNat i) ∨ v = j := by
    intro l
    induction l with
    | nil => simp
    | cons j l ih =>
      intro next
      rw [foldl_cons, ih, mem_insert, mem_insert, exists_mem_cons_iff]
      grind
  rw [bothValues, hfold]
  simp only [not_mem_empty, false_or, mem_keys_iff]

theorem toNat_or_bit {i : ℕ} (hi : i < 32) {j : UInt32} (hj : j.toNat < 2 ^ i) :
    (j ||| (1 <<< UInt32.ofNat i)).toNat = j.toNat + 2 ^ i := by
  have hlt : 2 ^ i < 2 ^ 32 := Nat.pow_lt_pow_right (by decide) hi
  have hshift : (1 <<< UInt32.ofNat i : UInt32).toNat = 2 ^ i := by
    rw [UInt32.toNat_shiftLeft, UInt32.toNat_ofNat', Nat.mod_eq_of_lt (by omega : i < 2 ^ 32),
      Nat.mod_eq_of_lt hi]
    show 1 <<< i % 2 ^ 32 = 2 ^ i
    rw [Nat.one_shiftLeft, Nat.mod_eq_of_lt hlt]
  have hor := Nat.two_pow_add_eq_or_of_lt hj 1
  rw [Nat.mul_one] at hor
  rw [UInt32.toNat_or, hshift, Nat.or_comm, ← hor, Nat.add_comm]

/-- The hashes after the bits up to `i` have been completed. -/
theorem mem_foldl_bothValues (mask : UInt32) {n : ℕ} (h : bits + n ≤ 32) (v : UInt32) :
    v ∈ (List.range' bits n).foldl bothValues (OrdMap.empty.insert (mask &&& lowMask bits) ()) ↔
      v.toNat < 2 ^ (bits + n) ∧ v.toNat % 2 ^ bits = mask.toNat % 2 ^ bits := by
  have hpos : 0 < 2 ^ bits := Nat.two_pow_pos bits
  induction n generalizing v with
  | zero =>
    rw [List.range'_zero, foldl_nil, mem_insert, ← UInt32.toNat_inj,
      toNat_and_lowMask (by omega)]
    simp only [not_mem_empty, or_false, Nat.add_zero]
    constructor
    · intro heq
      rw [heq, Nat.mod_mod]
      exact ⟨Nat.mod_lt _ hpos, rfl⟩
    · rintro ⟨hlt, heq⟩
      rw [← heq, Nat.mod_eq_of_lt hlt]
  | succ n ih =>
    rw [List.range'_concat, foldl_append, foldl_cons, foldl_nil, Nat.one_mul,
      mem_bothValues]
    simp only [ih (by omega)]
    have hsplit : 2 ^ (bits + (n + 1)) = 2 ^ (bits + n) + 2 ^ (bits + n) := by
      rw [← Nat.add_assoc, pow_succ]
      omega
    -- a higher bit does not change the low ones
    have hmod : ∀ m : ℕ, (m + 2 ^ (bits + n)) % 2 ^ bits = m % 2 ^ bits := by
      intro m
      rw [pow_add, Nat.add_mul_mod_self_left]
    constructor
    · rintro ⟨j, ⟨hlt, heq⟩, rfl | rfl⟩
      · rw [toNat_or_bit (by omega) hlt, hmod]
        exact ⟨by omega, heq⟩
      · exact ⟨by omega, heq⟩
    · rintro ⟨hlt, heq⟩
      by_cases hsmall : v.toNat < 2 ^ (bits + n)
      · exact ⟨v, ⟨hsmall, heq⟩, .inr rfl⟩
      · have hbound := v.toNat_lt
        have hj : (UInt32.ofNat (v.toNat - 2 ^ (bits + n))).toNat =
            v.toNat - 2 ^ (bits + n) := by
          rw [UInt32.toNat_ofNat']
          exact Nat.mod_eq_of_lt (by omega)
        have hjlt : (UInt32.ofNat (v.toNat - 2 ^ (bits + n))).toNat < 2 ^ (bits + n) := by
          omega
        refine ⟨UInt32.ofNat (v.toNat - 2 ^ (bits + n)), ⟨hjlt, ?_⟩, .inl ?_⟩
        · rw [← hmod, hj, Nat.sub_add_cancel (by omega)]
          exact heq
        · rw [← UInt32.toNat_inj, toNat_or_bit (by omega) hjlt, hj]
          omega

/-- **The hashes of the prefixes** are those of the group with nothing above the last nibble. -/
theorem mem_prefixHashes (h : bits ≤ 32) (mask v : UInt32) :
    v ∈ prefixHashes bits mask ↔
      v.toNat < 2 ^ nibbleBits bits ∧ v.toNat % 2 ^ bits = mask.toNat % 2 ^ bits := by
  have hle : bits ≤ nibbleBits bits ∧ nibbleBits bits ≤ 32 := by
    unfold nibbleBits
    omega
  rw [prefixHashes, mem_foldl_bothValues mask (by omega), Nat.add_sub_cancel' hle.1]

/-! ## Nibbles -/

/-- **`reverse_nibbles` mirrors the nibbles.** -/
theorem reverseNibbles_testBit (v : UInt32) {i : ℕ} (hi : i < 32) :
    (reverseNibbles v).toNat.testBit i = v.toNat.testBit (4 * (7 - i / 4) + i % 4) := by
  have hlt : ∀ s ∈ [4, 8, 16], ∀ j < 32, swapIndex s j < 32 := by decide
  have hcomp : ∀ j < 32, swapIndex 4 (swapIndex 8 (swapIndex 16 j)) = 4 * (7 - j / 4) + j % 4 := by
    decide
  have h16 := hlt 16 (by decide) i hi
  have h8 := hlt 8 (by decide) _ h16
  show (reverseNibbles v).toBitVec.getLsbD i = v.toBitVec.getLsbD _
  rw [reverseNibbles, swapBits_getLsbD 16 rfl (by decide) (by decide) (by decide) _ hi,
    swapBits_getLsbD 8 rfl (by decide) (by decide) (by decide) _ h16,
    swapBits_getLsbD 4 rfl (by decide) (by decide) (by decide) _ h8, hcomp i hi]

/-- The first nibbles of the reversed hash are the low ones of the hash. -/
theorem take_hexDigits_eq_iff {k : ℕ} (hk : k ≤ 8) (g h : UInt32) :
    (fixedWidth 16 upperHexDigit 8 (reverseNibbles g).toNat).take k =
        (fixedWidth 16 upperHexDigit 8 (reverseNibbles h).toNat).take k ↔
      g.toNat % 2 ^ (4 * k) = h.toNat % 2 ^ (4 * k) := by
  have hpow : ∀ j, 16 ^ j = 2 ^ (4 * j) := by
    intro j
    rw [pow_mul]
    norm_num
  have htake : ∀ v : UInt32, (fixedWidth 16 upperHexDigit 8 (reverseNibbles v).toNat).take k =
      fixedWidth 16 upperHexDigit k ((reverseNibbles v).toNat / 2 ^ (32 - 4 * k)) := by
    intro v
    have hdigits := take_fixedWidth 16 upperHexDigit k (8 - k) (reverseNibbles v).toNat
    rw [Nat.add_sub_cancel' hk, hpow, Nat.mul_sub] at hdigits
    exact hdigits
  have hbound : ∀ v : UInt32, (reverseNibbles v).toNat / 2 ^ (32 - 4 * k) < 16 ^ k := by
    intro v
    refine Nat.div_lt_of_lt_mul ?_
    rw [hpow, ← pow_add, Nat.sub_add_cancel (by omega)]
    exact (reverseNibbles v).toNat_lt
  rw [htake g, htake h, fixedWidth_inj upperHexDigit_lt_iff (hbound g) (hbound h)]
  refine div_eq_iff_of_permutes (fun v i hi => reverseNibbles_testBit v hi) (by omega)
    (fun i hi => ?_) (fun j hj => ⟨4 * (k - 1 - j / 4) + j % 4, ?_, ?_⟩) g h <;> omega

/-! ## Prefixes -/

theorem length_hashPrefix (pool : Int64) (h : bits ≤ 32) (v : UInt32) :
    (hashPrefix pool bits v).length = 17 + nibbleBits bits / 4 := by
  have hle : nibbleBits bits / 4 ≤ 8 := by
    unfold nibbleBits
    omega
  rw [hashPrefix, length_append, length_cons, length_take, fixedWidth_length,
    fixedWidth_length]
  omega

/-- **The objects under a prefix** are those of the pool with these low bits. -/
theorem hashPrefix_prefix_iff (hbits : bits ≤ 32) (pool : Int64) (v : UInt32) (h : Hobject) :
    hashPrefix pool bits v <+: h.toStr ↔
      h.pool = pool ∧ v.toNat % 2 ^ nibbleBits bits = h.hash.toNat % 2 ^ nibbleBits bits := by
  have hk : nibbleBits bits / 4 ≤ 8 ∧ 4 * (nibbleBits bits / 4) = nibbleBits bits := by
    unfold nibbleBits
    omega
  have htake : h.toStr.take (17 + nibbleBits bits / 4) = hashPrefix h.pool bits h.hash := by
    rw [toStr, hashPrefix, take_append, fixedWidth_length,
      take_of_length_le (by simp; omega)]
    rw [show 17 + nibbleBits bits / 4 - 16 = nibbleBits bits / 4 + 1 by omega, take_succ_cons,
      take_append_of_le_length (by simpa using hk.1)]
    rfl
  have hpool : fixedWidth 16 upperHexDigit 16 pool.toUInt64.toNat =
      fixedWidth 16 upperHexDigit 16 h.pool.toUInt64.toNat ↔ h.pool = pool := by
    rw [fixedWidth_inj upperHexDigit_lt_iff (UInt64.toNat_lt _) (UInt64.toNat_lt _),
      UInt64.toNat_inj]
    constructor
    · intro heq
      exact Int64.toBitVec_inj.mp (congrArg UInt64.toBitVec heq.symm)
    · rintro rfl
      rfl
  have hhash := take_hexDigits_eq_iff hk.1 v h.hash
  rw [hk.2] at hhash
  rw [prefix_iff_eq_take, length_hashPrefix pool hbits, htake, ← hhash, ← hpool]
  constructor
  · intro heq
    obtain ⟨hfirst, hrest⟩ := append_inj heq (by simp)
    exact ⟨hfirst, (List.cons.inj hrest).2⟩
  · rintro ⟨hfirst, hrest⟩
    rw [hashPrefix, hashPrefix, hfirst, hrest]

theorem mem_getPrefixes (mask : UInt32) (pool : Int64) (p : Bytes) :
    p ∈ getPrefixes bits mask pool ↔ ∃ v ∈ prefixHashes bits mask, hashPrefix pool bits v = p := by
  rw [getPrefixes, mem_insertAll, mem_map]
  simp only [not_mem_empty, false_or, mem_keys_iff]

/-- **The prefixes of a placement group**: an object of the pool has one of them exactly if its hash
matches. -/
theorem exists_prefix_iff (hbits : bits ≤ 32) (mask : UInt32) (pool : Int64) (h : Hobject) :
    (∃ p ∈ getPrefixes bits mask pool, p <+: h.toStr) ↔
      h.pool = pool ∧ matchHash h.hash bits mask = true := by
  have hle : bits ≤ nibbleBits bits ∧ nibbleBits bits ≤ 32 := by
    unfold nibbleBits
    omega
  have hdvd : 2 ^ bits ∣ 2 ^ nibbleBits bits := pow_dvd_pow 2 hle.1
  rw [matchHash_iff hbits]
  constructor
  · rintro ⟨p, hp, hstarts⟩
    obtain ⟨v, hv, rfl⟩ := (mem_getPrefixes mask pool p).mp hp
    obtain ⟨-, hlow⟩ := (mem_prefixHashes hbits mask v).mp hv
    obtain ⟨hpool, hhash⟩ := (hashPrefix_prefix_iff hbits pool v h).mp hstarts
    refine ⟨hpool, ?_⟩
    rw [← hlow, ← Nat.mod_mod_of_dvd h.hash.toNat hdvd, ← hhash, Nat.mod_mod_of_dvd _ hdvd]
  · rintro ⟨hpool, hhash⟩
    -- the completion of the last nibble that the object has
    have hpow : 2 ^ nibbleBits bits ≤ 2 ^ 32 := Nat.pow_le_pow_right (by decide) hle.2
    have hlt : h.hash.toNat % 2 ^ nibbleBits bits < 2 ^ nibbleBits bits :=
      Nat.mod_lt _ (Nat.two_pow_pos _)
    have hv : (UInt32.ofNat (h.hash.toNat % 2 ^ nibbleBits bits)).toNat =
        h.hash.toNat % 2 ^ nibbleBits bits := by
      rw [UInt32.toNat_ofNat']
      exact Nat.mod_eq_of_lt (by omega)
    refine ⟨hashPrefix pool bits (UInt32.ofNat (h.hash.toNat % 2 ^ nibbleBits bits)),
      (mem_getPrefixes mask pool _).mpr ⟨_, (mem_prefixHashes hbits mask _).mpr ?_, rfl⟩,
      (hashPrefix_prefix_iff hbits pool _ h).mpr ⟨hpool, ?_⟩⟩
    · rw [hv, Nat.mod_mod_of_dvd _ hdvd]
      exact ⟨hlt, hhash⟩
    · rw [hv, Nat.mod_mod]

theorem length_of_mem_getPrefixes (hbits : bits ≤ 32) {mask : UInt32} {pool : Int64} {p : Bytes}
    (hp : p ∈ getPrefixes bits mask pool) : p.length = 17 + nibbleBits bits / 4 := by
  obtain ⟨v, -, rfl⟩ := (mem_getPrefixes mask pool p).mp hp
  exact length_hashPrefix pool hbits v

/-! ## What the calls give

`get_prefixes` has a case of its own for 32 bits, `match_hash` shifts by that number. And `to_str`
asserts that the object is not the maximum. -/

/-- `hobject_t::match`. A shift by all 32 bits is not defined. -/
def matchBits (h : Hobject) (bits : ℕ) (mask : UInt32) : Option Bool :=
  if bits < 32 then some (matchHash h.hash bits mask) else none

/-- `to_str` with the assertion of `get_nibblewise_key_u32`. -/
def toStr? (h : Hobject) : Option Bytes := if h.max then none else some h.toStr

theorem toStr?_eq_some_iff {h : Hobject} {s : Bytes} :
    h.toStr? = some s ↔ h.max = false ∧ h.toStr = s := by
  rw [toStr?]
  cases h.max <;> simp

/-- An object matches exactly if one of the prefixes is one of its string. -/
def SelectedByPrefix (o : Hobject) (bits : ℕ) (mask : UInt32) (pool : Int64) : Prop :=
  ∃ b s, o.matchBits bits mask = some b ∧ o.toStr? = some s ∧
    (b = true ↔ ∃ p ∈ getPrefixes bits mask pool, p <+: s)

theorem eq_of_getPrefixes_isPrefix (hbits : bits ≤ 32) {mask : UInt32} {pool : Int64}
    {p q s : Bytes} (hp : p ∈ getPrefixes bits mask pool) (hq : q ∈ getPrefixes bits mask pool)
    (hps : p <+: s) (hqs : q <+: s) : p = q := by
  have hlen : p.length = q.length := by
    rw [length_of_mem_getPrefixes hbits hp, length_of_mem_getPrefixes hbits hq]
  exact (prefix_of_prefix_length_le hps hqs hlen.le).eq_of_length hlen

/-- **Prefixes select the objects of a placement group**, they do not overlap and objects have
different strings, as long as there are fewer than 32 bits and the object is not the maximum. -/
theorem prefixes_select_iff {bits : ℕ} (hbits : bits ≤ 32) (mask : UInt32) (pool : Int64)
    (o : Hobject) (hpool : o.pool = pool) :
    (o.SelectedByPrefix bits mask pool ∧
      (∀ p ∈ getPrefixes bits mask pool, ∀ q ∈ getPrefixes bits mask pool, ∀ s,
        p <+: s → q <+: s → p = q) ∧
      ∀ g h : Hobject, g.Canonical → h.Canonical → ∀ s, g.toStr? = some s → h.toStr? = some s →
        g = h) ↔ bits < 32 ∧ o.max = false := by
  constructor
  · rintro ⟨⟨b, s, hmatch, hs, -⟩, -, -⟩
    refine ⟨?_, (toStr?_eq_some_iff.mp hs).1⟩
    by_contra hlt
    rw [matchBits, if_neg hlt] at hmatch
    cases hmatch
  · rintro ⟨hlt, hmax⟩
    refine ⟨⟨matchHash o.hash bits mask, o.toStr, if_pos hlt,
      toStr?_eq_some_iff.mpr ⟨hmax, rfl⟩, ?_⟩, ?_, ?_⟩
    · rw [exists_prefix_iff hbits mask pool o]
      exact ⟨fun h => ⟨hpool, h⟩, fun h => h.2⟩
    · intro p hp q hq s hps hqs
      exact eq_of_getPrefixes_isPrefix hbits hp hq hps hqs
    · intro g h _ _ s hg hh
      obtain ⟨hgmax, hg⟩ := toStr?_eq_some_iff.mp hg
      obtain ⟨hhmax, hh⟩ := toStr?_eq_some_iff.mp hh
      exact toStr_injective hgmax hhmax (hg.trans hh.symm)

/-- An object with this hash in pool 0. -/
def ofHash (hash : UInt32) : Hobject := mk' [0x61] [] noSnap hash 0 []

/-- Five bits: the last nibble is completed in eight ways. -/
theorem prefixes_select_five_bits : (ofHash 0x35).SelectedByPrefix 5 0x15 0 :=
  ((prefixes_select_iff (by decide) 0x15 0 (ofHash 0x35) rfl).mpr ⟨by decide, rfl⟩).1

/-- All 32 bits: the object has none of the prefixes, and the comparison is not defined. A processor
that takes the shift modulo 32 compares no bits at all, and the object matches. -/
theorem not_selected_of_32_bits : (ofHash 1).matchBits 32 0 = none ∧
    (ofHash 1).toStr? = some (ofHash 1).toStr ∧
    ¬ (∃ p ∈ getPrefixes 32 0 0, p <+: (ofHash 1).toStr) ∧
    ¬ (ofHash 1).SelectedByPrefix 32 0 0 := by
  refine ⟨rfl, rfl, ?_, ?_⟩
  · rw [exists_prefix_iff (by decide)]
    rintro ⟨-, hmatch⟩
    exact absurd hmatch (by decide)
  · rintro ⟨b, s, hmatch, -⟩
    cases hmatch

end Ceph.Hobject
