import Ceph.Lib.Digits

set_option autoImplicit false

/-! # Integers of variable length

`denc_varint` writes an integer in groups of seven bits, the lowest first, and sets the high bit of
a byte if another one follows. The other codecs put a few bits before the number: its sign, and how
many low nibbles of zeros were taken off it. `denc_lba` has these bits in a first word of four bytes.

Each codec reads back what it wrote, in the space that was set aside for it, with two exceptions
(`codecs_exact_iff`): `denc_varint` sets aside 9 bytes for a word of 64 bits, which may take 10, and
`denc_signed_varint_lowz` never ends for the smallest integer, which is its own negative.
-/

namespace Ceph.Denc

open Nat

/-! ## The codecs

Bytes and unsigned words are natural numbers, signed words are integers. A writer answers nothing
if the fuel of its loop runs out, a reader if the bytes do. -/

/-- The word of a number. -/
def word (v : ℤ) : ℕ := (v % 2 ^ 64).toNat

/-- The writer of `denc_varint`, for both types of words: a negative number stays negative when it
is shifted. -/
def putVarint : ℕ → ℤ → Option (List ℕ)
  | 0, _ => none
  | fuel + 1, v =>
    let byte := (v % 0x80).toNat
    let next := v >>> (7 : ℕ)
    if next = 0 then some [byte] else (putVarint fuel next).map ((byte ||| 0x80) :: ·)

/-- The writer of `denc_varint`, for unsigned words. -/
def dencVarintEncode (fuel v : ℕ) : Option (List ℕ) := putVarint fuel v

/-- The loop of the reader, where `v` was read so far. -/
def dencVarintMore (v shift : ℕ) : List ℕ → Option (ℕ × List ℕ)
  | [] => none
  | byte :: bytes =>
    let v := v ||| (byte &&& 0x7f) <<< shift % 2 ^ 64
    if byte &&& 0x80 = 0 then some (v, bytes) else dencVarintMore v (shift + 7) bytes

/-- The reader of `denc_varint`. -/
def dencVarintDecode : List ℕ → Option (ℕ × List ℕ) := dencVarintMore 0 0

/-- The bytes that `denc_varint` sets aside. -/
def dencVarintBound (size : ℕ) : ℕ := size + 1

/-- The writer of `denc_signed_varint`. -/
def dencSignedVarintEncode (fuel : ℕ) (v : ℤ) : Option (List ℕ) :=
  let v := if v < 0 then word ((-v) <<< (1 : ℕ)) ||| 1 else word (v <<< (1 : ℕ))
  putVarint fuel (Int.bmod v (2 ^ 64))

/-- The reader of `denc_signed_varint`. -/
def dencSignedVarintDecode (bytes : List ℕ) : Option (ℤ × List ℕ) :=
  (dencVarintDecode bytes).map <| Prod.map (fun i : ℕ =>
    let i := Int.bmod i (2 ^ 64)
    if i % 2 = 1 then -(i >>> (1 : ℕ)) else i >>> (1 : ℕ)) id

def dencSignedVarintBound : ℕ := 8 + 2

/-- `ctz`: the number of low zero bits of a word that is not zero. -/
def ctz (v : ℕ) : ℕ := Nat.findGreatest (2 ^ · ∣ v) 63

/-- The low nibbles of zeros. -/
def lowNibbles (v : ℕ) : ℕ := if v = 0 then 0 else ctz v / 4

/-- The writer of `denc_varint_lowz`. -/
def dencVarintLowzEncode (fuel v : ℕ) : Option (List ℕ) :=
  let lowznib := min 3 (lowNibbles v)
  let v : ℕ := (v >>> (lowznib * 4)) <<< 2 % 2 ^ 64 ||| lowznib
  dencVarintEncode fuel v

/-- The reader of `denc_varint_lowz`. -/
def dencVarintLowzDecode (bytes : List ℕ) : Option (ℕ × List ℕ) :=
  (dencVarintDecode bytes).map <| Prod.map (fun i =>
    let lowznib := i &&& 3
    (i >>> 2) <<< (lowznib * 4) % 2 ^ 64) id

def dencVarintLowzBound : ℕ := 8 + 2

/-- The writer of `denc_signed_varint_lowz`. -/
def dencSignedVarintLowzEncode (fuel : ℕ) (v : ℤ) : Option (List ℕ) :=
  let negative := decide (v < 0)
  let v := if v < 0 then Int.bmod (-v) (2 ^ 64) else v
  let lowznib := min 3 (lowNibbles (word v))
  let v := word ((v >>> (lowznib * 4)) <<< (3 : ℕ)) ||| lowznib <<< 1 ||| negative.toNat
  putVarint fuel (Int.bmod v (2 ^ 64))

/-- The reader of `denc_signed_varint_lowz`. -/
def dencSignedVarintLowzDecode (bytes : List ℕ) : Option (ℤ × List ℕ) :=
  (dencVarintDecode bytes).map <| Prod.map (fun i : ℕ =>
    let lowznib := (i &&& 6) >>> 1
    let v := Int.bmod ((Int.bmod i (2 ^ 64) >>> (3 : ℕ)) <<< (lowznib * 4)) (2 ^ 64)
    if i &&& 1 = 1 then -v else v) id

def dencSignedVarintLowzBound : ℕ := 8 + 2

/-- A word of 32 bits, the lowest byte first. -/
def le32 (w : ℕ) : List ℕ := [w % 256, w / 256 % 256, w / 65536 % 256, w / 16777216 % 256]

/-- The part of the writer of `denc_lba` that looks at the alignment: what is left of the number,
the number of bits put before it, and these bits. -/
def lbaClass (v : ℕ) : ℕ × ℕ × ℕ :=
  let lowZeroNibbles := lowNibbles v
  if lowZeroNibbles < 3 then (v, 3, 0x7)
  else if lowZeroNibbles < 6 then
    let t := lowZeroNibbles - 3
    (v >>> (lowZeroNibbles * 4), t + 1, 1 <<< t - 1)
  else (v >>> 20, 3, 0x3)

/-- The writer of `denc_lba`. -/
def dencLbaEncode (fuel v : ℕ) : Option (List ℕ) :=
  let (v, pos, word) := lbaClass v
  let word := word ||| (v <<< pos % 2 ^ 64 &&& 0x7fffffff)
  let v := v >>> (31 - pos)
  if v = 0 then some (le32 word)
  else (dencVarintEncode fuel v).map (le32 (word ||| 0x80000000) ++ ·)

/-- The switch of the reader of `denc_lba`: what the first word has of the number, and where the
next bits go. -/
def lbaStart (word : ℕ) : ℕ × ℕ :=
  if word &&& 7 ∈ [0, 2, 4, 6] then ((word &&& 0x7ffffffe) <<< (12 - 1), 12 + 30)
  else if word &&& 7 ∈ [1, 5] then ((word &&& 0x7ffffffc) <<< (16 - 2), 16 + 29)
  else if word &&& 7 = 3 then ((word &&& 0x7ffffff8) <<< (20 - 3), 20 + 28)
  else ((word &&& 0x7ffffff8) >>> 3, 28)

/-- The reader of `denc_lba`. -/
def dencLbaDecode : List ℕ → Option (ℕ × List ℕ)
  | b₀ :: b₁ :: b₂ :: b₃ :: bytes =>
    let word := b₀ + 256 * b₁ + 65536 * b₂ + 16777216 * b₃
    let (v, shift) := lbaStart word
    if word >>> 24 &&& 0x80 = 0 then some (v, bytes) else dencVarintMore v shift bytes
  | _ => none

def dencLbaBound : ℕ := 8 + 2

/-! ## Groups of seven bits -/

theorem byte_bits : ∀ byte < 0x80, byte &&& 0x7f = byte ∧ byte &&& 0x80 = 0 ∧
    (byte ||| 0x80) &&& 0x7f = byte ∧ (byte ||| 0x80) &&& 0x80 ≠ 0 := by
  decide

theorem mul_or {k b : ℕ} (a : ℕ) (hb : b < 2 ^ k) : a * 2 ^ k ||| b = a * 2 ^ k + b := by
  rw [mul_comm, two_pow_add_eq_or_of_lt hb]

theorem or_shiftLeft {v shift n : ℕ} (hv : v < 2 ^ shift) (hn : n * 2 ^ shift < 2 ^ 64) :
    v ||| n <<< shift % 2 ^ 64 = n * 2 ^ shift + v := by
  rw [shiftLeft_eq, mod_eq_of_lt hn, Nat.or_comm, mul_or n hv]

theorem dencVarintEncode_succ (fuel n : ℕ) : dencVarintEncode (fuel + 1) n =
    if n / 128 = 0 then some [n % 128]
    else (dencVarintEncode fuel (n / 128)).map ((n % 128 ||| 0x80) :: ·) := by
  have hshift : (n : ℤ) >>> (7 : ℕ) = (n / 128 : ℕ) := by
    rw [Int.shiftRight_eq_div_pow]
    rfl
  simp only [dencVarintEncode, putVarint, hshift, Nat.cast_eq_zero]
  rfl

/-- **What `denc_varint` writes** for a number of at most `7 * k` bits. -/
theorem dencVarint_spec {k n : ℕ} (hk : 0 < k) (hn : n < 128 ^ k) :
    ∃ bytes, (∀ fuel ≥ k, dencVarintEncode fuel n = some bytes) ∧
      (∀ j, bytes.length ≤ j ↔ 0 < j ∧ n < 128 ^ j) ∧
      ∀ v shift rest, v < 2 ^ shift → n * 2 ^ shift + v < 2 ^ 64 →
        dencVarintMore v shift (bytes ++ rest) = some (n * 2 ^ shift + v, rest) := by
  induction k generalizing n with
  | zero => omega
  | succ k ih =>
    obtain ⟨hlow, hend, hlow', hmore⟩ := byte_bits (n % 128) (mod_lt _ (by decide))
    have hpow : ∀ j, 128 ^ (j + 1) = 128 ^ j * 128 := fun j => pow_succ 128 j
    have hpos : ∀ j, 0 < 128 ^ j := fun j => pow_pos (by decide) j
    by_cases hlt : n < 128
    · rw [mod_eq_of_lt hlt] at hlow hend
      refine ⟨[n], fun fuel hfuel => ?_, fun j => ?_, fun v shift rest hv hfit => ?_⟩
      · obtain ⟨fuel, rfl⟩ := exists_eq_add_one.mpr (zero_lt_of_lt hfuel)
        rw [dencVarintEncode_succ, if_pos (by omega), mod_eq_of_lt hlt]
      · cases j with
        | zero => simp
        | succ j =>
          have := hpos j
          rw [hpow, List.length_singleton]
          omega
      · rw [List.singleton_append, dencVarintMore, hlow, hend, or_shiftLeft hv (by omega)]
        rfl
    · have hdiv : ∀ j, n / 128 < 128 ^ j ↔ n < 128 ^ (j + 1) := fun j => by
        rw [Nat.div_lt_iff_lt_mul (by decide), hpow]
      have hk : 0 < k := pos_of_ne_zero fun h => hlt (by simpa [h] using hn)
      obtain ⟨bytes, hbytes, hlen, hread⟩ := ih hk ((hdiv k).mpr hn)
      refine ⟨(n % 128 ||| 0x80) :: bytes, fun fuel hfuel => ?_, fun j => ?_,
        fun v shift rest hv hfit => ?_⟩
      · obtain ⟨fuel, rfl⟩ := exists_eq_add_one.mpr (zero_lt_of_lt hfuel)
        rw [dencVarintEncode_succ, if_neg (by omega), hbytes _ (by omega)]
        rfl
      · cases j with
        | zero => simp
        | succ j =>
          rw [List.length_cons, Nat.add_le_add_iff_right, hlen, hdiv]
          refine and_congr_left fun h => ⟨fun _ => by omega, fun _ => ?_⟩
          exact pos_of_ne_zero fun hj => hlt (by simpa [hj] using h)
      · have hsplit : n * 2 ^ shift = n / 128 * 2 ^ (shift + 7) + n % 128 * 2 ^ shift := by
          rw [pow_add, mul_comm (2 ^ shift), ← mul_assoc, ← Nat.add_mul]
          exact congrArg (· * 2 ^ shift) (div_add_mod' n 128).symm
        have hv' : n % 128 * 2 ^ shift + v < 2 ^ (shift + 7) := by
          rw [pow_add, mul_comm (2 ^ shift)]
          exact mul_add_lt_mul (mod_lt _ (by decide)) hv
        rw [List.cons_append, dencVarintMore, hlow', or_shiftLeft hv (by omega)]
        simp only [if_neg hmore]
        rw [hread _ _ _ hv' (by omega), hsplit, add_assoc]

theorem putVarint_of_neg {v : ℤ} (hv : v < 0) (fuel : ℕ) : putVarint fuel v = none := by
  induction fuel generalizing v with
  | zero => rfl
  | succ fuel ih =>
    have hshift : v >>> (7 : ℕ) < 0 := by
      rw [Int.shiftRight_eq_div_pow]
      omega
    rw [putVarint, if_neg hshift.ne, ih hshift]
    rfl

/-! ## The codecs are exact -/

/-- **A value is coded exactly**: what is written fits in the bytes set aside, and the reader gives
the value back and stands behind it. -/
def Exact {α : Type} (encode : ℕ → α → Option (List ℕ)) (decode : List ℕ → Option (α × List ℕ))
    (v : α) (bound : ℕ) : Prop :=
  ∃ bytes, (∀ fuel ≥ 10, encode fuel v = some bytes) ∧ bytes.length ≤ bound ∧
    ∀ rest, decode (bytes ++ rest) = some (v, rest)

theorem dencVarint_exact {n bound : ℕ} (hn : n < 2 ^ 64) (hbound : 0 < bound) :
    Exact dencVarintEncode dencVarintDecode n bound ↔ n < 128 ^ bound := by
  obtain ⟨bytes, hbytes, hlen, hread⟩ := dencVarint_spec (by decide : 0 < 10) (hn.trans (by decide))
  constructor
  · rintro ⟨bytes', hbytes', hle, -⟩
    obtain rfl := Option.some.inj ((hbytes' 10 le_rfl).symm.trans (hbytes 10 le_rfl))
    exact ((hlen bound).mp hle).2
  · intro hlt
    refine ⟨bytes, hbytes, (hlen bound).mpr ⟨hbound, hlt⟩, fun rest => ?_⟩
    simpa [dencVarintDecode] using hread 0 0 rest (by decide) (by simpa using hn)

/-- A codec that makes a word of the value, and the value of the word. -/
theorem Exact.of_word {α : Type} {encode : ℕ → α → Option (List ℕ)} {back : ℕ → α} {v : α} {w : ℕ}
    (hw : w < 2 ^ 64) (hencode : ∀ fuel, encode fuel v = putVarint fuel w) (hback : back w = v) :
    Exact encode (fun bytes => (dencVarintDecode bytes).map (Prod.map back id)) v 10 := by
  obtain ⟨bytes, hbytes, hlen, hread⟩ := (dencVarint_exact hw (by decide : 0 < 10)).mpr
    (hw.trans (by decide))
  refine ⟨bytes, fun fuel h => (hencode fuel).trans (hbytes fuel h), hlen, fun rest => ?_⟩
  simp only [hread, Option.map_some, Prod.map, hback, id]

theorem shiftRight_nibbles {v n : ℕ} (hn : n ≤ lowNibbles v) : v >>> (n * 4) * 2 ^ (n * 4) = v := by
  rw [shiftRight_eq_div_pow]
  refine Nat.div_mul_cancel ?_
  unfold lowNibbles at hn
  split_ifs at hn with hv
  · exact hv ▸ dvd_zero _
  · have hctz : 2 ^ ctz v ∣ v := Nat.findGreatest_spec (P := (2 ^ · ∣ v)) (zero_le _) (one_dvd v)
    exact (pow_dvd_pow 2 (by omega)).trans hctz

theorem dencVarintLowz_exact {v : ℕ} (hv : v < 2 ^ 64)
    (hfit : v >>> (min 3 (lowNibbles v) * 4) < 2 ^ 62) :
    Exact dencVarintLowzEncode dencVarintLowzDecode v dencVarintLowzBound := by
  have hback := shiftRight_nibbles (min_le_right 3 (lowNibbles v))
  have hnib := min_le_left 3 (lowNibbles v)
  generalize hn : min 3 (lowNibbles v) = nib at *
  generalize hq : v >>> (nib * 4) = q at *
  refine .of_word (w := q * 2 ^ 2 + nib) (by omega) (fun fuel => ?_) ?_
  · have hword : q <<< 2 % 2 ^ 64 ||| nib = q * 2 ^ 2 + nib := by
      rw [shiftLeft_eq, mod_eq_of_lt (by omega), mul_or q (by omega)]
    simp only [dencVarintLowzEncode, dencVarintEncode, hn, hq, hword]
  · have hlow : (q * 2 ^ 2 + nib) &&& 3 = nib := by
      rw [show 3 = 2 ^ 2 - 1 from rfl, and_two_pow_sub_one_eq_mod]
      omega
    have hhigh : (q * 2 ^ 2 + nib) >>> 2 = q := by
      rw [shiftRight_eq_div_pow]
      omega
    simp only [hlow, hhigh, shiftLeft_eq, hback, mod_eq_of_lt hv]

theorem bmod_of_lt {n : ℕ} (hn : n < 2 ^ 63) : Int.bmod n (2 ^ 64) = n :=
  Int.bmod_eq_of_le (by omega) (by omega)

theorem word_shiftLeft {n k : ℕ} (hn : n * 2 ^ k < 2 ^ 64) : word ((n : ℤ) <<< k) = n * 2 ^ k := by
  have hcast : (n : ℤ) <<< k = (n * 2 ^ k : ℕ) := by
    rw [Int.shiftLeft_eq]
    push_cast
    rfl
  rw [hcast, word]
  omega

theorem dencSignedVarint_exact {v : ℤ} (hfit : v.natAbs < 2 ^ 62) :
    Exact dencSignedVarintEncode dencSignedVarintDecode v dencSignedVarintBound := by
  have hshift := word_shiftLeft (n := v.natAbs) (k := 1) (by omega)
  obtain ⟨w, hw, hsign⟩ : ∃ w,
      (if v < 0 then word ((-v) <<< (1 : ℕ)) ||| 1 else word (v <<< (1 : ℕ))) = w ∧
      (v < 0 ∧ w = v.natAbs * 2 ^ 1 + 1 ∨ 0 ≤ v ∧ w = v.natAbs * 2 ^ 1) := by
    split_ifs with hneg
    · rw [← Int.ofNat_natAbs_of_nonpos hneg.le, hshift, mul_or _ (by decide)]
      exact ⟨_, rfl, .inl ⟨hneg, rfl⟩⟩
    · rw [Int.natAbs_of_nonneg (not_lt.mp hneg)] at hshift
      exact ⟨_, rfl, .inr ⟨not_lt.mp hneg, hshift⟩⟩
  have hlt : w < 2 ^ 63 := by omega
  refine .of_word (w := w) (by omega) (fun fuel => ?_) ?_
  · simp only [dencSignedVarintEncode, hw, bmod_of_lt hlt]
  · simp only [bmod_of_lt hlt, Int.shiftRight_eq_div_pow]
    omega

theorem dencSignedVarintLowz_exact {v : ℤ} (hlt : v.natAbs < 2 ^ 63)
    (hfit : v.natAbs >>> (min 3 (lowNibbles v.natAbs) * 4) < 2 ^ 60) :
    Exact dencSignedVarintLowzEncode dencSignedVarintLowzDecode v
      dencSignedVarintLowzBound := by
  have habs : (if v < 0 then Int.bmod (-v) (2 ^ 64) else v) = v.natAbs := by
    have hbmod := bmod_of_lt hlt
    split_ifs with hneg
    · rwa [Int.ofNat_natAbs_of_nonpos hneg.le] at hbmod ⊢
    · omega
  have hback := shiftRight_nibbles (min_le_right 3 (lowNibbles v.natAbs))
  have hnib := min_le_left 3 (lowNibbles v.natAbs)
  have hword : word v.natAbs = v.natAbs := by
    unfold word
    omega
  generalize hn : min 3 (lowNibbles v.natAbs) = nib at *
  generalize hq : v.natAbs >>> (nib * 4) = q at *
  have hq' : (v.natAbs : ℤ) >>> (nib * 4) = q := congrArg Nat.cast hq
  have hsign : ((decide (v < 0)).toNat = 1 ∧ v < 0) ∨ ((decide (v < 0)).toNat = 0 ∧ 0 ≤ v) := by
    rcases lt_or_ge v 0 with hneg | hpos
    · simp [hneg]
    · simp [hpos]
  generalize hs : (decide (v < 0)).toNat = s at *
  have hlt' : (q * 4 + nib) * 2 ^ 1 + s < 2 ^ 63 := by omega
  refine .of_word (w := (q * 4 + nib) * 2 ^ 1 + s) (by omega) (fun fuel => ?_) ?_
  · have hor : q * 2 ^ 3 ||| nib <<< 1 ||| s = (q * 4 + nib) * 2 ^ 1 + s := by
      rw [shiftLeft_eq, mul_or q (by omega), show q * 2 ^ 3 + nib * 2 ^ 1 = (q * 4 + nib) * 2 ^ 1 by
        omega, mul_or _ (by omega)]
    have hshift := word_shiftLeft (show q * 2 ^ 3 < 2 ^ 64 by omega)
    simp only [dencSignedVarintLowzEncode, habs, hword, hn, hq', hs, hshift, hor, bmod_of_lt hlt']
  · have hlow : (((q * 4 + nib) * 2 ^ 1 + s) &&& 6) >>> 1 = nib := by
      rw [shiftRight_and_distrib, shiftRight_eq_div_pow, show 6 >>> 1 = 2 ^ 2 - 1 from rfl,
        and_two_pow_sub_one_eq_mod]
      omega
    have hhigh : (((q * 4 + nib) * 2 ^ 1 + s : ℕ) : ℤ) >>> (3 : ℕ) = q := by
      rw [Int.shiftRight_eq_div_pow]
      omega
    have hshift : (q : ℤ) <<< (nib * 4) = v.natAbs := by
      rw [Int.shiftLeft_eq, ← hback]
      push_cast
      rfl
    simp only [bmod_of_lt hlt', hlow, hhigh, hshift, bmod_of_lt hlt, and_one_is_mod]
    omega

/-- The smallest integer is its own negative. -/
theorem dencSignedVarintLowzEncode_min (fuel : ℕ) :
    dencSignedVarintLowzEncode fuel (-2 ^ 63) = none :=
  putVarint_of_neg (by decide) fuel

/-! ## Block addresses -/

theorem lbaClass_cases (v : ℕ) : ∃ q pos tag zeros, lbaClass v = (q, pos, tag) ∧
    q * 2 ^ zeros = v ∧ (pos, tag, zeros) ∈ [(3, 7, 0), (1, 0, 12), (2, 1, 16), (3, 3, 20)] := by
  unfold lbaClass
  dsimp only
  split_ifs with hbyte hnib
  · exact ⟨v, 3, 7, 0, rfl, by simp, by simp⟩
  · have hback := shiftRight_nibbles (le_refl (lowNibbles v))
    generalize lowNibbles v = nib at *
    refine ⟨_, _, _, nib * 4, rfl, hback, ?_⟩
    interval_cases nib <;> simp
  · exact ⟨_, 3, 3, 20, rfl, shiftRight_nibbles (n := 5) (by omega), by simp⟩

theorem and_mask (w m k : ℕ) : w &&& (2 ^ m - 1) <<< k = w / 2 ^ k % 2 ^ m * 2 ^ k := by
  rw [← shiftLeft_eq, ← shiftRight_eq_div_pow]
  refine Nat.eq_of_testBit_eq fun i => ?_
  simp only [testBit_and, testBit_shiftLeft, testBit_shiftRight, testBit_mod_two_pow,
    testBit_two_pow_sub_one]
  by_cases hi : k ≤ i
  · simp [hi, Nat.add_sub_cancel' hi, Bool.and_comm]
  · simp [hi]

/-- **What a block address looks like.** The bits before the number and the number are one number
`x`, of which 31 bits are in the first word. These say where the rest of it goes. -/
theorem lba_spec (v : ℕ) : ∃ x ≤ 8 * v + 7,
    (∀ fuel, dencLbaEncode fuel v =
      if x / 2 ^ 31 = 0 then some (le32 (x % 2 ^ 31))
      else (dencVarintEncode fuel (x / 2 ^ 31)).map (le32 (x % 2 ^ 31 ||| 0x80000000) ++ ·)) ∧
    ∀ w, w % 2 ^ 31 = x % 2 ^ 31 → (lbaStart w).1 < 2 ^ (lbaStart w).2 ∧
      x / 2 ^ 31 * 2 ^ (lbaStart w).2 + (lbaStart w).1 = v := by
  obtain ⟨q, pos, tag, zeros, hlba, rfl, hclass⟩ := lbaClass_cases v
  simp only [List.mem_cons, Prod.mk.injEq, List.not_mem_nil, or_false] at hclass
  obtain ⟨hpos, htag⟩ : pos ≤ 3 ∧ tag < 2 ^ pos := by
    rcases hclass with ⟨rfl, rfl, -⟩ | ⟨rfl, rfl, -⟩ | ⟨rfl, rfl, -⟩ | ⟨rfl, rfl, -⟩ <;> decide
  have hword : tag ||| (q <<< pos % 2 ^ 64 &&& 0x7fffffff) = (q * 2 ^ pos + tag) % 2 ^ 31 := by
    have htag' : tag < 2 ^ 31 := htag.trans_le (Nat.pow_le_pow_right (by decide) (by omega))
    rw [show 0x7fffffff = 2 ^ 31 - 1 from rfl, and_two_pow_sub_one_eq_mod,
      mod_mod_of_dvd _ (by decide), ← mul_or q htag, or_mod_two_pow, mod_eq_of_lt htag',
      shiftLeft_eq, Nat.or_comm]
  have hrest : q >>> (31 - pos) = (q * 2 ^ pos + tag) / 2 ^ 31 := by
    rw [← Nat.add_sub_of_le (show pos ≤ 31 by omega), pow_add, ← Nat.div_div_eq_div_mul,
      mul_add_div_of_lt htag, Nat.add_sub_cancel_left, shiftRight_eq_div_pow]
  refine ⟨q * 2 ^ pos + tag, ?_, fun fuel => ?_, fun w hw => ?_⟩
  · rcases hclass with ⟨rfl, rfl, rfl⟩ | ⟨rfl, rfl, rfl⟩ | ⟨rfl, rfl, rfl⟩ | ⟨rfl, rfl, rfl⟩ <;> omega
  · simp only [dencLbaEncode, hlba, hword, hrest]
  · have hlow : w &&& 7 = w % 8 := and_two_pow_sub_one_eq_mod w 3
    have h1 : w &&& 0x7ffffffe = w / 2 % 2 ^ 30 * 2 := and_mask w 30 1
    have h2 : w &&& 0x7ffffffc = w / 4 % 2 ^ 29 * 4 := and_mask w 29 2
    have h3 : w &&& 0x7ffffff8 = w / 8 % 2 ^ 28 * 8 := and_mask w 28 3
    simp only [lbaStart, hlow, h1, h2, h3, shiftLeft_eq, shiftRight_eq_div_pow, List.mem_cons,
      List.not_mem_nil, or_false]
    rcases hclass with ⟨rfl, rfl, rfl⟩ | ⟨rfl, rfl, rfl⟩ | ⟨rfl, rfl, rfl⟩ | ⟨rfl, rfl, rfl⟩ <;>
      split_ifs <;> dsimp only <;> omega

theorem dencLbaDecode_le32 {w : ℕ} (hw : w < 2 ^ 32) (bytes : List ℕ) :
    dencLbaDecode (le32 w ++ bytes) =
      if w < 2 ^ 31 then some ((lbaStart w).1, bytes)
      else dencVarintMore (lbaStart w).1 (lbaStart w).2 bytes := by
  have hword : w % 256 + 256 * (w / 256 % 256) + 65536 * (w / 65536 % 256) +
      16777216 * (w / 16777216 % 256) = w := by omega
  have hflag : w >>> 24 &&& 0x80 = w / 2 ^ 24 / 2 ^ 7 % 2 ^ 1 * 2 ^ 7 :=
    (congrArg (· &&& 0x80) (shiftRight_eq_div_pow w 24)).trans (and_mask _ 1 7)
  simp only [le32, List.cons_append, List.nil_append, dencLbaDecode, hword, hflag]
  exact if_congr (by omega) rfl rfl

theorem dencLba_exact {v : ℕ} (hv : v < 2 ^ 64) :
    Exact dencLbaEncode dencLbaDecode v dencLbaBound := by
  obtain ⟨x, hx, hencode, hstart⟩ := lba_spec v
  by_cases hr : x / 2 ^ 31 = 0
  · refine ⟨_, fun fuel _ => (hencode fuel).trans (if_pos hr), Nat.le_add_left 4 6, fun rest => ?_⟩
    obtain ⟨-, hsum⟩ := hstart (x % 2 ^ 31) (mod_mod _ _)
    rw [hr, zero_mul, zero_add] at hsum
    rw [dencLbaDecode_le32 (by omega), if_pos (by omega), hsum]
  · have hsmall : x / 2 ^ 31 < 128 ^ 6 := by omega
    obtain ⟨bytes, hbytes, hlen, hread⟩ := dencVarint_spec (by decide : 0 < 6) hsmall
    have hor : x % 2 ^ 31 ||| 0x80000000 = 2 ^ 31 + x % 2 ^ 31 := by
      rw [Nat.or_comm]
      exact mul_or 1 (mod_lt x (by decide : 0 < 2 ^ 31))
    refine ⟨le32 (x % 2 ^ 31 ||| 0x80000000) ++ bytes, fun fuel hfuel => ?_, ?_, fun rest => ?_⟩
    · rw [hencode, if_neg hr, hbytes _ (by omega), Option.map_some]
    · have hlen := (hlen 6).mpr ⟨by decide, hsmall⟩
      rw [List.length_append]
      exact Nat.add_le_add_left hlen 4
    · obtain ⟨hlt, hsum⟩ := hstart (2 ^ 31 + x % 2 ^ 31) (by omega)
      rw [hor, List.append_assoc, dencLbaDecode_le32 (by omega), if_neg (by omega),
        hread _ _ _ hlt (hsum ▸ hv), hsum]

/-- **The codecs are exact**, for every value that their formats can carry, with two exceptions. The
bytes set aside for `denc_varint` do for the words below `2 ^ 63`, and `denc_signed_varint_lowz` ends
for all integers but the smallest. -/
theorem codecs_exact_iff (v : ℕ) (hv : v < 2 ^ 64) (i : ℤ) (hi : -2 ^ 63 ≤ i ∧ i < 2 ^ 63) :
    (∃ bound, Exact dencVarintEncode dencVarintDecode v bound) ∧
    (Exact dencVarintEncode dencVarintDecode v (dencVarintBound 8) ↔ v < 2 ^ 63) ∧
    (v >>> (min 3 (lowNibbles v) * 4) < 2 ^ 62 →
      Exact dencVarintLowzEncode dencVarintLowzDecode v dencVarintLowzBound) ∧
    Exact dencLbaEncode dencLbaDecode v dencLbaBound ∧
    (i.natAbs < 2 ^ 62 →
      Exact dencSignedVarintEncode dencSignedVarintDecode i dencSignedVarintBound) ∧
    (i.natAbs >>> (min 3 (lowNibbles i.natAbs) * 4) < 2 ^ 60 →
      (Exact dencSignedVarintLowzEncode dencSignedVarintLowzDecode i
        dencSignedVarintLowzBound ↔ i ≠ -2 ^ 63)) := by
  refine ⟨⟨10, (dencVarint_exact hv (by decide)).mpr (hv.trans (by decide))⟩,
    dencVarint_exact hv (by decide), dencVarintLowz_exact hv, dencLba_exact hv,
    dencSignedVarint_exact, fun hfit => ⟨?_, fun hne => ?_⟩⟩
  · rintro ⟨bytes, hbytes, -⟩ rfl
    have hnone := dencSignedVarintLowzEncode_min 10
    rw [hbytes 10 le_rfl] at hnone
    cases hnone
  · exact dencSignedVarintLowz_exact (by omega) hfit

theorem codecs_exact_page :
    Exact dencLbaEncode dencLbaDecode 4096 dencLbaBound ∧
      Exact dencSignedVarintEncode dencSignedVarintDecode (-5) dencSignedVarintBound := by
  obtain ⟨-, -, -, hlba, hsigned, -⟩ := codecs_exact_iff 4096 (by decide) (-5) (by decide)
  exact ⟨hlba, hsigned (by decide)⟩

/-- `2 ^ 63` takes 10 bytes, and 9 are set aside; the loop never ends for `-2 ^ 63`. -/
theorem codecs_overrun :
    (∃ bytes, dencVarintEncode 10 (2 ^ 63) = some bytes ∧ dencVarintBound 8 < bytes.length) ∧
      ∀ fuel, dencSignedVarintLowzEncode fuel (-2 ^ 63) = none :=
  ⟨⟨_, rfl, by decide⟩, dencSignedVarintLowzEncode_min⟩

end Ceph.Denc
