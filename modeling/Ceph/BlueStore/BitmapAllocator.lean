import Ceph.BlueStore.Freelist
import Ceph.BlueStore.UseTracker

set_option autoImplicit false

/-! # Loading the bitmap allocator

`BitmapAllocator` keeps one bit for each allocation unit, set if the unit is free. It is loaded with
ranges of bytes, of which it takes the units that are wholly inside: the start is rounded up, and
what is then left of the length rounded down.

A range that ends before the first unit boundary from its start on leaves less than nothing. The
difference wraps, and all but one unit of the 64-bit space are counted as marked: `available` is
wrong by a unit, or an assertion fails (`init_free_wraps`).
-/

namespace Ceph.BlueStore.Bitmap

open Function Nat

open Freelist (p2align)

/-! ## Marking bits -/

/-- The loops over the bits of a slot: `n` of them from `i` on. -/
def markBits (free : Bool) (v : BitVec 64) (i n : ℕ) : BitVec 64 :=
  (List.range' i n).foldl
    (fun v j => if free then v ||| BitVec.twoPow 64 j else v &&& ~~~BitVec.twoPow 64 j) v

/-- `_mark_free_l0` and `_mark_alloc_l0`: the bits from `start` on in the first slot, whole slots, and
the bits before `stop` in the last. -/
def markL0 (free : Bool) (l0 : ℕ → BitVec 64) (start stop : ℕ) : ℕ → BitVec 64 :=
  let slot := start / 64
  let posE := min stop (roundUpTo (start + 1) 64)
  let l0 := Function.update l0 slot (markBits free (l0 slot) (start % 64) (posE - start))
  let pos := max start posE
  let whole := (p2align stop 64 - pos) / 64
  let l0 := fun i => if slot < i ∧ i ≤ slot + whole then BitVec.fill 64 free else l0 i
  let last := slot + whole + 1
  Function.update l0 last (markBits free (l0 last) 0 (stop - (pos + 64 * whole)))

theorem getLsbD_markBits (free : Bool) (v : BitVec 64) {i n j : ℕ} (hj : j < 64) :
    (markBits free v i n).getLsbD j = if i ≤ j ∧ j < i + n then free else v.getLsbD j := by
  unfold markBits
  induction n generalizing i v with
  | zero => rw [if_neg (by omega)]; rfl
  | succ n ih =>
    rw [List.range'_succ, List.foldl_cons, ih]
    by_cases hi : i = j
    · rw [if_neg (show ¬ (i + 1 ≤ j ∧ j < i + 1 + n) by omega),
        if_pos (show i ≤ j ∧ j < i + (n + 1) by omega)]
      cases free <;> simp [hi, hj]
    · rw [if_congr (show i + 1 ≤ j ∧ j < i + 1 + n ↔ i ≤ j ∧ j < i + (n + 1) by omega) rfl rfl]
      congr 1
      cases free <;> simp [Ne.symm hi, hj]

def bitOf (l0 : ℕ → BitVec 64) (u : ℕ) : Bool := (l0 (u / 64)).getLsbD (u % 64)

theorem bitOf_markL0 (free : Bool) (l0 : ℕ → BitVec 64) (start stop u : ℕ) :
    bitOf (markL0 free l0 start stop) u = if start ≤ u ∧ u < stop then free else bitOf l0 u := by
  have hu : u % 64 < 64 := mod_lt _ (by omega)
  have hround : roundUpTo (start + 1) 64 = (start / 64 + 1) * 64 := by
    unfold roundUpTo
    split <;> omega
  have hwhole : (stop / 64 * 64 - max start (min stop ((start / 64 + 1) * 64))) / 64 =
      stop / 64 - (start / 64 + 1) := by omega
  unfold bitOf markL0 p2align
  dsimp only
  rw [hround, hwhole]
  rcases lt_trichotomy (u / 64) (start / 64) with hslot | hslot | hslot
  · rw [update_of_ne (by omega), if_neg (by omega), update_of_ne (by omega),
      if_neg (by omega)]
  · rw [update_of_ne (by omega), if_neg (by omega), hslot, update_self,
      getLsbD_markBits _ _ hu]
    exact if_congr (by omega) rfl rfl
  · -- a slot behind the first: the last, a whole one, or one behind the last
    by_cases hlast : u / 64 = start / 64 + (stop / 64 - (start / 64 + 1)) + 1
    · rw [← hlast, update_self,
        if_neg (show ¬ (start / 64 < u / 64 ∧ u / 64 ≤ start / 64 + _) by omega),
        update_of_ne (by omega), getLsbD_markBits _ _ hu]
      exact if_congr (by omega) rfl rfl
    · rw [update_of_ne hlast]
      by_cases hin : u / 64 ≤ start / 64 + (stop / 64 - (start / 64 + 1))
      · rw [if_pos ⟨hslot, hin⟩, if_pos (show start ≤ u ∧ u < stop by omega),
          BitVec.getLsbD_fill, decide_eq_true hu, Bool.and_true]
      · rw [if_neg (fun h => hin h.2), update_of_ne (by omega), if_neg (by omega)]

/-! ## The allocator -/

/-- `BitmapAllocator`: the unit (`l0_granularity`), the slots of the lowest level, and the free bytes.
The levels above sum up the lowest for the search. -/
structure BitmapAllocator where
  unit : ℕ
  l0 : ℕ → BitVec 64
  available : UInt64
  unit_isp2 : ∃ k < 63, unit = 2 ^ k

namespace BitmapAllocator

variable (a : BitmapAllocator) (offset length : ℕ)

/-- `_free_l1` and `_mark_alloc_l1`: the slots, and how many bytes are marked. -/
def markL1 (free : Bool) : (ℕ → BitVec 64) × UInt64 :=
  let start := offset / a.unit
  let stop := roundUpTo ((offset + length) % 2 ^ 64) a.unit / a.unit
  (markL0 free a.l0 start stop, UInt64.ofNat a.unit * (UInt64.ofNat stop - UInt64.ofNat start))

def markFree : BitmapAllocator :=
  let (l0, n) := a.markL1 offset length true
  { a with l0, available := a.available + n }

def markAllocated : Option BitmapAllocator :=
  let (l0, n) := a.markL1 offset length false
  if a.available < n then none else some { a with l0, available := a.available - n }

/-- `offs` and `l` of `init_add_free` and `init_rm_free`. -/
def aligned : ℕ × ℕ :=
  let offs := roundUpTo offset a.unit
  (offs, p2align ((offset + length + 2 ^ 64 - offs) % 2 ^ 64) a.unit)

def initAddFree : BitmapAllocator :=
  a.markFree (a.aligned offset length).1 (a.aligned offset length).2

def initRmFree : Option BitmapAllocator :=
  a.markAllocated (a.aligned offset length).1 (a.aligned offset length).2

/-- The unit `u` is wholly inside the range. -/
def Inside (u : ℕ) : Prop := offset ≤ u * a.unit ∧ (u + 1) * a.unit ≤ offset + length

instance (u : ℕ) : Decidable (a.Inside offset length u) := inferInstanceAs (Decidable (_ ∧ _))

/-- The size of the units inside the range. -/
def insideSize : ℕ :=
  a.unit * ((Finset.range (offset + length)).filter (a.Inside offset length)).card

/-- The range has a unit boundary in it, or ends at one. -/
def Reaches : Prop := roundUpTo offset a.unit ≤ offset + length

instance : Decidable (a.Reaches offset length) := inferInstanceAs (Decidable (_ ≤ _))

theorem unit_pos : 0 < a.unit := by
  obtain ⟨k, -, hk⟩ := a.unit_isp2
  rw [hk]
  exact Nat.two_pow_pos k

theorem exists_roundUpTo (n : ℕ) {d : ℕ} (hd : 0 < d) :
    ∃ s, roundUpTo n d = s * d ∧ n ≤ s * d ∧ s * d < n + d := by
  have hdiv := div_add_mod' n d
  have hmod := mod_lt n hd
  unfold roundUpTo
  split
  · refine ⟨n / d + 1, ?_⟩
    rw [Nat.add_mul, Nat.one_mul]
    omega
  · exact ⟨n / d, by omega⟩

theorem roundUpTo_mul_div (n : ℕ) {d : ℕ} (hd : 0 < d) : roundUpTo (n * d) d / d = n := by
  rw [roundUpTo, if_neg (by simp), Nat.mul_div_cancel _ hd]

section Range

variable {a offset} {s : ℕ}

/-- A range that reaches a boundary marks the units up to the last boundary in it. -/
theorem markL1_of_reaches (free : Bool) (hs : roundUpTo offset a.unit = s * a.unit)
    (hin : offset + length < 2 ^ 63) (h : s * a.unit ≤ offset + length) :
    a.markL1 (a.aligned offset length).1 (a.aligned offset length).2 free =
      (markL0 free a.l0 s ((offset + length) / a.unit),
        UInt64.ofNat (a.unit * ((offset + length) / a.unit - s))) := by
  have hu := a.unit_pos
  have hle : s ≤ (offset + length) / a.unit := (le_div_iff_mul_le hu).mpr h
  have hl : (a.aligned offset length).2 = ((offset + length) / a.unit - s) * a.unit := by
    rw [aligned, hs, show offset + length + 2 ^ 64 - s * a.unit =
      offset + length - s * a.unit + 2 ^ 64 by omega, add_mod_right,
      Nat.mod_eq_of_lt (by omega), p2align, mul_comm s, sub_mul_div]
  have hsum : s * a.unit + ((offset + length) / a.unit - s) * a.unit =
      (offset + length) / a.unit * a.unit := by
    rw [← Nat.add_mul, Nat.add_sub_cancel' hle]
  have hdiv := Nat.div_mul_le_self (offset + length) a.unit
  rw [markL1, hl, show (a.aligned offset length).1 = s * a.unit from hs, hsum,
    Nat.mod_eq_of_lt (by omega), roundUpTo_mul_div _ hu, Nat.mul_div_cancel _ hu,
    ← UInt64.ofNat_sub hle, UInt64.ofNat_mul]

/-- A range that does not is taken for all the space but one unit. -/
theorem markL1_of_not_reaches (free : Bool) (hs : roundUpTo offset a.unit = s * a.unit)
    (hin : offset + length < 2 ^ 63) (hlt : s * a.unit < offset + a.unit)
    (h : offset + length < s * a.unit) :
    a.markL1 (a.aligned offset length).1 (a.aligned offset length).2 free =
      (markL0 free a.l0 s (s - 1), -UInt64.ofNat a.unit) := by
  have hu := a.unit_pos
  obtain ⟨k, hk, hunit⟩ := a.unit_isp2
  obtain ⟨t, rfl⟩ : ∃ t, s = t + 1 := ⟨s - 1, by
    have : s ≠ 0 := by rintro rfl; omega
    omega⟩
  have hpow : 2 ^ 64 = (2 ^ (64 - k) - 1) * a.unit + a.unit := by
    rw [← Nat.succ_mul, Nat.succ_eq_add_one, Nat.sub_add_cancel (Nat.two_pow_pos _), hunit,
      ← Nat.pow_add, Nat.sub_add_cancel (by omega)]
  rw [Nat.add_mul, Nat.one_mul] at hlt h hs
  have hl : (a.aligned offset length).2 = (2 ^ (64 - k) - 1) * a.unit := by
    rw [aligned, hs, Nat.mod_eq_of_lt (by omega)]
    refine congrArg (· * a.unit) (Nat.div_eq_of_lt_le (by omega) ?_)
    rw [Nat.add_mul, Nat.one_mul]
    omega
  have hmod : (t * a.unit + a.unit + (2 ^ (64 - k) - 1) * a.unit) % 2 ^ 64 = t * a.unit := by
    rw [show t * a.unit + a.unit + (2 ^ (64 - k) - 1) * a.unit = t * a.unit + 2 ^ 64 by omega,
      add_mod_right, Nat.mod_eq_of_lt (by omega)]
  have hneg : UInt64.ofNat a.unit * (UInt64.ofNat t - UInt64.ofNat (t + 1)) =
      -UInt64.ofNat a.unit := by
    rw [UInt64.ofNat_add, show UInt64.ofNat 1 = 1 from rfl]
    grind
  rw [markL1, hl, show (a.aligned offset length).1 = t * a.unit + a.unit from hs, hmod,
    roundUpTo_mul_div _ hu, ← Nat.succ_mul, Nat.mul_div_cancel _ hu, Nat.succ_eq_add_one, hneg,
    Nat.add_sub_cancel]

theorem inside_iff (hle : offset ≤ s * a.unit) (hlt : s * a.unit < offset + a.unit) (u : ℕ) :
    a.Inside offset length u ↔ s ≤ u ∧ u < (offset + length) / a.unit := by
  refine and_congr ⟨fun h => ?_, fun h => hle.trans (mul_le_mul_right _ h)⟩
    (le_div_iff_mul_le a.unit_pos).symm
  have hlt' : s * a.unit < (u + 1) * a.unit := by
    rw [Nat.add_mul, Nat.one_mul]
    omega
  exact Nat.lt_succ_iff.mp (Nat.lt_of_mul_lt_mul_right hlt')

theorem insideSize_eq (hle : offset ≤ s * a.unit) (hlt : s * a.unit < offset + a.unit) :
    a.insideSize offset length = a.unit * ((offset + length) / a.unit - s) := by
  have hdiv := div_le_self (offset + length) a.unit
  have hset : (Finset.range (offset + length)).filter (a.Inside offset length) =
      Finset.Ico s ((offset + length) / a.unit) := by
    ext u
    rw [Finset.mem_filter, Finset.mem_range, inside_iff length hle hlt, Finset.mem_Ico]
    omega
  rw [insideSize, hset, card_Ico]

end Range

/-- **When a range is loaded as it should be.** The units inside the range are marked and counted
exactly if the range reaches a unit boundary and, if they are to be allocated, their size is
available. -/
theorem init_free_iff (hin : offset + length < 2 ^ 63) :
    ((∀ u, bitOf (a.initAddFree offset length).l0 u =
        if a.Inside offset length u then true else bitOf a.l0 u) ∧
      (a.initAddFree offset length).available =
        a.available + UInt64.ofNat (a.insideSize offset length) ↔ a.Reaches offset length) ∧
    ((∃ a', a.initRmFree offset length = some a' ∧
        (∀ u, bitOf a'.l0 u = if a.Inside offset length u then false else bitOf a.l0 u) ∧
        a'.available + UInt64.ofNat (a.insideSize offset length) = a.available) ↔
      a.Reaches offset length ∧ UInt64.ofNat (a.insideSize offset length) ≤ a.available) := by
  obtain ⟨s, hs, hle, hlt⟩ := exists_roundUpTo offset a.unit_pos
  have hsize := insideSize_eq length hle hlt
  unfold initAddFree initRmFree markFree markAllocated Reaches
  rw [hs]
  by_cases h : s * a.unit ≤ offset + length
  · simp only [markL1_of_reaches length _ hs hin h, ← hsize, bitOf_markL0, h, true_and,
      inside_iff length hle hlt, implies_true, and_self]
    constructor
    · rintro ⟨a', hrm, -⟩
      by_contra hav
      rw [if_pos (UInt64.not_le.mp hav)] at hrm
      cases hrm
    · intro hav
      refine ⟨_, if_neg (UInt64.not_lt.mpr hav), fun u => bitOf_markL0 .., ?_⟩
      grind
  · have hzero : a.insideSize offset length = 0 := by
      rw [hsize, Nat.sub_eq_zero_of_le, Nat.mul_zero]
      exact ((Nat.div_lt_iff_lt_mul a.unit_pos).mpr (not_le.mp h)).le
    have hne : UInt64.ofNat a.unit ≠ 0 := by
      obtain ⟨k, hk, hunit⟩ := a.unit_isp2
      have hpow : a.unit < UInt64.size :=
        hunit ▸ (Nat.pow_lt_pow_right (by omega) hk).trans (by decide)
      intro hzero
      have hnat := UInt64.toNat_ofNat_of_lt' hpow
      rw [hzero] at hnat
      exact a.unit_pos.ne hnat
    simp only [markL1_of_not_reaches length _ hs hin hlt (not_le.mp h), hzero, h, false_and,
      iff_false]
    constructor
    · rintro ⟨-, hadd⟩
      grind
    · rintro ⟨a', hrm, -, hav⟩
      split at hrm
      · cases hrm
      · rw [Option.some_inj] at hrm
        grind

/-- Units of 4 bytes, of which one is free. -/
def oneFree : BitmapAllocator := ⟨4, fun i => if i = 0 then 1 else 0, 4, 2, by decide, rfl⟩

/-- The range from 1 to 9 has one unit inside. -/
theorem init_free_iff_oneFree :
    ((∀ u, bitOf (oneFree.initAddFree 1 8).l0 u =
        if oneFree.Inside 1 8 u then true else bitOf oneFree.l0 u) ∧
      (oneFree.initAddFree 1 8).available =
        oneFree.available + UInt64.ofNat (oneFree.insideSize 1 8)) ∧
      oneFree.insideSize 1 8 = 4 :=
  ⟨(oneFree.init_free_iff 1 8 (by decide)).1.mpr (by decide), by decide⟩

/-- The range from 1 to 2: a unit is taken from `available` where none is marked, and to remove the
range fails. -/
theorem init_free_wraps : oneFree.insideSize 1 1 = 0 ∧ oneFree.available = 4 ∧
    (oneFree.initAddFree 1 1).available = 0 ∧ (oneFree.initRmFree 1 1).isNone :=
  ⟨by decide, rfl, by decide, by decide⟩

end BitmapAllocator

end Ceph.BlueStore.Bitmap
