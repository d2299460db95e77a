import Mathlib.Tactic

set_option autoImplicit false

/-! # The use tracker of a blob

`bluestore_blob_use_tracker_t` counts how many bytes of a blob are referenced, for each allocation
unit of the blob, or for the whole blob if it has one unit only. A range of the blob is counted unit
by unit (`touched`). What a range adds to a unit is what they have in common (`sumAt_touched`), so the
counters are the sums over the ranges that are referenced (`Tracks`), as long as these are less than
`2 ^ 32`: the counters have 32 bits.
-/

namespace Ceph.BlueStore

open List

def roundUpTo (n d : ℕ) : ℕ := if n % d ≠ 0 then n + d - n % d else n

/-- `bluestore_blob_use_tracker_t`. The total and the counters of the units share their place; which
of them is there is said by `num_au`. -/
structure UseTracker where
  auSize : ℕ
  numAu : ℕ
  totalBytes : ℕ
  bytesPerAu : List ℕ
deriving DecidableEq

/-- `bluestore_pextent_t`, as far as the units to release are given by it. -/
structure ReleaseUnit where
  offset : ℕ
  length : ℕ
deriving DecidableEq

namespace UseTracker

def isNotEmpty (t : UseTracker) : Bool :=
  if t.numAu = 0 then t.totalBytes ≠ 0 else (t.bytesPerAu.take t.numAu).any (· ≠ 0)

def getReferencedBytes (t : UseTracker) : ℕ :=
  if t.numAu = 0 then t.totalBytes else (t.bytesPerAu.take t.numAu).sum % 2 ^ 32

def init (t : UseTracker) (fullLength auSize : ℕ) : Option UseTracker :=
  -- ceph_assert(!au_size || is_empty()); ceph_assert(_au_size > 0); ceph_assert(full_length > 0)
  if (t.auSize ≠ 0 ∧ t.isNotEmpty) ∨ auSize = 0 ∨ fullLength = 0 then none
  else
    let n := roundUpTo fullLength auSize % 2 ^ 32 / auSize
    if n > 1 then some ⟨auSize, n, 0, List.replicate n 0⟩ else some ⟨auSize, 0, 0, []⟩

/-- The loop of `get` and of `put`: the units that a range touches, and the bytes in each. A turn
advances the offset by one at least, so there are no more turns than bytes; it does not overflow
before a unit is out of bounds. -/
def touched (auSize : ℕ) : ℕ → ℕ → ℕ → List (ℕ × ℕ)
  | 0, _, _ => []
  | fuel + 1, offset, last =>
    if offset < last then
      let phase := offset % auSize
      (offset / auSize, min (auSize - phase) (last - offset)) ::
        touched auSize fuel (offset + if phase ≠ 0 then auSize - phase else auSize) last
    else []

/-- Counting one unit up. A unit that is not there is not counted: the access is out of bounds. -/
def getUnit (bytes : List ℕ) (unit : ℕ × ℕ) : Option (List ℕ) :=
  bytes[unit.1]?.map fun count => bytes.set unit.1 ((count + unit.2) % 2 ^ 32)

def get (t : UseTracker) (offset length : ℕ) : Option UseTracker :=
  if t.auSize = 0 then none
  else if t.numAu = 0 then some { t with totalBytes := (t.totalBytes + length) % 2 ^ 32 }
  else ((touched t.auSize length offset ((offset + length) % 2 ^ 32)).foldlM getUnit
    t.bytesPerAu).map fun bytes => { t with bytesPerAu := bytes }

/-- What `put` keeps between the units: the counters, `release_units`, `next_offs` and
`maybe_empty`. -/
structure PutState where
  bytes : List ℕ
  releaseUnits : List ReleaseUnit
  nextOffs : ℕ
  maybeEmpty : Bool

/-- One more unit to release. -/
def release (units : List ReleaseUnit) (nextOffs offset auSize : ℕ) : List ReleaseUnit :=
  match units.getLast? with
  | none => [⟨offset, auSize⟩]
  | some back =>
    if nextOffs ≠ offset then units ++ [⟨offset, auSize⟩]
    else units.dropLast ++ [{ back with length := back.length + auSize }]

/-- Counting one unit down. -/
def putUnit (auSize : ℕ) (s : PutState) (unit : ℕ × ℕ) : Option PutState :=
  s.bytes[unit.1]?.bind fun count =>
    -- ceph_assert(diff <= bytes_per_au[pos])
    if unit.2 ≤ count then
      let bytes := s.bytes.set unit.1 (count - unit.2)
      if count - unit.2 = 0 then
        some ⟨bytes, release s.releaseUnits s.nextOffs (unit.1 * auSize) auSize,
          s.nextOffs + auSize, s.maybeEmpty⟩
      else some ⟨bytes, s.releaseUnits, s.nextOffs, false⟩
    else none

/-- `put`: the tracker, whether it is empty, and the units to release. -/
def put (t : UseTracker) (offset length : ℕ) : Option (UseTracker × Bool × List ReleaseUnit) :=
  if t.auSize = 0 then none
  else if t.numAu = 0 then
    -- ceph_assert(total_bytes >= length)
    if length ≤ t.totalBytes then
      let t := { t with totalBytes := t.totalBytes - length }
      some (t, !t.isNotEmpty, [])
    else none
  else
    ((touched t.auSize length offset ((offset + length) % 2 ^ 32)).foldlM (putUnit t.auSize)
        ⟨t.bytesPerAu, [], 0, true⟩).map fun s =>
      let t := { t with bytesPerAu := s.bytes }
      let empty := s.maybeEmpty && !t.isNotEmpty
      (t, empty, if empty then [] else s.releaseUnits)

/-! ## What a range adds to a unit -/

/-- The bytes that a range and a unit have in common. -/
def common (auSize i offset length : ℕ) : ℕ :=
  min (offset + length) ((i + 1) * auSize) - max offset (i * auSize)

/-- What a list of units with their bytes has for one unit. -/
def sumAt (units : List (ℕ × ℕ)) (i : ℕ) : ℕ :=
  ((units.filter fun u => u.1 = i).map Prod.snd).sum

theorem sumAt_cons (u : ℕ × ℕ) (units : List (ℕ × ℕ)) (i : ℕ) :
    sumAt (u :: units) i = (if u.1 = i then u.2 else 0) + sumAt units i := by
  by_cases h : u.1 = i
  · rw [sumAt, filter_cons_of_pos (by simpa using h), if_pos h]
    rfl
  · rw [sumAt, filter_cons_of_neg (by simpa using h), if_neg h, Nat.zero_add]
    rfl

theorem common_add (auSize i offset l l' : ℕ) :
    common auSize i offset (l + l') = common auSize i offset l + common auSize i (offset + l) l' := by
  rw [common, common, common, Nat.succ_mul]
  omega

theorem common_zero (auSize i offset : ℕ) : common auSize i offset 0 = 0 := by
  rw [common, Nat.succ_mul]
  omega

/-- What all ranges of a list have in common with a unit. -/
def sumCommon (auSize i : ℕ) (refs : List (ℕ × ℕ)) : ℕ :=
  (refs.map fun r => common auSize i r.1 r.2).sum

theorem sumCommon_cons (auSize i offset length : ℕ) (refs : List (ℕ × ℕ)) :
    sumCommon auSize i ((offset, length) :: refs) =
      common auSize i offset length + sumCommon auSize i refs := by
  rw [sumCommon, map_cons, sum_cons]
  rfl

theorem sumCommon_le (auSize i : ℕ) (refs : List (ℕ × ℕ)) :
    sumCommon auSize i refs ≤ (refs.map Prod.snd).sum := by
  refine sum_le_sum fun r _ => ?_
  rw [common]
  omega

/-- **The loop finds what the range and each unit have in common.** -/
theorem sumAt_touched {auSize : ℕ} (hau : 0 < auSize) (i : ℕ) {fuel offset last : ℕ}
    (hfuel : last ≤ offset + fuel) :
    sumAt (touched auSize fuel offset last) i =
      min last ((i + 1) * auSize) - max offset (i * auSize) := by
  induction fuel generalizing offset with
  | zero =>
    have hzero : min last ((i + 1) * auSize) - max offset (i * auSize) = 0 := by omega
    rw [hzero]
    rfl
  | succ fuel ih =>
    rw [touched]
    split
    · rename_i hlt
      have hdiv := Nat.div_add_mod offset auSize
      have hmod := Nat.mod_lt offset hau
      rw [Nat.mul_comm] at hdiv
      set pos := offset / auSize
      set phase := offset % auSize
      -- the next turn starts at the next unit
      have hnext : (offset + if phase ≠ 0 then auSize - phase else auSize) =
          pos * auSize + auSize := by
        split <;> omega
      rw [sumAt_cons, hnext, ih (by omega), Nat.succ_mul]
      rcases Nat.lt_trichotomy pos i with h | h | h
      · have := Nat.mul_le_mul_right auSize (Nat.succ_le_of_lt h)
        rw [Nat.succ_mul] at this
        rw [if_neg h.ne]
        omega
      · rw [if_pos h, ← h]
        omega
      · have := Nat.mul_le_mul_right auSize (Nat.succ_le_of_lt h)
        rw [Nat.succ_mul] at this
        rw [if_neg h.ne']
        omega
    · rename_i hge
      have hzero : min last ((i + 1) * auSize) - max offset (i * auSize) = 0 := by omega
      rw [hzero]
      rfl

theorem lt_of_mem_touched {auSize fuel offset last : ℕ} {u : ℕ × ℕ}
    (h : u ∈ touched auSize fuel offset last) : u.1 * auSize < last := by
  induction fuel generalizing offset with
  | zero => exact absurd h not_mem_nil
  | succ fuel ih =>
    rw [touched] at h
    split at h
    · rename_i hlt
      rcases mem_cons.mp h with rfl | h
      · exact (Nat.div_mul_le_self offset auSize).trans_lt hlt
      · exact ih h
    · exact absurd h not_mem_nil

/-! ## Counting units -/

theorem getD_set {bytes : List ℕ} {pos : ℕ} (h : pos < bytes.length) (c i : ℕ) :
    (bytes.set pos c).getD i 0 = if pos = i then c else bytes.getD i 0 := by
  rw [getD_eq_getElem?_getD, getD_eq_getElem?_getD, getElem?_set, if_pos h]
  split <;> rfl

theorem getElem?_eq_some_getD {bytes : List ℕ} {pos : ℕ} (h : pos < bytes.length) :
    bytes[pos]? = some (bytes.getD pos 0) := by
  rw [getD_eq_getElem?_getD, getElem?_eq_getElem h, Option.getD_some]

theorem foldlM_getUnit (units : List (ℕ × ℕ)) (bytes : List ℕ)
    (h : ∀ u ∈ units, u.1 < bytes.length)
    (hlt : ∀ i, bytes.getD i 0 + sumAt units i < 2 ^ 32) :
    ∃ bytes', units.foldlM getUnit bytes = some bytes' ∧ bytes'.length = bytes.length ∧
      ∀ i, bytes'.getD i 0 = bytes.getD i 0 + sumAt units i := by
  induction units generalizing bytes with
  | nil => exact ⟨bytes, rfl, rfl, fun i => rfl⟩
  | cons u units ih =>
    have hu : u.1 < bytes.length := h u mem_cons_self
    have hcount : bytes.getD u.1 0 + u.2 < 2 ^ 32 := by
      have := hlt u.1
      rw [sumAt_cons, if_pos rfl] at this
      omega
    have hbytes : ∀ i, (bytes.set u.1 (bytes.getD u.1 0 + u.2)).getD i 0 =
        bytes.getD i 0 + if u.1 = i then u.2 else 0 := by
      intro i
      rw [getD_set hu]
      split
      · next heq => rw [heq]
      · rfl
    obtain ⟨bytes', hfold, hlength, hbytes'⟩ :=
      ih (bytes.set u.1 (bytes.getD u.1 0 + u.2))
        (fun u' hu' => by
          rw [length_set]
          exact h u' (mem_cons_of_mem _ hu'))
        (fun i => by
          have := hlt i
          rw [sumAt_cons] at this
          rw [hbytes]
          omega)
    refine ⟨bytes', ?_, by rw [hlength, length_set], fun i => ?_⟩
    · rw [foldlM_cons, getUnit, getElem?_eq_some_getD hu, Option.map_some,
        Option.bind_eq_bind, Option.bind_some, Nat.mod_eq_of_lt hcount, hfold]
    · rw [hbytes', hbytes, sumAt_cons, Nat.add_assoc]

theorem foldlM_putUnit (auSize : ℕ) (units : List (ℕ × ℕ)) (s : PutState)
    (h : ∀ u ∈ units, u.1 < s.bytes.length) (hle : ∀ i, sumAt units i ≤ s.bytes.getD i 0) :
    ∃ s', units.foldlM (putUnit auSize) s = some s' ∧ s'.bytes.length = s.bytes.length ∧
      ∀ i, s'.bytes.getD i 0 + sumAt units i = s.bytes.getD i 0 := by
  induction units generalizing s with
  | nil => exact ⟨s, rfl, rfl, fun i => rfl⟩
  | cons u units ih =>
    have hu : u.1 < s.bytes.length := h u mem_cons_self
    have hcount : u.2 ≤ s.bytes.getD u.1 0 := by
      have := hle u.1
      rw [sumAt_cons, if_pos rfl] at this
      omega
    obtain ⟨s₁, hput, hs₁⟩ : ∃ s₁, putUnit auSize s u = some s₁ ∧
        s₁.bytes = s.bytes.set u.1 (s.bytes.getD u.1 0 - u.2) := by
      rw [putUnit, getElem?_eq_some_getD hu, Option.bind_some, if_pos hcount]
      split <;> exact ⟨_, rfl, rfl⟩
    have hbytes : ∀ i, s₁.bytes.getD i 0 + (if u.1 = i then u.2 else 0) = s.bytes.getD i 0 := by
      intro i
      rw [hs₁, getD_set hu]
      split
      · next heq => rw [← heq]; omega
      · omega
    obtain ⟨s', hfold, hlength, hbytes'⟩ := ih s₁
      (fun u' hu' => by
        rw [hs₁, length_set]
        exact h u' (mem_cons_of_mem _ hu'))
      (fun i => by
        have := hle i
        have := hbytes i
        rw [sumAt_cons] at *
        omega)
    refine ⟨s', ?_, by rw [hlength, hs₁, length_set], fun i => ?_⟩
    · rw [foldlM_cons, hput]
      exact hfold
    · have := hbytes' i
      have := hbytes i
      rw [sumAt_cons]
      omega

theorem getD_eq_zero_of_empty {t : UseTracker} (h : t.isNotEmpty = false) (hnum : t.numAu ≠ 0)
    {i : ℕ} (hi : i < t.numAu) : t.bytesPerAu.getD i 0 = 0 := by
  rw [isNotEmpty, if_neg hnum, any_eq_false] at h
  rcases Nat.lt_or_ge i t.bytesPerAu.length with hlt | hge
  · have hmem : t.bytesPerAu.getD i 0 ∈ t.bytesPerAu.take t.numAu := by
      refine mem_of_getElem? (i := i) ?_
      rw [getElem?_take, if_pos hi, getElem?_eq_some_getD hlt]
    simpa using h _ hmem
  · rw [getD_eq_getElem?_getD, getElem?_eq_none hge, Option.getD_none]

theorem getReferencedBytes_of_empty {t : UseTracker} (h : t.isNotEmpty = false) :
    t.getReferencedBytes = 0 := by
  rw [isNotEmpty] at h
  rw [getReferencedBytes]
  split at h
  · next hnum => simpa [hnum] using h
  · rename_i hnum
    have hzero : (t.bytesPerAu.take t.numAu).sum = 0 := by
      rw [sum_eq_zero_iff]
      simpa using h
    rw [if_neg hnum, hzero, Nat.zero_mod]

/-! ## Trackers and ranges -/

/-- `_num_au` of `init`. -/
def unitsOf (fullLength auSize : ℕ) : ℕ := roundUpTo fullLength auSize % 2 ^ 32 / auSize

theorem roundUpTo_eq (n : ℕ) {d : ℕ} (hd : 0 < d) :
    ∃ k, roundUpTo n d = k * d ∧ n ≤ k * d ∧ k * d < n + d := by
  have hmod := Nat.mod_lt n hd
  have hdiv := Nat.div_add_mod n d
  rw [Nat.mul_comm] at hdiv
  rw [roundUpTo]
  split
  · refine ⟨n / d + 1, ?_, ?_, ?_⟩ <;> rw [Nat.succ_mul] <;> omega
  · exact ⟨n / d, by omega, by omega, by omega⟩

/-- The units reach to the end of the blob, unless the rounded length has overflowed; then there are
none. -/
theorem le_unitsOf {fullLength auSize : ℕ} (hau : 0 < auSize) (hfull : fullLength < 2 ^ 32)
    (hunits : unitsOf fullLength auSize ≠ 0) : fullLength ≤ unitsOf fullLength auSize * auSize := by
  obtain ⟨k, hround, hle, hlt⟩ := roundUpTo_eq fullLength hau
  rw [unitsOf, hround] at hunits ⊢
  rcases Nat.lt_or_ge (k * auSize) (2 ^ 32) with h | h
  · rwa [Nat.mod_eq_of_lt h, Nat.mul_div_cancel _ hau]
  · refine absurd (Nat.div_eq_of_lt ?_) hunits
    omega

/-- **A tracker counts the ranges of a blob** that are referenced, each as often as it is in the
list. -/
structure Tracks (t : UseTracker) (fullLength auSize : ℕ) (refs : List (ℕ × ℕ)) : Prop where
  auSize_eq : t.auSize = auSize
  auSize_pos : 0 < auSize
  numAu_eq : t.numAu = if unitsOf fullLength auSize > 1 then unitsOf fullLength auSize else 0
  length_eq : t.numAu ≠ 0 → t.bytesPerAu.length = t.numAu
  total : t.numAu = 0 → t.totalBytes = (refs.map Prod.snd).sum
  units : t.numAu ≠ 0 → ∀ i, t.bytesPerAu.getD i 0 = sumCommon auSize i refs
  le : ∀ r ∈ refs, r.1 + r.2 ≤ fullLength
  fullLength_lt : fullLength < 2 ^ 32
  sum_lt : (refs.map Prod.snd).sum < 2 ^ 32

section Tracks

variable {t : UseTracker} {fullLength auSize : ℕ} {refs : List (ℕ × ℕ)}

theorem init_tracks (hempty : t.isNotEmpty = false) (hau : 0 < auSize) (hfull : 0 < fullLength)
    (hlt : fullLength < 2 ^ 32) :
    ∃ t', t.init fullLength auSize = some t' ∧ Tracks t' fullLength auSize [] := by
  rw [init, if_neg (by rw [hempty]; simp; omega)]
  dsimp only
  rw [← unitsOf]
  split
  · rename_i hn
    refine ⟨_, rfl, rfl, hau, (if_pos hn).symm, fun _ => length_replicate, fun h => ?_,
      fun _ i => ?_, fun r hr => absurd hr not_mem_nil, hlt, Nat.two_pow_pos 32⟩
    · dsimp only at h
      omega
    · dsimp only
      rw [getD_eq_getElem?_getD, getElem?_replicate]
      split <;> rfl
  · rename_i hn
    exact ⟨_, rfl, rfl, hau, (if_neg hn).symm, fun h => absurd rfl h, fun _ => rfl,
      fun h => absurd rfl h, fun r hr => absurd hr not_mem_nil, hlt, Nat.two_pow_pos 32⟩

section

variable (h : Tracks t fullLength auSize refs)

include h

theorem Tracks.le_numAu (hnum : t.numAu ≠ 0) : fullLength ≤ t.numAu * auSize := by
  have hnum' := h.numAu_eq
  split at hnum'
  · rw [hnum'] at hnum ⊢
    exact le_unitsOf h.auSize_pos h.fullLength_lt hnum
  · exact absurd hnum' hnum

theorem Tracks.lt_of_mem_touched (hnum : t.numAu ≠ 0)
    (fuel offset : ℕ) {last : ℕ} (hlast : last ≤ fullLength) {u : ℕ × ℕ}
    (hu : u ∈ touched auSize fuel offset last) : u.1 < t.bytesPerAu.length := by
  rw [h.length_eq hnum]
  exact Nat.lt_of_mul_lt_mul_right
    ((UseTracker.lt_of_mem_touched hu).trans_le (hlast.trans (h.le_numAu hnum)))

/-- The end of a range of the blob does not overflow. -/
theorem Tracks.end_mod {offset length : ℕ} (hle : offset + length ≤ fullLength) :
    (offset + length) % 2 ^ 32 = offset + length :=
  Nat.mod_eq_of_lt (hle.trans_lt h.fullLength_lt)

/-- **`get` counts one range more.** -/
theorem Tracks.get {offset length : ℕ} (hle : offset + length ≤ fullLength)
    (hlt : length + (refs.map Prod.snd).sum < 2 ^ 32) :
    ∃ t', t.get offset length = some t' ∧ Tracks t' fullLength auSize ((offset, length) :: refs) := by
  have hau : t.auSize ≠ 0 := by rw [h.auSize_eq]; exact h.auSize_pos.ne'
  have hle' : ∀ r ∈ (offset, length) :: refs, r.1 + r.2 ≤ fullLength := by
    rintro r hr
    rcases mem_cons.mp hr with rfl | hr
    · exact hle
    · exact h.le r hr
  rw [UseTracker.get, if_neg hau]
  by_cases hnum : t.numAu = 0
  · rw [if_pos hnum]
    refine ⟨_, rfl, h.auSize_eq, h.auSize_pos, h.numAu_eq, h.length_eq, fun _ => ?_,
      fun hne => absurd hnum hne, hle', h.fullLength_lt, hlt⟩
    show (t.totalBytes + length) % 2 ^ 32 = length + (refs.map Prod.snd).sum
    rw [h.total hnum, Nat.add_comm, Nat.mod_eq_of_lt hlt]
  · have hcounts : ∀ i, t.bytesPerAu.getD i 0 +
        sumAt (touched t.auSize length offset (offset + length)) i =
          sumCommon auSize i ((offset, length) :: refs) := by
      intro i
      rw [h.auSize_eq, sumAt_touched h.auSize_pos i (le_rfl), h.units hnum, sumCommon_cons,
        Nat.add_comm]
      rfl
    obtain ⟨bytes, hfold, hlength, hbytes⟩ := foldlM_getUnit
      (touched t.auSize length offset (offset + length)) t.bytesPerAu
      (fun u hu => h.lt_of_mem_touched hnum _ _ hle (h.auSize_eq ▸ hu))
      (fun i => (hcounts i).trans_lt ((sumCommon_le _ _ _).trans_lt hlt))
    rw [if_neg hnum, h.end_mod hle, hfold, Option.map_some]
    refine ⟨_, rfl, h.auSize_eq, h.auSize_pos, h.numAu_eq, fun _ => ?_,
      fun hzero => absurd hzero hnum, fun _ i => (hbytes i).trans (hcounts i), hle',
      h.fullLength_lt, hlt⟩
    rw [← h.length_eq hnum]
    exact hlength

theorem Tracks.congr {refs' : List (ℕ × ℕ)}
    (hlength : (refs'.map Prod.snd).sum = (refs.map Prod.snd).sum)
    (hcommon : ∀ i, sumCommon auSize i refs' = sumCommon auSize i refs)
    (hle : ∀ r ∈ refs', r.1 + r.2 ≤ fullLength) : Tracks t fullLength auSize refs' :=
  ⟨h.auSize_eq, h.auSize_pos, h.numAu_eq, h.length_eq, fun hnum => (h.total hnum).trans hlength.symm,
    fun hnum i => (h.units hnum i).trans (hcommon i).symm, hle, h.fullLength_lt,
    hlength.trans_lt h.sum_lt⟩

theorem Tracks.perm {refs' : List (ℕ × ℕ)}
    (hperm : refs'.Perm refs) : Tracks t fullLength auSize refs' :=
  h.congr (hperm.map _).sum_eq (fun _ => (hperm.map _).sum_eq)
    fun r hr => h.le r (hperm.mem_iff.mp hr)

theorem Tracks.length_eq_zero (hempty : t.isNotEmpty = false) : ∀ r ∈ refs, r.2 = 0 := by
  intro r hr
  by_contra hpos
  by_cases hnum : t.numAu = 0
  · rw [isNotEmpty, if_pos hnum, decide_eq_false_iff_not, not_not, h.total hnum,
      sum_eq_zero_iff] at hempty
    exact hpos (hempty _ (mem_map_of_mem hr))
  · -- the unit of the first byte counts it
    have hle := h.le r hr
    have hau := h.auSize_pos
    have hunit := h.units hnum (r.1 / auSize)
    have hlt : r.1 / auSize < t.bytesPerAu.length := by
      refine h.lt_of_mem_touched hnum r.2 r.1 hle
        (u := (r.1 / auSize, min (auSize - r.1 % auSize) (r.1 + r.2 - r.1))) ?_
      obtain ⟨l, hl⟩ : ∃ l, r.2 = l + 1 := ⟨r.2 - 1, by omega⟩
      rw [hl, touched, if_pos (by omega)]
      exact mem_cons_self
    have hzero := getD_eq_zero_of_empty hempty hnum (h.length_eq hnum ▸ hlt)
    rw [hzero, sumCommon, eq_comm, sum_eq_zero_iff] at hunit
    have hcommon := hunit _ (mem_map_of_mem hr)
    have hdiv := Nat.div_add_mod r.1 auSize
    have hmod := Nat.mod_lt r.1 hau
    rw [Nat.mul_comm] at hdiv
    rw [common, Nat.succ_mul] at hcommon
    omega

theorem Tracks.reinit (hempty : t.isNotEmpty = false) (hfull : 0 < fullLength) :
    ∃ t', t.init fullLength auSize = some t' ∧ Tracks t' fullLength auSize refs := by
  obtain ⟨t', hinit, ht'⟩ := init_tracks hempty h.auSize_pos hfull h.fullLength_lt
  have hzero := h.length_eq_zero hempty
  refine ⟨t', hinit, ht'.congr ?_ (fun i => ?_) h.le⟩
  · rw [map_nil, sum_nil, sum_eq_zero_iff]
    intro l hl
    obtain ⟨r, hr, rfl⟩ := mem_map.mp hl
    exact hzero r hr
  · rw [sumCommon, sum_eq_zero]
    · rfl
    · intro c hc
      obtain ⟨r, hr, rfl⟩ := mem_map.mp hc
      rw [hzero r hr, common_zero]

end

/-- **`put` counts one range less.** -/
theorem Tracks.put {offset length : ℕ} (h : Tracks t fullLength auSize ((offset, length) :: refs)) :
    ∃ t' empty units, t.put offset length = some (t', empty, units) ∧
      Tracks t' fullLength auSize refs := by
  have hau : t.auSize ≠ 0 := by rw [h.auSize_eq]; exact h.auSize_pos.ne'
  have hle := h.le _ mem_cons_self
  have hle' : ∀ r ∈ refs, r.1 + r.2 ≤ fullLength := fun r hr => h.le r (mem_cons_of_mem _ hr)
  have hlt : (refs.map Prod.snd).sum < 2 ^ 32 := (Nat.le_add_left _ _).trans_lt h.sum_lt
  rw [UseTracker.put, if_neg hau]
  by_cases hnum : t.numAu = 0
  · have htotal := h.total hnum
    rw [map_cons, sum_cons] at htotal
    rw [if_pos hnum, if_pos (by omega)]
    refine ⟨_, _, _, rfl, h.auSize_eq, h.auSize_pos, h.numAu_eq, h.length_eq, fun _ => ?_,
      fun hne => absurd hnum hne, hle', h.fullLength_lt, hlt⟩
    show t.totalBytes - length = _
    omega
  · have hunits := h.units hnum
    have hsum : ∀ i, sumAt (touched t.auSize length offset (offset + length)) i =
        common auSize i offset length := by
      intro i
      rw [h.auSize_eq, sumAt_touched h.auSize_pos i (le_rfl)]
      rfl
    obtain ⟨s, hfold, hlength, hbytes⟩ := foldlM_putUnit t.auSize
      (touched t.auSize length offset (offset + length)) ⟨t.bytesPerAu, [], 0, true⟩
      (fun u hu => h.lt_of_mem_touched hnum _ _ hle (h.auSize_eq ▸ hu))
      (fun i => by
        rw [hsum, hunits, sumCommon_cons]
        omega)
    rw [if_neg hnum, h.end_mod hle, hfold, Option.map_some]
    refine ⟨_, _, _, rfl, h.auSize_eq, h.auSize_pos, h.numAu_eq, fun _ => ?_,
      fun hzero => absurd hzero hnum, fun _ i => ?_, hle', h.fullLength_lt, hlt⟩
    · rw [← h.length_eq hnum]
      exact hlength
    · show s.bytes.getD i 0 = _
      have := hbytes i
      rw [hsum, hunits, sumCommon_cons] at this
      omega

theorem Tracks.split {offset l l' : ℕ} (h : Tracks t fullLength auSize ((offset, l + l') :: refs)) :
    Tracks t fullLength auSize ((offset, l) :: (offset + l, l') :: refs) := by
  have hle := h.le _ mem_cons_self
  refine h.congr ?_ (fun i => ?_) (forall_mem_cons.mpr ⟨?_, forall_mem_cons.mpr
    ⟨?_, fun r hr => h.le r (mem_cons_of_mem _ hr)⟩⟩)
  · simp only [map_cons, sum_cons]
    omega
  · rw [sumCommon_cons, sumCommon_cons, sumCommon_cons, common_add]
    omega
  · dsimp only
    omega
  · dsimp only
    omega

theorem Tracks.merge {offset l l' : ℕ}
    (h : Tracks t fullLength auSize ((offset, l) :: (offset + l, l') :: refs)) :
    Tracks t fullLength auSize ((offset, l + l') :: refs) := by
  have hle := h.le _ (mem_cons_of_mem _ mem_cons_self)
  refine h.congr ?_ (fun i => ?_) (forall_mem_cons.mpr
    ⟨?_, fun r hr => h.le r (mem_cons_of_mem _ (mem_cons_of_mem _ hr))⟩)
  · simp only [map_cons, sum_cons]
    omega
  · rw [sumCommon_cons, sumCommon_cons, sumCommon_cons, common_add]
    omega
  · dsimp only
    omega

end Tracks

/-! ## All units together -/

/-- The units of a blob together have all bytes of a range. -/
theorem sum_common (auSize n offset length : ℕ) :
    ((List.range n).map fun i => common auSize i offset length).sum =
      min (offset + length) (n * auSize) - min offset (n * auSize) := by
  induction n with
  | zero => rw [Nat.zero_mul, Nat.min_zero, Nat.min_zero]; rfl
  | succ n ih =>
    rw [range_succ, map_append, sum_append, ih, map_singleton,
      sum_singleton, common, Nat.succ_mul]
    omega

theorem sum_sumCommon {auSize n : ℕ} {refs : List (ℕ × ℕ)}
    (h : ∀ r ∈ refs, r.1 + r.2 ≤ n * auSize) :
    ((List.range n).map fun i => sumCommon auSize i refs).sum = (refs.map Prod.snd).sum := by
  induction refs with
  | nil => simp [sumCommon]
  | cons r refs ih =>
    have hr := h r mem_cons_self
    have hsum := sum_common auSize n r.1 r.2
    have hmap : (fun i => sumCommon auSize i (r :: refs)) =
        fun i => common auSize i r.1 r.2 + sumCommon auSize i refs :=
      funext fun i => sumCommon_cons auSize i r.1 r.2 refs
    rw [hmap, sum_map_add, ih fun r' hr' => h r' (mem_cons_of_mem _ hr'), hsum,
      map_cons, sum_cons]
    omega

theorem sum_eq_sum_getD (bytes : List ℕ) :
    bytes.sum = ((List.range bytes.length).map fun i => bytes.getD i 0).sum := by
  congr 1
  refine ext_getElem? fun i => ?_
  rw [getElem?_map]
  rcases Nat.lt_or_ge i bytes.length with hi | hi
  · rw [getElem?_range hi, Option.map_some, getElem?_eq_some_getD hi]
  · rw [getElem?_eq_none hi, getElem?_eq_none (by rwa [length_range]),
      Option.map_none]

/-- **The referenced bytes** are all bytes of the ranges. -/
theorem Tracks.getReferencedBytes {t : UseTracker} {fullLength auSize : ℕ}
    {refs : List (ℕ × ℕ)} (h : Tracks t fullLength auSize refs) :
    t.getReferencedBytes = (refs.map Prod.snd).sum := by
  rw [UseTracker.getReferencedBytes]
  split
  · next hnum => exact h.total hnum
  · rename_i hnum
    rw [take_of_length_le (h.length_eq hnum).le, sum_eq_sum_getD, h.length_eq hnum,
      funext (h.units hnum), sum_sumCommon fun r hr => (h.le r hr).trans (h.le_numAu hnum),
      Nat.mod_eq_of_lt h.sum_lt]

end UseTracker

end Ceph.BlueStore
