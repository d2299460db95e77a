import Ceph.Lib.Digits
import Ceph.Osdc.Striper
import Mathlib.Order.Interval.Finset.Nat

set_option autoImplicit false

/-! # Striping is a bijection

The bytes of a file and the bytes of its objects are in one-to-one correspondence: `objectByte`
says where a byte of the file is, `fileByte` which byte of the file a byte of an object is. The
four functions of the striper compute with the same correspondence: the extents of
`file_to_extents` are a permutation of it on the range, those of `extent_to_file` its inverse on a
piece of an object, and the other two say which bytes of the objects are those of the file below a
size.
-/

namespace Ceph.Osdc

open List

namespace FileLayout

variable (layout : FileLayout)

def stripesPerObject : ℕ := layout.objectSize / layout.stripeUnit

theorem stripesPerObject_mul : layout.stripesPerObject * layout.stripeUnit = layout.objectSize :=
  Nat.div_mul_cancel layout.stripeUnit_dvd

theorem stripesPerObject_pos : 0 < layout.stripesPerObject := by
  refine Nat.pos_of_ne_zero fun h => layout.objectSize_pos.ne' ?_
  rw [← layout.stripesPerObject_mul, h, Nat.zero_mul]

def stripeno (x : ℕ) : ℕ := x / layout.stripeUnit / layout.stripeCount

theorem div_stripeUnit_lt {o : ℕ} (ho : o < layout.objectSize) :
    o / layout.stripeUnit < layout.stripesPerObject := by
  rw [Nat.div_lt_iff_lt_mul layout.stripeUnit_pos, layout.stripesPerObject_mul]
  exact ho

/-- **Where a byte of the file is**: the number of the object and the offset in it. -/
def objectByte (x : ℕ) : ℕ × ℕ :=
  let place := blockPlace layout.stripeUnit layout.stripeCount layout.stripesPerObject
    (x / layout.stripeUnit)
  (place.1, place.2 + x % layout.stripeUnit)

/-- **Which byte of the file** a byte of an object is. -/
def fileByte (objectno o : ℕ) : ℕ :=
  ((objectno / layout.stripeCount * layout.stripesPerObject + o / layout.stripeUnit) *
      layout.stripeCount + objectno % layout.stripeCount) * layout.stripeUnit +
    o % layout.stripeUnit

theorem objectByte_snd_lt (x : ℕ) : (layout.objectByte x).2 < layout.objectSize := by
  rw [← layout.stripesPerObject_mul]
  exact mul_add_lt_mul (Nat.mod_lt _ layout.stripesPerObject_pos)
    (Nat.mod_lt _ layout.stripeUnit_pos)

theorem fileByte_objectByte (x : ℕ) :
    layout.fileByte (layout.objectByte x).1 (layout.objectByte x).2 = x := by
  have hpos : x / layout.stripeUnit % layout.stripeCount < layout.stripeCount :=
    Nat.mod_lt _ layout.stripeCount_pos
  have hoff : x % layout.stripeUnit < layout.stripeUnit := Nat.mod_lt _ layout.stripeUnit_pos
  simp only [fileByte, objectByte, blockPlace, mul_add_div_of_lt hpos, mul_add_mod_of_lt hpos,
    mul_add_div_of_lt hoff, mul_add_mod_of_lt hoff]
  rw [Nat.div_add_mod', Nat.div_add_mod', Nat.div_add_mod']

theorem objectByte_fileByte {objectno o : ℕ} (ho : o < layout.objectSize) :
    layout.objectByte (layout.fileByte objectno o) = (objectno, o) := by
  have hpos : objectno % layout.stripeCount < layout.stripeCount :=
    Nat.mod_lt _ layout.stripeCount_pos
  have hoff : o % layout.stripeUnit < layout.stripeUnit := Nat.mod_lt _ layout.stripeUnit_pos
  have hstripe := layout.div_stripeUnit_lt ho
  simp only [fileByte, objectByte, blockPlace, mul_add_div_of_lt hoff, mul_add_mod_of_lt hoff,
    mul_add_div_of_lt hpos, mul_add_mod_of_lt hpos, mul_add_div_of_lt hstripe,
    mul_add_mod_of_lt hstripe]
  rw [Nat.div_add_mod', Nat.div_add_mod']

/-- **The correspondence**, both ways. -/
theorem objectByte_eq_iff (x objectno o : ℕ) :
    layout.objectByte x = (objectno, o) ↔
      o < layout.objectSize ∧ layout.fileByte objectno o = x := by
  constructor
  · intro h
    have hlt := layout.objectByte_snd_lt x
    have hback := layout.fileByte_objectByte x
    rw [h] at hlt hback
    exact ⟨hlt, hback⟩
  · rintro ⟨ho, rfl⟩
    exact layout.objectByte_fileByte ho

/-- **The order of the bytes of a file**: by object set, stripe, object and offset. -/
theorem fileByte_lt_iff {objectno o : ℕ} (ho : o < layout.objectSize) (t : ℕ) :
    layout.fileByte objectno o < t ↔
      objectno / layout.stripeCount < layout.stripeno t / layout.stripesPerObject ∨
        (objectno / layout.stripeCount = layout.stripeno t / layout.stripesPerObject ∧
          (o / layout.stripeUnit < layout.stripeno t % layout.stripesPerObject ∨
            (o / layout.stripeUnit = layout.stripeno t % layout.stripesPerObject ∧
              (objectno % layout.stripeCount < t / layout.stripeUnit % layout.stripeCount ∨
                (objectno % layout.stripeCount = t / layout.stripeUnit % layout.stripeCount ∧
                  o % layout.stripeUnit < t % layout.stripeUnit))))) := by
  have hpos := layout.stripeCount_pos
  have hsu := layout.stripeUnit_pos
  have hstripe := layout.div_stripeUnit_lt ho
  have htrunc : layout.stripeno t % layout.stripesPerObject < layout.stripesPerObject :=
    Nat.mod_lt _ layout.stripesPerObject_pos
  -- `t` by its digits
  have ht : t = ((layout.stripeno t / layout.stripesPerObject * layout.stripesPerObject +
      layout.stripeno t % layout.stripesPerObject) * layout.stripeCount +
        t / layout.stripeUnit % layout.stripeCount) * layout.stripeUnit +
          t % layout.stripeUnit := by
    rw [Nat.div_add_mod', stripeno, Nat.div_add_mod', Nat.div_add_mod']
  nth_rewrite 1 [ht]
  rw [fileByte, mul_add_lt_iff (Nat.mod_lt _ hsu) (Nat.mod_lt _ hsu).le,
    mul_add_lt_iff (Nat.mod_lt _ hpos) (Nat.mod_lt _ hpos).le, mul_add_lt_iff hstripe htrunc.le,
    mul_add_inj (Nat.mod_lt _ hpos) (Nat.mod_lt _ hpos), mul_add_inj hstripe htrunc]
  tauto

end FileLayout

/-! ## Sizes -/

variable (layout : FileLayout)

theorem objectset_eq (t : ℕ) :
    t / layout.objectSize / layout.stripeCount = layout.stripeno t / layout.stripesPerObject := by
  rw [FileLayout.stripeno, Nat.div_div_eq_div_mul, Nat.div_div_eq_div_mul,
    Nat.div_div_eq_div_mul, ← layout.stripesPerObject_mul]
  congr 1
  ring

variable (objectno : ℕ)

theorem lt_objectTruncateSize_iff_fileByte_lt {t : ℕ} (ht : t ≠ 0) (ht' : t ≠ 2 ^ 64 - 1) {o : ℕ}
    (ho : o < layout.objectSize) :
    o < objectTruncateSize layout objectno t ↔ layout.fileByte objectno o < t := by
  have hsu := layout.stripeUnit_pos
  rw [layout.fileByte_lt_iff ho, objectTruncateSize, if_neg (not_or.mpr ⟨ht, ht'⟩)]
  simp only [objectset_eq, gt_iff_lt]
  split
  · rename_i hset
    simp only [hset.not_gt, hset.ne', false_and, or_self, Nat.not_lt_zero]
  · split
    · next hset => simp only [hset, true_or, ho]
    · rename_i hge hle
      -- the object set of the size: compare the objects
      have hset : objectno / layout.stripeCount =
          layout.stripeno t / layout.stripesPerObject := by omega
      have hobj : objectno =
          layout.stripeno t / layout.stripesPerObject * layout.stripeCount +
            objectno % layout.stripeCount := by
        rw [← hset, Nat.div_add_mod']
      have hlast : o < layout.stripeno t % layout.stripesPerObject * layout.stripeUnit +
          t % layout.stripeUnit ↔ o / layout.stripeUnit < layout.stripeno t %
            layout.stripesPerObject ∨ (o / layout.stripeUnit = layout.stripeno t %
              layout.stripesPerObject ∧ o % layout.stripeUnit < t % layout.stripeUnit) := by
        rw [← mul_add_lt_iff (Nat.mod_lt _ hsu) (Nat.mod_lt _ hsu).le, Nat.div_add_mod']
      change o < (if _ then (layout.stripeno t % layout.stripesPerObject + 1) * layout.stripeUnit
        else if _ then layout.stripeno t % layout.stripesPerObject * layout.stripeUnit
        else layout.stripeno t % layout.stripesPerObject * layout.stripeUnit +
          t % layout.stripeUnit) ↔ _
      split
      · rw [← Nat.div_lt_iff_lt_mul hsu]
        omega
      · split
        · rw [← Nat.div_lt_iff_lt_mul hsu]
          omega
        · rw [hlast]
          omega

theorem objectTruncateSize_le {t : ℕ} (ht : t ≠ 0) (ht' : t ≠ 2 ^ 64 - 1) :
    objectTruncateSize layout objectno t ≤ layout.objectSize := by
  have hsu := layout.stripeUnit_pos
  have hstripe : t / layout.stripeUnit / layout.stripeCount % layout.stripesPerObject <
      layout.stripesPerObject := Nat.mod_lt _ layout.stripesPerObject_pos
  have hlast := mul_add_lt_mul hstripe (Nat.mod_lt t hsu)
  have hfull := Nat.mul_le_mul_right layout.stripeUnit hstripe
  rw [layout.stripesPerObject_mul] at hlast hfull
  rw [objectTruncateSize, if_neg (not_or.mpr ⟨ht, ht'⟩)]
  dsimp only
  split
  · exact Nat.zero_le _
  · split
    · exact le_rfl
    · split
      · exact hfull
      · split
        · exact (Nat.le_add_right _ _).trans hlast.le
        · exact hlast.le

/-- **`object_truncate_size`** is the number of leading bytes of the object that are bytes of the
file below the size. -/
theorem lt_objectTruncateSize_iff {t : ℕ} (ht : t ≠ 0) (ht' : t ≠ 2 ^ 64 - 1) (o : ℕ) :
    o < objectTruncateSize layout objectno t ↔
      o < layout.objectSize ∧ layout.fileByte objectno o < t := by
  constructor
  · intro h
    have ho := h.trans_le (objectTruncateSize_le layout objectno ht ht')
    exact ⟨ho, (lt_objectTruncateSize_iff_fileByte_lt layout objectno ht ht' ho).mp h⟩
  · rintro ⟨ho, hlt⟩
    exact (lt_objectTruncateSize_iff_fileByte_lt layout objectno ht ht' ho).mpr hlt

theorem fileByte_zero :
    layout.fileByte objectno 0 = objectno / layout.stripeCount * layout.getPeriod +
      objectno % layout.stripeCount * layout.stripeUnit := by
  rw [FileLayout.fileByte, FileLayout.getPeriod, ← layout.stripesPerObject_mul, Nat.zero_div,
    Nat.zero_mod]
  ring

theorem fileByte_zero_le (x : ℕ) : layout.fileByte (layout.objectByte x).1 0 ≤ x := by
  nth_rewrite 2 [← layout.fileByte_objectByte x]
  rw [FileLayout.fileByte, FileLayout.fileByte, Nat.zero_div, Nat.zero_mod]
  gcongr <;> exact Nat.zero_le _

theorem getPeriod_pos : 0 < layout.getPeriod :=
  Nat.mul_pos layout.stripeCount_pos layout.objectSize_pos

theorem add_period_div {size period : ℕ} (hp : 0 < period) :
    (size + period - 1) / period = size / period + if size % period = 0 then 0 else 1 := by
  have hmod : size % period < period := Nat.mod_lt _ hp
  have hsize := Nat.div_add_mod' size period
  split
  · rename_i h
    have heq : size + period - 1 = size / period * period + (period - 1) := by omega
    rw [heq, mul_add_div_of_lt (by omega), Nat.add_zero]
  · rename_i h
    have heq : size + period - 1 = (size / period + 1) * period + (size % period - 1) := by
      rw [Nat.succ_mul]
      omega
    rw [heq, mul_add_div_of_lt (by omega)]

/-- An object is used exactly if its first byte is below the size. -/
theorem lt_getNumObjects_iff {size : ℕ}
    (hsize : size + layout.getPeriod - 1 < 2 ^ 64) (objectno : ℕ) :
    objectno < getNumObjects layout size ↔ layout.fileByte objectno 0 < size := by
  have hsu := layout.stripeUnit_pos
  have hsc := layout.stripeCount_pos
  have hpos : objectno % layout.stripeCount < layout.stripeCount := Nat.mod_lt _ hsc
  have hobj := Nat.div_add_mod' objectno layout.stripeCount
  have hp := getPeriod_pos layout
  have hrem : size % layout.getPeriod < layout.getPeriod := Nat.mod_lt _ hp
  have hstripe : objectno % layout.stripeCount * layout.stripeUnit <
      layout.stripeCount * layout.stripeUnit := Nat.mul_lt_mul_of_pos_right hpos hsu
  have hfirst : objectno % layout.stripeCount * layout.stripeUnit < layout.getPeriod :=
    hstripe.trans_le (Nat.mul_le_mul_left _
      (Nat.le_of_dvd layout.objectSize_pos layout.stripeUnit_dvd))
  rw [fileByte_zero]
  nth_rewrite 2 [← Nat.div_add_mod' size layout.getPeriod]
  rw [mul_add_lt_iff hfirst hrem.le, getNumObjects, Nat.mod_eq_of_lt hsize, add_period_div hp]
  generalize size % layout.getPeriod = rem
  generalize size / layout.getPeriod = periods
  by_cases hzero : rem = 0
  · rw [if_pos hzero, if_neg (by omega), Nat.add_zero, Nat.sub_zero,
      ← Nat.div_lt_iff_lt_mul hsc]
    omega
  · rw [if_neg hzero]
    by_cases hshort : rem < layout.stripeCount * layout.stripeUnit
    · -- the first stripe of the last set is not full
      have hused : (rem + layout.stripeUnit - 1) / layout.stripeUnit ≤ layout.stripeCount := by
        rw [← Nat.lt_succ_iff, Nat.div_lt_iff_lt_mul hsu, Nat.succ_mul]
        omega
      have hceil : objectno % layout.stripeCount * layout.stripeUnit < rem ↔
          objectno % layout.stripeCount < (rem + layout.stripeUnit - 1) / layout.stripeUnit := by
        rw [← Nat.succ_le_iff, ← Nat.succ_le_iff, Nat.le_div_iff_mul_le hsu, Nat.succ_mul]
        omega
      have hnum : ∀ used ≤ layout.stripeCount, (periods + 1) * layout.stripeCount -
          (layout.stripeCount - used) = periods * layout.stripeCount + used := by
        intro used hle
        rw [Nat.succ_mul]
        omega
      rw [if_pos ⟨Nat.pos_of_ne_zero hzero, hshort⟩, hnum _ hused, hceil,
        ← mul_add_lt_iff hpos hused, hobj]
    · rw [if_neg (by omega), Nat.sub_zero, ← Nat.div_lt_iff_lt_mul hsc]
      omega

/-- **`get_num_objects`** is one more than the largest number of an object of the file. -/
theorem getNumObjects_eq_sup {size : ℕ} (hsize : size + layout.getPeriod - 1 < 2 ^ 64) :
    getNumObjects layout size = (Finset.range size).sup fun x => (layout.objectByte x).1 + 1 := by
  apply le_antisymm
  · -- the first byte of the last object
    rcases Nat.eq_zero_or_pos (getNumObjects layout size) with h | h
    · rw [h]
      exact Nat.zero_le _
    · have hlast := (lt_getNumObjects_iff layout hsize _).mp (Nat.sub_lt h one_pos)
      have hle := Finset.le_sup (f := fun x => (layout.objectByte x).1 + 1)
        (Finset.mem_range.mpr hlast)
      rw [layout.objectByte_fileByte layout.objectSize_pos] at hle
      omega
  · apply Finset.sup_le
    intro x hx
    rw [Finset.mem_range] at hx
    exact (lt_getNumObjects_iff layout hsize _).mpr ((fileByte_zero_le layout x).trans_lt hx)

/-! ## `extent_to_file` -/

/-- The bytes of extents, in their order. -/
def extentBytes (l : List (ℕ × ℕ)) : List ℕ := l.flatMap fun e => List.range' e.1 e.2

theorem map_range'_of_add {f : ℕ → ℕ} {a b n : ℕ} (h : ∀ i < n, f (a + i) = b + i) :
    (List.range' a n).map f = List.range' b n := by
  rw [List.range'_eq_map_range, List.range'_eq_map_range, map_map]
  exact map_congr_left fun i hi => h i (mem_range.mp hi)

theorem range'_split {a n k : ℕ} (h : k ≤ n) :
    List.range' a n = List.range' a k ++ List.range' (a + k) (n - k) := by
  rw [List.range'_append_1, Nat.add_sub_cancel' h]

/-- Within a block of an object the bytes of the file follow one another. -/
theorem FileLayout.fileByte_add (objectno off i : ℕ)
    (hi : off % layout.stripeUnit + i < layout.stripeUnit) :
    layout.fileByte objectno (off + i) = layout.fileByte objectno off + i := by
  have heq : off + i = off / layout.stripeUnit * layout.stripeUnit +
      (off % layout.stripeUnit + i) := by
    rw [← Nat.add_assoc, Nat.div_add_mod']
  rw [FileLayout.fileByte, heq, mul_add_div_of_lt hi, mul_add_mod_of_lt hi, ← Nat.add_assoc]
  rfl

theorem extentToFileLoop_spec (off offInBlock len : ℕ) (h : offInBlock < layout.stripeUnit)
    (hoff : len ≠ 0 → offInBlock = off % layout.stripeUnit)
    (hlt : ∀ o, off ≤ o → o < off + len → layout.fileByte objectno o < 2 ^ 64) :
    extentBytes (extentToFileLoop layout objectno off offInBlock len h) =
      (List.range' off len).map (layout.fileByte objectno) := by
  induction len using Nat.strong_induction_on generalizing off offInBlock with
  | _ len ih =>
    rw [extentToFileLoop]
    split
    · next hlen => simp [extentBytes, hlen]
    · rename_i hlen
      have hle : min len (layout.stripeUnit - offInBlock) ≤ len := Nat.min_le_left _ _
      have hblock := hoff hlen
      -- the block of the object
      have hfirst : (List.range' off (min len (layout.stripeUnit - offInBlock))).map
          (layout.fileByte objectno) = List.range' (layout.fileByte objectno off)
            (min len (layout.stripeUnit - offInBlock)) :=
        map_range'_of_add fun i hi => layout.fileByte_add objectno off i (by omega)
      have hextent : ((off / layout.stripeUnit + objectno / layout.stripeCount *
          (layout.objectSize / layout.stripeUnit)) * layout.stripeCount +
            objectno % layout.stripeCount) * layout.stripeUnit + offInBlock =
          layout.fileByte objectno off := by
        rw [hblock, Nat.add_comm (off / layout.stripeUnit)]
        rfl
      rw [range'_split hle, map_append, hfirst, extentBytes, flatMap_cons]
      rw [hextent, Nat.mod_eq_of_lt (hlt off le_rfl (by omega))]
      congr 1
      refine ih _ (by omega) _ _ _ (fun hrest => ?_) fun o ho ho' => hlt o (by omega) (by omega)
      -- the next block starts at its beginning
      have hlen' : min len (layout.stripeUnit - offInBlock) =
          layout.stripeUnit - off % layout.stripeUnit := by omega
      have hend : off + (layout.stripeUnit - off % layout.stripeUnit) =
          (off / layout.stripeUnit + 1) * layout.stripeUnit := by
        have hdiv := Nat.div_add_mod' off layout.stripeUnit
        rw [Nat.succ_mul]
        omega
      rw [hlen', hend, Nat.mul_mod_left]

/-- **`extent_to_file`**: the bytes of the file for a piece of an object, in the order of the
object. -/
theorem extentBytes_extentToFile (objectno off len : ℕ)
    (hlt : ∀ o, off ≤ o → o < off + len → layout.fileByte objectno o < 2 ^ 64) :
    extentBytes (extentToFile layout objectno off len) =
      (List.range' off len).map (layout.fileByte objectno) :=
  extentToFileLoop_spec layout objectno off _ len _ (fun _ => rfl) hlt

open ObjectExtent

/-! ## `file_to_extents` -/

section FileToExtents

variable {ι : Type}

/-- The bytes of an extent: the byte of an object, and the byte of the buffer it goes with. -/
def ObjectExtent.bytes (ex : ObjectExtent ι) : List ((ℕ × ℕ) × ℕ) :=
  List.zipWith (fun o b => ((ex.objectno, o), b)) (List.range' ex.offset ex.length)
    (extentBytes ex.bufferExtents)

/-- An extent of an object whose parts of the buffer are as long as it is. -/
structure ObjectExtent.Fits (format : ℕ → ι) (oid : ι) (ex : ObjectExtent ι) : Prop where
  oid_eq : format ex.objectno = oid
  length_eq : (extentBytes ex.bufferExtents).length = ex.length

/-- A piece of an object and the part of the buffer it goes with. -/
def pieceBytes (objectno xOffset xLen bufferOffset : ℕ) : List ((ℕ × ℕ) × ℕ) :=
  List.zipWith (fun o b => ((objectno, o), b)) (List.range' xOffset xLen)
    (List.range' bufferOffset xLen)

theorem extentBytes_append (l l' : List (ℕ × ℕ)) :
    extentBytes (l ++ l') = extentBytes l ++ extentBytes l' := flatMap_append

theorem extentBytes_singleton (a n : ℕ) : extentBytes [(a, n)] = List.range' a n := by
  simp [extentBytes]

section Add

variable {format : ℕ → ι} (hformat : Function.Injective format) {exv : List (ObjectExtent ι)}
  {objectno : ℕ} (hfits : ∀ ex ∈ exv, ex.Fits format (format objectno))
  (truncateSize xOffset xLen bufferOffset : ℕ)

include hfits

theorem fits_addToExtents :
    ∀ ex ∈ addToExtents exv (format objectno) objectno truncateSize xOffset xLen bufferOffset,
      ex.Fits format (format objectno) := by
  have hnew : Fits format (format objectno) ⟨format objectno, objectno, xOffset, xLen,
      truncateSize, [(bufferOffset, xLen)]⟩ := ⟨rfl, by simp [extentBytes]⟩
  intro ex hex
  rw [addToExtents] at hex
  cases hlast : exv.getLast? with
  | none =>
    simp only [hlast, mem_append, mem_singleton] at hex
    rcases hex with hex | rfl
    · exact hfits ex hex
    · exact hnew
  | some last =>
    have hlastfits := hfits last (mem_of_getLast? hlast)
    simp only [hlast] at hex
    split at hex
    · rcases mem_append.mp hex with hex | hex
      · exact hfits ex hex
      · rw [mem_singleton.mp hex]
        exact hnew
    · rcases mem_append.mp hex with hex | hex
      · exact hfits ex (mem_of_mem_dropLast hex)
      · rw [mem_singleton.mp hex]
        refine ⟨hlastfits.oid_eq, ?_⟩
        rw [extentBytes_append, length_append, hlastfits.length_eq, extentBytes_singleton,
          length_range']

include hformat

theorem bytes_addToExtents :
    (addToExtents exv (format objectno) objectno truncateSize xOffset xLen bufferOffset).flatMap
        bytes = exv.flatMap bytes ++ pieceBytes objectno xOffset xLen bufferOffset := by
  have hnew : bytes ⟨format objectno, objectno, xOffset, xLen, truncateSize,
      [(bufferOffset, xLen)]⟩ = pieceBytes objectno xOffset xLen bufferOffset := by
    rw [bytes, extentBytes_singleton, pieceBytes]
  rw [addToExtents]
  cases hlast : exv.getLast? with
  | none =>
    rw [flatMap_append, flatMap_singleton, hnew]
  | some last =>
    have hlastfits := hfits last (mem_of_getLast? hlast)
    have hobj : last.objectno = objectno := hformat hlastfits.oid_eq
    dsimp only
    split
    · rw [flatMap_append, flatMap_singleton, hnew]
    · rename_i hend
      rw [ne_eq, not_not] at hend
      nth_rewrite 2 [← dropLast_append_getLast? last hlast]
      rw [flatMap_append, flatMap_append, flatMap_singleton,
        flatMap_singleton, append_assoc]
      congr 1
      rw [bytes, bytes, pieceBytes]
      rw [extentBytes_append, extentBytes_singleton, ← List.range'_append_1,
        zipWith_append (by rw [length_range', hlastfits.length_eq]), hend, hobj]

end Add

/-! ### The place of a byte, as the loop computes it -/

/-- With one object in a set the larger unit gives the same places. -/
theorem FileLayout.objectByte_eq_su (x : ℕ) :
    layout.objectByte x =
      let place := blockPlace layout.su layout.stripeCount (layout.objectSize / layout.su)
        (x / layout.su)
      (place.1, place.2 + x % layout.su) := by
  unfold FileLayout.objectByte FileLayout.su
  split
  · rename_i hone
    have hsize := layout.stripesPerObject_mul
    rw [Nat.mul_comm] at hsize
    simp only [blockPlace, hone, Nat.div_one, Nat.mod_one, Nat.mul_one, Nat.add_zero,
      Nat.div_self layout.objectSize_pos, Nat.zero_mul, Nat.zero_add, Nat.div_div_eq_div_mul,
      hsize]
    rw [← hsize, Nat.mod_mul, Nat.add_comm, Nat.mul_comm layout.stripeUnit (_ % _)]
  · rfl

/-- The bytes of a block are in one object, one behind the other. -/
theorem FileLayout.objectByte_add (cur i : ℕ) (hi : cur % layout.su + i < layout.su) :
    layout.objectByte (cur + i) = ((layout.objectByte cur).1, (layout.objectByte cur).2 + i) := by
  have heq : cur + i = cur / layout.su * layout.su + (cur % layout.su + i) := by
    rw [← Nat.add_assoc, Nat.div_add_mod']
  rw [layout.objectByte_eq_su (cur + i), layout.objectByte_eq_su cur, heq, mul_add_div_of_lt hi,
    mul_add_mod_of_lt hi]
  dsimp only
  rw [← Nat.add_assoc]

theorem pieceBytes_eq_map (objectno xOffset xLen bufferOffset : ℕ) :
    pieceBytes objectno xOffset xLen bufferOffset =
      (List.range xLen).map fun i => ((objectno, xOffset + i), bufferOffset + i) := by
  rw [pieceBytes, List.range'_eq_map_range, List.range'_eq_map_range, zipWith_map,
    zipWith_self]

/-! ### The loop -/

variable [LinearOrder ι]

/-- The bytes of the extents of all objects. -/
def mapBytes (m : OrdMap ι (List (ObjectExtent ι))) : List ((ℕ × ℕ) × ℕ) :=
  m.entries.flatMap fun e => e.2.flatMap bytes

theorem mapBytes_insert {m : OrdMap ι (List (ObjectExtent ι))} {oid : ι}
    {exv : List (ObjectExtent ι)} {piece : List ((ℕ × ℕ) × ℕ)} (h : exv.flatMap bytes =
      ((m.get oid).getD []).flatMap bytes ++ piece) :
    (mapBytes (m.insert oid exv)).Perm (mapBytes m ++ piece) := by
  have hinsert := (m.entries_insert_perm oid exv).flatMap_right
    fun e => e.2.flatMap bytes
  refine hinsert.trans ?_
  rw [flatMap_cons, h]
  cases hget : m.get oid with
  | none =>
    rw [OrdMap.erase_of_get_eq_none hget]
    exact perm_append_comm
  | some old =>
    have hold := (OrdMap.entries_perm_of_get hget).flatMap_right
      fun e => e.2.flatMap bytes
    rw [flatMap_cons] at hold
    refine List.Perm.trans ?_ (hold.symm.append_right piece)
    rw [append_assoc, append_assoc]
    exact perm_append_comm.append_left _

/-- **The invariant of the loop**: the extents hold the first `done` bytes of the range. -/
structure Holds (layout : FileLayout) (format : ℕ → ι) (offset bufferOffset done : ℕ)
    (m : OrdMap ι (List (ObjectExtent ι))) : Prop where
  fits : ∀ oid exv, m.get oid = some exv → ∀ ex ∈ exv, ex.Fits format oid
  bytes : (mapBytes m).Perm
    ((List.range' offset done).map fun x => (layout.objectByte x, x - offset + bufferOffset))

variable {layout} {format : ℕ → ι} (hformat : Function.Injective format)
  {offset truncSize bufferOffset : ℕ}

include hformat

omit hformat in
theorem fileToExtentsLoop_of_pos (cur : ℕ) {left : ℕ} (hleft : left ≠ 0)
    (m : OrdMap ι (List (ObjectExtent ι))) :
    fileToExtentsLoop layout format offset truncSize bufferOffset cur left m =
      let objectno := (layout.objectByte cur).1
      let xLen := min left (layout.su - cur % layout.su)
      fileToExtentsLoop layout format offset truncSize bufferOffset ((cur + xLen) % 2 ^ 64)
        (left - xLen) (m.insert (format objectno) (addToExtents ((m.get (format objectno)).getD [])
          (format objectno) objectno (objectTruncateSize layout objectno truncSize)
          (layout.objectByte cur).2 xLen ((cur - offset + bufferOffset) % 2 ^ 64))) := by
  have hmin : ∀ max : ℕ, (if left > max then max else left) = min left max := by
    intro max
    rw [Nat.min_def]
    split <;> split <;> omega
  rw [fileToExtentsLoop, dif_neg hleft, layout.objectByte_eq_su cur]
  simp only [hmin]

omit hformat in
theorem fileToExtentsLoop_zero (cur : ℕ) (m : OrdMap ι (List (ObjectExtent ι))) :
    fileToExtentsLoop layout format offset truncSize bufferOffset cur 0 m = m := by
  rw [fileToExtentsLoop, dif_pos rfl]

/-- **The step**: a turn of the loop adds the bytes up to the end of a block. -/
theorem Holds.step {done xLen : ℕ} {m : OrdMap ι (List (ObjectExtent ι))}
    (h : Holds layout format offset bufferOffset done m) (truncateSize : ℕ)
    (hblock : (offset + done) % layout.su + xLen ≤ layout.su) :
    let objectno := (layout.objectByte (offset + done)).1
    Holds layout format offset bufferOffset (done + xLen)
      (m.insert (format objectno) (addToExtents ((m.get (format objectno)).getD [])
        (format objectno) objectno truncateSize (layout.objectByte (offset + done)).2 xLen
        (done + bufferOffset))) := by
  intro objectno
  have hold : ∀ ex ∈ (m.get (format objectno)).getD [], ex.Fits format (format objectno) := by
    cases hget : m.get (format objectno) with
    | none => simp
    | some exv => exact h.fits _ exv hget
  refine ⟨fun oid exv hget => ?_, ?_⟩
  · rw [OrdMap.get_insert] at hget
    split at hget
    · rename_i hoid
      rw [hoid, ← Option.some.inj hget]
      exact fits_addToExtents hold truncateSize _ xLen _
    · exact h.fits oid exv hget
  · have hbytes := bytes_addToExtents hformat hold truncateSize
      (layout.objectByte (offset + done)).2 xLen (done + bufferOffset)
    refine (mapBytes_insert hbytes).trans ?_
    rw [← List.range'_append_1, map_append]
    refine h.bytes.append (List.Perm.of_eq ?_)
    rw [pieceBytes_eq_map, List.range'_eq_map_range, map_map]
    refine map_congr_left fun i hi => ?_
    rw [mem_range] at hi
    rw [Function.comp_apply, layout.objectByte_add (offset + done) i (by omega)]
    exact Prod.ext rfl (by dsimp only; omega)

/-- **The run**: the loop adds the rest of the range. -/
theorem Holds.loop {done left : ℕ} {m : OrdMap ι (List (ObjectExtent ι))}
    (h : Holds layout format offset bufferOffset done m) (hcur : offset + (done + left) ≤ 2 ^ 64)
    (hbuf : bufferOffset + (done + left) ≤ 2 ^ 64) :
    Holds layout format offset bufferOffset (done + left)
      (fileToExtentsLoop layout format offset truncSize bufferOffset (offset + done) left m) := by
  induction left using Nat.strong_induction_on generalizing done m with
  | _ left ih =>
    by_cases hleft : left = 0
    · rw [hleft, fileToExtentsLoop_zero]
      exact h
    · have hsu := layout.su_pos
      have hmod : (offset + done) % layout.su < layout.su := Nat.mod_lt _ hsu
      have hbuffer : (offset + done - offset + bufferOffset) % 2 ^ 64 = done + bufferOffset := by
        rw [Nat.mod_eq_of_lt (by omega)]
        omega
      rw [fileToExtentsLoop_of_pos _ hleft]
      dsimp only
      rw [hbuffer]
      generalize hxLen : min left (layout.su - (offset + done) % layout.su) = xLen
      have hstep := h.step hformat
        (objectTruncateSize layout (layout.objectByte (offset + done)).1 truncSize)
        (by omega : (offset + done) % layout.su + xLen ≤ layout.su)
      have hdone : done + left = done + xLen + (left - xLen) := by omega
      rw [hdone] at hcur hbuf ⊢
      by_cases hlast : left - xLen = 0
      · -- behind the last byte the position is not looked at
        rw [hlast, fileToExtentsLoop_zero]
        exact hstep
      · rw [Nat.mod_eq_of_lt (by omega), Nat.add_assoc offset done xLen]
        exact ih _ (by omega) hstep hcur hbuf

end FileToExtents

/-! ## All together -/

/-- **Striping is a bijection.** The bytes of a file and the bytes of its objects are in
one-to-one correspondence. `file_to_extents` gives the bytes of the objects that correspond to a
range, each once, with its place in the buffer; `extent_to_file` the bytes of the file that
correspond to a piece of an object, in order; `object_truncate_size` the number of leading bytes
of an object that correspond to bytes below a size, and `get_num_objects` one more than the
largest number of an object of a file. -/
theorem striping_bijection (layout : FileLayout) :
    (∀ x objectno o, layout.objectByte x = (objectno, o) ↔
      o < layout.objectSize ∧ layout.fileByte objectno o = x) ∧
    (∀ (ι : Type) [LinearOrder ι] (format : ℕ → ι), Function.Injective format →
      ∀ offset len truncSize bufferOffset, 0 < len → offset + len ≤ 2 ^ 64 →
        bufferOffset + len ≤ 2 ^ 64 →
        ∃ extents, fileToExtents layout format offset len truncSize bufferOffset = some extents ∧
          (∀ ex ∈ extents, (extentBytes ex.bufferExtents).length = ex.length) ∧
          (extents.flatMap bytes).Perm ((List.range' offset len).map fun x =>
            (layout.objectByte x, x - offset + bufferOffset))) ∧
    (∀ objectno off len, off + len ≤ layout.objectSize →
      (∀ o, off ≤ o → o < off + len → layout.fileByte objectno o < 2 ^ 64) →
        extentBytes (extentToFile layout objectno off len) =
            (List.range' off len).map (layout.fileByte objectno) ∧
          ∀ x, x ∈ extentBytes (extentToFile layout objectno off len) ↔
            ∃ o, off ≤ o ∧ o < off + len ∧ layout.objectByte x = (objectno, o)) ∧
    (∀ objectno t, t ≠ 0 → t ≠ 2 ^ 64 - 1 → ∀ o, o < objectTruncateSize layout objectno t ↔
      o < layout.objectSize ∧ layout.fileByte objectno o < t) ∧
    (∀ size, size + layout.getPeriod - 1 < 2 ^ 64 → getNumObjects layout size =
      (Finset.range size).sup fun x => (layout.objectByte x).1 + 1) := by
  refine ⟨layout.objectByte_eq_iff, ?_, ?_, ?_, ?_⟩
  · intro ι _ format hformat offset len truncSize bufferOffset hlen hcur hbuf
    have hstart : Holds layout format offset bufferOffset 0 .empty :=
      ⟨fun oid exv hget => by simp at hget, .refl _⟩
    have hrun : Holds layout format offset bufferOffset (0 + len)
        (fileToExtentsLoop layout format offset truncSize bufferOffset (offset + 0) len .empty) :=
      hstart.loop hformat (by omega) (by omega)
    rw [Nat.zero_add] at hrun
    refine ⟨_, if_pos hlen, fun ex hex => ?_, ?_⟩
    · obtain ⟨⟨oid, exv⟩, hmem, hex⟩ := mem_flatMap.mp hex
      exact (hrun.fits oid exv ((OrdMap.mem_entries_iff _ _ _).mp hmem) ex hex).length_eq
    · rw [flatMap_assoc]
      exact hrun.bytes
  · intro objectno off len hin hlt
    have hbytes := extentBytes_extentToFile layout objectno off len hlt
    refine ⟨hbytes, fun x => ?_⟩
    rw [hbytes, mem_map]
    constructor
    · rintro ⟨o, ho, rfl⟩
      rw [mem_range'_1] at ho
      exact ⟨o, ho.1, ho.2, layout.objectByte_fileByte (by omega)⟩
    · rintro ⟨o, hlo, hhi, hx⟩
      exact ⟨o, mem_range'_1.mpr ⟨hlo, hhi⟩, ((layout.objectByte_eq_iff x objectno o).mp hx).2⟩
  · intro objectno t ht ht' o
    exact lt_objectTruncateSize_iff layout objectno ht ht' o
  · intro size hsize
    exact getNumObjects_eq_sup layout hsize

/-- Two objects of two blocks of four bytes in a set: bytes 3 to 8 of a file, and a file of 9
bytes. -/
theorem striping_bijection_two :
    let layout : FileLayout := ⟨4, 2, 8, by decide, by decide, by decide, by decide, by decide⟩
    (∃ extents, fileToExtents layout id 3 6 0 0 = some extents ∧
      (extents.flatMap bytes).Perm
        [((0, 3), 0), ((1, 0), 1), ((1, 1), 2), ((1, 2), 3), ((1, 3), 4), ((0, 4), 5)]) ∧
    extentBytes (extentToFile layout 0 3 2) = [3, 8] ∧ objectTruncateSize layout 0 9 = 5 ∧
      getNumObjects layout 9 = 2 := by
  intro layout
  obtain ⟨-, hto, hfrom, -, hnum⟩ := striping_bijection layout
  obtain ⟨extents, hextents, -, hperm⟩ := hto ℕ id Function.injective_id 3 6 0 0 (by decide)
    (by decide) (by decide)
  refine ⟨⟨extents, hextents, hperm.trans (List.Perm.of_eq (by decide))⟩, ?_, by decide, ?_⟩
  · refine (hfrom 0 3 2 (by decide) ?_).1.trans (by decide)
    intro o ho ho'
    interval_cases o <;> decide
  · rw [hnum 9 (by decide)]
    decide

end Ceph.Osdc
