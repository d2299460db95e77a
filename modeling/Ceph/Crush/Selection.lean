import Ceph.Crush.Choose
import Mathlib

set_option autoImplicit false

/-! # List and tree buckets choose items that have a weight

`bucket_list_choose` goes through the items from the last one, and takes each with the share that its
weight has in the sum up to it. `bucket_tree_choose` goes down from the root, and to the left with
the share that the left child has. If the sums are right, both end at an item that has a weight: the
list at the latest at the first such item, and the tree because it only enters nodes that have one.

The number of nodes of a tree bucket is kept in eight bits. A bucket of more than 64 items has 256
nodes or more, of which 0 is kept, and the choice starts at a node that is not one.
-/

namespace Ceph.Crush

open List

variable {hash : Hash} {bucket : Bucket}

/-! ## Lists -/

/-- The sums of a list bucket. -/
def PrefixSums (itemWeights sumWeights : List UInt32) : Prop :=
  ∀ i < itemWeights.length,
    (sumWeights.getD i 0).toNat = ((itemWeights.take (i + 1)).map UInt32.toNat).sum

theorem listScan_spec {itemWeights sumWeights : List UInt32} (x r : ℤ)
    (hlen : itemWeights.length = bucket.size) (hsums : PrefixSums itemWeights sumWeights) {n : ℕ}
    (hn : n ≤ bucket.size) (hpos : 0 < ((itemWeights.take n).map UInt32.toNat).sum) :
    ∃ i < bucket.size, listScan hash bucket itemWeights sumWeights x r n = bucket.items[i]? ∧
      itemWeights.getD i 0 ≠ 0 := by
  induction n with
  | zero => exact absurd hpos (by simp)
  | succ n ih =>
    have hlt : n < itemWeights.length := by omega
    have hsum := hsums n hlt
    rw [take_add_one, getElem?_eq_getElem hlt, Option.toList_some, map_append,
      sum_append, map_singleton, sum_singleton] at hsum hpos
    rw [listScan, getElem?_eq_getElem (show n < bucket.items.length from hn)]
    simp only [Option.bind_eq_bind, Option.bind_some]
    rw [getD_eq_getElem _ _ hlt, hsum]
    set w := (hash.hash4 bucket.hash x bucket.items[n] r bucket.id).toNat &&& 0xffff
    have hw : w < 2 ^ 16 := Nat.and_lt_two_pow _ (by omega)
    split
    · rename_i htake
      refine ⟨n, hn, (getElem?_eq_getElem _).symm, ?_⟩
      rw [getD_eq_getElem _ _ hlt]
      intro hzero
      rw [hzero] at htake
      exact Nat.not_lt_zero _ htake
    · rename_i hpass
      refine ih (by omega) (Nat.pos_of_ne_zero fun hzero => hpass ?_)
      -- the first item that has a weight is taken
      rw [hzero, Nat.zero_add, Nat.shiftRight_eq_div_pow, Nat.div_lt_iff_lt_mul (by omega),
        Nat.mul_comm]
      exact Nat.mul_lt_mul_of_pos_left hw (by omega)

theorem sum_take_pos {weights : List UInt32} {i n : ℕ} (hi : i < n)
    (hw : weights.getD i 0 ≠ 0) : 0 < ((weights.take n).map UInt32.toNat).sum := by
  have hlt : i < weights.length := by
    by_contra hle
    exact hw (getD_eq_default _ _ (not_lt.mp hle))
  rw [getD_eq_getElem _ _ hlt] at hw
  have hmem : weights[i].toNat ∈ (weights.take n).map UInt32.toNat :=
    mem_map_of_mem (mem_take_iff_getElem.mpr ⟨i, by omega, rfl⟩)
  have hle := single_le_sum (fun _ _ => Nat.zero_le _) _ hmem
  have hpos : weights[i].toNat ≠ 0 := fun h => hw (UInt32.toNat_inj.mp h)
  omega

/-! ## Trees -/

/-- The loop of `calc_depth` (`crush/builder.c`): how often a number is shifted until nothing is
left. -/
def shifts (t : ℕ) : ℕ :=
  if t = 0 then 0 else shifts (t / 2) + 1
termination_by t
decreasing_by omega

def calcDepth (size : ℕ) : ℕ := if size = 0 then 0 else 1 + shifts (size - 1)

/-- `1 << depth`, as it is stored. -/
def nodesOf (depth : ℕ) : UInt8 := UInt8.ofNat (2 ^ depth)

theorem shifts_le {t k : ℕ} : shifts t ≤ k ↔ t < 2 ^ k := by
  induction k generalizing t with
  | zero =>
    rw [shifts, pow_zero]
    split
    · omega
    · omega
  | succ k ih =>
    rw [shifts, pow_succ]
    split
    · have := Nat.two_pow_pos k
      omega
    · have := ih (t := t / 2)
      omega

theorem calcDepth_of_pos {size : ℕ} (hsize : 0 < size) : calcDepth size = 1 + shifts (size - 1) :=
  if_neg hsize.ne'

/-- The number of nodes is lost if there are more than 64 items. -/
theorem toNat_nodesOf_calcDepth {size : ℕ} (hsize : 0 < size) :
    (nodesOf (calcDepth size)).toNat = if size ≤ 64 then 2 ^ calcDepth size else 0 := by
  rw [nodesOf, UInt8.toNat_ofNat']
  split
  · rename_i hle
    have h := (shifts_le (t := size - 1) (k := 6)).mpr (by omega)
    rw [calcDepth_of_pos hsize]
    exact Nat.mod_eq_of_lt (Nat.pow_lt_pow_right (by omega) (by omega))
  · rename_i hlt
    have h : ¬ shifts (size - 1) ≤ 6 := fun h => by
      have := shifts_le.mp h
      omega
    obtain ⟨k, hk⟩ : ∃ k, calcDepth size = 8 + k :=
      ⟨calcDepth size - 8, by rw [calcDepth_of_pos hsize]; omega⟩
    rw [hk, pow_add]
    exact Nat.mul_mod_right _ _

/-- **The nodes of a tree bucket**, as `crush_make_tree_bucket` lays them out: an inner node has the
weight of its two children, and a leaf without an item has none. -/
structure TreeLaidOut (bucket : Bucket) (nodeWeights : List UInt32) : Prop where
  length : nodeWeights.length = 2 ^ calcDepth bucket.size
  sums : ∀ n, n < 2 ^ calcDepth bucket.size → n % 2 = 0 → n ≠ 0 → (nodeWeights.getD n 0).toNat =
    (nodeWeights.getD (left n) 0).toNat + (nodeWeights.getD (right n) 0).toNat
  leaves : ∀ i, bucket.size ≤ i → nodeWeights.getD (2 * i + 1) 0 = 0

theorem mul_two_pow_add_le {a m d : ℕ} (ha : 0 < a) (h : a * 2 ^ m < 2 ^ d) :
    a * 2 ^ m + 2 ^ m ≤ 2 ^ d := by
  have hmd : m ≤ d := by
    by_contra hlt
    have := Nat.pow_le_pow_right (show 0 < 2 by omega) (not_le.mp hlt).le
    have := Nat.le_mul_of_pos_left (2 ^ m) ha
    omega
  obtain ⟨k, rfl⟩ := Nat.exists_eq_add_of_le hmd
  rw [pow_add, Nat.mul_comm (2 ^ m)] at h ⊢
  rw [← Nat.succ_mul]
  exact Nat.mul_le_mul_right _ (Nat.lt_of_mul_lt_mul_right h)

theorem TreeLaidOut.ne_zero {nodeWeights : List UInt32} (h : TreeLaidOut bucket nodeWeights)
    {i k : ℕ} (hw : nodeWeights.getD (2 * i + 1) 0 ≠ 0)
    (hk : (2 * (i / 2 ^ k) + 1) * 2 ^ k < 2 ^ calcDepth bucket.size) :
    nodeWeights.getD ((2 * (i / 2 ^ k) + 1) * 2 ^ k) 0 ≠ 0 := by
  induction k with
  | zero => simpa using hw
  | succ k ih =>
    set q := i / 2 ^ (k + 1) with hq
    have hhalf : i / 2 ^ k / 2 = q := by rw [hq, pow_succ, Nat.div_div_eq_div_mul]
    have hpos := Nat.two_pow_pos k
    have heven : (2 * q + 1) * 2 ^ (k + 1) = 2 * ((2 * q + 1) * 2 ^ k) := by ring
    have hprod : 0 < (2 * q + 1) * 2 ^ k := Nat.mul_pos (by omega) hpos
    have hsum := h.sums _ hk (by omega) (by omega)
    rw [left_node, right_node] at hsum
    intro hzero
    rw [hzero, UInt32.toNat_zero] at hsum
    -- the child on the way has a weight
    have hchild : nodeWeights.getD ((2 * (i / 2 ^ k) + 1) * 2 ^ k) 0 ≠ 0 := by
      refine ih ?_
      calc (2 * (i / 2 ^ k) + 1) * 2 ^ k ≤ (2 * (2 * q + 1) + 1) * 2 ^ k :=
            Nat.mul_le_mul_right _ (by omega)
        _ = (2 * q + 1) * 2 ^ (k + 1) + 2 ^ k := by ring
        _ < 2 ^ calcDepth bucket.size := by
            have hend := mul_two_pow_add_le (by omega) hk
            omega
    apply hchild
    rcases Nat.mod_two_eq_zero_or_one (i / 2 ^ k) with hside | hside
    · rw [show i / 2 ^ k = 2 * q by omega]
      exact UInt32.toNat_inj.mp (by rw [UInt32.toNat_zero]; omega)
    · rw [show i / 2 ^ k = 2 * q + 1 by omega]
      exact UInt32.toNat_inj.mp (by rw [UInt32.toNat_zero]; omega)

theorem TreeLaidOut.treeOk {nodeWeights : List UInt32} (h : TreeLaidOut bucket nodeWeights)
    (hitem : ∃ i < bucket.size, nodeWeights.getD (2 * i + 1) 0 ≠ 0) :
    TreeOk bucket (2 ^ calcDepth bucket.size) nodeWeights := by
  obtain ⟨i, hi, hw⟩ := hitem
  have hdepth := calcDepth_of_pos (show 0 < bucket.size by omega)
  set d := shifts (bucket.size - 1) with hd
  have hlt : i < 2 ^ d := by
    have := shifts_le.mp hd.ge
    omega
  have hpow : 2 ^ (1 + d) = 2 * 2 ^ d := by ring
  refine ⟨⟨d, by rw [hdepth, Nat.add_comm]⟩, h.length, h.sums, fun n _ hodd hn => ?_, ?_⟩
  · by_contra hle
    apply hn
    rw [show n = 2 * (n / 2) + 1 by omega]
    exact h.leaves _ (not_lt.mp hle)
  · have hroot : 2 ^ calcDepth bucket.size / 2 = (2 * (i / 2 ^ d) + 1) * 2 ^ d := by
      rw [hdepth, Nat.div_eq_of_lt hlt, hpow]
      omega
    rw [hroot]
    refine h.ne_zero hw ?_
    rw [← hroot, hdepth, hpow]
    omega

/-! ## The choice -/

/-- **A list bucket and a tree bucket choose an item that has a weight**, the tree bucket exactly if
it has at most 64 items. -/
theorem choose_weighted_iff (bucket : Bucket) :
    (∀ itemWeights sumWeights : List UInt32, itemWeights.length = bucket.size →
      PrefixSums itemWeights sumWeights → (∃ i < bucket.size, itemWeights.getD i 0 ≠ 0) →
      ∀ (hash : Hash) (x r : ℤ), ∃ i < bucket.size,
        bucketListChoose hash bucket itemWeights sumWeights x r = bucket.items[i]? ∧
          itemWeights.getD i 0 ≠ 0) ∧
      ∀ nodeWeights : List UInt32, TreeLaidOut bucket nodeWeights →
        (∃ i < bucket.size, nodeWeights.getD (2 * i + 1) 0 ≠ 0) →
        ((∀ (hash : Hash) (x r : ℤ), ∃ i < bucket.size,
          bucketTreeChoose hash bucket (nodesOf (calcDepth bucket.size)).toNat nodeWeights x r =
              bucket.items[i]? ∧ nodeWeights.getD (2 * i + 1) 0 ≠ 0) ↔ bucket.size ≤ 64) := by
  refine ⟨?_, fun nodeWeights hlaid hitem => ?_⟩
  · rintro itemWeights sumWeights hlen hsums ⟨i, hi, hw⟩ hash x r
    exact listScan_spec x r hlen hsums le_rfl (sum_take_pos hi hw)
  · have hsize : 0 < bucket.size := by
      obtain ⟨i, hi, -⟩ := hitem
      omega
    rw [toNat_nodesOf_calcDepth hsize]
    constructor
    · intro hchoose
      by_contra hmany
      obtain ⟨i, hi, hi', -⟩ := hchoose ⟨fun _ _ _ => 0, fun _ _ _ _ => 0, fun _ _ _ _ _ => 0⟩ 0 0
      rw [if_neg hmany, getElem?_eq_getElem hi] at hi'
      -- the descent starts at node 0
      cases hi'
    · intro hfew hash x r
      rw [if_pos hfew]
      exact bucketTreeChoose_spec _ x r (hlaid.treeOk hitem)

/-- Two items with weights 1 and 2, as a list and as a tree. -/
theorem choose_weighted_iff_two_items :
    let bucket : Bucket := ⟨-1, 1, .unknown, 0, [3, 5]⟩
    (∀ (hash : Hash) (x r : ℤ), ∃ i < bucket.size,
      bucketListChoose hash bucket [1, 2] [1, 3] x r = bucket.items[i]? ∧
        ([1, 2] : List UInt32).getD i 0 ≠ 0) ∧
      TreeLaidOut bucket [0, 1, 3, 2] ∧ ∀ (hash : Hash) (x r : ℤ), ∃ i < bucket.size,
        bucketTreeChoose hash bucket (nodesOf (calcDepth bucket.size)).toNat [0, 1, 3, 2] x r =
          bucket.items[i]? ∧ ([0, 1, 3, 2] : List UInt32).getD (2 * i + 1) 0 ≠ 0 := by
  intro bucket
  have hdepth : calcDepth bucket.size = 2 := by
    show calcDepth 2 = 2
    rw [calcDepth, if_neg (by omega), shifts, if_neg (by omega), shifts, if_pos (by omega)]
  have hlaid : TreeLaidOut bucket [0, 1, 3, 2] := by
    refine ⟨by rw [hdepth]; rfl, fun n hn heven hzero => ?_, fun i hi => ?_⟩
    · rw [hdepth] at hn
      obtain rfl : n = (2 * 0 + 1) * 2 ^ (0 + 1) := by omega
      rw [left_node, right_node]
      rfl
    · have hi' : 2 ≤ i := hi
      exact getD_eq_default _ _ (by simp; omega)
  refine ⟨?_, hlaid, ?_⟩
  · refine (choose_weighted_iff bucket).1 [1, 2] [1, 3] rfl (fun i hi => ?_) ⟨0, by decide⟩
    have hi' : i < 2 := hi
    interval_cases i <;> rfl
  · exact ((choose_weighted_iff bucket).2 _ hlaid ⟨0, by decide⟩).mpr (by decide)

/-- **A tree of 65 items**, of which the first one has a weight: the choice does not end. -/
theorem bucketTreeChoose_of_65_items :
    let bucket : Bucket := ⟨-1, 1, .unknown, 0, (List.range 65).map Int.ofNat⟩
    let nodeWeights : List UInt32 :=
      (List.range 256).map fun n => if n ∈ (List.range 8).map (2 ^ ·) then 1 else 0
    TreeLaidOut bucket nodeWeights ∧ nodeWeights.getD 1 0 = 1 ∧
      (nodesOf (calcDepth bucket.size)).toNat = 0 ∧
      ∀ (hash : Hash) (x r : ℤ), bucketTreeChoose hash bucket
        (nodesOf (calcDepth bucket.size)).toNat nodeWeights x r = none := by
  intro bucket nodeWeights
  have hdepth : calcDepth bucket.size = 8 := by decide +kernel
  have hnodes : (nodesOf (calcDepth bucket.size)).toNat = 0 := by rw [hdepth]; rfl
  refine ⟨⟨?_, ?_, ?_⟩, rfl, hnodes, fun hash x r => ?_⟩
  · rw [hdepth, length_map, length_range]
    rfl
  · rw [hdepth]
    decide +kernel
  · intro i hi
    by_cases hlt : i < 128
    · have hi' : 65 ≤ i := hi
      have hall : ∀ i < 128, 65 ≤ i → nodeWeights.getD (2 * i + 1) 0 = 0 := by decide +kernel
      exact hall i hlt hi'
    · exact getD_eq_default _ _ (by simp [nodeWeights]; omega)
  · rw [hnodes]
    rfl

end Ceph.Crush
