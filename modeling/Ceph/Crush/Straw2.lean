import Ceph.Crush.Bucket

set_option autoImplicit false

/-! # Straw2 buckets move data minimally

The draw of an item of a straw2 bucket depends on its own weight only and does not get smaller when
the weight gets larger (`straw2Draw_mono`). So if the weight of one item grows, the item with the
greatest draw stays the same, or is that item. A weight is passed on as an `int`, so the weights of
the upper half divide the logarithm, which is not positive, by a negative number. They give draws
that are not negative, which grow with the weight as well: the order of the draws is the order of
the weights over the whole range.
-/

namespace Ceph.Crush

open List

/-! ## Draws and weights -/

/-- The order of the quotients of a number that is not positive, by weights read as `int`. -/
theorem tdiv_toInt_mono {ln : ℤ} (hln : ln ≤ 0) {w w' : UInt32} (hw : w ≠ 0) (h : w ≤ w') :
    ln.tdiv w.toBitVec.toInt ≤ ln.tdiv w'.toBitVec.toInt := by
  obtain ⟨n, rfl⟩ : ∃ n : ℕ, ln = -(n : ℤ) := ⟨ln.natAbs, by omega⟩
  have hpos : 0 < w.toNat := Nat.pos_of_ne_zero fun h0 => hw (UInt32.toNat_inj.mp h0)
  have hle : w.toNat ≤ w'.toNat := UInt32.le_iff_toNat_le.mp h
  have hlt : w'.toNat < 2 ^ 32 := UInt32.toNat_lt w'
  have hw_eq : w.toBitVec.toInt = if 2 * w.toNat < 2 ^ 32 then (w.toNat : ℤ)
      else (w.toNat : ℤ) - 2 ^ 32 := BitVec.toInt_eq_toNat_cond _
  have hw'_eq : w'.toBitVec.toInt = if 2 * w'.toNat < 2 ^ 32 then (w'.toNat : ℤ)
      else (w'.toNat : ℤ) - 2 ^ 32 := BitVec.toInt_eq_toNat_cond _
  -- the quotient by a weight of the lower half, and of the upper half
  have hlow : ∀ k : ℕ, (-(n : ℤ)).tdiv k = -((n / k : ℕ) : ℤ) := by
    intro k
    rw [Int.neg_tdiv, Int.ofNat_tdiv]
  have hhigh : ∀ k : ℕ, k < 2 ^ 32 →
      (-(n : ℤ)).tdiv ((k : ℤ) - 2 ^ 32) = ((n / (2 ^ 32 - k) : ℕ) : ℤ) := by
    intro k hk
    rw [show ((k : ℤ) - 2 ^ 32) = -((2 ^ 32 - k : ℕ) : ℤ) by omega, Int.neg_tdiv, Int.tdiv_neg,
      neg_neg, Int.ofNat_tdiv]
  rw [hw_eq, hw'_eq]
  by_cases hhalf' : 2 * w'.toNat < 2 ^ 32
  · have hhalf : 2 * w.toNat < 2 ^ 32 := by omega
    rw [if_pos hhalf, if_pos hhalf', hlow, hlow]
    exact Int.neg_le_neg (Int.ofNat_le.mpr (Nat.div_le_div_left hle hpos))
  · rw [if_neg hhalf', hhigh _ hlt]
    split
    · rw [hlow]
      exact (neg_nonpos.mpr (Int.natCast_nonneg _)).trans (Int.natCast_nonneg _)
    · rw [hhigh _ (by omega)]
      exact Int.ofNat_le.mpr (Nat.div_le_div_left (by omega) (by omega))

variable (hash : Hash) (bucket : Bucket)

theorem generateExponentialDistribution_mono (type : ℕ) (x y z : ℤ) {w w' : UInt32} (hw : w ≠ 0)
    (h : w ≤ w') :
    generateExponentialDistribution hash type x y z w ≤
      generateExponentialDistribution hash type x y z w' := by
  have hu : (hash.hash3 type x y z).toNat &&& 0xffff ≤ 0xffff := Nat.and_le_right
  have hln := crushLn_le hu
  exact tdiv_toInt_mono (by omega) hw h

/-- Whatever the weight, the draw is above the one of an item that has no weight. -/
theorem s64Min_lt_generateExponentialDistribution (type : ℕ) (x y z : ℤ) (w : UInt32) :
    s64Min < generateExponentialDistribution hash type x y z w := by
  have hu : (hash.hash3 type x y z).toNat &&& 0xffff ≤ 0xffff := Nat.and_le_right
  have hln := crushLn_le hu
  have habs := Int.natAbs_tdiv_le_natAbs
    ((crushLn ((hash.hash3 type x y z).toNat &&& 0xffff) : ℤ) - 0x1000000000000)
    w.toBitVec.toInt
  show -2 ^ 63 < Int.tdiv _ _
  omega

variable {bucket} (x r : ℤ)

theorem straw2Draw_of_zero {ids : List ℤ} {weights : List UInt32} {i : Fin bucket.size}
    (h : weights.getD i 0 = 0) : straw2Draw hash bucket ids weights x r i = s64Min := by
  rw [straw2Draw, if_neg (not_not_intro h)]

theorem s64Min_lt_straw2Draw {ids : List ℤ} {weights : List UInt32} {i : Fin bucket.size}
    (h : weights.getD i 0 ≠ 0) : s64Min < straw2Draw hash bucket ids weights x r i := by
  rw [straw2Draw, if_pos h]
  exact s64Min_lt_generateExponentialDistribution hash _ _ _ _ _

/-- **A larger weight does not give a smaller draw.** -/
theorem straw2Draw_mono {ids : List ℤ} {weights weights' : List UInt32} {i : Fin bucket.size}
    (h : weights.getD i 0 ≤ weights'.getD i 0) :
    straw2Draw hash bucket ids weights x r i ≤ straw2Draw hash bucket ids weights' x r i := by
  by_cases hw : weights.getD i 0 = 0
  · rw [straw2Draw_of_zero hash x r hw]
    by_cases hw' : weights'.getD i 0 = 0
    · rw [straw2Draw_of_zero hash x r hw']
    · exact (s64Min_lt_straw2Draw hash x r hw').le
  · have hw' : weights'.getD i 0 ≠ 0 := by
      intro h0
      rw [h0] at h
      exact hw (UInt32.le_zero_iff.mp h)
    rw [straw2Draw, straw2Draw, if_pos hw, if_pos hw']
    exact generateExponentialDistribution_mono hash _ _ _ _ hw h

/-! ## The first greatest draw -/

/-- **If one draw grows, the first greatest one stays, or it is the one that grew.** -/
theorem firstGreatest_of_grown {α : Type} [LinearOrder α] {draw draw' : Fin bucket.size → α}
    {i : Fin bucket.size} (hi : draw i ≤ draw' i) (hother : ∀ j, j ≠ i → draw' j = draw j) :
    firstGreatest bucket draw' = firstGreatest bucket draw ∨
      firstGreatest bucket draw' = some i := by
  cases hhigh : firstGreatest bucket draw' with
  | none =>
    have hnil : List.finRange bucket.size = [] := argmax_eq_none.mp hhigh
    exact absurd (mem_finRange i) (by rw [hnil]; exact not_mem_nil)
  | some h =>
    by_cases hne : h = i
    · exact .inr (congrArg some hne)
    · obtain ⟨hmem, hmax, hfirst⟩ := mem_argmax_iff.mp (Option.mem_def.mpr hhigh)
      have hgrow : ∀ j, draw j ≤ draw' j := by
        intro j
        by_cases hj : j = i
        · exact hj ▸ hi
        · exact (hother j hj).ge
      -- what is the first greatest after the growth was so before
      refine .inl (Option.mem_def.mp (mem_argmax_iff.mpr ⟨hmem, ?_, ?_⟩)).symm
      · intro j hj
        exact (hgrow j).trans ((hmax j hj).trans (hother h hne).le)
      · intro j hj hle
        exact hfirst j hj (((hother h hne).le.trans hle).trans (hgrow j))

theorem le_of_firstGreatest {α : Type} [LinearOrder α] {draw : Fin bucket.size → α}
    {h : Fin bucket.size} (hhigh : firstGreatest bucket draw = some h) (j : Fin bucket.size) :
    draw j ≤ draw h :=
  le_of_mem_argmax (mem_finRange j) (Option.mem_def.mpr hhigh)

/-! ## Minimal movement -/

/-- If one weight in use grows, the choice stays, or it is the item of that weight. -/
theorem straw2High_of_grown {itemWeights itemWeights' : List UInt32} {arg arg' : Option ChooseArg}
    {position : ℕ} {i : Fin bucket.size}
    (hids : getChooseArgIds bucket arg' = getChooseArgIds bucket arg)
    (hi : (getChooseArgWeights itemWeights arg position).getD i 0 ≤
      (getChooseArgWeights itemWeights' arg' position).getD i 0)
    (hother : ∀ j : Fin bucket.size, j ≠ i → (getChooseArgWeights itemWeights' arg' position).getD
      j 0 = (getChooseArgWeights itemWeights arg position).getD j 0) :
    straw2High hash bucket itemWeights' x r arg' position =
        straw2High hash bucket itemWeights x r arg position ∨
      straw2High hash bucket itemWeights' x r arg' position = some i := by
  rw [straw2High, straw2High, hids]
  refine firstGreatest_of_grown (straw2Draw_mono hash x r hi) fun j hj => ?_
  rw [straw2Draw, straw2Draw, hother j hj]

theorem getD_set_ne (weights : List UInt32) (w : UInt32) {i j : ℕ} (h : j ≠ i) :
    (weights.set i w).getD j 0 = weights.getD j 0 := by
  rw [getD_eq_getElem?_getD, getElem?_set_ne h.symm, getD_eq_getElem?_getD]

theorem getD_set_self (weights : List UInt32) (w : UInt32) (i : ℕ) :
    (weights.set i w).getD i 0 = w ∨ (weights.set i w).getD i 0 = weights.getD i 0 := by
  by_cases h : i < weights.length
  · left
    simp [getD_eq_getElem?_getD, h]
  · right
    rw [set_eq_of_length_le (not_lt.mp h)]

/-- **Straw2 moves data minimally.** Two buckets have the same items, and the weights in use, its
own or those of the choose argument, differ at one item. -/
theorem straw2_moves_minimally (hash : Hash) (bucket : Bucket)
    (itemWeights itemWeights' : List UInt32) (arg arg' : Option ChooseArg) (position : ℕ)
    (x r : ℤ) (i : Fin bucket.size) (w : UInt32)
    (hids : getChooseArgIds bucket arg' = getChooseArgIds bucket arg)
    (hw : getChooseArgWeights itemWeights' arg' position =
      (getChooseArgWeights itemWeights arg position).set i w) :
    ((getChooseArgWeights itemWeights arg position).getD i 0 ≤ w →
      bucketStraw2Choose hash bucket itemWeights' x r arg' position =
          bucketStraw2Choose hash bucket itemWeights x r arg position ∨
        bucketStraw2Choose hash bucket itemWeights' x r arg' position =
          some (bucket.items.get i)) ∧
    (w ≤ (getChooseArgWeights itemWeights arg position).getD i 0 →
      bucketStraw2Choose hash bucket itemWeights' x r arg' position ≠
          bucketStraw2Choose hash bucket itemWeights x r arg position →
        bucketStraw2Choose hash bucket itemWeights x r arg position =
          some (bucket.items.get i)) ∧
    (∀ j, straw2High hash bucket itemWeights x r arg position = some j →
      (getChooseArgWeights itemWeights arg position).getD j 0 = 0 →
        ∀ k : Fin bucket.size, (getChooseArgWeights itemWeights arg position).getD k 0 = 0) := by
  have hother : ∀ j : Fin bucket.size, j ≠ i →
      (getChooseArgWeights itemWeights' arg' position).getD j 0 =
        (getChooseArgWeights itemWeights arg position).getD j 0 := by
    intro j hj
    rw [hw]
    exact getD_set_ne _ w fun h => hj (Fin.ext h)
  have hself := getD_set_self (getChooseArgWeights itemWeights arg position) w i
  rw [← hw] at hself
  refine ⟨fun hgrow => ?_, fun hshrink hmoved => ?_, fun j hj hzero k => ?_⟩
  · have hi : (getChooseArgWeights itemWeights arg position).getD i 0 ≤
        (getChooseArgWeights itemWeights' arg' position).getD i 0 := by
      rcases hself with h | h
      · rwa [h]
      · exact h ▸ UInt32.le_refl _
    rw [bucketStraw2Choose, bucketStraw2Choose]
    rcases straw2High_of_grown hash x r hids hi hother with h | h
    · exact .inl (by rw [h])
    · exact .inr (by rw [h]; rfl)
  · have hi : (getChooseArgWeights itemWeights' arg' position).getD i 0 ≤
        (getChooseArgWeights itemWeights arg position).getD i 0 := by
      rcases hself with h | h
      · rwa [h]
      · exact h ▸ UInt32.le_refl _
    -- read backwards, the weight has grown
    rw [bucketStraw2Choose, bucketStraw2Choose] at hmoved
    rcases straw2High_of_grown hash x r hids.symm hi (fun j hj => (hother j hj).symm) with h | h
    · exact absurd (by rw [h]) hmoved
    · rw [bucketStraw2Choose, h]
      rfl
  · by_contra hk
    have hle := le_of_firstGreatest hj k
    rw [straw2Draw_of_zero hash x r hzero] at hle
    exact absurd hle (not_le.mpr (s64Min_lt_straw2Draw hash x r hk))

/-- The weight of the second of two items grows into the upper half, and the choice moves to it. -/
theorem straw2_moves_minimally_two_items :
    let bucket : Bucket := ⟨-1, 1, .straw2 [0x10000, 0x10000], 0, [3, 5]⟩
    let hash : Hash :=
      ⟨fun _ _ _ => 0, fun _ _ y _ => if y = 3 then 0x100 else 0, fun _ _ _ _ _ => 0⟩
    bucketStraw2Choose hash bucket [0x10000, 0x10000] 0 0 none 0 = some 3 ∧
      bucketStraw2Choose hash bucket [0x10000, 0x80000000] 0 0 none 0 = some 5 ∧
      (bucketStraw2Choose hash bucket [0x10000, 0x80000000] 0 0 none 0 =
          bucketStraw2Choose hash bucket [0x10000, 0x10000] 0 0 none 0 ∨
        bucketStraw2Choose hash bucket [0x10000, 0x80000000] 0 0 none 0 = some 5) :=
  ⟨by decide +kernel, by decide +kernel,
    (straw2_moves_minimally _ _ [0x10000, 0x10000] [0x10000, 0x80000000] none none 0 0 0
      ⟨1, by decide⟩ 0x80000000 rfl rfl).1 (by decide)⟩

/-- **Data moves only out of items that lose weight or into items that gain some**, however many
weights change at once. -/
theorem straw2_moves_between_reweighted {itemWeights itemWeights' : List UInt32}
    {arg arg' : Option ChooseArg} {position : ℕ} {i j : Fin bucket.size}
    (hids : getChooseArgIds bucket arg' = getChooseArgIds bucket arg)
    (hi : straw2High hash bucket itemWeights x r arg position = some i)
    (hj : straw2High hash bucket itemWeights' x r arg' position = some j) (hmoved : i ≠ j) :
    (getChooseArgWeights itemWeights' arg' position).getD i 0 <
        (getChooseArgWeights itemWeights arg position).getD i 0 ∨
      (getChooseArgWeights itemWeights arg position).getD j 0 <
        (getChooseArgWeights itemWeights' arg' position).getD j 0 := by
  by_contra hkept
  obtain ⟨hout, hin⟩ := not_or.mp hkept
  have hout := UInt32.not_lt.mp hout
  have hin := UInt32.not_lt.mp hin
  rw [straw2High, hids] at hj
  obtain ⟨-, -, hfirst⟩ := mem_argmax_iff.mp (Option.mem_def.mpr hi)
  obtain ⟨-, -, hfirst'⟩ := mem_argmax_iff.mp (Option.mem_def.mpr hj)
  -- `i` draws no less than before and `j` no more, so both are the greatest, before and after
  have hij := hfirst j (mem_finRange j) (calc
    _ ≤ _ := straw2Draw_mono hash x r hout
    _ ≤ _ := le_of_firstGreatest hj i
    _ ≤ _ := straw2Draw_mono hash x r hin)
  have hji := hfirst' i (mem_finRange i) (calc
    _ ≤ _ := straw2Draw_mono hash x r hin
    _ ≤ _ := le_of_firstGreatest hi j
    _ ≤ _ := straw2Draw_mono hash x r hout)
  exact hmoved ((idxOf_inj (mem_finRange i)).mp (hij.antisymm hji))

/-- Both weights fall, and the choice moves out of the item that is left with none. -/
theorem straw2_moves_between_reweighted_two_items :
    let bucket : Bucket := ⟨-1, 1, .straw2 [], 0, [3, 5]⟩
    let hash : Hash :=
      ⟨fun _ _ _ => 0, fun _ _ y _ => if y = 3 then 0x100 else 0, fun _ _ _ _ _ => 0⟩
    ∃ i j : Fin bucket.size, straw2High hash bucket [0x10000, 0x10000] 0 0 none 0 = some i ∧
      straw2High hash bucket [0, 0x8000] 0 0 none 0 = some j ∧
      (([0, 0x8000] : List UInt32).getD i 0 < [0x10000, 0x10000].getD i 0 ∨
        ([0x10000, 0x10000] : List UInt32).getD j 0 < [0, 0x8000].getD j 0) := by
  intro bucket hash
  have hi : straw2High hash bucket [0x10000, 0x10000] 0 0 none 0 = some ⟨0, by decide⟩ := by
    decide +kernel
  have hj : straw2High hash bucket [0, 0x8000] 0 0 none 0 = some ⟨1, by decide⟩ := by
    decide +kernel
  exact ⟨_, _, hi, hj, straw2_moves_between_reweighted hash 0 0 rfl hi hj (by decide)⟩

end Ceph.Crush
