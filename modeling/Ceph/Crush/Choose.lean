import Ceph.Crush.Bucket
import Mathlib.Tactic.Ring

set_option autoImplicit false

/-! # A bucket chooses one of its items

Whatever the hash functions give, `crush_bucket_choose` and `bucket_perm_choose` answer an item of
the bucket (`crushBucketChoose_mem`, `bucketPermChoose_mem`). Two things are needed for that. The
permutation in the working area has to be what earlier choices left there (`WorkBucket.Ok`). And a
tree bucket has to have sums of weights at its inner nodes, with a weight at the root (`TreeOk`):
without, the descent may come to a leaf that has no item.
-/

namespace Ceph.Crush

open Option List

variable {hash : Hash} {bucket : Bucket}

/-! ## Permutations -/

/-- **The working area of a bucket**: no permutation is known; or its first entry is that of an item;
and so are all entries, except after the shortcut for the first replica. -/
structure WorkBucket.Ok (size : ℕ) (work : WorkBucket) : Prop where
  length : work.perm.length = size
  known : work.permN = 0 ∨
    work.perm.getD 0 0 < size ∧ (work.permN ≠ permMagic → ∀ s ∈ work.perm, s < size)

/-- All entries of the permutation are places of items. -/
structure WorkBucket.Full (size : ℕ) (work : WorkBucket) : Prop where
  length : work.perm.length = size
  lt : ∀ s ∈ work.perm, s < size

variable {nodeWeights : List UInt32} {work : WorkBucket}

theorem WorkBucket.Full.getD_lt {size : ℕ} (h : work.Full size) (hsize : 0 < size) (i : ℕ) :
    work.perm.getD i 0 < size := by
  rw [getD_eq_getElem?_getD]
  cases hs : work.perm[i]? with
  | none => exact hsize
  | some s => exact h.lt s (mem_of_getElem? hs)

theorem WorkBucket.Full.ok {size : ℕ} (h : work.Full size) (hsize : 0 < size) : work.Ok size :=
  ⟨h.length, .inr ⟨h.getD_lt hsize 0, fun _ => h.lt⟩⟩

theorem mem_set_lt {l : List ℕ} {n i s t : ℕ} (hl : ∀ s ∈ l, s < n) (ht : t < n)
    (hs : s ∈ l.set i t) : s < n := by
  rcases mem_or_eq_of_mem_set hs with h | rfl
  · exact hl s h
  · exact ht

theorem permStep_full {x : ℤ} (h : work.Full bucket.size) (hsize : 0 < bucket.size) :
    (permStep hash bucket x work).Full bucket.size := by
  rw [permStep]
  split
  · refine ⟨by simp [h.length], fun s hs => ?_⟩
    refine mem_set_lt (fun s hs => ?_) (h.getD_lt hsize _) hs
    exact mem_set_lt h.lt (h.getD_lt hsize _) hs
  · exact ⟨h.length, h.lt⟩

theorem permUpTo_full {x : ℤ} {pr : ℕ} (h : work.Full bucket.size) (hsize : 0 < bucket.size) :
    (permUpTo hash bucket x pr work).Full bucket.size := by
  rw [permUpTo]
  generalize pr + 1 - work.permN = k
  induction k generalizing work with
  | zero => exact h
  | succ k ih =>
    rw [Function.iterate_succ_apply]
    exact ih (permStep_full h hsize)

/-- The end of `bucket_perm_choose`: the permutation is calculated up to the replica. -/
theorem perm_finish {x : ℤ} {pr : ℕ} (h : work.Full bucket.size) (hsize : 0 < bucket.size) :
    ∃ item work', (bucket.items[(permUpTo hash bucket x pr work).perm.getD pr 0]?).map
        (·, permUpTo hash bucket x pr work) = some (item, work') ∧
      item ∈ bucket.items ∧ work'.Ok bucket.size := by
  have hfull : (permUpTo hash bucket x pr work).Full bucket.size := permUpTo_full h hsize
  have hlt := hfull.getD_lt hsize pr
  refine ⟨bucket.items[(permUpTo hash bucket x pr work).perm.getD pr 0], _, ?_,
    getElem_mem hlt, hfull.ok hsize⟩
  rw [getElem?_eq_getElem hlt, map_some]

/-- **`bucket_perm_choose` answers an item of the bucket.** -/
theorem bucketPermChoose_mem (x r : ℤ) (hsize : 0 < bucket.size) (h : work.Ok bucket.size) :
    ∃ item work',
      bucketPermChoose hash bucket work x r = some (item, work') ∧
        item ∈ bucket.items ∧ work'.Ok bucket.size := by
  rw [bucketPermChoose, if_neg hsize.ne']
  dsimp only
  split
  · split
    · -- the shortcut for the first replica
      have hlt : (hash.hash3 bucket.hash x bucket.id 0).toNat % bucket.size < bucket.items.length :=
        Nat.mod_lt _ hsize
      rw [getElem?_eq_getElem hlt, map_some]
      refine ⟨_, _, rfl, getElem_mem hlt, ?_, ?_⟩
      · rw [length_set, h.length]
      · right
        refine ⟨?_, fun hmagic => absurd rfl hmagic⟩
        rw [getD_eq_getElem?_getD, getElem?_set_self (by rw [h.length]; exact hsize)]
        exact hlt
    · exact perm_finish ⟨length_range, fun s hs => mem_range.mp hs⟩ hsize
  · rename_i hsame
    have hknown := h.known.resolve_left fun h0 => hsame (.inr h0)
    split
    · refine perm_finish ⟨by simp, fun s hs => ?_⟩ hsize
      exact mem_set_lt (fun s hs => mem_set_lt (fun s hs => mem_range.mp hs) hknown.1 hs)
        hsize hs
    · next hmagic => exact perm_finish ⟨h.length, hknown.2 hmagic⟩ hsize

/-! ## Lists and straws -/

theorem listScan_mem {itemWeights sumWeights : List UInt32} (x r : ℤ) (hsize : 0 < bucket.size)
    {i : ℕ} (hi : i ≤ bucket.size) :
    ∃ item, listScan hash bucket itemWeights sumWeights x r i = some item ∧
      item ∈ bucket.items := by
  induction i with
  | zero =>
    exact ⟨bucket.items[0], getElem?_eq_getElem hsize, getElem_mem hsize⟩
  | succ i ih =>
    have hlt : i < bucket.items.length := hi
    rw [listScan, getElem?_eq_getElem hlt]
    simp only [bind_eq_bind, bind_some]
    split
    · exact ⟨bucket.items[i], rfl, getElem_mem hlt⟩
    · exact ih (by omega)

theorem firstGreatest_mem {α : Type} [LinearOrder α] (draw : Fin bucket.size → α)
    (hsize : 0 < bucket.size) :
    ∃ item, (firstGreatest bucket draw).map bucket.items.get = some item ∧ item ∈ bucket.items := by
  cases h : firstGreatest bucket draw with
  | none =>
    have hnil : List.finRange bucket.size = [] := argmax_eq_none.mp h
    exact absurd (mem_finRange ⟨0, hsize⟩) (by rw [hnil]; exact not_mem_nil)
  | some i => exact ⟨bucket.items.get i, rfl, get_mem bucket.items i⟩

/-! ## Trees -/

/-- **The nodes of a tree bucket**: their number is a power of two, an inner node has the weight of
its two children, a leaf that has a weight has an item, and the root has a weight. -/
structure TreeOk (bucket : Bucket) (numNodes : ℕ) (nodeWeights : List UInt32) : Prop where
  depth : ∃ d, numNodes = 2 ^ (d + 1)
  length : nodeWeights.length = numNodes
  sums : ∀ n, n < numNodes → n % 2 = 0 → n ≠ 0 → (nodeWeights.getD n 0).toNat =
    (nodeWeights.getD (left n) 0).toNat + (nodeWeights.getD (right n) 0).toNat
  leaves : ∀ n, n < numNodes → n % 2 = 1 → nodeWeights.getD n 0 ≠ 0 → n / 2 < bucket.size
  root : nodeWeights.getD (numNodes / 2) 0 ≠ 0

theorem height_eq (q h : ℕ) : height ((2 * q + 1) * 2 ^ h) = h := by
  induction h with
  | zero => rw [height, if_neg (by omega)]
  | succ h ih =>
    have hpos : 0 < (2 * q + 1) * 2 ^ h := Nat.mul_pos (by omega) (Nat.two_pow_pos h)
    have hdouble : (2 * q + 1) * 2 ^ (h + 1) = 2 * ((2 * q + 1) * 2 ^ h) := by ring
    rw [height, hdouble, if_pos (by omega), Nat.mul_div_cancel_left _ (by omega), ih]

theorem left_node (q h : ℕ) : left ((2 * q + 1) * 2 ^ (h + 1)) = (2 * (2 * q) + 1) * 2 ^ h := by
  rw [left, height_eq, Nat.add_sub_cancel]
  have : (2 * (2 * q) + 1) * 2 ^ h + 2 ^ h = (2 * q + 1) * 2 ^ (h + 1) := by ring
  omega

theorem right_node (q h : ℕ) :
    right ((2 * q + 1) * 2 ^ (h + 1)) = (2 * (2 * q + 1) + 1) * 2 ^ h := by
  rw [right, height_eq, Nat.add_sub_cancel]
  ring

/-- The descent from a node that has a weight ends at an item that has a weight. -/
theorem treeDescend_spec {numNodes : ℕ} (x r : ℤ) (hok : TreeOk bucket numNodes nodeWeights)
    {h q fuel n : ℕ} (hn : n = (2 * q + 1) * 2 ^ h) (hin : n + 2 ^ h ≤ numNodes) (hfuel : h < fuel)
    (hw : nodeWeights.getD n 0 ≠ 0) :
    ∃ i < bucket.size, treeDescend hash bucket nodeWeights x r fuel n = bucket.items[i]? ∧
      nodeWeights.getD (2 * i + 1) 0 ≠ 0 := by
  -- down the levels of the tree
  induction h generalizing q fuel n with
  | zero =>
    obtain ⟨fuel, rfl⟩ : ∃ k, fuel = k + 1 := ⟨fuel - 1, by omega⟩
    have hodd : n % 2 = 1 := by omega
    refine ⟨n / 2, hok.leaves n (by omega) hodd hw, by rw [treeDescend, if_pos hodd], ?_⟩
    rwa [show 2 * (n / 2) + 1 = n by omega]
  | succ h ih =>
    obtain ⟨fuel, rfl⟩ : ∃ k, fuel = k + 1 := ⟨fuel - 1, by omega⟩
    have hpos : 0 < 2 ^ h := Nat.two_pow_pos h
    have hn' : n = 2 * ((2 * q + 1) * 2 ^ h) := by rw [hn]; ring
    have hlow : 2 ^ h ≤ (2 * q + 1) * 2 ^ h := Nat.le_mul_of_pos_left _ (by omega)
    have hheight : height n = h + 1 := by rw [hn, height_eq]
    have hleft : left n = (2 * (2 * q) + 1) * 2 ^ h := by rw [hn, left_node]
    have hright : right n = (2 * (2 * q + 1) + 1) * 2 ^ h := by rw [hn, right_node]
    have hleft_le : left n + 2 ^ h ≤ numNodes := by
      rw [left, hheight, Nat.add_sub_cancel]
      omega
    have hright_le : right n + 2 ^ h ≤ numNodes := by
      rw [right, hheight, Nat.add_sub_cancel]
      omega
    have hsum := hok.sums n (by omega) (by omega) (by omega)
    have hlen := hok.length
    -- the point lies below the weight of the node
    have ht : ((hash.hash4 bucket.hash x n r bucket.id).toNat *
        (nodeWeights.getD n 0).toNat) >>> 32 < (nodeWeights.getD n 0).toNat := by
      have hwpos : 0 < (nodeWeights.getD n 0).toNat :=
        Nat.pos_of_ne_zero fun h0 => hw (UInt32.toNat_inj.mp h0)
      rw [Nat.shiftRight_eq_div_pow, Nat.div_lt_iff_lt_mul (Nat.two_pow_pos 32), Nat.mul_comm]
      exact Nat.mul_lt_mul_of_pos_left (UInt32.toNat_lt _) hwpos
    rw [treeDescend, if_neg (by omega), if_neg (by omega),
      getElem?_eq_getElem (show n < nodeWeights.length by omega),
      getElem?_eq_getElem (show left n < nodeWeights.length by omega)]
    simp only [bind_eq_bind, bind_some]
    rw [getD_eq_getElem nodeWeights 0 (show n < nodeWeights.length by omega)] at ht hsum
    rw [getD_eq_getElem nodeWeights 0 (show left n < nodeWeights.length by omega)] at hsum
    split
    · rename_i hgo
      refine ih hleft hleft_le (by omega) ?_
      rw [getD_eq_getElem nodeWeights 0 (show left n < nodeWeights.length by omega)]
      intro h0
      rw [h0] at hgo
      exact Nat.not_lt_zero _ hgo
    · refine ih hright hright_le (by omega) ?_
      intro h0
      rw [h0] at hsum
      simp only [UInt32.toNat_zero, Nat.add_zero] at hsum
      omega

/-- **`bucket_tree_choose` answers an item that has a weight.** -/
theorem bucketTreeChoose_spec {numNodes : ℕ} (hash : Hash) (x r : ℤ)
    (hok : TreeOk bucket numNodes nodeWeights) :
    ∃ i < bucket.size, bucketTreeChoose hash bucket numNodes nodeWeights x r = bucket.items[i]? ∧
      nodeWeights.getD (2 * i + 1) 0 ≠ 0 := by
  obtain ⟨d, hd⟩ := hok.depth
  have hhalf : numNodes / 2 = (2 * 0 + 1) * 2 ^ d := by rw [hd, pow_succ]; omega
  rw [bucketTreeChoose, Nat.shiftRight_eq_div_pow, pow_one]
  refine treeDescend_spec x r hok hhalf ?_ ?_ hok.root
  · rw [hd, pow_succ]
    omega
  · rw [hd]
    exact (Nat.lt_two_pow_self).trans (by rw [pow_succ]; have := Nat.two_pow_pos d; omega)

/-! ## The choice -/

/-- What the choice asks of a bucket: a tree bucket has its sums. -/
def Bucket.Sound (bucket : Bucket) : Prop :=
  match bucket.alg with
  | .tree numNodes nodeWeights => TreeOk bucket numNodes nodeWeights
  | _ => True

/-- **`crush_bucket_choose` answers an item of the bucket.** -/
theorem crushBucketChoose_mem (x r : ℤ) (arg : Option ChooseArg) (position : ℕ)
    (hsize : 0 < bucket.size) (hsound : bucket.Sound) (h : work.Ok bucket.size) :
    ∃ item work', crushBucketChoose hash bucket work x r arg position = some (item, work') ∧
      item ∈ bucket.items ∧ work'.Ok bucket.size := by
  have hmap : ∀ chosen : Option ℤ, (∃ item, chosen = some item ∧ item ∈ bucket.items) →
      ∃ item work', chosen.map (·, work) = some (item, work') ∧ item ∈ bucket.items ∧
        work'.Ok bucket.size := by
    rintro chosen ⟨item, rfl, hitem⟩
    exact ⟨item, work, rfl, hitem, h⟩
  rw [crushBucketChoose, if_neg hsize.ne']
  cases halg : bucket.alg with
  | uniform => exact bucketPermChoose_mem x r hsize h
  | list itemWeights sumWeights => exact hmap _ (listScan_mem x r hsize le_rfl)
  | tree numNodes nodeWeights =>
    have hok : TreeOk bucket numNodes nodeWeights := by simpa [Bucket.Sound, halg] using hsound
    obtain ⟨i, hi, hchoose, -⟩ := bucketTreeChoose_spec hash x r hok
    exact hmap _ ⟨bucket.items[i], hchoose.trans (getElem?_eq_getElem hi),
      getElem_mem hi⟩
  | straw straws => exact hmap _ (firstGreatest_mem _ hsize)
  | straw2 itemWeights => exact hmap _ (firstGreatest_mem _ hsize)
  | unknown =>
    exact hmap _ ⟨bucket.items[0], getElem?_eq_getElem hsize, getElem_mem hsize⟩

end Ceph.Crush
