import Ceph.Crush.Bucket
import Mathlib

set_option autoImplicit false

/-! # The permutation of a bucket

`bucket_perm_choose` keeps a part of a permutation between its calls. It goes on with what it finds
in the working area, starts anew if the input is another one, and has a shortcut for the first
replica, which leaves one entry and a magic number behind. None of this can be seen from outside:
the answers are those of one permutation for each input, computed afresh (`order`).

A bucket of more than 65535 items can come to the magic number by counting. The clean-up then starts
over from the first entry, which is the right one.
-/

namespace Ceph.Crush

open List

variable (hash : Hash) (bucket : Bucket)

/-- The working area when `k` entries for `x` have been computed, and nothing else. -/
def fresh (x : Int32) (k : ℕ) : WorkBucket :=
  (permStep hash bucket x.toInt)^[k] ⟨(x.toInt % 2 ^ 32).toNat, 0, List.range bucket.size⟩

/-- The items in the order of the permutation for `x`. -/
def order (x : Int32) : List ℤ :=
  (fresh hash bucket x bucket.size).perm.map fun s => bucket.items.getD s 0

/-- The answers to calls of `bucket_perm_choose`, one after the other. -/
def permAnswers (work : WorkBucket) : List (Int32 × Int32) → Option (List ℤ)
  | [] => some []
  | (x, r) :: calls => do
    let (item, work) ← bucketPermChoose hash bucket work x.toInt r.toInt
    let items ← permAnswers work calls
    some (item :: items)

/-- `r % bucket->size`, where `r` becomes unsigned. -/
def replica (r : Int32) : ℕ := (r.toInt % 2 ^ 32).toNat % bucket.size

variable {hash bucket}

theorem replica_ofNat {r : ℕ} (hr : r < 2 ^ 31) :
    replica bucket (Int32.ofNat r) = r % bucket.size := by
  rw [replica, Int32.toInt_ofNat_of_lt hr]
  congr 1
  omega

/-! ## One turn -/

@[simp] theorem permN_permStep (x : ℤ) (work : WorkBucket) :
    (permStep hash bucket x work).permN = work.permN + 1 := by
  rw [permStep]
  split
  · rfl
  · rfl

@[simp] theorem permX_permStep (x : ℤ) (work : WorkBucket) :
    (permStep hash bucket x work).permX = work.permX := by
  rw [permStep]
  split
  · rfl
  · rfl

theorem perm_permStep {x : ℤ} {work : WorkBucket} (hlen : work.perm.length = bucket.size) :
    (permStep hash bucket x work).perm.Perm work.perm := by
  rw [permStep]
  dsimp only
  split
  · rename_i hp
    set i := (hash.hash3 bucket.hash x bucket.id work.permN).toNat % (bucket.size - work.permN)
    have hi : i < bucket.size - work.permN := Nat.mod_lt _ (by omega)
    have hfirst : work.permN < work.perm.length := by omega
    have hsecond : work.permN + i < work.perm.length := by omega
    rw [getD_eq_getElem _ _ hfirst, getD_eq_getElem _ _ hsecond]
    exact set_set_perm hsecond hfirst
  · exact List.Perm.refl _

theorem getD_permStep {x : ℤ} {work : WorkBucket} {i : ℕ} (hi : i < work.permN) :
    (permStep hash bucket x work).perm.getD i 0 = work.perm.getD i 0 := by
  rw [permStep]
  split
  · rw [getD_eq_getElem?_getD, getElem?_set_ne (by omega),
      getElem?_set_ne (by omega), getD_eq_getElem?_getD]
  · rfl

/-! ## A fresh computation -/

variable (x : Int32)

theorem fresh_succ (k : ℕ) :
    fresh hash bucket x (k + 1) = permStep hash bucket x.toInt (fresh hash bucket x k) :=
  Function.iterate_succ_apply' ..

@[simp] theorem permN_fresh (k : ℕ) : (fresh hash bucket x k).permN = k := by
  induction k with
  | zero => rfl
  | succ k ih => rw [fresh_succ, permN_permStep, ih]

@[simp] theorem permX_fresh (k : ℕ) : (fresh hash bucket x k).permX = (x.toInt % 2 ^ 32).toNat := by
  induction k with
  | zero => rfl
  | succ k ih => rw [fresh_succ, permX_permStep, ih]

theorem perm_fresh (k : ℕ) : (fresh hash bucket x k).perm.Perm (List.range bucket.size) := by
  induction k with
  | zero => exact List.Perm.refl _
  | succ k ih =>
    rw [fresh_succ]
    refine (perm_permStep ?_).trans ih
    rw [ih.length_eq, length_range]

@[simp] theorem length_perm_fresh (k : ℕ) : (fresh hash bucket x k).perm.length = bucket.size := by
  rw [(perm_fresh x k).length_eq, length_range]

theorem getD_fresh {x : Int32} {i k m : ℕ} (hi : i < k) (hk : k ≤ m) :
    (fresh hash bucket x m).perm.getD i 0 = (fresh hash bucket x k).perm.getD i 0 := by
  induction m, hk using Nat.le_induction with
  | base => rfl
  | succ m hk ih =>
    rw [fresh_succ, getD_permStep, ih]
    rw [permN_fresh]
    omega

theorem permUpTo_fresh (pr k : ℕ) :
    permUpTo hash bucket x.toInt pr (fresh hash bucket x k) =
      fresh hash bucket x (max k (pr + 1)) := by
  rw [permUpTo, permN_fresh, fresh, ← Function.iterate_add_apply, ← fresh]
  congr 1
  omega

/-- The first turn. This is also what the clean-up after the shortcut makes. -/
theorem fresh_one (hsize : 0 < bucket.size) :
    fresh hash bucket x 1 = ⟨(x.toInt % 2 ^ 32).toNat, 1, ((List.range bucket.size).set 0
      ((hash.hash3 bucket.hash x.toInt bucket.id 0).toNat % bucket.size)).set
      ((hash.hash3 bucket.hash x.toInt bucket.id 0).toNat % bucket.size) 0⟩ := by
  show permStep hash bucket x.toInt ⟨_, 0, List.range bucket.size⟩ = _
  rw [permStep]
  dsimp only
  rw [Nat.sub_zero, Nat.zero_add, Nat.cast_zero]
  set s := (hash.hash3 bucket.hash x.toInt bucket.id 0).toNat % bucket.size
  have hlt : s < bucket.size := Nat.mod_lt _ hsize
  by_cases hone : 0 < bucket.size - 1
  · rw [if_pos hone, getD_eq_getElem _ _ (by simpa using hsize),
      getD_eq_getElem _ _ (by simpa using hlt), getElem_range, getElem_range,
      Nat.zero_add]
    congr 1
    by_cases hzero : s = 0
    · rw [hzero]
    · exact set_comm _ _ hzero
  · -- a bucket of one item
    have hsize1 : bucket.size = 1 := by omega
    have hzero : s = 0 := by omega
    rw [if_neg hone, hzero, hsize1]
    rfl

theorem getD_fresh_zero {x : Int32} {k : ℕ} (hsize : 0 < bucket.size) (hk : 0 < k) :
    (fresh hash bucket x k).perm.getD 0 0 =
      (hash.hash3 bucket.hash x.toInt bucket.id 0).toNat % bucket.size := by
  rw [getD_fresh Nat.one_pos hk, fresh_one x hsize]
  set s := (hash.hash3 bucket.hash x.toInt bucket.id 0).toNat % bucket.size
  rw [getD_eq_getElem?_getD]
  by_cases hzero : s = 0
  · rw [hzero, getElem?_set_self (by simpa using hsize)]
    rfl
  · rw [getElem?_set_ne hzero, getElem?_set_self (by simpa using hsize)]
    rfl

/-! ## The order -/

theorem order_perm : (order hash bucket x).Perm bucket.items := by
  refine ((perm_fresh x bucket.size).map _).trans (List.Perm.of_eq ?_)
  apply ext_getElem
  · rw [length_map, length_range]
    rfl
  · intro i hi _
    rw [length_map, length_range] at hi
    rw [getElem_map, getElem_range]
    exact getD_eq_getElem _ _ hi

theorem getElem?_fresh (hash : Hash) (x : Int32) {i k : ℕ} (hi : i < bucket.size) (hk : i < k) :
    bucket.items[(fresh hash bucket x k).perm.getD i 0]? =
      some ((order hash bucket x).getD i 0) := by
  have hsame : (fresh hash bucket x k).perm.getD i 0 =
      (fresh hash bucket x bucket.size).perm.getD i 0 := by
    rcases le_total k bucket.size with hle | hle
    · exact (getD_fresh hk hle).symm
    · exact getD_fresh hi hle
  have hlen : i < (fresh hash bucket x bucket.size).perm.length := by rwa [length_perm_fresh]
  have hlt : (fresh hash bucket x bucket.size).perm.getD i 0 < bucket.items.length := by
    rw [getD_eq_getElem _ _ hlen]
    exact mem_range.mp ((perm_fresh x bucket.size).mem_iff.mp (getElem_mem hlen))
  have hentry : (order hash bucket x).getD i 0 =
      bucket.items.getD ((fresh hash bucket x bucket.size).perm.getD i 0) 0 := by
    rw [order, getD_eq_getElem _ _ (by simpa using hi), getElem_map,
      getD_eq_getElem _ 0 hlen]
  rw [hsame, hentry, getElem?_eq_getElem hlt, getD_eq_getElem _ _ hlt]

/-! ## The working area -/

/-- **The working area agrees with a fresh computation**: with the one for the input that it is for,
or, after the shortcut, with its first entry. -/
structure Agrees (hash : Hash) (bucket : Bucket) (work : WorkBucket) : Prop where
  length : work.perm.length = bucket.size
  known : work.permN ≠ 0 → ∃ x : Int32, work.permX = (x.toInt % 2 ^ 32).toNat ∧
    work.perm.getD 0 0 = (hash.hash3 bucket.hash x.toInt bucket.id 0).toNat % bucket.size ∧
    (work.permN ≠ permMagic → work = fresh hash bucket x work.permN)

theorem agrees_fresh {x : Int32} {k : ℕ} (hsize : 0 < bucket.size) (hk : 0 < k) :
    Agrees hash bucket (fresh hash bucket x k) := by
  refine ⟨length_perm_fresh x k, fun _ => ⟨x, permX_fresh x k, ?_, fun _ => ?_⟩⟩
  · exact getD_fresh_zero hsize hk
  · rw [permN_fresh]

/-- Numbers of 32 bits are told apart by what `perm_x` keeps of them. -/
theorem Int32.eq_of_unsigned_eq {x y : Int32}
    (h : (x.toInt % 2 ^ 32).toNat = (y.toInt % 2 ^ 32).toNat) : x = y := by
  have hx := x.le_toInt
  have hx' := x.toInt_lt
  have hy := y.le_toInt
  have hy' := y.toInt_lt
  apply Int32.toInt_inj.mp
  omega

theorem finish_fresh {x : Int32} {pr k : ℕ} (hpr : pr < bucket.size) :
    ∃ work', (bucket.items[(permUpTo hash bucket x.toInt pr
          (fresh hash bucket x k)).perm.getD pr 0]?).map
        (·, permUpTo hash bucket x.toInt pr (fresh hash bucket x k)) =
      some ((order hash bucket x).getD pr 0, work') ∧ Agrees hash bucket work' := by
  refine ⟨fresh hash bucket x (max k (pr + 1)), ?_, agrees_fresh (by omega) (by omega)⟩
  rw [permUpTo_fresh, getElem?_fresh hash x hpr (by omega), Option.map_some]

/-- **One call.** The answer is that of the order of the input. -/
theorem bucketPermChoose_spec {work : WorkBucket} (hsize : 0 < bucket.size)
    (h : Agrees hash bucket work) (x r : Int32) :
    ∃ work', bucketPermChoose hash bucket work x.toInt r.toInt =
        some ((order hash bucket x).getD (replica bucket r) 0, work') ∧
      Agrees hash bucket work' := by
  have hpr : replica bucket r < bucket.size := Nat.mod_lt _ hsize
  rw [bucketPermChoose, if_neg hsize.ne', ← replica]
  dsimp only
  by_cases hnew : work.permX ≠ (x.toInt % 2 ^ 32).toNat ∨ work.permN = 0
  · rw [if_pos hnew]
    by_cases hfirst : replica bucket r = 0
    · -- the shortcut: the answer is the first entry of a fresh computation
      have hanswer := getElem?_fresh hash x hsize Nat.one_pos
      rw [getD_fresh_zero hsize Nat.one_pos] at hanswer
      rw [if_pos hfirst, hanswer, hfirst, Option.map_some]
      refine ⟨_, rfl, by rw [length_set, h.length], fun _ => ⟨x, rfl, ?_, ?_⟩⟩
      · rw [getD_eq_getElem?_getD, getElem?_set_self (by rw [h.length]; exact hsize)]
        rfl
      · exact fun hmagic => absurd rfl hmagic
    · rw [if_neg hfirst]
      exact finish_fresh (k := 0) hpr
  · rw [if_neg hnew]
    rw [not_or, not_not] at hnew
    -- the working area is for this input
    obtain ⟨y, hy, hentry, hsame⟩ := h.known hnew.2
    obtain rfl : y = x := Int32.eq_of_unsigned_eq (hy.symm.trans hnew.1)
    by_cases hmagic : work.permN = permMagic
    · rw [if_pos hmagic, hentry, hy, ← fresh_one y hsize]
      exact finish_fresh (k := 1) hpr
    · rw [if_neg hmagic, hsame hmagic]
      exact finish_fresh hpr

theorem permAnswers_spec {work : WorkBucket} (hsize : 0 < bucket.size)
    (h : Agrees hash bucket work) (calls : List (Int32 × Int32)) :
    permAnswers hash bucket work calls =
      some (calls.map fun c => (order hash bucket c.1).getD (replica bucket c.2) 0) := by
  induction calls generalizing work with
  | nil => rfl
  | cons c calls ih =>
    obtain ⟨work', hcall, hagrees⟩ := bucketPermChoose_spec hsize h c.1 c.2
    rw [permAnswers, hcall]
    simp only [Option.bind_eq_bind, Option.bind_some, ih hagrees, map_cons]

/-- **The cached permutation is a function.** For each input there is an order of the items, such
that calls of `bucket_perm_choose` with any inputs and replica numbers, on a new working area with
anything in its entries, answer the item at the place of the replica number. As many replicas as the
bucket has items, one after the other, give all of them. -/
theorem bucketPermChoose_is_function (hash : Hash) (bucket : Bucket) (hsize : 0 < bucket.size) :
    ∃ P : Int32 → List ℤ, (∀ x, (P x).Perm bucket.items) ∧
      (∀ (perm : List ℕ) (calls : List (Int32 × Int32)), perm.length = bucket.size →
        permAnswers hash bucket ⟨0, 0, perm⟩ calls =
          some (calls.map fun c => (P c.1).getD (replica bucket c.2) 0)) ∧
      ∀ (x : Int32) (r : ℕ), r + bucket.size ≤ 2 ^ 31 →
        ((List.range bucket.size).map fun i =>
          (P x).getD (replica bucket (Int32.ofNat (r + i))) 0).Perm bucket.items := by
  refine ⟨order hash bucket, order_perm, ?_, fun x r hr => ?_⟩
  · intro perm calls hlen
    exact permAnswers_spec hsize ⟨hlen, fun h => absurd rfl h⟩ calls
  · have hlen : (order hash bucket x).length = bucket.size := (order_perm x).length_eq
    have hrotate : ((List.range bucket.size).map fun i => (order hash bucket x).getD
        (replica bucket (Int32.ofNat (r + i))) 0) = (order hash bucket x).rotate r := by
      apply ext_getElem
      · rw [length_map, length_range, length_rotate, hlen]
      · intro i hi _
        rw [length_map, length_range] at hi
        rw [getElem_map, getElem_range, getElem_rotate, replica_ofNat (by omega),
          getD_eq_getElem _ _ (by rw [hlen]; exact Nat.mod_lt _ hsize)]
        simp only [hlen, Nat.add_comm]
    rw [hrotate]
    exact (rotate_perm _ _).trans (order_perm x)

/-- Two items, and a hash that always swaps them. -/
theorem bucketPermChoose_is_function_two_items :
    let bucket : Bucket := ⟨-1, 1, .uniform, 0, [10, 11]⟩
    let hash : Hash := ⟨fun _ _ _ => 1, fun _ _ _ _ => 1, fun _ _ _ _ _ => 1⟩
    0 < bucket.size ∧ ∃ P : Int32 → List ℤ, (∀ x, (P x).Perm [10, 11]) ∧
      permAnswers hash bucket ⟨0, 0, [7, 7]⟩ [(5, 0), (6, 1), (5, 1)] =
        some [(P 5).getD 0 0, (P 6).getD 1 0, (P 5).getD 1 0] := by
  intro bucket hash
  obtain ⟨P, hperm, hanswers, -⟩ := bucketPermChoose_is_function hash bucket (by decide)
  exact ⟨by decide, P, hperm, hanswers [7, 7] [(5, 0), (6, 1), (5, 1)] rfl⟩

end Ceph.Crush
