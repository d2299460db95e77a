import Ceph.Crush.Ln
import Mathlib.Data.List.MinMax
import Mathlib.Data.List.FinRange

set_option autoImplicit false

/-! # Buckets and how they choose

The buckets of a CRUSH map (`crush/crush.h`) and the methods of `crush/mapper.c` that choose an item
of a bucket for an input `x` and a replica number `r`. The hash functions are parameters. An answer
`none` stands for what is not defined in C: an assertion that fails, a read outside of an array, or
a loop that does not end.
-/

namespace Ceph.Crush

/-- `crush_hash32_2`, `crush_hash32_3` and `crush_hash32_4`; their first argument is the type of
the hash. -/
structure Hash where
  hash2 : ℕ → ℤ → ℤ → UInt32
  hash3 : ℕ → ℤ → ℤ → ℤ → UInt32
  hash4 : ℕ → ℤ → ℤ → ℤ → ℤ → UInt32

/-- `CRUSH_ITEM_NONE`: the absence of an item. -/
def itemNone : ℤ := 0x7fffffff

/-- `crush_bucket::alg`, with what the struct of the algorithm adds to `crush_bucket` and the choice
of an item reads. -/
inductive Alg
  | uniform
  | list (itemWeights sumWeights : List UInt32)
  | tree (numNodes : ℕ) (nodeWeights : List UInt32)
  | straw (straws : List UInt32)
  | straw2 (itemWeights : List UInt32)
  | unknown
  deriving DecidableEq, Repr

/-- `crush_bucket`; its `size` is the number of items. -/
structure Bucket where
  id : ℤ
  type : ℕ
  alg : Alg
  hash : ℕ
  items : List ℤ
  deriving DecidableEq, Repr

def Bucket.size (bucket : Bucket) : ℕ := bucket.items.length

/-- `crush_work_bucket`: the part of a permutation of the items that is known. -/
structure WorkBucket where
  permX : ℕ
  permN : ℕ
  perm : List ℕ
  deriving DecidableEq, Repr

/-- `crush_choose_arg`: replacement weights, by position, and ids. -/
structure ChooseArg where
  ids : Option (List ℤ)
  weightSet : Option (List (List UInt32))
  deriving DecidableEq, Repr

variable (hash : Hash) (bucket : Bucket)

/-! ## Permutations -/

/-- One turn of the loop of `bucket_perm_choose`: one more entry of the permutation is known. -/
def permStep (x : ℤ) (work : WorkBucket) : WorkBucket :=
  let p := work.permN
  -- no point in swapping the final entry
  if p < bucket.size - 1 then
    let i := (hash.hash3 bucket.hash x bucket.id p).toNat % (bucket.size - p)
    { work with
      permN := p + 1
      perm := (work.perm.set (p + i) (work.perm.getD p 0)).set p (work.perm.getD (p + i) 0) }
  else { work with permN := p + 1 }

/-- The loop of `bucket_perm_choose`: calculate permutation up to `pr`. -/
def permUpTo (x : ℤ) (pr : ℕ) (work : WorkBucket) : WorkBucket :=
  (permStep hash bucket x)^[pr + 1 - work.permN] work

/-- The value of `perm_n` after the shortcut for the first replica. -/
def permMagic : ℕ := 0xffff

def bucketPermChoose (work : WorkBucket) (x r : ℤ) : Option (ℤ × WorkBucket) :=
  if bucket.size = 0 then none
  else
    let pr := (r % 2 ^ 32).toNat % bucket.size
    let finish (work : WorkBucket) :=
      let work := permUpTo hash bucket x pr work
      (bucket.items[work.perm.getD pr 0]?).map (·, work)
    -- start a new permutation if x has changed
    if work.permX ≠ (x % 2 ^ 32).toNat ∨ work.permN = 0 then
      -- optimize common r=0 case
      if pr = 0 then
        let s := (hash.hash3 bucket.hash x bucket.id 0).toNat % bucket.size
        (bucket.items[s]?).map (·, ⟨(x % 2 ^ 32).toNat, permMagic, work.perm.set 0 s⟩)
      else finish ⟨(x % 2 ^ 32).toNat, 0, List.range bucket.size⟩
    else if work.permN = permMagic then
      -- clean up after the r=0 case above
      let s := work.perm.getD 0 0
      finish { work with
        permN := 1
        perm := ((List.range bucket.size).set 0 s).set s 0 }
    else finish work

/-! ## Lists -/

/-- The loop of `bucket_list_choose`, for the first items of the list. -/
def listScan (itemWeights sumWeights : List UInt32) (x r : ℤ) : ℕ → Option ℤ
  | 0 => bucket.items[0]?
  | i + 1 => do
    let item ← bucket.items[i]?
    let w := (hash.hash4 bucket.hash x item r bucket.id).toNat &&& 0xffff
    if (w * (sumWeights.getD i 0).toNat) >>> 16 < (itemWeights.getD i 0).toNat then some item
    else listScan itemWeights sumWeights x r i

def bucketListChoose (itemWeights sumWeights : List UInt32) (x r : ℤ) : Option ℤ :=
  listScan hash bucket itemWeights sumWeights x r bucket.size

/-! ## Trees -/

/-- `height`: how often a node is divisible by two. -/
def height (n : ℕ) : ℕ :=
  if n ≠ 0 ∧ n % 2 = 0 then height (n / 2) + 1 else 0
termination_by n
decreasing_by omega

def left (x : ℕ) : ℕ := x - 2 ^ (height x - 1)

def right (x : ℕ) : ℕ := x + 2 ^ (height x - 1)

/-- The loop of `bucket_tree_choose`, down from a node. -/
def treeDescend (nodeWeights : List UInt32) (x r : ℤ) : ℕ → ℕ → Option ℤ
  | 0, _ => none
  | fuel + 1, n =>
    if n % 2 = 1 then bucket.items[n / 2]?
    -- `height` does not return
    else if n = 0 then none
    else do
      -- pick point in [0, w)
      let w ← nodeWeights[n]?
      let t := ((hash.hash4 bucket.hash x n r bucket.id).toNat * w.toNat) >>> 32
      let l ← nodeWeights[left n]?
      treeDescend nodeWeights x r fuel (if t < l.toNat then left n else right n)

/-- `bucket_tree_choose`. A node lies as many levels above the leaves as its height says, which is
less than the number of nodes. -/
def bucketTreeChoose (numNodes : ℕ) (nodeWeights : List UInt32) (x r : ℤ) : Option ℤ :=
  treeDescend hash bucket nodeWeights x r (numNodes + 1) (numNodes >>> 1)

/-! ## Straws -/

/-- The item with the first of the greatest draws. -/
def firstGreatest {α : Type} [LinearOrder α] (draw : Fin bucket.size → α) :
    Option (Fin bucket.size) :=
  (List.finRange bucket.size).argmax draw

def bucketStrawChoose (straws : List UInt32) (x r : ℤ) : Option ℤ :=
  (firstGreatest bucket fun i =>
    ((hash.hash3 bucket.hash x (bucket.items.get i) r).toNat &&& 0xffff) *
      (straws.getD i 0).toNat).map bucket.items.get

def getChooseArgWeights (itemWeights : List UInt32) (arg : Option ChooseArg) (position : ℕ) :
    List UInt32 :=
  match arg.bind ChooseArg.weightSet with
  | none => itemWeights
  | some weightSet => weightSet.getD (min position (weightSet.length - 1)) []

def getChooseArgIds (arg : Option ChooseArg) : List ℤ :=
  (arg.bind ChooseArg.ids).getD bucket.items

/-- `generate_exponential_distribution`. The weight is passed as an `int`: the upper half of its
values become negative. -/
def generateExponentialDistribution (type : ℕ) (x y z : ℤ) (weight : UInt32) : ℤ :=
  let u := (hash.hash3 type x y z).toNat &&& 0xffff
  -- the natural log lookup table maps [0,0xffff] to [0, 0xffffffffffff]
  let ln : ℤ := crushLn u - 0x1000000000000
  -- divide by 16.16 fixed-point weight
  ln.tdiv weight.toBitVec.toInt

def s64Min : ℤ := -2 ^ 63

/-- The draw of an item in `bucket_straw2_choose`. -/
def straw2Draw (ids : List ℤ) (weights : List UInt32) (x r : ℤ) (i : Fin bucket.size) : ℤ :=
  if weights.getD i 0 ≠ 0 then
    generateExponentialDistribution hash bucket.hash x (ids.getD i 0) r (weights.getD i 0)
  else s64Min

/-- `high` at the end of `bucket_straw2_choose`. -/
def straw2High (itemWeights : List UInt32) (x r : ℤ) (arg : Option ChooseArg) (position : ℕ) :
    Option (Fin bucket.size) :=
  firstGreatest bucket
    (straw2Draw hash bucket (getChooseArgIds bucket arg)
      (getChooseArgWeights itemWeights arg position) x r)

def bucketStraw2Choose (itemWeights : List UInt32) (x r : ℤ) (arg : Option ChooseArg)
    (position : ℕ) : Option ℤ :=
  (straw2High hash bucket itemWeights x r arg position).map bucket.items.get

/-! ## The choice -/

def crushBucketChoose (work : WorkBucket) (x r : ℤ) (arg : Option ChooseArg) (position : ℕ) :
    Option (ℤ × WorkBucket) :=
  if bucket.size = 0 then none
  else
    match bucket.alg with
    | .uniform => bucketPermChoose hash bucket work x r
    | .list itemWeights sumWeights =>
      (bucketListChoose hash bucket itemWeights sumWeights x r).map (·, work)
    | .tree numNodes nodeWeights =>
      (bucketTreeChoose hash bucket numNodes nodeWeights x r).map (·, work)
    | .straw straws => (bucketStrawChoose hash bucket straws x r).map (·, work)
    | .straw2 itemWeights =>
      (bucketStraw2Choose hash bucket itemWeights x r arg position).map (·, work)
    | .unknown => (bucket.items[0]?).map (·, work)

end Ceph.Crush
