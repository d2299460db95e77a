import Ceph.Lib.OrdMap
import Mathlib.Data.Finset.Basic
import Mathlib.Order.Interval.Finset.Nat

set_option autoImplicit false

/-! # The bitmap freelist

`BitmapFreelistManager` keeps one bit for each block of the device in a key-value store, a fixed
number of bits under each key. It never reads a value to change it: to allocate or to release a range
of blocks is to flip its bits, and a flip is a merge operand (`XorMergeOperator`) for each key of the
range. The store combines the operands of a key when and how it likes. A key that was never merged is
absent, and its blocks are free. The last key may reach beyond the end of the device; the blocks
behind the end are flipped when the freelist is created, and back when the device grows.

Offsets are in bytes, as natural numbers: they are below `2 ^ 64`, but the end of the last key may be
`2 ^ 64`, which is `0` for the enumeration. A value is a bit vector with as many bits as a key has
blocks: the block `i` of the key is bit `i % 8` of byte `i / 8`.
-/

namespace Ceph.BlueStore.Freelist

/-- `bytes_per_block` and `blocks_per_key`, such that a position in a key is an `int` and
`bytes_per_key` does not overflow. -/
structure Geometry where
  bytesPerBlock : ℕ
  blocksPerKey : ℕ
  block_isp2 : ∃ k, bytesPerBlock = 2 ^ k
  key_isp2 : ∃ k, blocksPerKey = 2 ^ k
  key_bytes : 8 ∣ blocksPerKey
  key_lt : blocksPerKey < 2 ^ 31
  bytesPerKey_lt : bytesPerBlock * blocksPerKey < 2 ^ 64

namespace Geometry

def bytesPerKey (g : Geometry) : ℕ := g.bytesPerBlock * g.blocksPerKey

/-- The bits of one key. -/
abbrev Value (g : Geometry) : Type := BitVec g.blocksPerKey

/-- One merge of a transaction: the key, as the offset it encodes, and the operand. -/
abbrev Merge (g : Geometry) : Type := ℕ × g.Value

end Geometry

variable (g : Geometry)

/-- `p2align`, which is also `& block_mask` and `& key_mask`. -/
def p2align (x align : ℕ) : ℕ := x / align * align

/-! ## Flipping bits -/

/-- The loops of `_xor`: a buffer of zeros in which `n` bits from `s` on are flipped. -/
def flipBits (s n : ℕ) : g.Value :=
  (List.range' s n).foldl (fun p i => p ^^^ BitVec.twoPow g.blocksPerKey i) 0

def xor (offset length : ℕ) : Option (List g.Merge) :=
  -- must be block aligned
  if p2align offset g.bytesPerBlock ≠ offset ∨ p2align length g.bytesPerBlock ≠ length then none
  else
    let firstKey := p2align offset g.bytesPerKey
    let lastKey := p2align (offset + length - 1) g.bytesPerKey
    let s := offset % g.bytesPerKey / g.bytesPerBlock
    let e := (offset + length - 1) % g.bytesPerKey / g.bytesPerBlock
    if firstKey = lastKey then some [(firstKey, flipBits g s (e + 1 - s))]
    else
      let n := (lastKey - firstKey) / g.bytesPerKey - 1
      -- ceph_assert(first_key == last_key)
      if firstKey + (n + 1) * g.bytesPerKey ≠ lastKey then none
      else
        some ((firstKey, flipBits g s (g.blocksPerKey - s)) ::
          ((List.range n).map fun i =>
            (firstKey + (i + 1) * g.bytesPerKey, BitVec.allOnes g.blocksPerKey)) ++
          [(lastKey, flipBits g 0 (e + 1))])

/-- The blocks behind the end of the device, up to a multiple of a key, are flipped. -/
def xorPastEof (size : ℕ) : Option (List g.Merge) :=
  let blocks := size / g.bytesPerBlock
  if blocks / g.blocksPerKey * g.blocksPerKey ≠ blocks then
    let blocks := (blocks / g.blocksPerKey + 1) * g.blocksPerKey
    xor g size (blocks * g.bytesPerBlock - size)
  else some []

/-! ## The operations -/

/-- The size of the device, all merges so far in their order, and the blocks that the callers hold.
-/
structure State where
  size : ℕ
  merges : List g.Merge
  allocated : Finset ℕ

def blocksOf (offset length : ℕ) : Finset ℕ :=
  Finset.Ico (offset / g.bytesPerBlock) ((offset + length) / g.bytesPerBlock)

def create (newSize : ℕ) : Option (State g) :=
  let size := p2align newSize g.bytesPerBlock
  (xorPastEof g size).map fun merges => ⟨size, merges, ∅⟩

/-- What is called on a freelist. -/
inductive Op
  | expand (newSize : ℕ)
  | allocate (offset length : ℕ)
  | release (offset length : ℕ)

/-- One call. Its callers allocate free blocks of the device only, and release only what is
allocated; what they do not do is `none`, as is an assertion that fails. -/
def step (s : State g) : Op → Option (State g)
  | .expand newSize =>
    if newSize > s.size then
      (xorPastEof g s.size).bind fun reset =>
        let size := p2align newSize g.bytesPerBlock
        (xorPastEof g size).map fun set => ⟨size, s.merges ++ reset ++ set, s.allocated⟩
    else none
  | .allocate offset length =>
    if 0 < length ∧ offset + length ≤ s.size ∧ Disjoint (blocksOf g offset length) s.allocated then
      (xor g offset length).map fun merges =>
        ⟨s.size, s.merges ++ merges, s.allocated ∪ blocksOf g offset length⟩
    else none
  | .release offset length =>
    if 0 < length ∧ offset + length ≤ s.size ∧ blocksOf g offset length ⊆ s.allocated then
      (xor g offset length).map fun merges =>
        ⟨s.size, s.merges ++ merges, s.allocated \ blocksOf g offset length⟩
    else none

/-- A freelist is created and used. -/
def run (newSize : ℕ) (ops : List Op) : Option (State g) :=
  (create g newSize).bind fun s => ops.foldlM (step g) s

/-! ## The store -/

def operands (merges : List g.Merge) (key : ℕ) : List g.Value :=
  (merges.filter fun m => m.1 = key).map Prod.snd

/-- `XorMergeOperator`: what the store may make of the operands of a key. It may combine any of them
that follow each other, in any order. -/
inductive MergesTo : List g.Value → g.Value → Prop
  | nonexistent (r : g.Value) : MergesTo [r] r
  | merge {ls rs : List g.Value} {l r : g.Value} (hl : MergesTo ls l) (hr : MergesTo rs r) :
      MergesTo (ls ++ rs) (l ^^^ r)

/-- The store holds what came of the merges. -/
def Stored (merges : List g.Merge) (kv : OrdMap ℕ g.Value) : Prop :=
  ∀ key, match kv.get key with
    | none => operands g merges key = []
    | some v => MergesTo g (operands g merges key) v

/-- A store that merges each operand at once. -/
def mergeAll (merges : List g.Merge) : OrdMap ℕ g.Value :=
  merges.foldl (fun kv m => kv.insert m.1 (((kv.get m.1).map (· ^^^ m.2)).getD m.2)) OrdMap.empty

/-! ## Enumeration -/

def getNextClearBit (bl : g.Value) (start : ℕ) : Option ℕ :=
  (List.range' start (g.blocksPerKey - start)).find? fun i => !bl.getLsbD i

def getNextSetBit (bl : g.Value) (start : ℕ) : Option ℕ :=
  (List.range' start (g.blocksPerKey - start)).find? fun i => bl.getLsbD i

/-- `enumerate_offset`, `enumerate_bl_pos`, `enumerate_bl` and `enumerate_p`, which is at an entry of
the store with this value and has the rest of the entries before it, or is not valid. -/
structure Cursor where
  offset : ℕ
  pos : ℕ
  bl : Option g.Value
  rest : List (ℕ × g.Value)

def enumerateReset : Cursor g := ⟨0, 0, none, []⟩

def getOffset (keyOff bit : ℕ) : ℕ := keyOff + bit * g.bytesPerBlock

/-- The first loop of `enumerate_next`: skip set bits to find offset. -/
def skipSet (offset : ℕ) (bl : g.Value) (pos : ℕ) (rest : List (ℕ × g.Value)) : ℕ × Cursor g :=
  match getNextClearBit g bl pos with
  | some pos => (getOffset g offset pos, ⟨offset, pos, some bl, rest⟩)
  | none =>
    let next := (offset + g.bytesPerKey) % 2 ^ 64
    match rest with
    | [] => (getOffset g next 0, ⟨next, 0, none, []⟩)
    | (key, value) :: rest =>
      -- no key at next
      if key > next then (next, ⟨key, 0, some value, rest⟩) else skipSet key value 0 rest

/-- The second loop of `enumerate_next`: skip clear bits to find the end. -/
def skipClear (offset : ℕ) (bl : g.Value) (pos : ℕ) (rest : List (ℕ × g.Value)) :
    Option ℕ × Cursor g :=
  match getNextSetBit g bl pos with
  | some pos => (some (getOffset g offset pos), ⟨offset, pos, some bl, rest⟩)
  | none =>
    match rest with
    | [] => (none, ⟨offset, 0, none, []⟩)
    | (key, value) :: rest => skipClear key value 0 rest

/-- The end of `enumerate_next`, with no more entries: what is left of the device is free. -/
def finishEnumerate (size offset : ℕ) (c : Cursor g) : Option (ℕ × ℕ) × Cursor g :=
  if c.offset < size then
    let last := size / g.bytesPerBlock * g.bytesPerBlock
    (some (offset, last - offset), { c with offset := size, pos := g.blocksPerKey })
  else (none, c)

/-- The start of `enumerate_next`: the first block is always allocated. -/
def startEnumerate (kv : OrdMap ℕ g.Value) : Option (Cursor g) :=
  match kv.entries with
  | [] => none
  | (key, value) :: rest =>
    if key = 0 ∧ getNextSetBit g value 0 = some 0 then some ⟨key, 0, some value, rest⟩ else none

/-- The loops of `enumerate_next`, from where the cursor is. -/
def enumerateFrom (size : ℕ) (c : Cursor g) : Option (Option (ℕ × ℕ) × Cursor g) :=
  if c.offset ≥ size then some (none, c)
  else
    -- the value is at hand as long as there are entries
    c.bl.map fun bl =>
      let (offset, c) := skipSet g c.offset bl c.pos c.rest
      match c.bl with
      | none => finishEnumerate g size offset c
      | some bl =>
        let (last, c) := skipClear g c.offset bl c.pos c.rest
        match last with
        | none => finishEnumerate g size offset c
        | some last =>
          (some (offset, min (size / g.bytesPerBlock * g.bytesPerBlock) last - offset), c)

/-- `enumerate_next`: the next range that is free, or false. -/
def enumerateNext (size : ℕ) (kv : OrdMap ℕ g.Value) (c : Cursor g) :
    Option (Option (ℕ × ℕ) × Cursor g) :=
  (if c.offset = 0 ∧ c.pos = 0 then startEnumerate g kv else some c).bind (enumerateFrom g size)

end Ceph.BlueStore.Freelist
