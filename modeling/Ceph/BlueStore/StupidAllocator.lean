import Ceph.BlueStore.Freelist

set_option autoImplicit false

/-! # Free extents by size

`StupidAllocator` keeps the free extents in ten bins, by the number of bits of their length in
blocks. `allocate_int` looks for the whole of the wanted size from the bin of that size up, and then
for a single allocation unit from there down. What is left of an extent on either side is to go
to the bin of its own length.

The part in front, left over by the alignment, does not: it is looked for at
`*offset - skew - 1`, which is in front of the extent, so that it stays in the bin of the extent.
There a later search may pass it by, and the allocator reports `-ENOSPC` with a free
unit at hand. Which runs keep the extents in their bins is the subject of `StupidPlacement`.

Offsets and lengths have 64 bits in the source. They are natural numbers here, which makes no
difference for extents that end below `2 ^ 64`.
-/

namespace Ceph.BlueStore.Stupid

open List

open Freelist (p2align)

/-! ## Interval sets -/

/-- An interval: offset and length. -/
abbrev Interval := ℕ × ℕ

/-- `interval_set`: the lengths of the intervals by their offsets, and the sum of the lengths. -/
structure IntervalSet where
  size : ℤ := 0
  m : OrdMap ℕ ℕ := .empty
  deriving DecidableEq

namespace IntervalSet

variable (s : IntervalSet) (start len : ℕ)

/-- The intervals in front of an iterator and those from it on. It is at the first interval that
starts at `start` or later, or at the one before, unless this one has `passed`. -/
def find (passed : ℕ → Bool) : List Interval × List Interval :=
  let before := s.m.entries.takeWhile fun e => e.1 < start
  let p := s.m.entries.dropWhile fun e => e.1 < start
  match before.getLast? with
  | none => (before, p)
  | some q =>
    if (p.head?.all fun e => start < e.1) ∧ ¬ passed (q.1 + q.2) then (before.dropLast, q :: p)
    else (before, p)

/-- `find_inc`, which is also `lower_bound`: the interval before may overlap. -/
def findInc : List Interval × List Interval := s.find start fun stop => stop ≤ start

/-- `find_adj`: the interval before may touch. -/
def findAdj : List Interval × List Interval := s.find start fun stop => stop < start

/-- `insert(start, len, &pstart, &plen)`; nothing where an assertion fails. -/
def insert : Option (IntervalSet × Interval) :=
  let put (m : OrdMap ℕ ℕ) (i : Interval) := some (⟨s.size + len, m.insert i.1 i.2⟩, i)
  if len = 0 then none
  else
    match (s.findAdj start).2 with
    | [] => put s.m (start, len)
    | p :: rest =>
      if p.1 < start then
        if p.1 + p.2 ≠ start then none
        else
          -- append to end, and combine with next, too
          match rest.head?.filter fun n => start + len = n.1 with
          | none => put s.m (p.1, p.2 + len)
          | some n => put (s.m.erase n.1) (p.1, p.2 + len + n.2)
      -- append to front
      else if start + len = p.1 then put (s.m.erase p.1) (start, len + p.2)
      else if start + len < p.1 then put s.m (start, len)
      else none

/-- `erase(start, len)`. -/
def erase : Option IntervalSet :=
  match (s.findInc start).2 with
  | [] => none
  | p :: _ =>
    let before := start - p.1
    if s.size < len ∨ start < p.1 ∨ p.2 < before + len then none
    else
      let after := p.2 - before - len
      let m := if before ≠ 0 then s.m.insert p.1 before else s.m.erase p.1
      some ⟨s.size - len, if after ≠ 0 then m.insert (start + len) after else m⟩

/-- `contains(i, &off, &len)`. -/
def contains (i : ℕ) : Option Interval :=
  (s.findInc i).2.head?.filter fun p => p.1 ≤ i ∧ i < p.1 + p.2

/-- The loop of `intersection_of`. Each turn leaves an interval of one of the sets behind. -/
def intersectLoop : ℕ → List Interval → List Interval → IntervalSet → IntervalSet
  | turns + 1, pa :: as, pb :: bs, s =>
    -- passing?
    if pa.1 + pa.2 ≤ pb.1 then intersectLoop turns as (pb :: bs) s
    else if pb.1 + pb.2 ≤ pa.1 then intersectLoop turns (pa :: as) bs s
    else
      let start := max pa.1 pb.1
      let len := min (pa.1 + pa.2) (pb.1 + pb.2) - start
      let s := ⟨s.size + len, s.m.insertNew start len⟩
      if pa = pb then intersectLoop turns as bs s
      else if pb.1 + pb.2 < pa.1 + pa.2 then intersectLoop turns (pa :: as) bs s
      else intersectLoop turns as (pb :: bs) s
  | _, _, _, s => s

/-- `intersection_of`; `intersection_size_asym` finds the same where one set is much larger. -/
def intersectionOf (a b : IntervalSet) : IntervalSet :=
  intersectLoop (a.m.entries.length + b.m.entries.length) a.m.entries b.m.entries {}

def subtract (a : IntervalSet) : Option IntervalSet :=
  a.m.entries.foldlM (fun s e => s.erase e.1 e.2) s

theorem find_append (passed : ℕ → Bool) :
    (s.find start passed).1 ++ (s.find start passed).2 = s.m.entries := by
  unfold find
  dsimp only
  split
  · exact takeWhile_append_dropWhile
  · rename_i q hq
    split
    · obtain ⟨l, hl⟩ := getLast?_eq_some_iff.mp hq
      rw [hl, dropLast_concat, append_cons, ← hl]
      exact takeWhile_append_dropWhile
    · exact takeWhile_append_dropWhile

/-- The intervals from the hint on, if there is one, and the others. -/
def fromHint (hint : ℕ) : List Interval := if hint = 0 then [] else (s.findInc hint).2

def beforeHint (hint : ℕ) : List Interval :=
  if hint = 0 then s.m.entries else (s.findInc hint).1

theorem mem_hint (hint : ℕ) (e : Interval) :
    e ∈ s.m.entries ↔ e ∈ s.fromHint hint ∨ e ∈ s.beforeHint hint := by
  unfold fromHint beforeHint
  split
  · simp
  · rw [← s.find_append hint, mem_append, or_comm]
    rfl

end IntervalSet

/-! ## The allocator -/

/-- `StupidAllocator`, with `bdev_block_size`. -/
structure StupidAllocator where
  blockSize : ℕ
  numFree : ℤ := 0
  free : Fin 10 → IntervalSet := fun _ => {}
  lastAlloc : ℕ := 0

/-- How far an offset is from the next allocation unit. -/
def skewOf (start allocUnit : ℕ) : ℕ :=
  if start % allocUnit ≠ 0 then allocUnit - start % allocUnit else 0

def alignedLen (p : Interval) (allocUnit : ℕ) : ℕ :=
  if skewOf p.1 allocUnit > p.2 then 0 else p.2 - skewOf p.1 allocUnit

namespace StupidAllocator

variable (a : StupidAllocator)

/-- `_choose_bin`: the number of bits of the length in blocks, and the last bin for all that are
longer. -/
def chooseBin (origLen : ℕ) : Fin 10 :=
  let len := origLen / a.blockSize
  Fin.ofNat 10 (min (if len = 0 then 0 else len.log2 + 1) 9)

def setBin (bin : Fin 10) (s : IntervalSet) : StupidAllocator :=
  { a with free := Function.update a.free bin s }

/-- The loop of `_insert_free`. A merged extent is longer, and its bin higher: ten turns are
enough. -/
def insertLoop : ℕ → StupidAllocator → Fin 10 → ℕ → ℕ → Option StupidAllocator
  | 0, _, _, _, _ => none
  | turns + 1, a, bin, off, len => do
    let (s, off, len) ← (a.free bin).insert off len
    if a.chooseBin len = bin then some (a.setBin bin s)
    else insertLoop turns (a.setBin bin (← s.erase off len)) (a.chooseBin len) off len

def insertFree (off len : ℕ) : Option StupidAllocator := insertLoop 10 a (a.chooseBin len) off len

def initAddFree (offset length : ℕ) : Option StupidAllocator := do
  let a ← a.insertFree offset length
  some { a with numFree := a.numFree + length }

def release (releaseSet : IntervalSet) : Option StupidAllocator :=
  releaseSet.m.entries.foldlM (fun a p => a.initAddFree p.1 p.2) a

def editBin (bin : Fin 10) (f : IntervalSet → IntervalSet) : StupidAllocator :=
  a.setBin bin (f (a.free bin))

/-- The part of `erase` in `init_rm_free` that keeps what is in front of the erased range. It is
claimed if it belongs to another bin, while the whole extent is still in this one. -/
def claimBefore (i : Fin 10) (off before : ℕ) : Option StupidAllocator :=
  if before = 0 then some (a.editBin i fun s => { s with m := s.m.erase off })
  else if a.chooseBin before = i then
    some (a.editBin i fun s => { s with m := s.m.insert off before })
  else do
    let a ← a.insertFree off before
    some (a.editBin i fun s => ⟨s.size - before, s.m.erase off⟩)

/-- The part that keeps what is behind it. -/
def claimAfter (i : Fin 10) (off after : ℕ) : Option StupidAllocator :=
  if after = 0 then some a
  else if a.chooseBin after = i then
    some (a.editBin i fun s => { s with m := s.m.insert off after })
  else do
    let a ← a.insertFree off after
    some (a.editBin i fun s => { s with size := s.size - after })

/-- `free[i].erase(start, len, claim)`. -/
def eraseClaiming (i : Fin 10) (start len : ℕ) : Option StupidAllocator :=
  match ((a.free i).findInc start).2 with
  | [] => none
  | p :: _ =>
    let before := start - p.1
    if (a.free i).size < len ∨ start < p.1 ∨ p.2 < before + len then none
    else do
      let a := a.editBin i fun s => { s with size := s.size - len }
      let a ← a.claimBefore i p.1 before
      a.claimAfter i (start + len) (p.2 - before - len)

/-- The loop of `init_rm_free` over the bins. -/
def initRmLoop : List (Fin 10) → StupidAllocator → IntervalSet →
    Option (StupidAllocator × IntervalSet)
  | [], a, rm => some (a, rm)
  | i :: bins, a, rm =>
    if rm.m.entries = [] then some (a, rm)
    else do
      let overlap := rm.intersectionOf (a.free i)
      let a ← overlap.m.entries.foldlM (fun a p => a.eraseClaiming i p.1 p.2) a
      initRmLoop bins a (← rm.subtract overlap)

def initRmFree (offset length : ℕ) : Option StupidAllocator := do
  let (rm, _) ← ({} : IntervalSet).insert offset length
  let (a, rm) ← initRmLoop (finRange 10) a rm
  if rm.m.entries ≠ [] ∨ a.numFree < length then none
  else some { a with numFree := a.numFree - length }

/-- The extent of the bin that has the offset `i` is moved to the bin of its length. -/
def demote (bin : Fin 10) (i : ℕ) : Option StupidAllocator :=
  match (a.free bin).contains i with
  | none => some a
  | some (off, len) => do
    if a.chooseBin len = bin then some a
    else (a.setBin bin (← (a.free bin).erase off len)).insertFree off len

/-- One of the four searches: the first extent that is long `enough`, in the order of the bins. -/
def searchBins (bins : List (Fin 10)) (part : IntervalSet → List Interval)
    (enough : Interval → Bool) : Option (Fin 10 × Interval) :=
  bins.findSome? fun bin => ((part (a.free bin)).find? enough).map fun p => (bin, p)

def upFrom (bin : Fin 10) : List (Fin 10) := (List.finRange 10).filter (bin ≤ ·)

def downFrom (bin : Fin 10) : List (Fin 10) := ((List.finRange 10).filter (· ≤ bin)).reverse

/-- `allocate_int` up to the label `found`. -/
def search (wantSize allocUnit hint : ℕ) : Option (Fin 10 × Interval) :=
  let origBin := a.chooseBin (max allocUnit wantSize)
  let hint := if hint = 0 then a.lastAlloc else hint
  let holds (n : ℕ) (p : Interval) : Bool := n ≤ alignedLen p allocUnit
  (a.searchBins (upFrom origBin) (·.fromHint hint) (holds wantSize)).or <|
  (a.searchBins (upFrom origBin) (·.beforeHint hint) (holds wantSize)).or <|
  (a.searchBins (downFrom origBin) (·.fromHint hint) (holds allocUnit)).or <|
  a.searchBins (downFrom origBin) (·.beforeHint hint) (holds allocUnit)

/-- `allocate_int` from the label `found` on: what is allocated, and the allocator after it. -/
def take (wantSize allocUnit : ℕ) (bin : Fin 10) (p : Interval) :
    Option (Interval × StupidAllocator) := do
  let skew := skewOf p.1 allocUnit
  let offset := p.1 + skew
  -- the difference is one of 64 bits, the length has 32
  let length := min (max allocUnit wantSize)
    (p2align ((p.2 + 2 ^ 64 - skew) % 2 ^ 64) allocUnit) % 2 ^ 32
  let a := a.setBin bin (← (a.free bin).erase offset length)
  let a ← if offset ≠ 0 then a.demote bin (offset - skew - 1) else some a
  let a ← a.demote bin (offset + length)
  if a.numFree < length then none
  else some ((offset, length),
    { a with numFree := a.numFree - length, lastAlloc := offset + length })

/-- `allocate_int`; no extent is `-ENOSPC`. -/
def allocateInt (wantSize allocUnit hint : ℕ) : Option (Option Interval × StupidAllocator) :=
  match a.search wantSize allocUnit hint with
  | none => some (none, a)
  | some (bin, p) => (a.take wantSize allocUnit bin p).map fun r => (some r.1, r.2)

/-- What `allocate` does with an allocated extent: it extends the last one, or follows it. -/
def appendExtent (maxAllocSize : ℕ) (extents : List Interval) (e : Interval) : List Interval :=
  match extents.getLast? with
  | none => [e]
  | some last =>
    if last.1 + last.2 = e.1 ∧ last.2 + e.2 < 2 ^ 32 ∧ last.2 + e.2 ≤ maxAllocSize then
      extents.dropLast ++ [(last.1, last.2 + e.2)]
    else extents ++ [e]

/-- The loop of `allocate`, over at most so many turns: the size that is allocated, and the
extents. -/
def allocateLoop (wantSize allocUnit maxAllocSize : ℕ) : ℕ → StupidAllocator → List Interval →
    ℕ → ℕ → Option (ℕ × List Interval × StupidAllocator)
  | 0, _, _, _, _ => none
  | turns + 1, a, extents, allocated, hint =>
    if wantSize ≤ allocated then some (allocated, extents, a)
    else
      match a.allocateInt (min maxAllocSize (wantSize - allocated)) allocUnit hint with
      | none => none
      | some (none, a) => some (allocated, extents, a)
      | some (some e, a) => allocateLoop wantSize allocUnit maxAllocSize turns a
          (appendExtent maxAllocSize extents e) (allocated + e.2) (e.1 + e.2)

/-- `allocate`; no size is `-ENOSPC`. A call that goes on for ever has no result. -/
def allocate (turns wantSize allocUnit maxAllocSize hint : ℕ) (extents : List Interval) :
    Option (Option ℕ × List Interval × StupidAllocator) :=
  let maxAllocSize := if maxAllocSize = 0 then wantSize else maxAllocSize
  (allocateLoop wantSize allocUnit maxAllocSize turns a extents 0 hint).map
    fun (allocated, extents, a) => (if allocated = 0 then none else some allocated, extents, a)

/-! ## When nothing is found -/

theorem searchBins_eq_none {bins : List (Fin 10)} {part : IntervalSet → List Interval}
    {enough : Interval → Bool} : a.searchBins bins part enough = none ↔
      ∀ bin ∈ bins, ∀ e ∈ part (a.free bin), enough e = false := by
  simp [searchBins, findSome?_eq_none_iff]

/-- **The search fails** if no extent from the bin of the wanted size up is long enough for all of
it, and none from there down for a unit. -/
theorem search_eq_none (wantSize allocUnit hint : ℕ) :
    a.search wantSize allocUnit hint = none ↔
      (∀ bin, a.chooseBin (max allocUnit wantSize) ≤ bin → ∀ e ∈ (a.free bin).m.entries,
        alignedLen e allocUnit < wantSize) ∧
      ∀ bin, bin ≤ a.chooseBin (max allocUnit wantSize) → ∀ e ∈ (a.free bin).m.entries,
        alignedLen e allocUnit < allocUnit := by
  unfold search
  generalize (if hint = 0 then a.lastAlloc else hint) = hint
  -- the two searches of each direction see all extents between them
  simp only [Option.or_eq_none_iff, searchBins_eq_none, upFrom, downFrom, mem_reverse,
    mem_filter, mem_finRange, true_and, decide_eq_true_eq, decide_eq_false_iff_not,
    not_le, IntervalSet.mem_hint _ hint, or_imp, forall_and]
  tauto

theorem allocateInt_eq_enospc (wantSize allocUnit hint : ℕ) :
    (∃ a', a.allocateInt wantSize allocUnit hint = some (none, a')) ↔
      a.search wantSize allocUnit hint = none := by
  unfold allocateInt
  cases a.search wantSize allocUnit hint <;> simp

/-- **When `-ENOSPC` can be believed.** The call reports it only if there is no free extent with an
aligned unit, exactly if one that has a unit, where there are any, is long enough for the wanted
size or in a bin up to that of the wanted size. -/
theorem enospc_iff (wantSize allocUnit hint : ℕ) :
    ((∃ a', a.allocateInt wantSize allocUnit hint = some (none, a')) →
      ∀ bin, ∀ e ∈ (a.free bin).m.entries, alignedLen e allocUnit < allocUnit) ↔
    ((∃ bin, ∃ e ∈ (a.free bin).m.entries, allocUnit ≤ alignedLen e allocUnit) →
      ∃ bin, ∃ e ∈ (a.free bin).m.entries, allocUnit ≤ alignedLen e allocUnit ∧
        (wantSize ≤ alignedLen e allocUnit ∨ bin ≤ a.chooseBin (max allocUnit wantSize))) := by
  rw [allocateInt_eq_enospc, search_eq_none]
  constructor
  · rintro h ⟨bin, e, he, hunit⟩
    by_contra hnone
    push Not at hnone
    -- then neither search finds anything
    have hwant : allocUnit < wantSize := hunit.trans_lt (hnone bin e he hunit).1
    refine absurd hunit (not_le.mpr (h ⟨?_, ?_⟩ bin e he))
    · intro bin' _ e' he'
      by_contra hlong
      have := (hnone bin' e' he' (by omega)).1
      omega
    · intro bin' hle e' he'
      by_contra hlong
      exact absurd (hnone bin' e' he' (not_lt.mp hlong)).2 (not_lt.mpr hle)
  · rintro h ⟨hup, hdown⟩ bin e he
    by_contra hunit
    obtain ⟨bin', e', he', hunit', hlong | hle⟩ := h ⟨bin, e, he, not_lt.mp hunit⟩
    · rcases le_total (a.chooseBin (max allocUnit wantSize)) bin' with hbin | hbin
      · exact absurd hlong (not_le.mpr (hup bin' hbin e' he'))
      · exact absurd hunit' (not_le.mpr (hdown bin' hbin e' he'))
    · exact absurd hunit' (not_le.mpr (hdown bin' hle e' he'))

end StupidAllocator

end Ceph.BlueStore.Stupid
