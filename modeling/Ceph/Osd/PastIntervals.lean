import Ceph.Lib.MachineInt
import Ceph.Lib.OrdMap
import Ceph.Lib.Prune
import Ceph.Lib.SortedScan

set_option autoImplicit false

/-! # Past intervals and their compaction

An interval is a range of map epochs in which a placement group had one acting set. A primary
must hear from every past interval in which writes may have been acknowledged. The OSD keeps
these intervals in compacted form (`pi_compact_rep` in `osd/osd_types.cc`): a new interval
erases the older ones whose acting sets contain its own, since whoever meets the smaller set
meets the larger one.

The compacted list is the pruned list of the intervals that may have gone read-write, so the
facts about pruning apply to it: it loses no constraint, whatever epoch the search goes back to.
-/

namespace Ceph.Osd

open OrdMap List

abbrev Epoch := UInt32

/-! ## Shards and intervals -/

structure PgShard where
  osd : Int32
  shard : Int8
  deriving DecidableEq, Repr

def noShard : Int8 := -1

def crushItemNone : Int32 := 0x7fffffff

namespace PgShard

/-- The osd counts first, the shard second. -/
def sortKey (s : PgShard) : Int32 ×ₗ Int8 := toLex (s.osd, s.shard)

theorem sortKey_injective : Function.Injective sortKey := by
  rintro ⟨o, s⟩ ⟨o', s'⟩ h
  simpa [sortKey] using h

end PgShard

instance : LinearOrder PgShard := MachineInt.linearOrderOfKey _ PgShard.sortKey_injective

structure PgInterval where
  up : List Int32
  acting : List Int32
  first : Epoch
  last : Epoch
  maybeWentRw : Bool
  primary : Int32
  upPrimary : Int32
  deriving DecidableEq, Repr

/-- The shards of an acting or up vector: positions without an osd are skipped, and the
position is the shard in erasure-coded pools only. -/
def shardList (ecPool : Bool) (osds : List Int32) : List PgShard :=
  (osds.zipIdx.filter (fun p => p.1 ≠ crushItemNone)).map
    (fun p => ⟨p.1, if ecPool then Int8.ofNat p.2 else noShard⟩)

/-- The set of the acting shards of an interval. -/
def PgInterval.shards (ecPool : Bool) (i : PgInterval) : OrdSet PgShard :=
  OrdMap.empty.insertAll (shardList ecPool i.acting)

/-! ## The compacted form -/

structure CompactInterval where
  first : Epoch
  last : Epoch
  acting : OrdSet PgShard
  deriving DecidableEq

namespace CompactInterval

/-- `supersedes`: every member of this acting set is a member of the other. -/
def supersedes (c other : CompactInterval) : Bool :=
  c.acting.keys.all (fun i => i ∈ other.acting)

theorem supersedes_iff (c other : CompactInterval) :
    c.supersedes other = true ↔ ∀ s ∈ c.acting, s ∈ other.acting := by
  simp [supersedes, mem_keys_iff]

theorem supersedes_trans (a b c : CompactInterval) (hab : a.supersedes b = true)
    (hbc : b.supersedes c = true) : a.supersedes c = true := by
  rw [supersedes_iff] at *
  intro s hs
  exact hbc s (hab s hs)

end CompactInterval

def PgInterval.compact (ecPool : Bool) (i : PgInterval) : CompactInterval :=
  ⟨i.first, i.last, i.shards ecPool⟩

structure PiCompactRep where
  first : Epoch
  last : Epoch
  allParticipants : OrdSet PgShard
  intervals : List CompactInterval
  deriving DecidableEq

namespace PiCompactRep

/-- The representation before any interval is added. -/
def empty : PiCompactRep := ⟨0, 0, .empty, []⟩

def getBounds (r : PiCompactRep) : Epoch × Epoch := (r.first, r.last + 1)

/-- `add_interval`; nothing where its assertion fails. -/
def addInterval (ecPool : Bool) (r : PiCompactRep) (i : PgInterval) : Option PiCompactRep :=
  let first := if r.first = 0 then i.first else r.first
  if r.last < i.last then
    let acting := i.shards ecPool
    let r' := { r with
      first := first
      last := i.last
      allParticipants := r.allParticipants.insertAll acting.keys }
    if i.maybeWentRw then
      -- the loop over the older intervals erases what the new one supersedes
      some { r' with
        intervals := Prune.push CompactInterval.supersedes r.intervals
          ⟨i.first, i.last, acting⟩ }
    else some r'
  else none

def addIntervals (ecPool : Bool) (l : List PgInterval) : Option PiCompactRep :=
  l.foldlM (addInterval ecPool) empty

/-- `iterate_mayberw_back_to`: what the callback is given, newest interval first. -/
def iterateMayberwBackTo (r : PiCompactRep) (les : Epoch) :
    List (Epoch × OrdSet PgShard) :=
  (r.intervals.reverse.takeWhile (fun c => !decide (c.last < les))).map
    (fun c => (c.first, c.acting))

end PiCompactRep

open PiCompactRep

/-! ## Histories in epoch order -/

/-- **Intervals in epoch order.** Each interval holds an epoch, ends after epoch 0 and ends
before the next one begins. -/
structure EpochOrder (l : List PgInterval) : Prop where
  ordered : l.Pairwise (fun a b => a.last < b.first)
  nonempty : ∀ i ∈ l, i.first ≤ i.last
  positive : ∀ i ∈ l, 0 < i.last

variable {ecPool : Bool} {l : List PgInterval} {i : PgInterval}

theorem EpochOrder.of_concat (h : EpochOrder (l ++ [i])) : EpochOrder l :=
  ⟨(pairwise_append.mp h.ordered).1,
    fun j hj => h.nonempty j (mem_append_left _ hj),
    fun j hj => h.positive j (mem_append_left _ hj)⟩

theorem EpochOrder.last_lt_concat (h : EpochOrder (l ++ [i])) : ∀ j ∈ l, j.last < i.first := by
  intro j hj
  exact (pairwise_append.mp h.ordered).2.2 j hj i (by simp)

/-- The compacted forms of the intervals that may have gone read-write. -/
def rwIntervals (ecPool : Bool) (l : List PgInterval) : List CompactInterval :=
  (l.filter (·.maybeWentRw)).map (·.compact ecPool)

theorem mem_rwIntervals {c : CompactInterval} :
    c ∈ rwIntervals ecPool l ↔ ∃ i ∈ l, i.maybeWentRw = true ∧ i.compact ecPool = c := by
  simp [rwIntervals, and_assoc]

theorem rwIntervals_concat (ecPool : Bool) (l : List PgInterval) (i : PgInterval) :
    rwIntervals ecPool (l ++ [i]) =
      rwIntervals ecPool l ++ if i.maybeWentRw then [i.compact ecPool] else [] := by
  rw [rwIntervals, filter_append, map_append]
  cases h : i.maybeWentRw with
  | false => simp [rwIntervals, h]
  | true => simp [rwIntervals, h]

/-- One interval ends before the other begins, and each begins before it ends. -/
def CompactInterval.Before (c d : CompactInterval) : Prop :=
  c.last < d.first ∧ c.first ≤ c.last ∧ d.first ≤ d.last

theorem rwIntervals_pairwise (ecPool : Bool) (h : EpochOrder l) :
    (rwIntervals ecPool l).Pairwise CompactInterval.Before := by
  refine pairwise_map.mpr (List.Pairwise.filter _ ?_)
  refine h.ordered.imp_of_mem ?_
  intro i j hi hj hij
  exact ⟨hij, h.nonempty i hi, h.nonempty j hj⟩

theorem CompactInterval.before_trans (a b c : CompactInterval) (hab : a.Before b)
    (hbc : b.Before c) : a.Before c :=
  ⟨(hab.1.trans_le hab.2.2).trans hbc.1, hab.2.1, hbc.2.2⟩

/-! ## What the representation holds -/

/-- The epoch the representation says it begins at: the first epoch other than 0 at which an
interval begins. -/
def startOf (l : List PgInterval) : Epoch :=
  ((l.map (·.first)).find? (· ≠ 0)).getD 0

theorem startOf_concat (l : List PgInterval) (i : PgInterval) :
    startOf (l ++ [i]) = if startOf l = 0 then i.first else startOf l := by
  unfold startOf
  rw [map_append, find?_append]
  cases h : (l.map (·.first)).find? (· ≠ 0) with
  | none =>
    by_cases hi : i.first = 0
    · simp [hi]
    · simp [hi]
  | some e =>
    have he : e ≠ 0 := by simpa using find?_some h
    simp [he]

def endOf (l : List PgInterval) : Epoch := (l.getLast?.map (·.last)).getD 0

theorem endOf_concat (l : List PgInterval) (i : PgInterval) : endOf (l ++ [i]) = i.last := by
  simp [endOf]

/-- The assertion of `add_interval` compares with the end of the interval before. -/
theorem endOf_lt_last (h : EpochOrder (l ++ [i])) : endOf l < i.last := by
  unfold endOf
  cases hl : l.getLast? with
  | none => exact h.positive i (by simp)
  | some j =>
    have hj : j ∈ l := mem_of_getLast? hl
    exact (h.last_lt_concat j hj).trans_le (h.nonempty i (by simp))

def compacted (ecPool : Bool) (l : List PgInterval) : List CompactInterval :=
  Prune.prune CompactInterval.supersedes (rwIntervals ecPool l)

/-- What `add_interval` makes of a whole history. -/
structure PiCompactRep.Represents (ecPool : Bool) (l : List PgInterval) (r : PiCompactRep) :
    Prop where
  first_eq : r.first = startOf l
  last_eq : r.last = endOf l
  mem_participants : ∀ s, s ∈ r.allParticipants ↔ ∃ i ∈ l, s ∈ i.shards ecPool
  intervals_eq : r.intervals = compacted ecPool l

/-- **One more interval.** -/
theorem PiCompactRep.Represents.addInterval {r : PiCompactRep} (hr : r.Represents ecPool l)
    (h : EpochOrder (l ++ [i])) :
    ∃ r', r.addInterval ecPool i = some r' ∧ r'.Represents ecPool (l ++ [i]) := by
  have hlast : r.last < i.last := hr.last_eq ▸ endOf_lt_last h
  have hpart : ∀ s, s ∈ r.allParticipants.insertAll (i.shards ecPool).keys ↔
      ∃ j ∈ l ++ [i], s ∈ j.shards ecPool := by
    intro s
    rw [mem_insertAll, mem_keys_iff, hr.mem_participants]
    simp only [mem_append, mem_singleton, or_and_right, exists_or, exists_eq_left]
  have hfirst : (if r.first = 0 then i.first else r.first) = startOf (l ++ [i]) := by
    rw [startOf_concat, hr.first_eq]
  unfold PiCompactRep.addInterval
  rw [if_pos hlast]
  cases hrw : i.maybeWentRw with
  | false =>
    refine ⟨_, rfl, hfirst, (endOf_concat l i).symm, hpart, ?_⟩
    show r.intervals = _
    rw [hr.intervals_eq, compacted, compacted, rwIntervals_concat, hrw]
    simp
  | true =>
    refine ⟨_, rfl, hfirst, (endOf_concat l i).symm, hpart, ?_⟩
    show Prune.push _ r.intervals (i.compact ecPool) = _
    rw [hr.intervals_eq, compacted, compacted, rwIntervals_concat, hrw]
    exact (Prune.prune_concat _ _ _).symm

/-- **Adding a history in epoch order** trips no assertion and leaves its pruned form. -/
theorem PiCompactRep.addIntervals_represents (ecPool : Bool) (h : EpochOrder l) :
    ∃ r, addIntervals ecPool l = some r ∧ r.Represents ecPool l := by
  induction l using List.reverseRecOn with
  | nil =>
    refine ⟨empty, rfl, rfl, rfl, fun s => ?_, rfl⟩
    exact iff_of_false (not_mem_empty s) (by simp)
  | append_singleton l i ih =>
    obtain ⟨r, hadd, hr⟩ := ih h.of_concat
    obtain ⟨r', hadd', hr'⟩ := hr.addInterval h
    refine ⟨r', ?_, hr'⟩
    rw [addIntervals] at hadd ⊢
    rw [foldlM_append, hadd]
    show (r.addInterval ecPool i).bind some = _
    rw [hadd']
    rfl

/-! ## What the iteration visits -/

theorem compacted_pairwise (ecPool : Bool) (h : EpochOrder l) :
    (compacted ecPool l).Pairwise CompactInterval.Before :=
  (rwIntervals_pairwise ecPool h).sublist (Prune.prune_sublist _ _)

/-- **The iteration visits every compacted interval that ends at `les` or later.** Stopping at
the first older one misses none, since the intervals are in epoch order. -/
theorem PiCompactRep.Represents.mem_iterateMayberwBackTo {r : PiCompactRep}
    (hr : r.Represents ecPool l) (h : EpochOrder l) (les : Epoch) (p : Epoch × OrdSet PgShard) :
    p ∈ r.iterateMayberwBackTo les ↔ ∃ c ∈ r.intervals, les ≤ c.last ∧ (c.first, c.acting) = p := by
  have hmono : r.intervals.reverse.Pairwise
      (fun a b => (!decide (b.last < les)) = true → (!decide (a.last < les)) = true) := by
    rw [hr.intervals_eq]
    refine pairwise_reverse.mpr ((compacted_pairwise ecPool h).imp ?_)
    intro a b hab
    simp only [Bool.not_eq_true', decide_eq_false_iff_not, not_lt]
    intro hles
    exact hles.trans (hab.1.le.trans hab.2.2)
  rw [iterateMayberwBackTo, SortedScan.takeWhile_eq_filter hmono, mem_map]
  constructor
  · rintro ⟨c, hc, rfl⟩
    rw [mem_filter, mem_reverse] at hc
    exact ⟨c, hc.1, by simpa using hc.2, rfl⟩
  · rintro ⟨c, hc, hles, rfl⟩
    exact ⟨c, mem_filter.mpr ⟨mem_reverse.mpr hc, by simpa using hles⟩, rfl⟩

theorem mem_of_mem_compacted {c : CompactInterval} (hc : c ∈ compacted ecPool l) :
    ∃ i ∈ l, i.maybeWentRw = true ∧ i.compact ecPool = c :=
  mem_rwIntervals.mp ((Prune.prune_sublist _ _).subset hc)

/-- **An erased interval has a substitute**: a later interval of the history, still there,
with a smaller acting set. -/
theorem compacted_covers (ecPool : Bool) (h : EpochOrder l) (hi : i ∈ l)
    (hrw : i.maybeWentRw = true) :
    i.compact ecPool ∈ compacted ecPool l ∨
      ∃ j ∈ l, j.maybeWentRw = true ∧ i.last < j.first ∧ j.compact ecPool ∈ compacted ecPool l ∧
        ∀ s ∈ j.shards ecPool, s ∈ i.shards ecPool := by
  obtain ⟨c, hc, hcover⟩ := Prune.prune_covers CompactInterval.before_trans
    CompactInterval.supersedes_trans (rwIntervals_pairwise ecPool h)
    (mem_rwIntervals.mpr ⟨i, hi, hrw, rfl⟩)
  rcases hcover with rfl | ⟨hbefore, hsup⟩
  · exact .inl hc
  · obtain ⟨j, hj, hjrw, rfl⟩ := mem_of_mem_compacted hc
    exact .inr ⟨j, hj, hjrw, hbefore.1, hc, (CompactInterval.supersedes_iff _ _).mp hsup⟩

/-! ## Compaction loses no constraint -/

/-- A set of shards has a member in the acting set. -/
def Meets (S : Set PgShard) (acting : OrdSet PgShard) : Prop := ∃ s ∈ acting, s ∈ S

/-- A set that meets the compacted intervals back to an epoch meets all intervals of the
history back to it, and the other way round. -/
theorem meets_compacted_iff (h : EpochOrder l) (les : Epoch) (S : Set PgShard) :
    (∀ c ∈ compacted ecPool l, les ≤ c.last → Meets S c.acting) ↔
      ∀ i ∈ l, i.maybeWentRw = true → les ≤ i.last → Meets S (i.shards ecPool) := by
  constructor
  · intro hall i hi hrw hles
    rcases compacted_covers ecPool h hi hrw with hc | ⟨j, hj, -, hij, hc, hsub⟩
    · exact hall _ hc hles
    · have hj' : les ≤ j.last := hles.trans (hij.le.trans (h.nonempty j hj))
      obtain ⟨s, hs, hS⟩ := hall _ hc hj'
      exact ⟨s, hsub s hs, hS⟩
  · intro hall c hc hles
    obtain ⟨i, hi, hrw, rfl⟩ := mem_of_mem_compacted hc
    exact hall i hi hrw hles

theorem startOf_eq_head {a : PgInterval} (hhead : l.head? = some a) (ha : a.first ≠ 0) :
    startOf l = a.first := by
  cases l with
  | nil => simp at hhead
  | cons b l =>
    obtain rfl : b = a := by simpa using hhead
    simp [startOf, ha]

/-- In a history without gaps, the epochs from the first to the last are those of the
intervals. -/
theorem mem_epochs_iff (h : EpochOrder l) (hgap : l.IsChain (fun a b => b.first = a.last + 1))
    {a b : PgInterval} (hhead : l.head? = some a) (hlast : l.getLast? = some b) (e : Epoch) :
    a.first ≤ e ∧ e ≤ b.last ↔ ∃ i ∈ l, i.first ≤ e ∧ e ≤ i.last := by
  induction l generalizing a with
  | nil => simp at hhead
  | cons i l ih =>
    obtain rfl : i = a := by simpa using hhead
    cases l with
    | nil =>
      obtain rfl : i = b := by simpa using hlast
      simp
    | cons j l =>
      have hstep : j.first = i.last + 1 := (isChain_cons_cons.mp hgap).1
      have htail : EpochOrder (j :: l) :=
        ⟨(pairwise_cons.mp h.ordered).2, fun k hk => h.nonempty k (by simp [hk]),
          fun k hk => h.positive k (by simp [hk])⟩
      have hij : i.last < j.first := (pairwise_cons.mp h.ordered).1 j (by simp)
      have hb : i.last < b.last := by
        have hmem : b ∈ j :: l := mem_of_getLast? (by simpa using hlast)
        exact ((pairwise_cons.mp h.ordered).1 b hmem).trans_le (htail.nonempty b hmem)
      have hih := ih htail (isChain_cons_cons.mp hgap).2 rfl (by simpa using hlast)
      have hsplit : (∃ k ∈ i :: j :: l, k.first ≤ e ∧ e ≤ k.last) ↔
          (i.first ≤ e ∧ e ≤ i.last) ∨ (j.first ≤ e ∧ e ≤ b.last) := by
        rw [hih]
        simp only [mem_cons, or_and_right, exists_or, exists_eq_left]
      rw [hsplit]
      -- an epoch after the first interval lies in the rest of the history
      rcases le_or_gt e i.last with he | he
      · have hnot : ¬ j.first ≤ e := not_le.mpr (he.trans_lt hij)
        simp only [he, he.trans hb.le, hnot, and_true, or_false]
      · have hj : j.first ≤ e := by
          rw [UInt32.le_iff_toNat_le, hstep, UInt32.toNat_add, UInt32.toNat_one]
          have he' := UInt32.lt_iff_toNat_lt.mp he
          omega
        have hi : i.first ≤ e := (h.nonempty i (by simp)).trans he.le
        simp only [hj, hi, not_le.mpr he, true_and, and_false, false_or]

/-- **Compaction keeps every constraint.** Adding a history in epoch order trips no assertion.
Whatever the epoch searched back to, a set of shards meets every compacted interval the
iteration visits iff it meets every interval of the history that may have gone read-write;
the participants are the members of all acting sets; and the bounds run from the first epoch
to the last, which are exactly the added epochs if the history has no gap. -/
theorem compaction_keeps_constraints (ecPool : Bool) (l : List PgInterval) (h : EpochOrder l) :
    ∃ r, addIntervals ecPool l = some r ∧
      (∀ (les : Epoch) (S : Set PgShard),
        ((∀ c ∈ r.intervals, les ≤ c.last → Meets S c.acting) ↔
          ∀ i ∈ l, i.maybeWentRw = true → les ≤ i.last → Meets S (i.shards ecPool)) ∧
        ((∀ p ∈ r.iterateMayberwBackTo les, Meets S p.2) ↔
          ∀ c ∈ r.intervals, les ≤ c.last → Meets S c.acting)) ∧
      (∀ s, s ∈ r.allParticipants ↔ ∃ i ∈ l, s ∈ i.shards ecPool) ∧
      ∀ a b, l.head? = some a → l.getLast? = some b → a.first ≠ 0 →
        r.getBounds = (a.first, b.last + 1) ∧
        (b.last ≠ 0xffffffff → l.IsChain (fun i j => j.first = i.last + 1) →
          ∀ e, (r.getBounds.1 ≤ e ∧ e < r.getBounds.2) ↔
            ∃ i ∈ l, i.first ≤ e ∧ e ≤ i.last) := by
  obtain ⟨r, hadd, hr⟩ := addIntervals_represents ecPool h
  refine ⟨r, hadd, ?_, hr.mem_participants, ?_⟩
  · intro les S
    refine ⟨hr.intervals_eq ▸ meets_compacted_iff h les S, ?_⟩
    have hvisit := hr.mem_iterateMayberwBackTo h les
    constructor
    · intro hall c hc hles
      exact hall _ ((hvisit _).mpr ⟨c, hc, hles, rfl⟩)
    · intro hall p hp
      obtain ⟨c, hc, hles, rfl⟩ := (hvisit p).mp hp
      exact hall c hc hles
  · intro a b hhead hlast ha
    have hbounds : r.getBounds = (a.first, b.last + 1) := by
      rw [getBounds, hr.first_eq, hr.last_eq, startOf_eq_head hhead ha, endOf,
        hlast]
      rfl
    refine ⟨hbounds, fun hmax hgap e => ?_⟩
    rw [← mem_epochs_iff h hgap hhead hlast, hbounds]
    have hsucc : e < b.last + 1 ↔ e ≤ b.last := by
      have hlt := b.last.toNat_lt
      have hne : b.last.toNat ≠ 0xffffffff := fun hc => hmax (UInt32.toNat_inj.mp hc)
      rw [UInt32.lt_iff_toNat_lt, UInt32.le_iff_toNat_le, UInt32.toNat_add, UInt32.toNat_one]
      omega
    rw [hsucc]

/-- An interval with the given acting set and epochs. -/
def rwInterval (acting : List Int32) (first last : Epoch) : PgInterval :=
  ⟨acting, acting, first, last, true, acting.headD (-1), acting.headD (-1)⟩

/-- The history `[0,1,2]`, `[1,2]`, `[0,2]`: the first interval is superseded by the second. -/
theorem compaction_keeps_constraints_three :
    ∃ r, addIntervals false
        [rwInterval [0, 1, 2] 10 20, rwInterval [1, 2] 21 30, rwInterval [0, 2] 31 50] = some r ∧
      r.getBounds = (10, 51) ∧ r.intervals.map (·.first) = [21, 31] := by
  obtain ⟨r, hr, -, -, hbounds⟩ := compaction_keeps_constraints false
    [rwInterval [0, 1, 2] 10 20, rwInterval [1, 2] 21 30, rwInterval [0, 2] 31 50]
    ⟨by decide, by decide, by decide⟩
  refine ⟨r, hr, (hbounds _ _ rfl rfl (by decide)).1, ?_⟩
  have hfirst : ∀ r', addIntervals false
      [rwInterval [0, 1, 2] 10 20, rwInterval [1, 2] 21 30, rwInterval [0, 2] 31 50] = some r' →
      r'.intervals.map (·.first) = [21, 31] := by decide
  exact hfirst r hr

/-- **Where the compacted form differs.** An interval with nobody acting that is marked
read-write stays as a constraint no set can meet; without intervals the bounds still hold
epoch 0; an interval that begins at epoch 0 is left out of the bounds, and one that is epoch 0
alone trips the assertion; an interval that ends at the last epoch wraps the bounds. -/
theorem compacted_form_differs :
    (∃ r, addIntervals false [rwInterval [] 10 20] = some r ∧
      ¬ (∀ c ∈ r.intervals, 10 ≤ c.last → Meets Set.univ c.acting) ∧
      ∀ i ∈ [rwInterval [] 10 20], i.maybeWentRw = true → 10 ≤ i.last →
        (i.shards false).keys ≠ [] → Meets Set.univ (i.shards false)) ∧
    (addIntervals false []).map (·.getBounds) = some (0, 1) ∧
    (addIntervals false [rwInterval [1] 0 5, rwInterval [2] 6 9]).map
      (·.getBounds) = some (6, 10) ∧
    addIntervals false [rwInterval [1] 0 0] = none ∧
    (addIntervals false [rwInterval [1] 7 0xffffffff]).map
      (·.getBounds) = some (7, 0) := by
  refine ⟨⟨_, rfl, ?_, ?_⟩, by decide, by decide, by decide, by decide⟩
  · intro hall
    obtain ⟨s, hs, -⟩ := hall ((rwInterval [] 10 20).compact false) (by decide) (by decide)
    exact not_mem_empty s hs
  · intro i hi _ _ hne
    obtain rfl : i = rwInterval [] 10 20 := by simpa using hi
    exact absurd rfl hne

end Ceph.Osd
