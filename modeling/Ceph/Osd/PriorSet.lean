import Ceph.Osd.PastIntervals

set_option autoImplicit false

/-! # The prior set

Before a placement group goes active its primary asks the members of past intervals what they
have. The prior set (`PastIntervals::PriorSet`) says whom to probe, who is down, and whether
the group must wait: it must, if too few members of an interval that may have gone read-write
are left and one of them is down but may come back.

The set is built from compacted intervals (`PriorSet.build`). Two things are proved: the
compacted intervals make the group wait whenever the full history would
(`build_blocks_of_history`), and the test that decides whether a new map calls for a new prior
set (`affected_by_map`) misses no change that matters.
-/

namespace Ceph.Osd

open OrdMap List

/-! ## The OSD map -/

/-- What the map records of one osd: the bits `CEPH_OSD_EXISTS` and `CEPH_OSD_UP` and the
epoch at which it was last marked lost. -/
structure OsdSlot where
  existsBit : Bool
  upBit : Bool
  lostAt : Epoch
  deriving DecidableEq, Repr

/-- `OSDMap`: one slot for each osd below `max_osd`. -/
structure OsdMap where
  slots : List OsdSlot
  deriving DecidableEq, Repr

namespace OsdMap

def slot (m : OsdMap) (osd : Int32) : Option OsdSlot :=
  if 0 ≤ osd then m.slots[osd.toNatClampNeg]? else none

def exists_ (m : OsdMap) (osd : Int32) : Bool := (m.slot osd).any (·.existsBit)

def isUp (m : OsdMap) (osd : Int32) : Bool := m.exists_ osd && (m.slot osd).any (·.upBit)

def isDown (m : OsdMap) (osd : Int32) : Bool := !m.isUp osd

/-- `get_info(osd).lost_at`, which is read only where the osd exists. -/
def lostAt (m : OsdMap) (osd : Int32) : Epoch := ((m.slot osd).map (·.lostAt)).getD 0

end OsdMap

inductive OsdState where
  | up
  | down
  | dne
  | lost
  deriving DecidableEq, Repr

/-- The callback of `build_prior`: what has become of an osd since an epoch. -/
def OsdMap.state (m : OsdMap) (start : Epoch) (osd : Int32) : OsdState :=
  if m.isUp osd then .up
  else if !m.exists_ osd then .dne
  else if start < m.lostAt osd then .lost
  else .down

namespace OsdMap

variable {m : OsdMap} {start : Epoch} {osd : Int32}

theorem state_eq_up : m.state start osd = .up ↔ m.isUp osd = true := by
  unfold state
  split_ifs <;> simp_all

theorem state_eq_down : m.state start osd = .down ↔
    m.isUp osd = false ∧ m.exists_ osd = true ∧ m.lostAt osd ≤ start := by
  unfold state
  split_ifs <;> simp_all

theorem state_eq_lost : m.state start osd = .lost ↔
    m.isUp osd = false ∧ m.exists_ osd = true ∧ start < m.lostAt osd := by
  unfold state
  split_ifs <;> simp_all

/-- The osd need not be waited for: it is up, or given up as lost after the epoch. -/
def settled (m : OsdMap) (start : Epoch) (osd : Int32) : Bool :=
  m.isUp osd || (m.exists_ osd && decide (start < m.lostAt osd))

theorem settled_iff : m.settled start osd = true ↔
    m.state start osd = .up ∨ m.state start osd = .lost := by
  rw [state_eq_up, state_eq_lost, settled]
  cases m.isUp osd <;> simp

theorem settled_of_later {start' : Epoch} (h : start ≤ start')
    (hs : m.settled start' osd = true) : m.settled start osd = true := by
  simp only [settled, Bool.or_eq_true, Bool.and_eq_true, decide_eq_true_eq] at *
  exact hs.imp id (And.imp id h.trans_lt)

theorem state_eq_down_of_not_settled (hexists : m.exists_ osd = true)
    (hs : m.settled start osd = false) : m.state start osd = .down := by
  rw [state_eq_down]
  simp only [settled, Bool.or_eq_false_iff, hexists, Bool.true_and, decide_eq_false_iff_not,
    not_lt] at hs
  exact ⟨hs.1, hexists, hs.2⟩

end OsdMap

/-! ## Looking at one interval -/

/-- What the loop over the acting shards of an interval collects. -/
structure Scan where
  upNow : OrdSet PgShard
  candidateBlockedBy : OrdMap Int32 Epoch
  anyDownNow : Bool

/-- One turn of the loop over the acting shards. -/
def Scan.consider (m : OsdMap) (start : Epoch) (sc : Scan) (so : PgShard) : Scan :=
  match m.state start so.osd with
  | .up => { sc with upNow := sc.upNow.insert so () }
  | .dne => sc
  | .lost => { sc with upNow := sc.upNow.insert so () }
  | .down =>
    { sc with candidateBlockedBy := sc.candidateBlockedBy.insert so.osd (m.lostAt so.osd)
              anyDownNow := true }

/-- The loop over the acting shards. -/
def scan (m : OsdMap) (start : Epoch) (acting : OrdSet PgShard) : Scan :=
  acting.keys.foldl (Scan.consider m start) ⟨.empty, .empty, false⟩

/-- A map that stores the current `lost_at` of the osds in it. -/
def HoldsLostAt (m : OsdMap) (b : OrdMap Int32 Epoch) : Prop :=
  ∀ o v, b.get o = some v → v = m.lostAt o

theorem HoldsLostAt.insert {m : OsdMap} {b : OrdMap Int32 Epoch} (h : HoldsLostAt m b)
    (osd : Int32) : HoldsLostAt m (b.insert osd (m.lostAt osd)) := by
  intro o v hv
  rw [get_insert] at hv
  split_ifs at hv with ho
  · rw [ho]
    exact (Option.some.inj hv).symm
  · exact h o v hv

/-- **The loop over a list of shards**, from any point of it. -/
theorem Scan.foldl_consider (m : OsdMap) (start : Epoch) (l : List PgShard) (sc : Scan) :
    (∀ so, so ∈ (l.foldl (Scan.consider m start) sc).upNow ↔
      so ∈ sc.upNow ∨ so ∈ l ∧ m.settled start so.osd = true) ∧
    (∀ o, o ∈ (l.foldl (Scan.consider m start) sc).candidateBlockedBy ↔
      o ∈ sc.candidateBlockedBy ∨ ∃ so ∈ l, m.state start so.osd = .down ∧ so.osd = o) ∧
    ((l.foldl (Scan.consider m start) sc).anyDownNow = true ↔
      sc.anyDownNow = true ∨ ∃ so ∈ l, m.state start so.osd = .down) ∧
    (HoldsLostAt m sc.candidateBlockedBy →
      HoldsLostAt m (l.foldl (Scan.consider m start) sc).candidateBlockedBy) := by
  induction l generalizing sc with
  | nil => simp
  | cons a l ih =>
    obtain ⟨hup, hblocked, hdown, hholds⟩ := ih (Scan.consider m start sc a)
    have hsettled : m.settled start a.osd = true ↔
        m.state start a.osd = .up ∨ m.state start a.osd = .lost := OsdMap.settled_iff
    rw [foldl_cons]
    refine ⟨?_, ?_, ?_, ?_⟩
    · intro so
      rw [hup, consider]
      cases h : m.state start a.osd <;> simp only [h] at hsettled ⊢ <;>
        simp only [mem_insert, mem_cons] <;>
        by_cases hso : so = a <;> simp_all
    · intro o
      rw [hblocked, consider]
      cases h : m.state start a.osd <;> simp [h, mem_insert, eq_comm, or_assoc, or_left_comm]
    · rw [hdown, consider]
      cases h : m.state start a.osd <;> simp [h]
    · intro hsc
      apply hholds
      rw [consider]
      cases h : m.state start a.osd with
      | down => exact hsc.insert a.osd
      | _ => exact hsc

section OneInterval

variable (m : OsdMap) (start : Epoch) (acting : OrdSet PgShard)

theorem mem_scan_upNow (so : PgShard) :
    so ∈ (scan m start acting).upNow ↔ so ∈ acting ∧ m.settled start so.osd = true := by
  rw [scan, (Scan.foldl_consider m start _ _).1, mem_keys_iff]
  simp [not_mem_empty]

theorem mem_scan_candidateBlockedBy (o : Int32) :
    o ∈ (scan m start acting).candidateBlockedBy ↔
      ∃ so ∈ acting, m.state start so.osd = .down ∧ so.osd = o := by
  rw [scan, (Scan.foldl_consider m start _ _).2.1]
  simp [not_mem_empty, mem_keys_iff]

theorem scan_anyDownNow :
    (scan m start acting).anyDownNow = true ↔ ∃ so ∈ acting, m.state start so.osd = .down := by
  rw [scan, (Scan.foldl_consider m start _ _).2.2.1]
  simp [mem_keys_iff]

theorem scan_holdsLostAt : HoldsLostAt m (scan m start acting).candidateBlockedBy := by
  apply (Scan.foldl_consider m start _ _).2.2.2
  intro o v hv
  simp at hv

end OneInterval

/-! ## The prior set -/

structure PriorSet where
  ecPool : Bool
  probe : OrdSet PgShard
  down : OrdSet Int32
  blockedBy : OrdMap Int32 Epoch
  pgDown : Bool
  deriving DecidableEq

namespace PriorSet

/-- One past participant: probe it if it is up, else note that it is down. -/
def participant (m : OsdMap) (s : PriorSet) (i : PgShard) : PriorSet :=
  match m.state 0 i.osd with
  | .up => { s with probe := s.probe.insert i () }
  | .dne | .lost | .down => { s with down := s.down.insert i.osd () }

/-- One interval that may have gone read-write. -/
def considerInterval (pcontdec : OrdSet PgShard → Bool) (m : OsdMap) (s : PriorSet)
    (interval : Epoch × OrdSet PgShard) : PriorSet :=
  let sc := scan m interval.1 interval.2
  if !pcontdec sc.upNow && sc.anyDownNow then
    { s with
      pgDown := true
      blockedBy := sc.candidateBlockedBy.entries.foldl (fun b e => b.insertNew e.1 e.2)
        s.blockedBy }
  else s

/-- The constructor of `PriorSet`. -/
def build (r : PiCompactRep) (ecPool : Bool) (les : Epoch)
    (pcontdec : OrdSet PgShard → Bool) (m : OsdMap) (up acting : List Int32) : PriorSet :=
  let probe := (OrdMap.empty.insertAll (shardList ecPool acting)).insertAll (shardList ecPool up)
  let s := r.allParticipants.keys.foldl (participant m) ⟨ecPool, probe, .empty, .empty, false⟩
  (r.iterateMayberwBackTo les).foldl (considerInterval pcontdec m) s

/-- The test of `affected_by_map` against a recorded `lost_at`. -/
def relost (s : PriorSet) (m : OsdMap) (o : Int32) : Bool :=
  match s.blockedBy.get o with
  | some lostAt => m.lostAt o ≠ lostAt
  | none => false

def affectedByMap (s : PriorSet) (m : OsdMap) : Bool :=
  s.probe.keys.any (fun p =>
    (m.isDown p.osd && !decide (p.osd ∈ s.down)) ||
      (decide (p.osd ∈ s.blockedBy) && !m.exists_ p.osd) || s.relost m p.osd) ||
  s.down.keys.any (fun o => m.isUp o || !m.exists_ o || s.relost m o)

end PriorSet

/-! ## What the constructor computes -/

/-- **An interval that makes the group wait**: its settled members do not suffice and one of
its members may come back. -/
def Blocks (pcontdec : OrdSet PgShard → Bool) (m : OsdMap) (interval : Epoch × OrdSet PgShard) :
    Prop :=
  pcontdec (scan m interval.1 interval.2).upNow = false ∧
    ∃ so ∈ interval.2, m.state interval.1 so.osd = .down

namespace PriorSet

theorem participant_eq (m : OsdMap) (s : PriorSet) (i : PgShard) :
    participant m s i = if m.isUp i.osd then { s with probe := s.probe.insert i () }
      else { s with down := s.down.insert i.osd () } := by
  have hup : m.state 0 i.osd = .up ↔ m.isUp i.osd = true := OsdMap.state_eq_up
  unfold participant
  cases h : m.state 0 i.osd <;> simp only [h] at hup ⊢ <;> simp_all

theorem foldl_participant (m : OsdMap) (l : List PgShard) (s : PriorSet) :
    (∀ x, x ∈ (l.foldl (participant m) s).probe ↔
      x ∈ s.probe ∨ x ∈ l ∧ m.isUp x.osd = true) ∧
    (∀ o, o ∈ (l.foldl (participant m) s).down ↔
      o ∈ s.down ∨ ∃ x ∈ l, m.isUp x.osd = false ∧ x.osd = o) ∧
    (l.foldl (participant m) s).blockedBy = s.blockedBy ∧
    (l.foldl (participant m) s).pgDown = s.pgDown := by
  induction l generalizing s with
  | nil => simp
  | cons a l ih =>
    rw [foldl_cons]
    obtain ⟨hprobe, hdown, hblocked, hpg⟩ := ih (participant m s a)
    rw [participant_eq] at hprobe hdown hblocked hpg ⊢
    split_ifs at hprobe hdown hblocked hpg ⊢ with h
    · refine ⟨?_, ?_, hblocked, hpg⟩
      · intro x
        rw [hprobe, mem_insert, mem_cons]
        by_cases hx : x = a
        · simp [hx, h]
        · simp [hx]
      · intro o
        simp [hdown, h]
    · refine ⟨?_, ?_, hblocked, hpg⟩
      · intro x
        rw [hprobe, mem_cons]
        by_cases hx : x = a
        · simp [hx, h]
        · simp [hx]
      · intro o
        simp only [hdown, mem_insert, mem_cons, or_and_right, exists_or,
          exists_eq_left, h, true_and, eq_comm (a := o)]
        tauto

theorem mem_foldl_insertNew (l : List (Int32 × Epoch)) (b : OrdMap Int32 Epoch) (o : Int32) :
    o ∈ l.foldl (fun b e => b.insertNew e.1 e.2) b ↔ o ∈ b ∨ o ∈ l.map Prod.fst := by
  induction l generalizing b with
  | nil => simp
  | cons e l ih =>
    rw [foldl_cons, ih, mem_insertNew, map_cons, mem_cons]
    tauto

theorem holdsLostAt_foldl_insertNew {m : OsdMap} (l : List (Int32 × Epoch))
    (hl : ∀ e ∈ l, e.2 = m.lostAt e.1) {b : OrdMap Int32 Epoch} (hb : HoldsLostAt m b) :
    HoldsLostAt m (l.foldl (fun b e => b.insertNew e.1 e.2) b) := by
  induction l generalizing b with
  | nil => exact hb
  | cons e l ih =>
    rw [foldl_cons]
    apply ih (fun e' he' => hl e' (mem_cons_of_mem _ he'))
    unfold OrdMap.insertNew
    split_ifs with h
    · exact hb
    · rw [hl e mem_cons_self]
      exact hb.insert e.1

variable {pcontdec : OrdSet PgShard → Bool} {m : OsdMap}

/-- One interval adds its members that are down if it blocks, and nothing else. -/
theorem considerInterval_spec (pcontdec : OrdSet PgShard → Bool) (m : OsdMap) (s : PriorSet)
    (p : Epoch × OrdSet PgShard) :
    (considerInterval pcontdec m s p).probe = s.probe ∧
    (considerInterval pcontdec m s p).down = s.down ∧
    ((considerInterval pcontdec m s p).pgDown = true ↔
      s.pgDown = true ∨ Blocks pcontdec m p) ∧
    (∀ o, o ∈ (considerInterval pcontdec m s p).blockedBy ↔ o ∈ s.blockedBy ∨
      Blocks pcontdec m p ∧ ∃ so ∈ p.2, m.state p.1 so.osd = .down ∧ so.osd = o) ∧
    (HoldsLostAt m s.blockedBy → HoldsLostAt m (considerInterval pcontdec m s p).blockedBy) := by
  have hblocks : (!pcontdec (scan m p.1 p.2).upNow && (scan m p.1 p.2).anyDownNow) = true ↔
      Blocks pcontdec m p := by
    rw [Bool.and_eq_true, Bool.not_eq_true', scan_anyDownNow]
    rfl
  unfold considerInterval
  by_cases h : Blocks pcontdec m p
  · simp only [hblocks.mpr h, if_true]
    refine ⟨trivial, trivial, by simp [h], ?_, ?_⟩
    · intro o
      rw [mem_foldl_insertNew]
      show _ ∨ o ∈ (scan m p.1 p.2).candidateBlockedBy.keys ↔ _
      rw [mem_keys_iff, mem_scan_candidateBlockedBy]
      simp only [h, true_and]
    · intro hs
      refine holdsLostAt_foldl_insertNew _ ?_ hs
      rintro ⟨o, v⟩ he
      exact scan_holdsLostAt m p.1 p.2 o v ((mem_entries_iff _ o v).mp he)
  · rw [if_neg (fun hc => h (hblocks.mp hc))]
    simp [h]

theorem foldl_considerInterval (l : List (Epoch × OrdSet PgShard)) (s : PriorSet) :
    (l.foldl (considerInterval pcontdec m) s).probe = s.probe ∧
    (l.foldl (considerInterval pcontdec m) s).down = s.down ∧
    ((l.foldl (considerInterval pcontdec m) s).pgDown = true ↔
      s.pgDown = true ∨ ∃ p ∈ l, Blocks pcontdec m p) ∧
    (∀ o, o ∈ (l.foldl (considerInterval pcontdec m) s).blockedBy ↔ o ∈ s.blockedBy ∨
      ∃ p ∈ l, Blocks pcontdec m p ∧ ∃ so ∈ p.2, m.state p.1 so.osd = .down ∧ so.osd = o) ∧
    (HoldsLostAt m s.blockedBy →
      HoldsLostAt m (l.foldl (considerInterval pcontdec m) s).blockedBy) := by
  induction l generalizing s with
  | nil => simp
  | cons p l ih =>
    obtain ⟨hprobe, hdown, hpg, hblocked, hholds⟩ := ih (considerInterval pcontdec m s p)
    obtain ⟨hprobe', hdown', hpg', hblocked', hholds'⟩ :=
      considerInterval_spec pcontdec m s p
    rw [foldl_cons]
    refine ⟨hprobe.trans hprobe', hdown.trans hdown', ?_, ?_, fun hs => hholds (hholds' hs)⟩
    · rw [hpg, hpg']
      simp [or_assoc]
    · intro o
      rw [hblocked, hblocked']
      simp only [mem_cons, or_and_right, exists_or, exists_eq_left, or_assoc]

variable (r : PiCompactRep) (ecPool : Bool) (les : Epoch) (pcontdec) (m)
variable (up acting : List Int32)

theorem mem_build_probe (x : PgShard) :
    x ∈ (build r ecPool les pcontdec m up acting).probe ↔
      (x ∈ shardList ecPool acting ∨ x ∈ shardList ecPool up) ∨
        x ∈ r.allParticipants ∧ m.isUp x.osd = true := by
  rw [build, (foldl_considerInterval _ _).1, (foldl_participant m _ _).1]
  simp only [mem_insertAll, mem_keys_iff, not_mem_empty, false_or]

theorem mem_build_down (o : Int32) :
    o ∈ (build r ecPool les pcontdec m up acting).down ↔
      ∃ x ∈ r.allParticipants, m.isUp x.osd = false ∧ x.osd = o := by
  rw [build, (foldl_considerInterval _ _).2.1, (foldl_participant m _ _).2.1]
  simp only [mem_keys_iff, not_mem_empty, false_or]

/-- **The group waits iff a visited interval blocks.** -/
theorem build_pgDown_iff :
    (build r ecPool les pcontdec m up acting).pgDown = true ↔
      ∃ p ∈ r.iterateMayberwBackTo les, Blocks pcontdec m p := by
  rw [build, (foldl_considerInterval _ _).2.2.1, (foldl_participant m _ _).2.2.2]
  simp

theorem mem_build_blockedBy (o : Int32) :
    o ∈ (build r ecPool les pcontdec m up acting).blockedBy ↔
      ∃ p ∈ r.iterateMayberwBackTo les, Blocks pcontdec m p ∧
        ∃ so ∈ p.2, m.state p.1 so.osd = .down ∧ so.osd = o := by
  rw [build, (foldl_considerInterval _ _).2.2.2.1, (foldl_participant m _ _).2.2.1]
  simp [not_mem_empty]

theorem build_holdsLostAt : HoldsLostAt m (build r ecPool les pcontdec m up acting).blockedBy := by
  apply (foldl_considerInterval _ _).2.2.2.2
  rw [(foldl_participant m _ _).2.2.1]
  intro o v hv
  simp at hv

end PriorSet

open PriorSet

/-! ## Waiting for an unreachable writer -/

/-- A recoverability predicate that more shards never turn false. -/
def MonotonePred (pcontdec : OrdSet PgShard → Bool) : Prop :=
  ∀ s t : OrdSet PgShard, (∀ x ∈ s, x ∈ t) → pcontdec s = true → pcontdec t = true

theorem MonotonePred.eq_false {pcontdec : OrdSet PgShard → Bool} (h : MonotonePred pcontdec)
    {s t : OrdSet PgShard} (hsub : ∀ x ∈ s, x ∈ t) (ht : pcontdec t = false) :
    pcontdec s = false := by
  by_contra hs
  simp [h s t hsub (by simpa using hs)] at ht

/-- The members of a set with an osd that passes a test. -/
def osdsWith (acting : OrdSet PgShard) (test : Int32 → Bool) : OrdSet PgShard :=
  acting.filter (fun s _ => test s.osd)

theorem mem_osdsWith (acting : OrdSet PgShard) (test : Int32 → Bool) (s : PgShard) :
    s ∈ osdsWith acting test ↔ s ∈ acting ∧ test s.osd = true := by
  rw [osdsWith, mem_iff_isSome, get_filter, mem_iff_isSome]
  cases acting.get s <;> simp [Option.filter]

theorem scan_upNow_eq (m : OsdMap) (start : Epoch) (acting : OrdSet PgShard) :
    (scan m start acting).upNow = osdsWith acting (m.settled start) := by
  apply ext_mem
  intro s
  rw [mem_scan_upNow, mem_osdsWith]

/-- **A substitute blocks where the erased interval would.** If the settled members of an
interval do not suffice, and the existing members of a later interval within it would, then
the later one has a member that both intervals wait for. -/
theorem exists_down_of_substitute {pcontdec : OrdSet PgShard → Bool}
    (hmono : MonotonePred pcontdec) {m : OsdMap} {start : Epoch} {wide narrow : OrdSet PgShard}
    (hsub : ∀ s ∈ narrow, s ∈ wide) (hexists : pcontdec (osdsWith narrow m.exists_) = true)
    (hfail : pcontdec (osdsWith wide (m.settled start)) = false) :
    ∃ so ∈ narrow, m.state start so.osd = .down := by
  by_contra hnone
  push Not at hnone
  have hall : ∀ s ∈ osdsWith narrow m.exists_, s ∈ osdsWith wide (m.settled start) := by
    intro s hs
    rw [mem_osdsWith] at hs ⊢
    refine ⟨hsub s hs.1, ?_⟩
    by_contra hnot
    exact hnone s hs.1 (OsdMap.state_eq_down_of_not_settled hs.2 (by simpa using hnot))
  rw [hmono _ _ hall hexists] at hfail
  exact absurd hfail (by simp)

theorem state_eq_down_of_later {m : OsdMap} {start start' : Epoch} {osd : Int32}
    (h : start ≤ start') (hdown : m.state start osd = .down) : m.state start' osd = .down := by
  rw [OsdMap.state_eq_down] at hdown ⊢
  exact ⟨hdown.1, hdown.2.1, hdown.2.2.trans h⟩

/-- **The compacted intervals make the group wait whenever the history does.** -/
theorem build_blocks_of_history {ecPool : Bool} {l : List PgInterval} (h : EpochOrder l)
    {r : PiCompactRep} (hr : r.Represents ecPool l) (les : Epoch)
    {pcontdec : OrdSet PgShard → Bool} (hmono : MonotonePred pcontdec) (m : OsdMap)
    (up acting : List Int32) {i : PgInterval} (hi : i ∈ l) (hrw : i.maybeWentRw = true)
    (hles : les ≤ i.last) {so : PgShard} (hso : so ∈ i.shards ecPool)
    (hdown : m.state i.first so.osd = .down)
    (hfail : pcontdec (osdsWith (i.shards ecPool) (m.settled i.first)) = false)
    (hlater : ∀ j ∈ l, j.maybeWentRw = true → i.last < j.first →
      (∀ s ∈ j.shards ecPool, s ∈ i.shards ecPool) →
      pcontdec (osdsWith (j.shards ecPool) m.exists_) = true) :
    (build r ecPool les pcontdec m up acting).pgDown = true ∧
      ∃ s ∈ i.shards ecPool, m.state i.first s.osd = .down ∧
        s.osd ∈ (build r ecPool les pcontdec m up acting).blockedBy := by
  -- an interval that is visited, blocks, and waits for a member that `i` waits for
  have hkey : ∃ p ∈ r.iterateMayberwBackTo les, Blocks pcontdec m p ∧
      ∃ s ∈ p.2, s ∈ i.shards ecPool ∧ m.state i.first s.osd = .down ∧
        m.state p.1 s.osd = .down := by
    have hvisit := hr.mem_iterateMayberwBackTo h les
    rw [hr.intervals_eq] at hvisit
    rcases compacted_covers ecPool h hi hrw with hc | ⟨j, hj, hjrw, hij, hc, hsub⟩
    · refine ⟨(i.first, i.shards ecPool), (hvisit _).mpr ⟨_, hc, hles, rfl⟩, ⟨?_, so, hso, hdown⟩,
        so, hso, hso, hdown, hdown⟩
      rw [scan_upNow_eq]
      exact hfail
    · have hfirst : i.first ≤ j.first := (h.nonempty i hi).trans hij.le
      have hjles : les ≤ j.last := hles.trans (hij.le.trans (h.nonempty j hj))
      obtain ⟨s, hs, hsdown⟩ := exists_down_of_substitute hmono hsub
        (hlater j hj hjrw hij hsub) hfail
      have hsdown' := state_eq_down_of_later hfirst hsdown
      refine ⟨(j.first, j.shards ecPool), (hvisit _).mpr ⟨_, hc, hjles, rfl⟩,
        ⟨?_, s, hs, hsdown'⟩, s, hs, hsub s hs, hsdown, hsdown'⟩
      -- fewer members are settled, counted from a later epoch and in a smaller set
      rw [scan_upNow_eq]
      refine hmono.eq_false (fun x hx => ?_) hfail
      rw [mem_osdsWith] at hx ⊢
      exact ⟨hsub x hx.1, OsdMap.settled_of_later hfirst hx.2⟩
  obtain ⟨p, hp, hblocks, s, hs, hsi, hsdown, hsdown'⟩ := hkey
  refine ⟨(build_pgDown_iff ..).mpr ⟨p, hp, hblocks⟩, s, hsi, hsdown, ?_⟩
  exact (mem_build_blockedBy ..).mpr ⟨p, hp, hblocks, s, hs, hsdown', rfl⟩

/-! ## Maps that leave the prior set as it is -/

/-- A map that re-creates none of the shards' osds and takes back no loss. -/
structure OsdMap.Succeeds (m m' : OsdMap) (shards : OrdSet PgShard) : Prop where
  existed : ∀ s ∈ shards, m'.exists_ s.osd = true → m.exists_ s.osd = true
  lostAt_le : ∀ s ∈ shards, m.exists_ s.osd = true → m'.exists_ s.osd = true →
    m.lostAt s.osd ≤ m'.lostAt s.osd

/-- What a negative answer of `affected_by_map` says of an osd noted as down. -/
theorem PriorSet.of_not_affectedByMap_down {s : PriorSet} {m : OsdMap}
    (h : s.affectedByMap m = false) {o : Int32} (ho : o ∈ s.down) :
    m.isUp o = false ∧ m.exists_ o = true ∧ ∀ v, s.blockedBy.get o = some v → m.lostAt o = v := by
  rw [affectedByMap, Bool.or_eq_false_iff] at h
  have hany := any_eq_false.mp h.2 o ((mem_keys_iff _ _).mpr ho)
  simp only [Bool.or_eq_true, not_or, Bool.not_eq_true, Bool.not_eq_false', relost] at hany
  refine ⟨hany.1.1, hany.1.2, ?_⟩
  intro v hv
  simpa [hv] using hany.2

/-- What it says of a shard that is probed. -/
theorem PriorSet.of_not_affectedByMap_probe {s : PriorSet} {m : OsdMap}
    (h : s.affectedByMap m = false) {p : PgShard} (hp : p ∈ s.probe) (hdown : p.osd ∉ s.down) :
    m.isUp p.osd = true := by
  rw [affectedByMap, Bool.or_eq_false_iff] at h
  have hany := any_eq_false.mp h.1 p ((mem_keys_iff _ _).mpr hp)
  simp only [Bool.or_eq_true, not_or, OsdMap.isDown, hdown, decide_false, Bool.not_false,
    Bool.and_true, Bool.not_eq_true, Bool.not_eq_false'] at hany
  exact hany.1.1

section Unaffected

variable {r : PiCompactRep} {ecPool : Bool} {les : Epoch} {pcontdec : OrdSet PgShard → Bool}
variable {m m' : OsdMap} {up acting : List Int32}

variable (h : (build r ecPool les pcontdec m up acting).affectedByMap m' = false)
  (hsucc : m.Succeeds m' r.allParticipants)

include h

theorem isUp_eq_of_not_affected {s : PgShard} (hs : s ∈ r.allParticipants) :
    m'.isUp s.osd = m.isUp s.osd := by
  cases hup : m.isUp s.osd with
  | true =>
    apply of_not_affectedByMap_probe h
    · exact (mem_build_probe ..).mpr (.inr ⟨hs, hup⟩)
    · intro hdown
      obtain ⟨x, -, hx, heq⟩ := (mem_build_down ..).mp hdown
      rw [heq, hup] at hx
      exact absurd hx (by simp)
  | false =>
    exact (of_not_affectedByMap_down h
      ((mem_build_down ..).mpr ⟨s, hs, hup, rfl⟩)).1

include hsucc

theorem exists_of_not_affected {s : PgShard} (hs : s ∈ r.allParticipants)
    (hup : m.isUp s.osd = false) : m.exists_ s.osd = true ∧ m'.exists_ s.osd = true := by
  have hex := (of_not_affectedByMap_down h
    ((mem_build_down ..).mpr ⟨s, hs, hup, rfl⟩)).2.1
  exact ⟨hsucc.existed s hs hex, hex⟩

theorem settled_of_not_affected {s : PgShard} (hs : s ∈ r.allParticipants)
    {start : Epoch} (hset : m.settled start s.osd = true) : m'.settled start s.osd = true := by
  rw [OsdMap.settled, isUp_eq_of_not_affected h hs]
  cases hup : m.isUp s.osd with
  | true => rfl
  | false =>
    obtain ⟨hex, hex'⟩ := exists_of_not_affected h hsucc hs hup
    rw [OsdMap.settled, hup, hex, Bool.false_or, Bool.true_and, decide_eq_true_eq] at hset
    simpa [hex'] using hset.trans_le (hsucc.lostAt_le s hs hex hex')

/-- **The same intervals block.** An interval that blocked still does, since the losses of the
osds it waits for are recorded; one that did not has no fewer settled members. -/
theorem blocks_iff_of_not_affected (hmono : MonotonePred pcontdec)
    {p : Epoch × OrdSet PgShard} (hp : p ∈ r.iterateMayberwBackTo les)
    (hsub : ∀ s ∈ p.2, s ∈ r.allParticipants) : Blocks pcontdec m p ↔ Blocks pcontdec m' p := by
  constructor
  · intro hblocks
    -- a member the interval waits for is still waited for
    have hkeep : ∀ s ∈ p.2, m.state p.1 s.osd = .down → m'.state p.1 s.osd = .down := by
      intro s hs hdown
      have hmem : s.osd ∈ (build r ecPool les pcontdec m up acting).blockedBy :=
        (mem_build_blockedBy ..).mpr ⟨p, hp, hblocks, s, hs, hdown, rfl⟩
      obtain ⟨v, hv⟩ := Option.isSome_iff_exists.mp hmem
      have hval := build_holdsLostAt pcontdec m r ecPool les up acting _ _ hv
      rw [OsdMap.state_eq_down] at hdown ⊢
      obtain ⟨hup', hex', hlost⟩ := of_not_affectedByMap_down h
        ((mem_build_down ..).mpr ⟨s, hsub s hs, hdown.1, rfl⟩)
      refine ⟨hup', hex', ?_⟩
      rw [hlost v hv, hval]
      exact hdown.2.2
    obtain ⟨hfail, s, hs, hdown⟩ := hblocks
    refine ⟨?_, s, hs, hkeep s hs hdown⟩
    rw [scan_upNow_eq] at hfail ⊢
    refine hmono.eq_false (fun x hx => ?_) hfail
    rw [mem_osdsWith] at hx ⊢
    refine ⟨hx.1, ?_⟩
    by_contra hnot
    have hup : m.isUp x.osd = false := by
      by_contra hc
      exact hnot (by simp [OsdMap.settled, hc])
    have hex := (exists_of_not_affected h hsucc (hsub x hx.1) hup).1
    have hstate := hkeep x hx.1
      (OsdMap.state_eq_down_of_not_settled hex (by simpa using hnot))
    have hset := OsdMap.settled_iff.mp hx.2
    rw [hstate] at hset
    exact absurd hset (by simp)
  · rintro ⟨hfail, s, hs, hdown⟩
    rw [scan_upNow_eq] at hfail
    refine ⟨?_, s, hs, ?_⟩
    · rw [scan_upNow_eq]
      refine hmono.eq_false (fun x hx => ?_) hfail
      rw [mem_osdsWith] at hx ⊢
      exact ⟨hx.1, settled_of_not_affected h hsucc (hsub x hx.1) hx.2⟩
    · -- it was not settled before, or it would be settled now
      have hup : m.isUp s.osd = false := by
        rw [← isUp_eq_of_not_affected h (hsub s hs)]
        exact (OsdMap.state_eq_down.mp hdown).1
      apply OsdMap.state_eq_down_of_not_settled
        (exists_of_not_affected h hsucc (hsub s hs) hup).1
      by_contra hset
      have hset' : m'.settled p.1 s.osd = true :=
        settled_of_not_affected h hsucc (hsub s hs) (by simpa using hset)
      rw [OsdMap.settled_iff, hdown] at hset'
      exact absurd hset' (by simp)

/-- **A map that does not affect the prior set leaves it as it is.** -/
theorem build_eq_of_not_affected (hmono : MonotonePred pcontdec)
    (hsub : ∀ p ∈ r.iterateMayberwBackTo les, ∀ s ∈ p.2, s ∈ r.allParticipants) :
    let s := build r ecPool les pcontdec m up acting
    let s' := build r ecPool les pcontdec m' up acting
    s'.probe = s.probe ∧ s'.down = s.down ∧ s'.pgDown = s.pgDown := by
  refine ⟨?_, ?_, ?_⟩
  · apply ext_mem
    intro x
    rw [mem_build_probe, mem_build_probe]
    refine or_congr_right (and_congr_right fun hx => ?_)
    rw [isUp_eq_of_not_affected h hx]
  · apply ext_mem
    intro o
    rw [mem_build_down, mem_build_down]
    refine exists_congr fun x => and_congr_right fun hx => ?_
    rw [isUp_eq_of_not_affected h hx]
  · rw [Bool.eq_iff_iff, build_pgDown_iff, build_pgDown_iff]
    refine exists_congr fun p => and_congr_right fun hp => ?_
    exact (blocks_iff_of_not_affected h hsucc hmono hp (hsub p hp)).symm

end Unaffected

theorem PiCompactRep.Represents.mem_participants_of_visited {ecPool : Bool}
    {l : List PgInterval} {r : PiCompactRep} (hr : r.Represents ecPool l) (h : EpochOrder l)
    {les : Epoch} {p : Epoch × OrdSet PgShard} (hp : p ∈ r.iterateMayberwBackTo les)
    {s : PgShard} (hs : s ∈ p.2) : s ∈ r.allParticipants := by
  obtain ⟨c, hc, -, rfl⟩ := (hr.mem_iterateMayberwBackTo h les p).mp hp
  rw [hr.intervals_eq] at hc
  obtain ⟨i, hi, -, rfl⟩ := mem_of_mem_compacted hc
  exact (hr.mem_participants s).mpr ⟨i, hi, hs⟩

/-! ## The prior set of a history -/

/-- **Peering waits for an unreachable writer.** Take any history in epoch order, epoch to
search back to, monotone recoverability predicate and map. If an interval of the history that
may have gone read-write waits for a member, its settled members do not suffice, and the
existing members of the later intervals within it would, then the prior set built from the
compacted history makes the group wait, for a member this interval waits for. And a newer map
that re-creates no past participant and takes back no loss leaves the prior set as it is
unless `affected_by_map` says otherwise. -/
theorem prior_set_waits_for_writers (ecPool : Bool) (l : List PgInterval) (h : EpochOrder l)
    (les : Epoch) (pcontdec : OrdSet PgShard → Bool) (hmono : MonotonePred pcontdec) (m : OsdMap)
    (up acting : List Int32) :
    ∃ r, PiCompactRep.addIntervals ecPool l = some r ∧
      (∀ i ∈ l, i.maybeWentRw = true → les ≤ i.last →
        (∃ s ∈ i.shards ecPool, m.exists_ s.osd = true ∧ m.isUp s.osd = false ∧
          m.lostAt s.osd ≤ i.first) →
        pcontdec (osdsWith (i.shards ecPool) (m.settled i.first)) = false →
        (∀ j ∈ l, j.maybeWentRw = true → i.last < j.first →
          (∀ s ∈ j.shards ecPool, s ∈ i.shards ecPool) →
          pcontdec (osdsWith (j.shards ecPool) m.exists_) = true) →
        (PriorSet.build r ecPool les pcontdec m up acting).pgDown = true ∧
          ∃ s ∈ i.shards ecPool, m.exists_ s.osd = true ∧ m.isUp s.osd = false ∧
            m.lostAt s.osd ≤ i.first ∧
            s.osd ∈ (PriorSet.build r ecPool les pcontdec m up acting).blockedBy) ∧
      ∀ m' : OsdMap, m.Succeeds m' r.allParticipants →
        (PriorSet.build r ecPool les pcontdec m up acting).affectedByMap m' = false →
        (PriorSet.build r ecPool les pcontdec m' up acting).probe =
          (PriorSet.build r ecPool les pcontdec m up acting).probe ∧
        (PriorSet.build r ecPool les pcontdec m' up acting).down =
          (PriorSet.build r ecPool les pcontdec m up acting).down ∧
        (PriorSet.build r ecPool les pcontdec m' up acting).pgDown =
          (PriorSet.build r ecPool les pcontdec m up acting).pgDown := by
  obtain ⟨r, hadd, hr⟩ := PiCompactRep.addIntervals_represents ecPool h
  refine ⟨r, hadd, ?_, ?_⟩
  · rintro i hi hrw hles ⟨so, hso, hex, hup, hlost⟩ hfail hlater
    obtain ⟨hpg, s, hs, hdown, hblocked⟩ := build_blocks_of_history h hr les hmono m up acting hi
      hrw hles hso (OsdMap.state_eq_down.mpr ⟨hup, hex, hlost⟩) hfail hlater
    obtain ⟨hsup, hsex, hslost⟩ := OsdMap.state_eq_down.mp hdown
    exact ⟨hpg, s, hs, hsex, hsup, hslost, hblocked⟩
  · intro m' hsucc haffected
    exact build_eq_of_not_affected haffected hsucc hmono
      fun p hp s hs => hr.mem_participants_of_visited h hp hs

/-- The recoverability predicate of replicated pools (`RPCRecPred`): any shard will do. -/
def anyShard (have_ : OrdSet PgShard) : Bool := !have_.keys.isEmpty

theorem anyShard_monotone : MonotonePred anyShard := by
  intro s t hst hs
  obtain ⟨x, hx⟩ : ∃ x, x ∈ s.keys := by
    rw [← isEmpty_eq_false_iff_exists_mem]
    simpa [anyShard] using hs
  have ht : x ∈ t.keys := (mem_keys_iff t x).mpr (hst x ((mem_keys_iff s x).mp hx))
  have hne : t.keys.isEmpty = false := isEmpty_eq_false_iff_exists_mem.mpr ⟨x, ht⟩
  rw [anyShard, hne]
  rfl

/-- The osds 1 and 2 were acting, then 2 alone. Both are down, and osd 2 was marked lost only
before the first interval: the group waits. -/
theorem prior_set_waits_for_writers_two :
    ∃ r, PiCompactRep.addIntervals false [rwInterval [1, 2] 10 20, rwInterval [2] 21 30] = some r ∧
      (PriorSet.build r false 0 anyShard
        ⟨[⟨true, true, 0⟩, ⟨true, false, 0⟩, ⟨true, false, 5⟩]⟩ [0] [0]).pgDown = true := by
  obtain ⟨r, hr, hblocks, -⟩ := prior_set_waits_for_writers false
    [rwInterval [1, 2] 10 20, rwInterval [2] 21 30] ⟨by decide, by decide, by decide⟩ 0 anyShard
    anyShard_monotone ⟨[⟨true, true, 0⟩, ⟨true, false, 0⟩, ⟨true, false, 5⟩]⟩ [0] [0]
  refine ⟨r, hr, (hblocks (rwInterval [1, 2] 10 20) (by decide) rfl (by decide) ?_ (by decide)
    ?_).1⟩
  · exact ⟨⟨2, noShard⟩, by decide, by decide, by decide, by decide⟩
  · intro j hj _ hlt _
    rcases mem_cons.mp hj with rfl | hj
    · exact absurd hlt (by decide)
    · obtain rfl : j = rwInterval [2] 21 30 := by simpa using hj
      decide

/-- The prior set of a history added from scratch. -/
def priorSetOf (l : List PgInterval) (pcontdec : OrdSet PgShard → Bool) (m : OsdMap) :
    Option PriorSet :=
  (PiCompactRep.addIntervals false l).map
    (fun r => PriorSet.build r false 0 pcontdec m [0] [0])

/-- **Where the conditions are needed.** Osd 2 was acting with osd 1 and is down, and nobody
else of that interval is up or lost; osd 1 was acting alone later and no longer exists, so the
group does not wait. It does not wait either if two shards are needed and osd 1, alone in the
later interval, is up. A re-created osd that is down, and one whose loss is taken back, would
make a new prior set wait, while the old one is not affected. -/
theorem prior_set_conditions_needed :
    ((OsdMap.mk [⟨true, true, 0⟩, ⟨false, false, 0⟩, ⟨true, false, 0⟩]).state 10 2 = .down ∧
      anyShard (osdsWith ((rwInterval [1, 2] 10 20).shards false)
        ((OsdMap.mk [⟨true, true, 0⟩, ⟨false, false, 0⟩, ⟨true, false, 0⟩]).settled 10)) = false ∧
      (priorSetOf [rwInterval [1, 2] 10 20, rwInterval [1] 21 30] anyShard
        ⟨[⟨true, true, 0⟩, ⟨false, false, 0⟩, ⟨true, false, 0⟩]⟩).map (·.pgDown) = some false) ∧
    ((OsdMap.mk [⟨true, true, 0⟩, ⟨true, true, 0⟩, ⟨true, false, 0⟩]).state 10 2 = .down ∧
      decide (2 ≤ (osdsWith ((rwInterval [1, 2] 10 20).shards false)
        ((OsdMap.mk [⟨true, true, 0⟩, ⟨true, true, 0⟩, ⟨true, false, 0⟩]).settled 10)).keys.length)
          = false ∧
      (priorSetOf [rwInterval [1, 2] 10 20, rwInterval [1] 21 30] (fun s => 2 ≤ s.keys.length)
        ⟨[⟨true, true, 0⟩, ⟨true, true, 0⟩, ⟨true, false, 0⟩]⟩).map (·.pgDown) = some false) ∧
    ((priorSetOf [rwInterval [1] 10 20] anyShard ⟨[⟨true, true, 0⟩]⟩).map
        (fun s => (s.pgDown, s.affectedByMap ⟨[⟨true, true, 0⟩, ⟨true, false, 0⟩]⟩)) =
          some (false, false) ∧
      (priorSetOf [rwInterval [1] 10 20] anyShard ⟨[⟨true, true, 0⟩, ⟨true, false, 0⟩]⟩).map
        (·.pgDown) = some true) ∧
    ((priorSetOf [rwInterval [1] 10 20] anyShard ⟨[⟨true, true, 0⟩, ⟨true, false, 15⟩]⟩).map
        (fun s => (s.pgDown, s.affectedByMap ⟨[⟨true, true, 0⟩, ⟨true, false, 0⟩]⟩)) =
          some (false, false) ∧
      (priorSetOf [rwInterval [1] 10 20] anyShard ⟨[⟨true, true, 0⟩, ⟨true, false, 0⟩]⟩).map
        (·.pgDown) = some true) := by
  decide

end Ceph.Osd
