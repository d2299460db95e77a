import Ceph.Osd.PGLog.TrimRequests
import Ceph.Osd.PGLog.Operations

set_option autoImplicit false

/-! # Merging dups

When a log is merged with that of another replica, `merge_log_dups` merges the dups. It extends the
local list at both ends by what the other list has beyond them, or copies the other list if the
local one is empty, and then drops the dups that overlap with the log. The index of dups goes along,
and the dirty markers are moved so that the change is written out.

The markers are always right (`DupsCovered`). The list is the union of both lists only if the other
list has nothing of its own between the ends of the local one. And the index loses a request when
one of its dups is dropped, whatever else the list has of it (`DupMerge.merge_dups_iff`).
-/

namespace Ceph.Osd

open SortedScan OrdMap List

/-! ## The model -/

/-- The log and the index of its dups. -/
structure DupMerge where
  pglog : PGLog
  dupIndex : OrdMap OsdReqid LogDup
  indexedDups : Bool

namespace DupMerge

def dups (s : DupMerge) : List LogDup := s.pglog.log.dups

/-- Where the log begins. -/
def tail (s : DupMerge) : Eversion := s.pglog.log.tail

/-- Dups are indexed one after the other. -/
def index (s : DupMerge) (dups : List LogDup) : OrdMap OsdReqid LogDup :=
  if s.indexedDups then dups.foldl putDup s.dupIndex else s.dupIndex

/-- The newer end of the dups is extended, and the newest dup is indexed first. -/
def extendNewer (s : DupMerge) (odups : List LogDup) (back oback : LogDup) : DupMerge :=
  { s with
    pglog := extendDupsNewer s.pglog odups back oback
    dupIndex := if back.version < oback.version then
        s.index (odups.rtakeWhile fun d => decide (back.version < d.version)).reverse
      else s.dupIndex }

/-- The older end of the dups is extended, and the oldest dup is indexed first. -/
def extendOlder (s : DupMerge) (odups : List LogDup) (front ofront : LogDup) : DupMerge :=
  { s with
    pglog := extendDupsOlder s.pglog odups front ofront
    dupIndex := if ofront.version < front.version then
        s.index (odups.takeWhile fun d => decide (d.version < front.version))
      else s.dupIndex }

/-- The part of `merge_log_dups` that adds the other log's dups. -/
def extend (s : DupMerge) (odups : List LogDup) : DupMerge :=
  match odups.head?, odups.getLast? with
  | some ofront, some oback =>
    match s.pglog.log.dups.head?, s.pglog.log.dups.getLast? with
    | some front, some back => (s.extendNewer odups back oback).extendOlder odups front ofront
    | _, _ => { s with pglog := extendDups s.pglog odups, dupIndex := s.index odups }
  | _, _ => s

/-- The part of `merge_log_dups` that removes the dups that overlap with the log, with whatever the
index holds for their requests. -/
def dropOverlapping (s : DupMerge) : DupMerge :=
  { s with
    pglog := dropOverlappingDups s.pglog
    dupIndex := if s.indexedDups then
        (s.dups.rtakeWhile fun d => decide (s.tail < d.version)).reverse.foldl
          (fun index d => index.erase d.reqid) s.dupIndex
      else s.dupIndex }

def mergeLogDups (s : DupMerge) (olog : PgLog) : DupMerge := (s.extend olog.dups).dropOverlapping

end DupMerge

theorem exists_ends {α : Type} {l : List α} (h : l ≠ []) :
    ∃ first last, l.head? = some first ∧ l.getLast? = some last :=
  ⟨l.head h, l.getLast h, head?_eq_some_head h, getLast?_eq_some_getLast h⟩

variable {odups : List LogDup} {back front oback ofront : LogDup} {index : OrdMap OsdReqid LogDup}
  {p : PGLog}

namespace DupMerge

theorem extend_nil (s : DupMerge) : s.extend [] = s := rfl

theorem extend_of_empty {s : DupMerge} (hodups : odups ≠ []) (h : s.dups = []) :
    s.extend odups = { s with
      pglog := { s.pglog.withDups odups with dirtyFromDups := .zero, dirtyToDups := .max }
      dupIndex := s.index odups } := by
  obtain ⟨ofront, oback, hofront, hoback⟩ := exists_ends hodups
  have hnil : s.pglog.log.dups = [] := h
  simp only [extend, extendDups, hofront, hoback, hnil, head?_nil]

theorem extend_of_ends {s : DupMerge} (hofront : odups.head? = some ofront)
    (hoback : odups.getLast? = some oback) (hfront : s.dups.head? = some front)
    (hback : s.dups.getLast? = some back) :
    s.extend odups = (s.extendNewer odups back oback).extendOlder odups front ofront := by
  have hfront' : s.pglog.log.dups.head? = some front := hfront
  have hback' : s.pglog.log.dups.getLast? = some back := hback
  simp only [extend, hofront, hoback, hfront', hback']

/-- The log is extended as in the model without the index. -/
theorem pglog_extend (s : DupMerge) (odups : List LogDup) :
    (s.extend odups).pglog = extendDups s.pglog odups := by
  unfold extend
  split
  · rename_i hofront hoback
    split
    · rename_i hfront hback
      simp only [extendDups, hofront, hoback, hfront, hback]
      rfl
    · rfl
  · rename_i hnone
    unfold extendDups
    split
    · rename_i hofront hoback
      exact (hnone _ _ hofront hoback).elim
    · rfl

/-- **The log is merged** as in the model without the index. -/
theorem pglog_mergeLogDups (s : DupMerge) (olog : PgLog) :
    (s.mergeLogDups olog).pglog = Osd.mergeLogDups s.pglog olog := by
  show dropOverlappingDups (s.extend olog.dups).pglog = _
  rw [pglog_extend]
  rfl

end DupMerge

/-! ## The dirty markers -/

/-- **The markers cover what changes among the dups**: they only move outwards, what is added is
written, and what is removed is cleared. -/
structure DupsCovered (p p' : PGLog) : Prop where
  to_le : p.dirtyToDups ≤ p'.dirtyToDups
  from_le : p'.dirtyFromDups ≤ p.dirtyFromDups
  added : ∀ d ∈ p'.log.dups, d ∉ p.log.dups →
    d.version ≤ p'.dirtyToDups ∨ p'.dirtyFromDups ≤ d.version
  removed : ∀ d ∈ p.log.dups, d ∉ p'.log.dups →
    d.version < p'.dirtyToDups ∨ p'.dirtyFromDups ≤ d.version

theorem DupsCovered.refl (p : PGLog) : DupsCovered p p :=
  ⟨le_rfl, le_rfl, fun _ h h' => absurd h h', fun _ h h' => absurd h h'⟩

theorem DupsCovered.trans {p₁ p₂ p₃ : PGLog} (h : DupsCovered p₁ p₂) (h' : DupsCovered p₂ p₃) :
    DupsCovered p₁ p₃ := by
  refine ⟨h.to_le.trans h'.to_le, h'.from_le.trans h.from_le, fun d hd hnot => ?_,
    fun d hd hnot => ?_⟩
  · by_cases hmem : d ∈ p₂.log.dups
    · exact (h.added d hmem hnot).imp (fun hle => hle.trans h'.to_le)
        (fun hle => h'.from_le.trans hle)
    · exact h'.added d hd hmem
  · by_cases hmem : d ∈ p₂.log.dups
    · exact h'.removed d hmem hnot
    · exact (h.removed d hd hmem).imp (fun hlt => hlt.trans_le h'.to_le)
        (fun hle => h'.from_le.trans hle)

/-! ## The list -/

def ByVersion (dups : List LogDup) : Prop := dups.Pairwise fun a b => a.version ≤ b.version

instance (dups : List LogDup) : Decidable (ByVersion dups) :=
  inferInstanceAs (Decidable (dups.Pairwise _))

namespace ByVersion

variable {dups : List LogDup} (h : ByVersion dups)

include h

theorem le_getLast? {d last : LogDup} (hd : d ∈ dups)
    (hlast : dups.getLast? = some last) : d.version ≤ last.version := by
  exact rel_getLast? h hd hlast

theorem head?_le {d first : LogDup} (hd : d ∈ dups)
    (hfirst : dups.head? = some first) : first.version ≤ d.version := by
  obtain ⟨rest, rfl⟩ := head?_eq_some_iff.mp hfirst
  rcases mem_cons.mp hd with rfl | hd
  · exact le_refl _
  · exact (pairwise_cons.mp h).1 d hd

theorem above_mono (v : Eversion) :
    dups.Pairwise fun a b => decide (v < a.version) = true → decide (v < b.version) = true := by
  refine h.imp fun hab ha => ?_
  rw [decide_eq_true_eq] at ha ⊢
  exact ha.trans_le hab

theorem below_mono (v : Eversion) :
    dups.Pairwise fun a b => decide (b.version < v) = true → decide (a.version < v) = true := by
  refine h.imp fun hab hb => ?_
  rw [decide_eq_true_eq] at hb ⊢
  exact hab.trans_lt hb

theorem filter (p : LogDup → Bool) : ByVersion (dups.filter p) :=
  h.sublist filter_sublist

end ByVersion

/-- **The newer end**: what is newer than the last dup is added. -/
theorem extendDupsNewer_spec (back : LogDup) (ho : ByVersion odups)
    (hoback : odups.getLast? = some oback) :
    (extendDupsNewer p odups back oback).log.dups =
        p.log.dups ++ odups.filter (fun d => decide (back.version < d.version)) ∧
      DupsCovered p (extendDupsNewer p odups back oback) := by
  unfold extendDupsNewer
  rw [rtakeWhile_eq_filter (ho.above_mono back.version)]
  split_ifs with hlt
  · rw [PGLog.markDirtyFromDups_eq]
    refine ⟨rfl, le_rfl, inf_le_left, fun d hd hnot => ?_, fun d hd hnot => ?_⟩
    · -- the marker stands at the first dup that is added
      have hnew := (mem_append.mp hd).resolve_left hnot
      obtain ⟨first, -, hfirst, -⟩ := exists_ends (ne_nil_of_mem hnew)
      refine .inr (inf_le_right.trans ?_)
      rw [hfirst]
      exact (ho.filter _).head?_le hnew hfirst
    · exact absurd (mem_append_left _ hd) hnot
  · have hnone : odups.filter (fun d => decide (back.version < d.version)) = [] := by
      rw [filter_eq_nil_iff]
      intro d hd
      rw [decide_eq_true_eq, not_lt]
      exact (ho.le_getLast? hd hoback).trans (not_lt.mp hlt)
    exact ⟨by rw [hnone, append_nil], .refl p⟩

/-- **The older end**: what is older than the first dup is added. -/
theorem extendDupsOlder_spec (front : LogDup) (ho : ByVersion odups)
    (hofront : odups.head? = some ofront) :
    (extendDupsOlder p odups front ofront).log.dups =
        odups.filter (fun d => decide (d.version < front.version)) ++ p.log.dups ∧
      DupsCovered p (extendDupsOlder p odups front ofront) := by
  unfold extendDupsOlder
  rw [takeWhile_eq_filter (ho.below_mono front.version)]
  split_ifs with hlt
  · rw [PGLog.markDirtyToDups_eq]
    refine ⟨rfl, le_sup_left, le_rfl, fun d hd hnot => ?_, fun d hd hnot => ?_⟩
    · -- the marker stands at the last dup that is added
      have hnew := (mem_append.mp hd).resolve_right hnot
      obtain ⟨-, last, -, hlast⟩ := exists_ends (ne_nil_of_mem hnew)
      refine .inl (le_trans ?_ le_sup_right)
      rw [hlast]
      exact (ho.filter _).le_getLast? hnew hlast
    · exact absurd (mem_append_right _ hd) hnot
  · have hnone : odups.filter (fun d => decide (d.version < front.version)) = [] := by
      rw [filter_eq_nil_iff]
      intro d hd
      rw [decide_eq_true_eq, not_lt]
      exact (not_lt.mp hlt).trans (ho.head?_le hd hofront)
    exact ⟨by rw [hnone, nil_append], .refl p⟩

/-- **What overlaps with the log** is dropped. -/
theorem dropOverlappingDups_spec (h : ByVersion p.log.dups) :
    (dropOverlappingDups p).log.dups =
        p.log.dups.filter (fun d => decide (d.version ≤ p.log.tail)) ∧
      DupsCovered p (dropOverlappingDups p) := by
  have hfilter : p.log.dups.rdropWhile (fun d => decide (p.log.tail < d.version)) =
      p.log.dups.filter (fun d => decide (d.version ≤ p.log.tail)) := by
    rw [rdropWhile_eq_filter (h.above_mono p.log.tail)]
    refine filter_congr fun d _ => ?_
    rw [← decide_not, decide_eq_decide, not_lt]
  unfold dropOverlappingDups
  dsimp only
  rw [hfilter, rtakeWhile_eq_filter (h.above_mono p.log.tail)]
  obtain ⟨v, hle, hall, heq⟩ := foldl_markDirtyFromDups
    (p.log.dups.filter fun d : LogDup => decide (p.log.tail < d.version)).reverse
    (p.withDups (p.log.dups.filter fun d : LogDup => decide (d.version ≤ p.log.tail)))
  rw [heq]
  refine ⟨rfl, le_rfl, hle, fun d hd hnot => ?_, fun d hd hnot => .inr (hall d ?_)⟩
  · exact absurd (mem_of_mem_filter hd) hnot
  · rw [mem_reverse, mem_filter]
    refine ⟨hd, decide_eq_true (not_le.mp fun hold => hnot ?_)⟩
    exact mem_filter.mpr ⟨hd, decide_eq_true hold⟩

/-! ## What is gathered from both lists -/

/-- The version is outside the range of the list. -/
def Outside (dups : List LogDup) (v : Eversion) : Prop :=
  (∀ d ∈ dups, v < d.version) ∨ ∀ d ∈ dups, d.version < v

instance (dups : List LogDup) (v : Eversion) : Decidable (Outside dups v) :=
  inferInstanceAs (Decidable (_ ∨ _))

/-- The local dups, and those of the other log outside their range. -/
def gatherDups (dups odups : List LogDup) : List LogDup :=
  dups ++ odups.filter fun d => decide (Outside dups d.version)

theorem gatherDups_nil_left (odups : List LogDup) : gatherDups [] odups = odups := by
  have hall : ∀ d ∈ odups, decide (Outside [] d.version) = true := by
    intro d _
    exact decide_eq_true (.inl (by simp))
  rw [gatherDups, nil_append, filter_eq_self.mpr hall]

/-- The range of a sorted list is that between its ends. -/
theorem outside_iff {dups : List LogDup} (h : ByVersion dups) (hfront : dups.head? = some front)
    (hback : dups.getLast? = some back) (v : Eversion) :
    Outside dups v ↔ v < front.version ∨ back.version < v := by
  refine or_congr ⟨fun hall => ?_, fun hlt d hd => ?_⟩ ⟨fun hall => ?_, fun hlt d hd => ?_⟩
  · exact hall front (mem_of_head? hfront)
  · exact hlt.trans_le (h.head?_le hd hfront)
  · exact hall back (mem_of_getLast? hback)
  · exact (h.le_getLast? hd hback).trans_lt hlt

/-- **The extended list** is sorted, and holds what is gathered from both lists. -/
theorem extendDups_spec (h : ByVersion p.log.dups) (ho : ByVersion odups) :
    ByVersion (extendDups p odups).log.dups ∧
      (extendDups p odups).log.dups.Perm (gatherDups p.log.dups odups) ∧
      DupsCovered p (extendDups p odups) := by
  by_cases hodups : odups = []
  · subst hodups
    refine ⟨h, ?_, .refl p⟩
    rw [gatherDups, filter_nil, append_nil]
    exact List.Perm.refl _
  obtain ⟨ofront, oback, hofront, hoback⟩ := exists_ends hodups
  by_cases hdups : p.log.dups = []
  · have heq : extendDups p odups =
        { p.withDups odups with dirtyFromDups := .zero, dirtyToDups := .max } := by
      simp only [extendDups, hofront, hoback, hdups, head?_nil]
    rw [heq, hdups, gatherDups_nil_left]
    exact ⟨ho, List.Perm.refl _, Eversion.le_max _, Eversion.zero_le _,
      fun d _ _ => .inr (Eversion.zero_le _), fun d _ _ => .inr (Eversion.zero_le _)⟩
  · obtain ⟨front, back, hfront, hback⟩ := exists_ends hdups
    have heq : extendDups p odups =
        extendDupsOlder (extendDupsNewer p odups back oback) odups front ofront := by
      simp only [extendDups, hofront, hoback, hfront, hback]
    obtain ⟨hnewer, hcovered⟩ := extendDupsNewer_spec (p := p) back ho hoback
    obtain ⟨holder, hcovered'⟩ :=
      extendDupsOlder_spec (p := extendDupsNewer p odups back oback) front ho hofront
    rw [← heq] at holder hcovered'
    rw [hnewer] at holder
    have hends : front.version ≤ back.version := h.head?_le (mem_of_getLast? hback) hfront
    have hgather : gatherDups p.log.dups odups = p.log.dups ++
        (odups.filter (fun d => decide (d.version < front.version)) ++
          odups.filter (fun d => decide (back.version < d.version))) := by
      rw [gatherDups, ← filter_or_eq_append (ho.above_mono back.version)]
      · refine congrArg _ (filter_congr fun d _ => ?_)
        rw [← Bool.decide_or, decide_eq_decide]
        exact outside_iff h hfront hback d.version
      · intro d _ hd
        rw [decide_eq_true_eq] at hd
        exact decide_eq_false (not_lt.mpr (hends.trans hd.le))
    refine ⟨?_, ?_, hcovered.trans hcovered'⟩
    · rw [holder]
      refine pairwise_append.mpr ⟨ho.filter _, pairwise_append.mpr
        ⟨h, ho.filter _, fun a ha b hb => ?_⟩, fun a ha b hb => ?_⟩
      · have hgt : back.version < b.version := by simpa using (mem_filter.mp hb).2
        exact (h.le_getLast? ha hback).trans hgt.le
      · have hlt : a.version < front.version := by simpa using (mem_filter.mp ha).2
        rcases mem_append.mp hb with hb | hb
        · exact hlt.le.trans (h.head?_le hb hfront)
        · have hgt : back.version < b.version := by simpa using (mem_filter.mp hb).2
          exact hlt.le.trans (hends.trans hgt.le)
    · rw [holder, hgather]
      exact perm_append_comm_assoc _ _ _

/-! ## The index -/

/-- **The index is consistent with the list**: what it finds is a dup of the list, for the request,
and it finds one for the request of every dup of the list. -/
structure Finds (index : OrdMap OsdReqid LogDup) (dups : List LogDup) : Prop where
  found : ∀ r d, index.get r = some d → d ∈ dups ∧ d.reqid = r
  finds : ∀ d ∈ dups, (index.get d.reqid).isSome

theorem Finds.congr {dups dups' : List LogDup} (h : Finds index dups)
    (hmem : ∀ d, d ∈ dups' ↔ d ∈ dups) : Finds index dups' :=
  ⟨fun r d hd => (h.found r d hd).imp_left (hmem d).mpr, fun d hd => h.finds d ((hmem d).mp hd)⟩

theorem Finds.putDup {dups : List LogDup} (h : Finds index dups) (d : LogDup) :
    Finds (putDup index d) (d :: dups) := by
  refine ⟨fun r d' hd' => ?_, fun d' hd' => ?_⟩
  · rw [Osd.putDup, get_insert] at hd'
    split_ifs at hd' with hr
    · cases hd'
      exact ⟨mem_cons_self, hr.symm⟩
    · exact (h.found r d' hd').imp_left (mem_cons_of_mem d)
  · rw [Osd.putDup, get_insert]
    split_ifs with hr
    · rfl
    · refine h.finds d' ((mem_cons.mp hd').resolve_left fun heq => hr ?_)
      rw [heq]

theorem Finds.foldl_putDup {dups : List LogDup} (h : Finds index dups) (added : List LogDup) :
    Finds (added.foldl Osd.putDup index) (added ++ dups) := by
  induction added generalizing index dups with
  | nil => exact h
  | cons d added ih =>
    rw [foldl_cons]
    refine (ih (h.putDup d)).congr fun d' => ?_
    rw [cons_append, mem_cons, mem_append, mem_append, mem_cons]
    tauto

/-- **Dups that are dropped take their requests with them**: the index is consistent with what is
left exactly if no request has a dup that goes and one that stays. -/
theorem finds_foldl_erase_iff {dups kept gone : List LogDup} (h : Finds index dups)
    (hsplit : ∀ d, d ∈ dups ↔ d ∈ kept ∨ d ∈ gone) :
    Finds (gone.foldl (fun index d => index.erase d.reqid) index) kept ↔
      ∀ d ∈ gone, ∀ d' ∈ kept, d.reqid ≠ d'.reqid := by
  constructor
  · intro hfinds d hd d' hd' hr
    have hsome := hfinds.finds d' hd'
    rw [get_foldl_erase LogDup.reqid, if_pos ⟨d, hd, hr⟩] at hsome
    exact nomatch hsome
  · intro hapart
    refine ⟨fun r d hd => ?_, fun d hd => ?_⟩
    · rw [get_foldl_erase LogDup.reqid] at hd
      split_ifs at hd with hgone
      obtain ⟨hmem, hr⟩ := h.found r d hd
      exact ⟨((hsplit d).mp hmem).resolve_right fun hd => hgone ⟨d, hd, hr⟩, hr⟩
    · rw [get_foldl_erase LogDup.reqid, if_neg]
      · exact h.finds d ((hsplit d).mpr (.inl hd))
      · rintro ⟨d', hd', hr⟩
        exact hapart d' hd' d hd hr

namespace DupMerge

/-- The index, if there is one, is consistent with the list. -/
def Consistent (s : DupMerge) : Prop := s.indexedDups = true → Finds s.dupIndex s.dups

theorem Consistent.extendNewer {s : DupMerge} (h : s.Consistent) (odups : List LogDup)
    (back oback : LogDup) : (s.extendNewer odups back oback).Consistent := by
  intro hflag
  have hfinds := h hflag
  have hflag' : s.indexedDups = true := hflag
  unfold DupMerge.extendNewer dups extendDupsNewer
  split_ifs with hlt
  · rw [PGLog.markDirtyFromDups_eq, index, if_pos hflag']
    refine (hfinds.foldl_putDup _).congr fun d => ?_
    show d ∈ s.dups ++ _ ↔ _
    rw [mem_append, mem_append, mem_reverse, or_comm]
  · exact hfinds

theorem Consistent.extendOlder {s : DupMerge} (h : s.Consistent) (odups : List LogDup)
    (front ofront : LogDup) : (s.extendOlder odups front ofront).Consistent := by
  intro hflag
  have hfinds := h hflag
  have hflag' : s.indexedDups = true := hflag
  unfold DupMerge.extendOlder dups extendDupsOlder
  split_ifs with hlt
  · rw [PGLog.markDirtyToDups_eq, index, if_pos hflag']
    exact hfinds.foldl_putDup _
  · exact hfinds

/-- **What is added is indexed.** -/
theorem Consistent.extend {s : DupMerge} (h : s.Consistent) (odups : List LogDup) :
    (s.extend odups).Consistent := by
  by_cases hodups : odups = []
  · rw [hodups, extend_nil]
    exact h
  by_cases hdups : s.dups = []
  · rw [extend_of_empty hodups hdups]
    intro hflag
    have hflag' : s.indexedDups = true := hflag
    have hfinds := (h hflag).foldl_putDup odups
    rw [hdups, append_nil] at hfinds
    show Finds (s.index odups) odups
    rw [index, if_pos hflag']
    exact hfinds
  · obtain ⟨ofront, oback, hofront, hoback⟩ := exists_ends hodups
    obtain ⟨front, back, hfront, hback⟩ := exists_ends hdups
    rw [extend_of_ends hofront hoback hfront hback]
    exact (h.extendNewer odups back oback).extendOlder odups front ofront

theorem indexedDups_extend (s : DupMerge) (odups : List LogDup) :
    (s.extend odups).indexedDups = s.indexedDups := by
  unfold DupMerge.extend
  split
  · split <;> rfl
  · rfl

theorem tail_extend (s : DupMerge) (odups : List LogDup) : (s.extend odups).tail = s.tail := by
  obtain ⟨-, dups, hlog⟩ := sameButDups_extendDups s.pglog odups
  rw [tail, pglog_extend, hlog]
  rfl

/-! ## The merge -/

/-- **What a merge is meant to do.** -/
structure Merges (s : DupMerge) (olog : PgLog) : Prop where
  sorted : (s.mergeLogDups olog).dups.Pairwise fun a b => a.version < b.version
  union : ∀ d, d ∈ (s.mergeLogDups olog).dups ↔
    (d ∈ s.dups ∨ d ∈ olog.dups) ∧ d.version ≤ s.tail
  index : (s.mergeLogDups olog).Consistent
  covered : DupsCovered s.pglog (s.mergeLogDups olog).pglog

/-- **When it does**: no version up to the tail comes twice in what is gathered, the other log has
nothing of its own up to the tail within the local range, and no request has a dup above the tail
and one that stays. -/
structure Mergeable (s : DupMerge) (olog : PgLog) : Prop where
  distinct : ((gatherDups s.dups olog.dups).filter fun d => decide (d.version ≤ s.tail)).Pairwise
    fun a b => a.version ≠ b.version
  noGap : ∀ d ∈ olog.dups, d.version ≤ s.tail → ¬ Outside s.dups d.version → d ∈ s.dups
  apart : s.indexedDups = true → ∀ d ∈ gatherDups s.dups olog.dups, s.tail < d.version →
    ∀ d' ∈ gatherDups s.dups olog.dups, d'.version ≤ s.tail → d.reqid ≠ d'.reqid

section

variable {s : DupMerge} {olog : PgLog} (h : ByVersion s.dups) (ho : ByVersion olog.dups)

include h ho

/-- The first part of the merge gathers what it can from both lists, in order. -/
theorem extend_spec : ByVersion (s.extend olog.dups).dups ∧
    (s.extend olog.dups).dups.Perm (gatherDups s.dups olog.dups) ∧
    DupsCovered s.pglog (s.extend olog.dups).pglog := by
  rw [dups, pglog_extend]
  exact extendDups_spec h ho

/-- The second part keeps what is not above the tail. -/
theorem dups_mergeLogDups : (s.mergeLogDups olog).dups =
    (s.extend olog.dups).dups.filter fun d => decide (d.version ≤ s.tail) := by
  rw [← tail_extend s olog.dups]
  exact (dropOverlappingDups_spec (extend_spec h ho).1).1

theorem mem_dups_mergeLogDups (d : LogDup) : d ∈ (s.mergeLogDups olog).dups ↔
    d ∈ gatherDups s.dups olog.dups ∧ d.version ≤ s.tail := by
  rw [dups_mergeLogDups h ho, mem_filter, (extend_spec h ho).2.1.mem_iff, decide_eq_true_eq]

theorem covered_mergeLogDups : DupsCovered s.pglog (s.mergeLogDups olog).pglog := by
  obtain ⟨hsorted, -, hcovered⟩ := extend_spec h ho
  exact hcovered.trans (dropOverlappingDups_spec hsorted).2

/-- **The order**: the list is sorted, so it is strictly sorted if no version comes twice. -/
theorem sorted_mergeLogDups_iff :
    ((s.mergeLogDups olog).dups.Pairwise fun a b => a.version < b.version) ↔
      ((gatherDups s.dups olog.dups).filter fun d => decide (d.version ≤ s.tail)).Pairwise
        fun a b => a.version ≠ b.version := by
  obtain ⟨hsorted, hperm, -⟩ := extend_spec h ho
  have hsymm : ∀ {a b : LogDup}, a.version ≠ b.version → b.version ≠ a.version :=
    fun hne => hne.symm
  rw [dups_mergeLogDups h ho, ← (hperm.filter _).pairwise_iff hsymm]
  constructor
  · intro hlt
    exact hlt.imp fun hab => hab.ne
  · intro hne
    exact ((hsorted.filter _).and hne).imp fun hab => lt_of_le_of_ne hab.1 hab.2

/-- **The members**: what the other log has within the local range is left out. -/
theorem union_mergeLogDups_iff :
    (∀ d, d ∈ (s.mergeLogDups olog).dups ↔
        (d ∈ s.dups ∨ d ∈ olog.dups) ∧ d.version ≤ s.tail) ↔
      ∀ d ∈ olog.dups, d.version ≤ s.tail → ¬ Outside s.dups d.version → d ∈ s.dups := by
  have hmem : ∀ d, d ∈ (s.mergeLogDups olog).dups ↔
      (d ∈ s.dups ∨ d ∈ olog.dups ∧ Outside s.dups d.version) ∧ d.version ≤ s.tail := by
    intro d
    rw [mem_dups_mergeLogDups h ho, gatherDups, mem_append, mem_filter,
      decide_eq_true_eq]
  constructor
  · intro hall d hd hle hin
    have hd' := ((hmem d).mp ((hall d).mpr ⟨.inr hd, hle⟩)).1
    exact hd'.resolve_right fun hout => hin hout.2
  · intro hgap d
    rw [hmem]
    refine and_congr_left fun hle => ⟨fun hd => hd.imp_right fun hout => hout.1, ?_⟩
    rintro (hd | hd)
    · exact .inl hd
    · by_cases hout : Outside s.dups d.version
      · exact .inr ⟨hd, hout⟩
      · exact .inl (hgap d hd hle hout)

/-- **The index**: a request is lost with any of its dups. -/
theorem consistent_mergeLogDups_iff (hindex : s.Consistent) :
    (s.mergeLogDups olog).Consistent ↔
      (s.indexedDups = true → ∀ d ∈ gatherDups s.dups olog.dups, s.tail < d.version →
        ∀ d' ∈ gatherDups s.dups olog.dups, d'.version ≤ s.tail → d.reqid ≠ d'.reqid) := by
  obtain ⟨hsorted, hperm, -⟩ := extend_spec h ho
  have hflag : (s.mergeLogDups olog).indexedDups = s.indexedDups := indexedDups_extend s olog.dups
  unfold Consistent
  rw [hflag]
  refine imp_congr_right fun hon => ?_
  have hon' : (s.extend olog.dups).indexedDups = true := (indexedDups_extend s olog.dups).trans hon
  have hsplit : ∀ d, d ∈ (s.extend olog.dups).dups ↔ d ∈ (s.mergeLogDups olog).dups ∨
      d ∈ ((s.extend olog.dups).dups.filter fun d => decide (s.tail < d.version)).reverse := by
    intro d
    rw [dups_mergeLogDups h ho, mem_reverse, mem_filter, mem_filter,
      decide_eq_true_eq, decide_eq_true_eq, ← and_or_left, and_iff_left (le_or_gt _ _)]
  have hdropped : (s.mergeLogDups olog).dupIndex =
      ((s.extend olog.dups).dups.filter fun d => decide (s.tail < d.version)).reverse.foldl
        (fun index d => index.erase d.reqid) (s.extend olog.dups).dupIndex := by
    show (if _ then _ else _) = _
    rw [if_pos hon', tail_extend, rtakeWhile_eq_filter (hsorted.above_mono s.tail)]
  rw [hdropped, finds_foldl_erase_iff (hindex.extend olog.dups hon') hsplit]
  simp only [mem_reverse, mem_filter, decide_eq_true_eq, hperm.mem_iff,
    mem_dups_mergeLogDups h ho, and_imp]

end

/-- **Merging dups.** The result is the union of both lists up to the tail, strictly sorted, with a
consistent index and markers that cover the change, exactly if the lists can be merged so. -/
theorem merge_dups_iff (s : DupMerge) (olog : PgLog) (h : ByVersion s.dups)
    (ho : ByVersion olog.dups) (hindex : s.Consistent) :
    s.Merges olog ↔ s.Mergeable olog := by
  constructor
  · intro hmerges
    exact ⟨(sorted_mergeLogDups_iff h ho).mp hmerges.sorted,
      (union_mergeLogDups_iff h ho).mp hmerges.union,
      (consistent_mergeLogDups_iff h ho hindex).mp hmerges.index⟩
  · intro hmergeable
    exact ⟨(sorted_mergeLogDups_iff h ho).mpr hmergeable.distinct,
      (union_mergeLogDups_iff h ho).mpr hmergeable.noGap,
      (consistent_mergeLogDups_iff h ho hindex).mpr hmergeable.apart, covered_mergeLogDups h ho⟩

/-- A log with these dups, all of them indexed. -/
def ofDups (tail : Eversion) (dups : List LogDup) : DupMerge :=
  { pglog := cleanPGLog { letterLog tail tail [] with dups := dups } (.empty false)
    dupIndex := builtDupIndex dups
    indexedDups := true }

theorem ofDups_consistent (tail : Eversion) (dups : List LogDup) :
    (ofDups tail dups).Consistent := by
  intro _
  have hempty : Finds .empty [] := ⟨fun r d hd => (nomatch hd), fun d hd => (nomatch hd)⟩
  have hbuilt := hempty.foldl_putDup dups
  rw [append_nil] at hbuilt
  exact hbuilt

def clientDup (tid : UInt64) (version : Eversion) : LogDup :=
  ⟨RequestLog.clientReq tid, version, version.version, 0⟩

/-- The other log of the merges below. -/
def otherLog (dups : List LogDup) : PgLog := { letterLog .zero .zero [] with dups := dups }

/-- A list is extended at both ends, and what overlaps with the log is dropped. -/
theorem merge_dups_both_ends :
    (ofDups ⟨1, 4⟩ [clientDup 2 ⟨1, 2⟩, clientDup 3 ⟨1, 3⟩]).Merges
      (otherLog
        [clientDup 1 ⟨1, 1⟩, clientDup 3 ⟨1, 3⟩, clientDup 4 ⟨1, 4⟩, clientDup 5 ⟨1, 5⟩]) := by
  refine (merge_dups_iff _ _ (by decide) (by decide) (ofDups_consistent _ _)).mpr ?_
  exact ⟨by decide, by decide, by decide⟩

/-- A request with a dup above the tail and one below is lost by the index although the dup below
stays. A dup within the local range is not merged, and neither is one with the version of a local
dup. -/
theorem merge_dups_loses_request :
    ByVersion (ofDups ⟨1, 3⟩ [clientDup 1 ⟨1, 1⟩, clientDup 1 ⟨1, 5⟩]).dups ∧
      (ofDups ⟨1, 3⟩ [clientDup 1 ⟨1, 1⟩, clientDup 1 ⟨1, 5⟩]).Consistent ∧
      ((ofDups ⟨1, 3⟩ [clientDup 1 ⟨1, 1⟩, clientDup 1 ⟨1, 5⟩]).mergeLogDups (otherLog [])).dups =
        [clientDup 1 ⟨1, 1⟩] ∧
      ((ofDups ⟨1, 3⟩ [clientDup 1 ⟨1, 1⟩, clientDup 1 ⟨1, 5⟩]).mergeLogDups
        (otherLog [])).dupIndex.get (RequestLog.clientReq 1) = none ∧
      ((ofDups ⟨1, 6⟩ [clientDup 1 ⟨1, 1⟩, clientDup 5 ⟨1, 5⟩]).mergeLogDups
        (otherLog [clientDup 3 ⟨1, 3⟩, clientDup 6 ⟨1, 5⟩])).dups =
          [clientDup 1 ⟨1, 1⟩, clientDup 5 ⟨1, 5⟩] :=
  ⟨by decide, ofDups_consistent _ _, by decide, by decide, by decide⟩

end DupMerge

end Ceph.Osd
