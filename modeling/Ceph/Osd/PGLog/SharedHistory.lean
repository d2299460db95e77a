import Ceph.Osd.PGLog.ObjectMerge

set_option autoImplicit false

/-! # Logs with a shared history

Two logs share their history up to a version (`SharedHistory`) if every version up to it, in
either log, lies on one line, the logs agree where they overlap, and what the authoritative log
has beyond it is newer than the local head. Peering provides this: both logs began as copies
of one log, and entries of a later interval carry a later epoch.

Under a shared history `merge_log` runs through, and what it leaves is described without its
loops (`mergeLog_spec`): the log is the shared part and the newer entries, and each object's item
and stored version follow from its own divergent and newer entries (`mergedItem`,
`mergedStored`).
-/

namespace Ceph.Osd

open SortedScan PgLog List

/-! ## Parts of a log -/

def PgLog.upTo (l : PgLog) (v : Eversion) : List LogEntry :=
  l.log.filter (fun e => e.version ≤ v)

def PgLog.after (l : PgLog) (v : Eversion) : List LogEntry :=
  l.log.filter (fun e => v < e.version)

variable {mayIncludeDeletes : Bool} {v : Eversion} {divergent entries front : List LogEntry}
  {e newest : LogEntry} {item : Option MissingItem} {p : PGLog} {l : PgLog}

theorem mem_upTo : e ∈ l.upTo v ↔ e ∈ l.log ∧ e.version ≤ v := by
  simp [upTo]

theorem PgLog.mem_after : e ∈ l.after v ↔ e ∈ l.log ∧ v < e.version := by
  simp [after]

theorem PgLog.Ordered.filter (h : l.Ordered) (p : LogEntry → Bool) :
    ({ l with log := l.log.filter p } : PgLog).Ordered where
  sorted := h.sorted.filter _
  above := fun e he => h.above e (mem_filter.mp he).1
  below := fun e he => h.below e (mem_filter.mp he).1
  tail_upto := h.tail_upto

/-- Entries after a version are followed by such entries only. -/
theorem PgLog.Ordered.after_mono (h : l.Ordered) (v : Eversion) : l.log.Pairwise fun a b =>
    decide (v < a.version) = true → decide (v < b.version) = true := by
  refine h.sorted.imp ?_
  intro a b hab ha
  rw [decide_eq_true_eq] at ha ⊢
  exact ha.trans hab.lt

theorem PgLog.Ordered.rtakeWhile_eq (h : l.Ordered) (v : Eversion) :
    l.log.rtakeWhile (fun e => decide (v < e.version)) = l.after v :=
  rtakeWhile_eq_filter (h.after_mono v)

theorem PgLog.Ordered.rdropWhile_eq (h : l.Ordered) (v : Eversion) :
    l.log.rdropWhile (fun e => decide (v < e.version)) = l.upTo v := by
  rw [rdropWhile_eq_filter (h.after_mono v)]
  exact filter_congr fun e _ => by rw [← decide_not, decide_eq_decide, not_lt]

theorem PgLog.Ordered.upTo_append_after (h : l.Ordered) (v : Eversion) :
    l.upTo v ++ l.after v = l.log := by
  rw [← h.rdropWhile_eq, ← h.rtakeWhile_eq]
  exact rdropWhile_append_rtakeWhile ..

theorem PgLog.Ordered.le_of_getLast? (h : l.Ordered) {c : LogEntry} (he : e ∈ l.upTo v)
    (hc : (l.upTo v).getLast? = some c) : e.version ≤ c.version := by
  have hle : (l.upTo v).Pairwise (fun a b => a.version ≤ b.version) :=
    (h.sorted.filter _).imp fun hab => hab.lt.le
  exact rel_getLast? hle he hc

/-! ## Shared history -/

/-- The versions of the history that two logs share: the tails, the last shared version, and
the entries up to it. -/
def sharedVersions (log olog : PgLog) (shared : Eversion) : List Eversion :=
  log.tail :: olog.tail :: shared ::
    (log.upTo shared ++ olog.upTo shared).map LogEntry.version

/-- A version lies on the shared history. -/
def OnHistory (log olog : PgLog) (shared v : Eversion) : Prop :=
  v ∈ sharedVersions log olog shared

/-- Two logs are on one line up to a version, and agree where they overlap. -/
structure AgreesUpTo (log olog : PgLog) (shared : Eversion) : Prop where
  ordered : log.Ordered
  olog_ordered : olog.Ordered
  linear : ∀ v ∈ sharedVersions log olog shared, ∀ w ∈ sharedVersions log olog shared,
    v ≤ w → v.Upto w
  tail_le : log.tail ≤ shared
  olog_tail_le : olog.tail ≤ shared
  le_head : shared ≤ log.head
  le_olog_head : shared ≤ olog.head
  agree : (log.upTo shared).filter (fun e => max log.tail olog.tail < e.version) =
    (olog.upTo shared).filter (fun e => max log.tail olog.tail < e.version)
  divergent : ∀ e ∈ log.after shared, shared.Before e.version

/-- **Two logs share their history up to a version**, and the second one goes on from there with
newer entries. -/
structure SharedHistory (log olog : PgLog) (shared : Eversion) : Prop
    extends AgreesUpTo log olog shared where
  newer : ∀ e ∈ olog.after shared, shared.Before e.version ∧ log.head < e.version
  ends : olog.head ≤ log.head → shared = olog.head

namespace SharedHistory

variable {log olog : PgLog} {shared : Eversion}

theorem onHistory_iff : OnHistory log olog shared v ↔
    v = log.tail ∨ v = olog.tail ∨ v = shared ∨
      ∃ e ∈ log.upTo shared ++ olog.upTo shared, e.version = v := by
  simp only [OnHistory, sharedVersions, mem_cons, mem_map]

theorem onHistory_of_mem (e : LogEntry) (he : e ∈ log.upTo shared) :
    OnHistory log olog shared e.version :=
  onHistory_iff.mpr (.inr (.inr (.inr ⟨e, mem_append_left _ he, rfl⟩)))

theorem onHistory_of_olog_mem (e : LogEntry) (he : e ∈ olog.upTo shared) :
    OnHistory log olog shared e.version :=
  onHistory_iff.mpr (.inr (.inr (.inr ⟨e, mem_append_right _ he, rfl⟩)))

theorem onHistory_tail : OnHistory log olog shared log.tail := onHistory_iff.mpr (.inl rfl)

theorem onHistory_olog_tail : OnHistory log olog shared olog.tail :=
  onHistory_iff.mpr (.inr (.inl rfl))

theorem onHistory_shared : OnHistory log olog shared shared :=
  onHistory_iff.mpr (.inr (.inr (.inl rfl)))

/-- The entries `merge_log` puts before the local tail. -/
def older (log olog : PgLog) : List LogEntry :=
  if olog.tail < log.tail then olog.upTo log.tail else []

theorem mem_older (he : e ∈ older log olog) :
    olog.tail < log.tail ∧ e ∈ olog.log ∧ e.version ≤ log.tail := by
  unfold older at he
  split_ifs at he with htail
  · exact ⟨htail, mem_upTo.mp he⟩
  · simp at he

variable (h : SharedHistory log olog shared)

include h

theorem upto (v w : Eversion)
    (hv : OnHistory log olog shared v) (hw : OnHistory log olog shared w) (hle : v ≤ w) :
    v.Upto w := h.linear v hv w hw hle

theorem mem_olog (he : e ∈ log.upTo shared)
    (hlimit : max log.tail olog.tail < e.version) : e ∈ olog.upTo shared := by
  have hmem : e ∈ (log.upTo shared).filter (fun e => max log.tail olog.tail < e.version) :=
    mem_filter.mpr ⟨he, decide_eq_true hlimit⟩
  rw [h.agree] at hmem
  exact (mem_filter.mp hmem).1

/-- The authoritative log ends with the shared history if the local head is not older. -/
theorem after_eq_nil (hle : olog.head ≤ log.head) : olog.after shared = [] := by
  rw [h.ends hle, PgLog.after, filter_eq_nil_iff]
  intro e he
  simpa using (h.olog_ordered.below e he).le

/-- The authoritative log's newer entries are those after the local head. -/
theorem after_head_eq : olog.after log.head = olog.after shared := by
  refine filter_congr fun e he => ?_
  rw [decide_eq_decide]
  refine ⟨fun hlt => h.le_head.trans_lt hlt, fun hlt => ?_⟩
  exact (h.newer e (PgLog.mem_after.mpr ⟨he, hlt⟩)).2

theorem upTo_head_eq : olog.upTo log.head = olog.upTo shared := by
  refine filter_congr fun e he => ?_
  rw [decide_eq_decide]
  refine ⟨fun hle => ?_, fun hle => hle.trans h.le_head⟩
  by_contra hlt
  exact absurd hle (not_le.mpr (h.newer e (PgLog.mem_after.mpr ⟨he, not_le.mp hlt⟩)).2)

theorem older_upto (he : e ∈ older log olog) : e.version.Upto log.tail := by
  obtain ⟨-, hmem, hle⟩ := mem_older he
  refine h.upto _ _ (onHistory_of_olog_mem e ?_) onHistory_tail hle
  exact mem_upTo.mpr ⟨hmem, hle.trans h.tail_le⟩

theorem min_tail_upto : (min log.tail olog.tail).Upto log.tail := by
  rcases le_total log.tail olog.tail with hle | hle
  · rw [min_eq_left hle]
    exact Eversion.Upto.refl _
  · rw [min_eq_right hle]
    exact h.upto _ _ onHistory_olog_tail onHistory_tail hle

/-- **A log extended at its tail is ordered.** -/
theorem extended_ordered
    (hlog : l.log = older log olog ++ log.log) (htail : l.tail = min log.tail olog.tail)
    (hhead : l.head = log.head) : l.Ordered := by
  refine ⟨?_, ?_, ?_, ?_⟩
  · rw [hlog, pairwise_append]
    refine ⟨?_, h.ordered.sorted, fun a ha b hb => ?_⟩
    · unfold older
      split_ifs
      · exact h.olog_ordered.sorted.filter _
      · exact List.Pairwise.nil
    · exact (h.older_upto ha).trans_before (h.ordered.above b hb)
  · intro e he
    rw [hlog, mem_append] at he
    rw [htail]
    rcases he with he | he
    · obtain ⟨hlt, hmem, -⟩ := mem_older he
      rw [min_eq_right hlt.le]
      exact h.olog_ordered.above e hmem
    · exact h.min_tail_upto.trans_before (h.ordered.above e he)
  · intro e he
    rw [hlog, mem_append] at he
    rw [hhead]
    rcases he with he | he
    · exact (h.older_upto he).trans h.ordered.tail_upto
    · exact h.ordered.below e he
  · rw [htail, hhead]
    exact h.min_tail_upto.trans h.ordered.tail_upto

/-- A version at which the local log can be cut so that its divergent entries come off. -/
structure CutsAt (log olog : PgLog) (shared v : Eversion) : Prop where
  onHistory : OnHistory log olog shared v
  le_shared : v ≤ shared
  limit_le : max log.tail olog.tail ≤ v
  above : ∀ e ∈ log.upTo shared, e.version ≤ v

/-- Any version from the newest shared entry up to the last shared version will do. -/
theorem cutsAt_of_getLast? (hsub : ∀ e ∈ entries, e ∈ olog.upTo shared)
    (hall : ∀ e ∈ log.upTo shared, max log.tail olog.tail < e.version →
      ∃ c, entries.getLast? = some c ∧ e.version ≤ c.version) :
    CutsAt log olog shared (match entries.getLast? with
      | some c => max (max log.tail olog.tail) c.version
      | none => max log.tail olog.tail) := by
  have hlimit : OnHistory log olog shared (max log.tail olog.tail) := by
    rcases max_choice log.tail olog.tail with heq | heq <;> rw [heq]
    · exact onHistory_tail
    · exact onHistory_olog_tail
  have hle : max log.tail olog.tail ≤ shared := max_le h.tail_le h.olog_tail_le
  cases hlast : entries.getLast? with
  | none =>
    refine ⟨hlimit, hle, le_rfl, fun e he => ?_⟩
    by_contra hlt
    obtain ⟨c, hc, -⟩ := hall e he (not_le.mp hlt)
    rw [hlast] at hc
    exact absurd hc (by simp)
  | some c =>
    have hc := hsub c (mem_of_getLast? hlast)
    refine ⟨?_, max_le hle (mem_upTo.mp hc).2, le_max_left _ _, fun e he => ?_⟩
    · rcases max_choice (max log.tail olog.tail) c.version with heq | heq
      · dsimp only
        rw [heq]
        exact hlimit
      · dsimp only
        rw [heq]
        exact onHistory_of_olog_mem c hc
    · rcases le_or_gt e.version (max log.tail olog.tail) with hlt | hlt
      · exact hlt.trans (le_max_left _ _)
      · obtain ⟨c', hc', hec⟩ := hall e he hlt
        rw [hlast] at hc'
        rw [Option.some.inj hc']
        exact hec.trans (le_max_right _ _)

theorem cutsAt_shared : CutsAt log olog shared shared :=
  ⟨onHistory_shared, le_rfl, max_le h.tail_le h.olog_tail_le,
    fun _ he => (mem_upTo.mp he).2⟩

/-- The local log, extended at its tail. -/
structure Extends (l log : PgLog) (front : List LogEntry) : Prop where
  upto : ∀ e ∈ front, e.version.Upto log.tail
  ordered : l.Ordered
  log_eq : l.log = front ++ log.log
  head_eq : l.head = log.head
  tail_le : l.tail ≤ log.tail

theorem le_of_kept (hl : Extends l log front) :
    ∀ e ∈ front ++ log.upTo shared, e.version ≤ shared :=
  forall_mem_append.mpr ⟨fun e he => (hl.upto e he).le.trans h.tail_le,
    fun _ he => (mem_upTo.mp he).2⟩

/-- **Cutting off the divergent entries.** -/
theorem rewindFromHead_spec (hv : CutsAt log olog shared v) {l : IndexedLog}
    (hl : Extends l.toPgLog log front) :
    ∃ l' : IndexedLog, l.rewindFromHead v = some (l', log.after shared) ∧
      l'.log = front ++ log.upTo shared ∧ l'.head = v ∧ l'.tail = l.tail ∧ l'.Indexed := by
  obtain ⟨hfront, hordered, hlog, -, htail⟩ := hl
  have htv : log.tail ≤ v := (le_max_left _ _).trans hv.limit_le
  have htv' : log.tail.Upto v := h.upto _ _ onHistory_tail hv.onHistory htv
  have hbefore : ∀ e ∈ log.after shared, v.Before e.version := fun e he =>
    (h.upto _ _ hv.onHistory onHistory_shared hv.le_shared).trans_before (h.divergent e he)
  have hupto : ∀ e ∈ log.log, e.version ≤ shared → e.version.Upto v := by
    intro e he hle
    have hmem := mem_upTo.mpr ⟨he, hle⟩
    exact h.upto _ _ (onHistory_of_mem e hmem) hv.onHistory (hv.above e hmem)
  have hfar : ∀ e ∈ log.log, v.version < e.version.version ↔ shared < e.version := by
    intro e he
    refine ⟨fun hlt => ?_, fun hlt => (hbefore e (PgLog.mem_after.mpr ⟨he, hlt⟩)).2⟩
    by_contra hle
    exact absurd (hupto e he (not_lt.mp hle)).2 (not_le.mpr hlt)
  have hcut := rewindFromHead_eq hordered v (htail.trans htv) (by
    intro e he hlt
    rw [hlog, mem_append] at he
    rcases he with he | he
    · exact absurd ((hfront e he).trans htv').2 (not_le.mpr hlt)
    · exact (hbefore e (PgLog.mem_after.mpr ⟨he, (hfar e he).mp hlt⟩)).lt)
  have hafter : l.log.filter (fun e => v.version < e.version.version) = log.after shared := by
    rw [hlog, filter_append]
    have hnil : front.filter (fun e => decide (v.version < e.version.version)) = [] := by
      rw [filter_eq_nil_iff]
      intro e he
      simpa using ((hfront e he).trans htv').2
    rw [hnil, nil_append]
    exact filter_congr fun e he => decide_eq_decide.mpr (hfar e he)
  have hupTo : l.log.filter (fun e => e.version.version ≤ v.version) =
      front ++ log.upTo shared := by
    rw [hlog, filter_append]
    congr 1
    · rw [filter_eq_self]
      exact fun e he => decide_eq_true ((hfront e he).trans htv').2
    · refine filter_congr fun e he => decide_eq_decide.mpr ?_
      rw [← not_lt, hfar e he, not_lt]
  rw [hafter] at hcut
  refine ⟨({ l with toPgLog := l.toPgLog.cutAt v } : IndexedLog).index, ?_, hupTo, rfl, rfl,
    IndexedLog.index_indexed _⟩
  rw [IndexedLog.rewindFromHead, hcut]
  rfl

/-- What is left of the authoritative log after the tail is extended shares the history too. -/
theorem drop_older : SharedHistory log { olog with log := olog.after log.tail } shared where
  ordered := h.ordered
  olog_ordered := h.olog_ordered.filter _
  linear := by
    have hsub : ∀ v, OnHistory log { olog with log := olog.after log.tail } shared v →
        OnHistory log olog shared v := by
      intro v hv
      rcases onHistory_iff.mp hv with rfl | rfl | rfl | ⟨e, he, rfl⟩
      · exact onHistory_tail
      · exact onHistory_olog_tail
      · exact onHistory_shared
      · rcases mem_append.mp he with he | he
        · exact onHistory_of_mem e he
        · obtain ⟨hmem, hle⟩ := mem_upTo.mp he
          exact onHistory_of_olog_mem e
            (mem_upTo.mpr ⟨(mem_filter.mp hmem).1, hle⟩)
    exact fun v hv w hw => h.upto v w (hsub v hv) (hsub w hw)
  tail_le := h.tail_le
  olog_tail_le := h.olog_tail_le
  le_head := h.le_head
  le_olog_head := h.le_olog_head
  agree := by
    rw [h.agree]
    show _ = ((olog.log.filter _).filter _).filter _
    rw [PgLog.upTo, filter_filter, filter_filter, filter_filter]
    refine filter_congr fun e _ => ?_
    by_cases hlt : log.tail < e.version
    · simp [hlt]
    · simp [hlt]
  divergent := h.divergent
  newer := fun e he => by
    obtain ⟨hmem, hlt⟩ := PgLog.mem_after.mp he
    exact h.newer e (PgLog.mem_after.mpr ⟨(mem_filter.mp hmem).1, hlt⟩)
  ends := h.ends

theorem drop_older_after :
    ({ olog with log := olog.after log.tail } : PgLog).after shared = olog.after shared := by
  show (olog.log.filter _).filter _ = _
  rw [filter_filter]
  refine filter_congr fun e _ => ?_
  by_cases hlt : shared < e.version
  · simp [hlt, h.tail_le.trans_lt hlt]
  · simp [hlt]

theorem divergent_pos : ∀ e ∈ log.after shared, .zero < e.version := fun e he =>
  (Eversion.zero_le shared).trans_lt (h.divergent e he).lt

theorem divergent_sorted : (log.after shared).Pairwise (fun a b => a.version < b.version) :=
  (h.ordered.sorted.filter _).imp fun hab => hab.lt

end SharedHistory

/-! ## The merge, object by object -/

/-- The merge of an object's divergent entries, superseded by newer ones or not. -/
def mergeResult (canRollbackTo : Eversion) (o : Soid) (superseded : Bool)
    (divergent : List LogEntry) (item : Option MissingItem) :
    Option MissingItem × List HandlerCall :=
  match divergent.head?, divergent.getLast? with
  | some first, some last =>
    let notInStore := item.isNone && last.isDelete
    if superseded then
      (item.map (fun it => { it with have_ := .zero }), removeAndTrim o notInStore divergent)
    else unsupersededItem canRollbackTo o first notInStore divergent item
  | _, _ => (item, [])

/-- The item of an object after the newer entries are appended and the divergent ones merged. -/
def mergedItem (mayIncludeDeletes : Bool) (canRollbackTo : Eversion) (o : Soid)
    (divergent newer : List LogEntry) (item : Option MissingItem) : Option MissingItem :=
  (mergeResult canRollbackTo o (newer ≠ []) divergent
    (newer.foldl (appendItem mayIncludeDeletes) item)).1

/-- Its stored version. -/
def mergedStored (mayIncludeDeletes : Bool) (canRollbackTo : Eversion) (o : Soid)
    (divergent newer : List LogEntry) (item : Option MissingItem) (v : Option Eversion) :
    Option Eversion :=
  storedAfter o (newer.foldl (appendStored mayIncludeDeletes) v)
    (mergeResult canRollbackTo o (newer ≠ []) divergent
      (newer.foldl (appendItem mayIncludeDeletes) item)).2

/-- **What a merge does to the missing set and the store.** -/
structure MergeOutcome (lastBackfill : Soid) (canRollbackTo : Eversion)
    (divergent newer : List LogEntry) (m m' : MissingSet) (calls : List HandlerCall) : Prop where
  tracked : m.Tracked m'
  item : ∀ o ≤ lastBackfill, m'.get o = mergedItem m.mayIncludeDeletes canRollbackTo o
    (objEntries divergent o) (objEntries newer o) (m.get o)
  stored : ∀ o ≤ lastBackfill, ∀ v, storedAfter o v calls = mergedStored m.mayIncludeDeletes
    canRollbackTo o (objEntries divergent o) (objEntries newer o) (m.get o) v
  beyond : ∀ o, lastBackfill < o → m'.get o = m.get o

theorem need_appendItem {it : MissingItem} (h : appendItem mayIncludeDeletes item e = some it) :
    item = some it ∨ it.need = e.version := by
  unfold appendItem at h
  split_ifs at h with hdel
  · exact .inl (Option.filter_eq_some_iff.mp h).1
  · rw [← Option.some.inj h]
    exact .inr (MissingSet.need_nextItem item e)

theorem need_foldl_appendItem {it : MissingItem}
    (h : entries.foldl (appendItem mayIncludeDeletes) item = some it) :
    item = some it ∨ ∃ e ∈ entries, it.need = e.version := by
  induction entries using List.reverseRecOn with
  | nil => exact .inl h
  | append_singleton entries e ih =>
    rw [foldl_append, foldl_cons, foldl_nil] at h
    rcases need_appendItem h with hprev | hneed
    · rcases ih hprev with hold | ⟨e', he', hneed⟩
      · exact .inl hold
      · exact .inr ⟨e', by simp [he'], hneed⟩
    · exact .inr ⟨e, by simp, hneed⟩

/-- What case 1 asserts, without errors: a delete that is carried out at once leaves no item, and
any other entry leaves one that needs it. -/
theorem updatedTo_iff_of_not_error (herror : newest.isError = false) :
    UpdatedTo newest mayIncludeDeletes item ↔
      if mayIncludeDeletes = false ∧ newest.isDelete = true then item = none
      else ∃ it, item = some it ∧ it.need = newest.version := by
  simp only [UpdatedTo, newest.isUpdate_iff, herror]
  cases mayIncludeDeletes <;> cases newest.isDelete <;> simp

/-- **Appended entries update the item**, as case 1 of the merge asserts. -/
theorem updatedTo_foldl_appendItem (mayIncludeDeletes : Bool)
    (hneed : ∀ it, item = some it → it.need ≤ v) (hnewer : ∀ e ∈ entries, v < e.version)
    (hsorted : entries.Pairwise (fun a b => a.version < b.version))
    (herror : ∀ e ∈ entries, e.isError = false) (hlast : entries.getLast? = some newest) :
    UpdatedTo newest mayIncludeDeletes (entries.foldl (appendItem mayIncludeDeletes) item) := by
  obtain ⟨init, rfl⟩ := getLast?_eq_some_iff.mp hlast
  rw [updatedTo_iff_of_not_error (herror newest (by simp)), foldl_append, foldl_cons,
    foldl_nil, appendItem]
  by_cases hdel : mayIncludeDeletes = false ∧ newest.isDelete = true
  · rw [if_pos hdel, if_pos hdel, Option.filter_eq_none_iff]
    intro it hit
    have hle : it.need ≤ newest.version := by
      rcases need_foldl_appendItem hit with hold | ⟨e, he, heq⟩
      · exact (hneed it hold).trans (hnewer newest (by simp)).le
      · rw [heq]
        exact ((pairwise_append.mp hsorted).2.2 e he newest (by simp)).le
    simpa using hle
  · rw [if_neg hdel, if_neg hdel]
    exact ⟨_, rfl, MissingSet.need_nextItem _ _⟩

/-- What the index must say of an object whose divergent entries are merged. -/
def IndexAgrees (newest : Option LogEntry) (superseded mayIncludeDeletes : Bool)
    (divergent : List LogEntry) (item : Option MissingItem) : Prop :=
  if superseded then
    ∃ n, newest = some n ∧ (∀ e ∈ divergent, e.version < n.version) ∧
      UpdatedTo n mayIncludeDeletes item
  else ∀ n, newest = some n → ∀ e ∈ divergent, n.version < e.version

theorem mergesItem_mergeResult {newest : Option LogEntry} {superseded : Bool}
    {canRollbackTo : Eversion} {o : Soid} {first last : LogEntry}
    (h : IndexAgrees newest superseded mayIncludeDeletes divergent item)
    (hfirst : divergent.head? = some first) (hlast : divergent.getLast? = some last) :
    MergesItem newest mayIncludeDeletes canRollbackTo o first last divergent item
      (mergeResult canRollbackTo o superseded divergent item).1
      (mergeResult canRollbackTo o superseded divergent item).2 := by
  unfold IndexAgrees at h
  unfold mergeResult
  rw [hfirst, hlast]
  cases superseded with
  | true =>
    obtain ⟨n, hn, hlt, hupdated⟩ := h
    exact .superseded n hn (hlt first (mem_of_head? hfirst)).le
      (hlt last (mem_of_getLast? hlast)) hupdated
  | false => exact .unsuperseded fun n hn => h n hn first (mem_of_head? hfirst)

/-- **Merging divergent entries, with the result for each object.** -/
theorem mergeDivergentEntries_result (log : IndexedLog) (lastBackfill : Soid)
    (canRollbackTo : Eversion) (m : MissingSet) (superseded : Soid → Bool)
    (hpos : ∀ e ∈ divergent, .zero < e.version)
    (hsorted : divergent.Pairwise (fun a b => a.version < b.version))
    (hlinked : ∀ o, Linked (objEntries divergent o))
    (hindex : ∀ o ≤ lastBackfill, objEntries divergent o ≠ [] →
      IndexAgrees (log.objects.get o) (superseded o) m.mayIncludeDeletes
        (objEntries divergent o) (m.get o)) :
    ∃ m' calls, mergeDivergentEntries log divergent lastBackfill canRollbackTo m =
        some (m', calls) ∧
      m.Tracked m' ∧
      (∀ o ≤ lastBackfill, m'.get o =
          (mergeResult canRollbackTo o (superseded o) (objEntries divergent o) (m.get o)).1 ∧
        ∀ v, storedAfter o v calls = storedAfter o v
          (mergeResult canRollbackTo o (superseded o) (objEntries divergent o) (m.get o)).2) ∧
      ∀ o, lastBackfill < o → m'.get o = m.get o := by
  obtain ⟨m', calls, hmerge, htracked, hall⟩ := mergeDivergentEntries_spec log lastBackfill
    canRollbackTo m
    (fun o => mergeResult canRollbackTo o (superseded o) (objEntries divergent o) (m.get o))
    hpos hsorted hlinked (fun o first last hb hfirst hlast =>
      mergesItem_mergeResult (hindex o hb (by rintro hnil; simp [hnil] at hfirst)) hfirst hlast)
  refine ⟨m', calls, hmerge, htracked, fun o hb => ?_, fun o hb => ((hall o).2 (.inl hb)).1⟩
  by_cases hnil : objEntries divergent o = []
  · have hres : mergeResult canRollbackTo o (superseded o) (objEntries divergent o) (m.get o) =
        (m.get o, []) := by rw [hnil]; rfl
    rw [hres]
    exact (hall o).2 (.inr hnil)
  · exact (hall o).1 hb hnil

/-! ## The steps of the merge -/

section Steps

variable {log olog : PgLog} {shared : Eversion}

/-- Nothing up to the last shared version supersedes divergent entries. -/
theorem indexAgrees_of_le {o : Soid} (hle : ∀ e ∈ entries, e.version ≤ shared)
    (hlt : ∀ e ∈ divergent, shared < e.version) :
    IndexAgrees (newestEntry entries o) false mayIncludeDeletes (objEntries divergent o) item := by
  rintro n hn e he
  have hmem := (mem_objEntries.mp (mem_of_getLast? hn)).1
  exact (hle n hmem).trans_lt (hlt e (mem_objEntries.mp he).1)

/-- A newer entry supersedes divergent ones, and appending it has updated the item. -/
theorem indexAgrees_extended {kept newer : List LogEntry} {o : Soid} {head : Eversion}
    (hkept : ∀ e ∈ kept, e.version ≤ shared)
    (hdivergent : ∀ e ∈ divergent, shared < e.version ∧ e.version ≤ head)
    (hnewer : ∀ e ∈ newer, head < e.version)
    (hsorted : newer.Pairwise (fun a b => a.version < b.version))
    (hneed : ∀ it, item = some it → it.need ≤ head) :
    IndexAgrees (newestEntry (kept ++ newer) o) (objEntries newer o ≠ []) mayIncludeDeletes
      (objEntries divergent o)
      ((objEntries newer o).foldl (appendItem mayIncludeDeletes) item) := by
  rw [newestEntry_append]
  by_cases hnil : objEntries newer o = []
  · have hnone : newestEntry newer o = none := by rw [newestEntry, hnil]; rfl
    rw [hnone, Option.none_or, decide_eq_false (not_not_intro hnil)]
    exact indexAgrees_of_le hkept fun e he => (hdivergent e he).1
  · obtain ⟨n, hn⟩ : ∃ n, newestEntry newer o = some n :=
      Option.ne_none_iff_exists'.mp (by simpa [newestEntry] using hnil)
    have hmem := mem_objEntries.mp (mem_of_getLast? hn)
    rw [hn, Option.some_or, decide_eq_true hnil]
    refine ⟨n, rfl, fun e he => ?_, ?_⟩
    · exact (hdivergent e (mem_objEntries.mp he).1).2.trans_lt (hnewer n hmem.1)
    · exact updatedTo_foldl_appendItem _ hneed (fun e he => hnewer e (mem_objEntries.mp he).1)
        (hsorted.filter _) (fun e he => (mem_objEntries.mp he).2.2) hn

theorem rewindDivergentLog_eq {newhead : Eversion} {info : PgInfo} {l : IndexedLog} {m : MissingSet}
    {calls : List HandlerCall} (hrewind : p.log.rewindFromHead newhead = some (l, divergent))
    (hmerge : mergeDivergentEntries l divergent info.lastBackfill p.log.canRollbackTo p.missing =
      some (m, calls)) :
    rewindDivergentLog p newhead info =
      some ({ ({ p with log := l } : PGLog).markDivergent divergent with missing := m },
        { info with
          lastComplete := if newhead < info.lastComplete then newhead else info.lastComplete
          lastUpdate := newhead }, calls) := by
  simp [rewindDivergentLog, hrewind, hmerge]

open SharedHistory

/-- **Throwing out divergent entries**: `rewind_divergent_log` to the last shared version. -/
theorem rewindDivergentLog_spec (h : SharedHistory log olog shared) (info : PgInfo)
    (hlinked : ∀ o, Linked (objEntries (log.after shared) o))
    (hp : Extends p.log.toPgLog log front) :
    ∃ p' info' calls, rewindDivergentLog p shared info = some (p', info', calls) ∧
      p'.log.log = front ++ log.upTo shared ∧ p'.log.head = shared ∧
      p'.log.tail = p.log.tail ∧
      MergeOutcome info.lastBackfill p.log.canRollbackTo (log.after shared) [] p.missing
        p'.missing calls := by
  obtain ⟨l', hrewind, hlog', hhead, htail', hindexed⟩ :=
    h.rewindFromHead_spec h.cutsAt_shared hp
  have hold : ∀ e ∈ l'.log, e.version ≤ shared := hlog' ▸ h.le_of_kept hp
  obtain ⟨m', calls, hmerge, htracked, hwithin, hbeyond⟩ := mergeDivergentEntries_result l'
    info.lastBackfill p.log.canRollbackTo p.missing (fun _ => false) h.divergent_pos
    h.divergent_sorted hlinked (fun o _ _ => by
      rw [hindexed.2]
      exact indexAgrees_of_le hold fun e he => (PgLog.mem_after.mp he).2)
  refine ⟨_, _, calls, rewindDivergentLog_eq hrewind hmerge, ?_, ?_, ?_,
    ⟨htracked, fun o hb => (hwithin o hb).1, fun o hb => (hwithin o hb).2, hbeyond⟩⟩
  · simpa using hlog'
  · simpa using hhead
  · simpa using htail'

/-- **The cut point takes the divergent entries off.** -/
theorem cutsAt_cutPoint (h : SharedHistory log olog shared) :
    CutsAt log olog shared (cutPoint log.head olog log.tail) := by
  unfold cutPoint
  rw [h.olog_ordered.rdropWhile_eq, h.upTo_head_eq, max_comm olog.tail]
  refine h.cutsAt_of_getLast? (fun e he => he) fun e he hlimit => ?_
  have hmem := h.mem_olog he hlimit
  obtain ⟨c, hc⟩ : ∃ c, (olog.upTo shared).getLast? = some c :=
    Option.ne_none_iff_exists'.mp (by
      rw [ne_eq, getLast?_eq_none_iff]
      exact ne_nil_of_mem hmem)
  exact ⟨c, hc, h.olog_ordered.le_of_getLast? hmem hc⟩

theorem foldl_append_log (entries : List LogEntry) (l : IndexedLog) :
    (entries.foldl IndexedLog.append l).log = l.log ++ entries ∧
      (entries.foldl IndexedLog.append l).tail = l.tail := by
  induction entries generalizing l with
  | nil => simp
  | cons e entries ih =>
    obtain ⟨hlog, htail⟩ := ih (l.append e)
    rw [foldl_cons]
    refine ⟨hlog.trans ?_, htail⟩
    show l.log ++ [e] ++ entries = _
    simp

theorem foldl_append_indexed (entries : List LogEntry) {l : IndexedLog} (hl : l.Indexed) :
    (entries.foldl IndexedLog.append l).Indexed := by
  induction entries generalizing l with
  | nil => exact hl
  | cons e entries ih => exact ih (l.append_indexed hl e)

theorem extendHead_eq {origTail : Eversion} {oinfo info : PgInfo} {l l' : IndexedLog}
    {m m' : MissingSet} {calls calls' : List HandlerCall}
    (hrewind : p.log.rewindFromHead (cutPoint p.log.head olog origTail) = some (l, divergent))
    (happend : appendLogEntriesUpdateMissing info.lastBackfill
      (olog.log.rtakeWhile (fun e => decide (p.log.head < e.version))) false
      (l.advanceCanRollbackTo l.head).1 p.missing = some (l', m, calls))
    (hmerge : mergeDivergentEntries l' divergent info.lastBackfill p.log.canRollbackTo m =
      some (m', calls')) :
    extendHead p olog origTail oinfo info =
      some ({ p.markDirtyFrom (cutPoint p.log.head olog origTail) with
          log := ({ l' with head := olog.head } : IndexedLog).skipCanRollbackToToHead
          missing := m' },
        { info with lastUpdate := olog.head, lastUserVersion := oinfo.lastUserVersion },
        (l.advanceCanRollbackTo l.head).2.1.map .rollforward ++ calls ++ calls') := by
  simp [extendHead, hrewind, happend, hmerge]

/-- **Extending the head.** -/
theorem extendHead_spec (h : SharedHistory log olog shared) (oinfo info : PgInfo)
    (hlinked : ∀ o, Linked (objEntries (log.after shared) o))
    (hneed : ∀ o ≤ info.lastBackfill, ∀ it, p.missing.get o = some it → it.need ≤ log.head)
    (hp : Extends p.log.toPgLog log front) :
    ∃ p' info' calls, extendHead p olog log.tail oinfo info = some (p', info', calls) ∧
      p'.log.log = front ++ log.upTo shared ++ olog.after shared ∧
      p'.log.head = olog.head ∧ p'.log.tail = p.log.tail ∧
      MergeOutcome info.lastBackfill p.log.canRollbackTo (log.after shared) (olog.after shared)
        p.missing p'.missing calls := by
  have hcut := cutsAt_cutPoint h
  obtain ⟨l, hrewind, hlog', hhead', htail', hindexed⟩ :=
    h.rewindFromHead_spec hcut hp
  rw [← hp.head_eq] at hrewind
  have hnewer : olog.log.rtakeWhile (fun e => decide (p.log.head < e.version)) =
      olog.after shared := by
    rw [hp.head_eq, h.olog_ordered.rtakeWhile_eq, h.after_head_eq]
  have hsorted : (olog.after shared).Pairwise (fun a b => a.version.Before b.version) :=
    h.olog_ordered.sorted.filter _
  -- the newer entries follow the cut point
  let l₁ := (l.advanceCanRollbackTo l.head).1
  have habove : ∀ e ∈ olog.after shared, l₁.head.Before e.version := by
    intro e he
    show l.head.Before e.version
    rw [hhead']
    exact (h.upto _ _ hcut.onHistory onHistory_shared hcut.le_shared).trans_before
      (h.newer e he).1
  obtain ⟨m, calls, hloop, htracked, hitem, hstored⟩ := appendLoop_spec info.lastBackfill false
    (olog.after shared) l₁ p.missing hsorted habove
  have happend : appendLogEntriesUpdateMissing info.lastBackfill
      (olog.log.rtakeWhile (fun e => decide (p.log.head < e.version))) false l₁ p.missing =
      some ((olog.after shared).foldl IndexedLog.append l₁, m, calls) := by
    rw [hnewer, appendLogEntriesUpdateMissing, if_pos, hloop]
    cases hfirst : (olog.after shared).head? with
    | none => rfl
    | some e => simpa using (habove e (mem_of_head? hfirst)).lt
  have hl₁ : l₁.Indexed := hindexed
  obtain ⟨hfold, hfoldtail⟩ := foldl_append_log (olog.after shared) l₁
  have hmid : m.mayIncludeDeletes = p.missing.mayIncludeDeletes := htracked.mayIncludeDeletes_eq
  have hitem' : ∀ o ≤ info.lastBackfill, m.get o = (objEntries (olog.after shared) o).foldl
      (appendItem p.missing.mayIncludeDeletes) (p.missing.get o) := fun o hb => by
    rw [hitem, if_pos hb]
  have hkept : ∀ e ∈ l.log, e.version ≤ shared := hlog' ▸ h.le_of_kept hp
  obtain ⟨m', calls', hmerge, htracked', hwithin, hbeyond⟩ := mergeDivergentEntries_result
    ((olog.after shared).foldl IndexedLog.append l₁) info.lastBackfill p.log.canRollbackTo m
    (fun o => objEntries (olog.after shared) o ≠ []) h.divergent_pos h.divergent_sorted hlinked
    (fun o hb _ => by
      rw [(foldl_append_indexed _ hl₁).2, hfold, hitem' o hb, hmid]
      exact indexAgrees_extended hkept
        (fun e he => ⟨(PgLog.mem_after.mp he).2,
          (h.ordered.below e (PgLog.mem_after.mp he).1).le⟩)
        (fun e he => (h.newer e he).2) (hsorted.imp fun hab => hab.lt) (hneed o hb))
  refine ⟨_, _, _, extendHead_eq hrewind happend hmerge, ?_, rfl, hfoldtail.trans htail',
    htracked.trans htracked', fun o hb => ?_, fun o hb v => ?_, fun o hb => ?_⟩
  · exact hfold.trans (congrArg (· ++ olog.after shared) hlog')
  · rw [(hwithin o hb).1, hitem' o hb]
    rfl
  · rw [storedAfter_append, storedAfter_append, storedAfter_rollforward, hstored rfl, if_pos hb,
      (hwithin o hb).2, hitem' o hb]
    rfl
  · rw [hbeyond o hb, hitem, if_neg (not_le.mpr hb)]

theorem foldl_indexOne_toPgLog (entries : List LogEntry) (l : IndexedLog) :
    (entries.foldl IndexedLog.indexOne l).toPgLog = l.toPgLog := by
  induction entries generalizing l with
  | nil => rfl
  | cons e entries ih =>
    rw [foldl_cons, ih]
    unfold IndexedLog.indexOne
    split_ifs <;> rfl

/-- **Extending the tail.** -/
theorem extendTail_spec (h : SharedHistory p.log.toPgLog olog shared) (info : PgInfo) :
    ∃ p' info', extendTail p olog info = (p', { olog with log := olog.after p.log.tail }, info') ∧
      p'.missing = p.missing ∧
      p'.log.log = older p.log.toPgLog olog ++ p.log.log ∧
      p'.log.head = p.log.head ∧ p'.log.tail = min p.log.tail olog.tail ∧
      p'.log.canRollbackTo = p.log.canRollbackTo ∧ info'.lastBackfill = info.lastBackfill := by
  have hmono : olog.log.Pairwise (fun a b => (!decide (p.log.tail < b.version)) = true →
      (!decide (p.log.tail < a.version)) = true) := by
    refine (h.olog_ordered.after_mono p.log.tail).imp ?_
    intro a b hab
    simpa using mt hab
  unfold extendTail
  split_ifs with htail
  · have holder : olog.log.takeWhile (fun e => !decide (p.log.tail < e.version)) =
        older p.log.toPgLog olog := by
      rw [takeWhile_eq_filter hmono, older, if_pos htail]
      exact filter_congr fun e _ => by rw [← decide_not, decide_eq_decide, not_lt]
    have hrest : olog.log.dropWhile (fun e => !decide (p.log.tail < e.version)) =
        olog.after p.log.tail := by
      rw [dropWhile_eq_filter hmono]
      exact filter_congr fun e _ => by rw [Bool.not_not]
    simp only [holder, hrest, PGLog.markDirtyTo_log]
    have hindex := foldl_indexOne_toPgLog (older p.log.toPgLog olog) p.log
    have hlog := congrArg PgLog.log hindex
    have hhead := congrArg PgLog.head hindex
    have hcrt := congrArg PgLog.canRollbackTo hindex
    exact ⟨_, _, rfl, by simp, congrArg (older p.log.toPgLog olog ++ ·) hlog, hhead,
      (min_eq_right htail.le).symm, hcrt, rfl⟩
  · have hrest : olog.after p.log.tail = olog.log := by
      rw [PgLog.after, filter_eq_self]
      intro e he
      exact decide_eq_true ((not_lt.mp htail).trans_lt (h.olog_ordered.above e he).lt)
    rw [hrest]
    refine ⟨p, info, rfl, rfl, ?_, rfl, (min_eq_left (not_lt.mp htail)).symm, rfl, rfl⟩
    rw [older, if_neg htail, nil_append]

/-- Two states that differ in the dups and the markers only. -/
def SameButDups (p q : PGLog) : Prop :=
  q.missing = p.missing ∧ ∃ dups, q.log = { p.log with dups := dups }

theorem SameButDups.refl (p : PGLog) : SameButDups p p := ⟨rfl, _, rfl⟩

theorem SameButDups.trans {q r : PGLog} (h : SameButDups p q) (h' : SameButDups q r) :
    SameButDups p r := by
  obtain ⟨hm, dups, hl⟩ := h
  obtain ⟨hm', dups', hl'⟩ := h'
  exact ⟨hm'.trans hm, dups', by rw [hl', hl]⟩

theorem sameButDups_withDups (p : PGLog) (dups : List LogDup) : SameButDups p (p.withDups dups) :=
  ⟨rfl, dups, rfl⟩

theorem sameButDups_markDirtyFromDups (p : PGLog) (v : Eversion) :
    SameButDups p (p.markDirtyFromDups v) := by
  unfold PGLog.markDirtyFromDups
  split_ifs <;> exact ⟨rfl, _, rfl⟩

theorem sameButDups_markDirtyToDups (p : PGLog) (v : Eversion) :
    SameButDups p (p.markDirtyToDups v) := by
  unfold PGLog.markDirtyToDups
  split_ifs <;> exact ⟨rfl, _, rfl⟩

theorem sameButDups_extendDupsNewer (p : PGLog) (odups : List LogDup) (back oback : LogDup) :
    SameButDups p (extendDupsNewer p odups back oback) := by
  unfold extendDupsNewer
  split_ifs
  · exact (sameButDups_withDups p _).trans (sameButDups_markDirtyFromDups _ _)
  · exact SameButDups.refl p

theorem sameButDups_extendDupsOlder (p : PGLog) (odups : List LogDup) (front ofront : LogDup) :
    SameButDups p (extendDupsOlder p odups front ofront) := by
  unfold extendDupsOlder
  split_ifs
  · exact (sameButDups_withDups p _).trans (sameButDups_markDirtyToDups _ _)
  · exact SameButDups.refl p

theorem sameButDups_extendDups (p : PGLog) (odups : List LogDup) :
    SameButDups p (extendDups p odups) := by
  unfold extendDups
  split
  · split
    · exact (sameButDups_extendDupsNewer p _ _ _).trans (sameButDups_extendDupsOlder _ _ _ _)
    · exact ⟨rfl, _, rfl⟩
  · exact SameButDups.refl p

theorem sameButDups_foldl_mark (dups : List LogDup) (p : PGLog) :
    SameButDups p (dups.foldl (fun p d => p.markDirtyFromDups d.version) p) := by
  induction dups generalizing p with
  | nil => exact SameButDups.refl p
  | cons d dups ih => exact (sameButDups_markDirtyFromDups p d.version).trans (ih _)

/-- **Merging the dups changes the dups and their markers only.** -/
theorem sameButDups_mergeLogDups (p : PGLog) (olog : PgLog) : SameButDups p (mergeLogDups p olog) :=
  (sameButDups_extendDups p olog.dups).trans
    ((sameButDups_withDups _ _).trans (sameButDups_foldl_mark _ _))

theorem mergeOutcome_nil (lastBackfill : Soid) (canRollbackTo : Eversion) (m : MissingSet) :
    MergeOutcome lastBackfill canRollbackTo [] [] m m [] :=
  ⟨MissingSet.Tracked.refl m, fun _ _ => rfl, fun _ _ _ => rfl, fun _ _ => rfl⟩

/-- **The merge at the head**, in its three cases. -/
theorem mergeHead_spec (h : SharedHistory log olog shared) (oinfo info : PgInfo)
    (hlinked : ∀ o, Linked (objEntries (log.after shared) o))
    (hneed : ∀ o ≤ info.lastBackfill, ∀ it, p.missing.get o = some it → it.need ≤ log.head)
    (hp : Extends p.log.toPgLog log front) :
    ∃ p' info' calls, mergeHead p olog log.tail oinfo info = some (p', info', calls) ∧
      p'.log.head = olog.head ∧ p'.log.tail = p.log.tail ∧
      p'.log.log = front ++ log.upTo shared ++ olog.after shared ∧
      MergeOutcome info.lastBackfill p.log.canRollbackTo (log.after shared) (olog.after shared)
        p.missing p'.missing calls := by
  rcases lt_trichotomy olog.head log.head with hlt | heq | hgt
  · -- the local log goes further: its divergent entries are thrown out
    have hshared := h.ends hlt.le
    have hnil := h.after_eq_nil hlt.le
    obtain ⟨p', info', calls, hrewind, hlog', hhead', htail', houtcome⟩ :=
      rewindDivergentLog_spec h info hlinked hp
    have hdone : ¬ p'.log.head < olog.head := by rw [hhead', hshared]; exact lt_irrefl _
    refine ⟨p', info', calls, ?_, hhead'.trans hshared, htail', ?_, ?_⟩
    · rw [hshared] at hrewind
      simp [mergeHead, hp.head_eq, hlt, hrewind, hdone]
    · rw [hlog', hnil, append_nil]
    · rw [hnil]
      exact houtcome
  · -- the logs end alike
    have hshared := h.ends heq.le
    have hdivergent : log.after shared = [] := by
      rw [hshared, heq, PgLog.after, filter_eq_nil_iff]
      intro e he
      simpa using (h.ordered.below e he).le
    have hkept : log.upTo shared = log.log := by
      have hsplit := h.ordered.upTo_append_after shared
      rwa [hdivergent, append_nil] at hsplit
    have hnil := h.after_eq_nil heq.le
    refine ⟨p, info, [], ?_, hp.head_eq.trans heq.symm, rfl, ?_, ?_⟩
    · simp [mergeHead, hp.head_eq, heq]
    · rw [hp.log_eq, hkept, hnil, append_nil]
    · rw [hdivergent, hnil]
      exact mergeOutcome_nil _ _ _
  · -- the authoritative log goes further
    obtain ⟨p', info', calls, hextend, hlog', hhead', htail', houtcome⟩ :=
      extendHead_spec h oinfo info hlinked hneed hp
    refine ⟨p', info', calls, ?_, hhead', htail', hlog', houtcome⟩
    simp [mergeHead, hp.head_eq, hgt, not_lt.mpr hgt.le, hextend]

/-- **The merge of two logs with a shared history.** -/
theorem mergeLog_spec (h : SharedHistory p.log.toPgLog olog shared) (oinfo : PgInfo) {info : PgInfo}
    (hlinked : ∀ o, Linked (objEntries (p.log.after shared) o))
    (hneed : ∀ o ≤ info.lastBackfill, ∀ it, p.missing.get o = some it → it.need ≤ p.log.head) :
    ∃ p' info' calls, mergeLog p oinfo olog info = some (p', info', calls) ∧
      p'.log.head = olog.head ∧ p'.log.tail = min p.log.tail olog.tail ∧
      p'.log.log = older p.log.toPgLog olog ++ p.log.upTo shared ++
        olog.after shared ∧
      MergeOutcome info.lastBackfill p.log.canRollbackTo (p.log.after shared) (olog.after shared)
        p.missing p'.missing calls := by
  obtain ⟨p₁, info₁, htail, hmissing₁, hlog₁, hhead₁, htail₁, hcrt₁, hbackfill₁⟩ :=
    extendTail_spec h info
  have hp₁ : Extends p₁.log.toPgLog p.log.toPgLog _ :=
    ⟨fun _ => h.older_upto, h.extended_ordered hlog₁ htail₁ hhead₁, hlog₁, hhead₁,
      htail₁ ▸ min_le_left _ _⟩
  -- the assertions at the start follow from the shared history
  have hassert : ¬ ((p.log.head = .zero ∧ olog.tail ≠ .zero) ∨ p.log.head < olog.tail ∨
      olog.head < p.log.tail) := by
    rintro (⟨hnull, hne⟩ | hlt | hlt)
    · exact hne (le_antisymm (hnull ▸ h.olog_tail_le.trans h.le_head) (Eversion.zero_le _))
    · exact absurd (h.olog_tail_le.trans h.le_head) (not_le.mpr hlt)
    · exact absurd (h.tail_le.trans h.le_olog_head) (not_le.mpr hlt)
  obtain ⟨p₂, info₂, calls, hmerge, hhead₂, htail₂, hlog₂, houtcome⟩ :=
    mergeHead_spec h.drop_older (p := p₁) oinfo info₁ hlinked
      (by rw [hbackfill₁, hmissing₁]; exact hneed) hp₁
  rw [h.drop_older_after] at hlog₂ houtcome
  rw [hbackfill₁, hcrt₁, hmissing₁] at houtcome
  obtain ⟨hmissing, dups, hdups⟩ := sameButDups_mergeLogDups p₂
    { olog with log := olog.after p.log.tail }
  refine ⟨mergeLogDups p₂ { olog with log := olog.after p.log.tail }, info₂, calls, ?_, ?_, ?_,
    ?_, ?_⟩
  · unfold mergeLog
    rw [if_neg hassert]
    simp only [htail, hmerge, Option.map_some]
  · rw [hdups]
    exact hhead₂
  · rw [hdups]
    exact htail₂.trans htail₁
  · rw [hdups]
    exact hlog₂
  · rw [hmissing]
    exact houtcome

end Steps

end Ceph.Osd
