import Ceph.Osd.MissingIndex
import Ceph.Osd.PGLog.MergeSound

set_option autoImplicit false

/-! # The primary's view of a replica

The primary keeps a missing set for each replica. It takes the replica's divergent entries off
(`proc_replica_log`) and then winds the set forward over its own newer entries, as `PG::activate`
does while it sends them. The replica gets the same entries, appends them and merges its divergent
entries afterwards (`merge_log`).

Both orders give the same objects with the same versions needed. They differ in the version the
replica has where an object has entries on both sides: the replica removes the object, the primary
believes that it went back to the prior version. `primary_agrees_iff` says exactly when.
-/

namespace Ceph.Osd

open PgLog List

/-! ## The reverse index of a missing set -/

/-- **The reverse index finds every item.** Version numbers belong to one object each, which
`owner` names, so no two items need the same one. -/
structure MissingSet.OwnedBy (owner : UInt64 → Soid) (m : MissingSet) : Prop where
  owned : ∀ o, ∀ it ∈ m.get o, owner it.need.version = o
  indexed : ∀ n o, m.rmissing.get n = some o ↔ ∃ it, m.get o = some it ∧ it.need.version = n

namespace MissingSet

variable {owner : UInt64 → Soid} {m : MissingSet} (h : m.OwnedBy owner)

include h

/-- An item stored in place of another, or as a new one, is indexed. -/
theorem OwnedBy.replace {oid : Soid} {item : MissingItem}
    (hown : owner item.need.version = oid) : ((m.unindex oid).put oid item).OwnedBy owner := by
  have hget : ∀ o, ((m.unindex oid).put oid item).get o =
      if o = oid then some item else m.get o := fun o => by rw [get_put, get_unindex]
  refine ⟨fun o it hit => ?_, (indexed_unindex_put_iff h.indexed oid item).mpr ?_⟩
  · rw [Option.mem_def, hget] at hit
    split_ifs at hit with ho
    · cases hit
      rw [hown, ho]
    · exact h.owned o it hit
  · rintro ⟨o, it⟩ hmem hneed
    rw [← h.owned o it ((m.missing.mem_entries_iff o it).mp hmem), ← hown]
    exact congrArg owner hneed

theorem OwnedBy.rmItem (oid : Soid) : (m.rmItem oid).OwnedBy owner := by
  refine ⟨fun o it hit => ?_, indexed_rmItem h.indexed oid⟩
  rw [Option.mem_def, get_rmItem] at hit
  split_ifs at hit
  exact h.owned o it hit

theorem OwnedBy.reviseHave (oid : Soid) (have_ : Eversion) :
    (m.reviseHave oid have_).OwnedBy owner := by
  refine ⟨fun o it hit => ?_, indexed_reviseHave h.indexed oid have_⟩
  rw [Option.mem_def, get_reviseHave] at hit
  split_ifs at hit with ho
  · obtain ⟨it', hit', rfl⟩ := Option.map_eq_some_iff.mp hit
    rw [ho]
    exact h.owned oid it' hit'
  · exact h.owned o it hit

/-- **The oldest version needed is found** in the reverse index. -/
theorem OwnedBy.getOldestNeed : ∃ v, m.getOldestNeed = some v := by
  unfold MissingSet.getOldestNeed
  cases hentries : m.missing.entries with
  | nil => exact ⟨_, rfl⟩
  | cons p rest =>
    obtain ⟨o, it⟩ := p
    have hit : m.get o = some it := (m.missing.mem_entries_iff o it).mp (by simp [hentries])
    have hindex := (h.indexed it.need.version o).mpr ⟨it, hit, rfl⟩
    cases hr : m.rmissing.entries with
    | nil =>
      have := (m.rmissing.mem_entries_iff it.need.version o).mpr hindex
      simp [hr] at this
    | cons q rest' =>
      obtain ⟨n, o'⟩ := q
      obtain ⟨it', hit', -⟩ := (h.indexed n o').mp
        ((m.rmissing.mem_entries_iff n o').mp (by simp [hr]))
      exact ⟨it'.need, by simp [hit']⟩

end MissingSet

section Merging

variable {owner : UInt64 → Soid} {log : IndexedLog} {lastBackfill : Soid}
variable {canRollbackTo : Eversion} {m m' : MissingSet} {calls : List HandlerCall}
  (h : m.OwnedBy owner)

include h

theorem ownedBy_mergeUnsuperseded {first : LogEntry} {hoid : Soid}
    (hprior : ¬ first.Creates → owner first.priorVersion.version = hoid) (notInStore : Bool)
    (entries : List LogEntry) (canRollbackTo : Eversion) :
    (mergeUnsuperseded first hoid notInStore entries canRollbackTo m).1.OwnedBy owner := by
  unfold mergeUnsuperseded
  by_cases hcreate : first.Creates
  · rw [if_pos hcreate]
    exact h.rmItem hoid
  · rw [if_neg hcreate]
    cases hitem : m.get hoid with
    | some item =>
      dsimp only
      split_ifs
      · exact h.rmItem hoid
      · rw [MissingSet.reviseNeed, hitem]
        exact h.replace (hprior hcreate)
    | none =>
      split_ifs
      · exact h
      · have hadd : m.add hoid first.priorVersion .zero false =
            (m.unindex hoid).put hoid ⟨first.priorVersion, .zero, false⟩ := by
          rw [MissingSet.unindex, hitem]
          rfl
        rw [hadd]
        exact h.replace (hprior hcreate)

/-- Merging one object keeps the reverse index, if the prior version of its first entry belongs
to it. -/
theorem ownedBy_mergeObject {hoid : Soid} {origEntries : List LogEntry}
    (hprior : ∀ entries first, keepEntries hoid true false .zero origEntries = some entries →
      entries.head? = some first → ¬ first.Creates → owner first.priorVersion.version = hoid)
    (hmerge : mergeObjectDivergentEntries log hoid origEntries lastBackfill canRollbackTo m =
      some (m', calls)) : m'.OwnedBy owner := by
  rcases mergeObjectDivergentEntries_cases hmerge with
    ⟨rfl, -⟩ | ⟨entries, first, notInStore, hkeep, hfirst, ⟨rfl, -⟩ | heq⟩
  · exact h
  · exact h.reviseHave hoid .zero
  · have hun := ownedBy_mergeUnsuperseded h (hprior entries first hkeep hfirst) notInStore entries
      canRollbackTo
    rwa [heq] at hun

theorem ownedBy_mergeObjects {split : List (Soid × List LogEntry)}
    (hprior : ∀ q ∈ split, ∀ entries first,
      keepEntries q.1 true false .zero q.2 = some entries → entries.head? = some first →
        ¬ first.Creates → owner first.priorVersion.version = q.1)
    (hmerge : mergeObjects log lastBackfill canRollbackTo split m = some (m', calls)) :
    m'.OwnedBy owner := by
  induction split generalizing m calls with
  | nil =>
    cases hmerge
    exact h
  | cons q split ih =>
    obtain ⟨hoid, entries⟩ := q
    rw [mergeObjects, Option.bind_eq_some_iff] at hmerge
    obtain ⟨⟨m₁, calls₁⟩, hone, hrest⟩ := hmerge
    obtain ⟨⟨m₂, calls₂⟩, hloop, heq⟩ := Option.map_eq_some_iff.mp hrest
    obtain rfl : m₂ = m' := (Prod.mk.inj heq).1
    exact ih (ownedBy_mergeObject h (hprior (hoid, entries) (by simp)) hone)
      (fun q hq => hprior q (by simp [hq])) hloop

/-- **Merging divergent entries keeps the reverse index.** -/
theorem ownedBy_mergeDivergentEntries {divergent : List LogEntry}
    (hpos : ∀ e ∈ divergent, .zero < e.version)
    (hsorted : divergent.Pairwise (fun a b => a.version < b.version))
    (hlinked : ∀ o, Linked (objEntries divergent o))
    (hprior : ∀ o, ∀ first ∈ (objEntries divergent o).head?, ¬ first.Creates →
      owner first.priorVersion.version = o)
    (hmerge : mergeDivergentEntries log divergent lastBackfill canRollbackTo m =
      some (m', calls)) : m'.OwnedBy owner := by
  refine ownedBy_mergeObjects h ?_ hmerge
  rintro ⟨hoid, entries⟩ hq kept first hkeep hfirst hcreate
  obtain ⟨rfl, -⟩ := mem_splitByObject hq
  rw [keepEntries_entriesOf hoid (fun e he => hpos e (mem_filter.mp he).1) hsorted
    (hlinked hoid)] at hkeep
  rw [← Option.some.inj hkeep] at hfirst
  exact hprior hoid first hfirst hcreate

end Merging

/-! ## The newest common version -/

/-- The newest version that entries of both logs have, or the larger tail if there is none. -/
def newestCommon (log olog : PgLog) : Eversion :=
  ((olog.log.filter (fun e => log.log.any (fun d => d.version = e.version))).getLast?.map
    (·.version)).getD (max log.tail olog.tail)

section Common

variable {log olog : PgLog} {shared : Eversion}

theorem SharedHistory.filter_common (h : SharedHistory log olog shared) :
    olog.log.filter (fun e => log.log.any (fun d => d.version = e.version)) =
      (olog.upTo shared).filter (fun e => max log.tail olog.tail < e.version) := by
  rw [PgLog.upTo, filter_filter]
  refine filter_congr fun e he => ?_
  rw [Bool.eq_iff_iff, any_eq_true, Bool.and_eq_true, decide_eq_true_eq, decide_eq_true_eq]
  constructor
  · rintro ⟨d, hd, heq⟩
    rw [decide_eq_true_eq] at heq
    refine ⟨max_lt ?_ (h.olog_ordered.above e he).lt, ?_⟩
    · rw [← heq]
      exact (h.ordered.above d hd).lt
    · by_contra hlt
      have hnew := (h.newer e (mem_after.mpr ⟨he, not_le.mp hlt⟩)).2
      rw [← heq] at hnew
      exact absurd (h.ordered.below d hd).le (not_le.mpr hnew)
  · rintro ⟨hlimit, hle⟩
    have hmem : e ∈ (olog.upTo shared).filter (fun e => max log.tail olog.tail < e.version) :=
      mem_filter.mpr ⟨mem_upTo.mpr ⟨he, hle⟩, decide_eq_true hlimit⟩
    rw [← h.agree] at hmem
    exact ⟨e, (mem_upTo.mp (mem_filter.mp hmem).1).1, decide_eq_true rfl⟩

/-- **The cut point is the newest common version.** -/
theorem SharedHistory.cutPoint_eq_newestCommon (h : SharedHistory log olog shared) :
    cutPoint log.head olog log.tail = newestCommon log olog := by
  unfold cutPoint newestCommon
  rw [h.olog_ordered.rdropWhile_eq, h.upTo_head_eq, h.filter_common, max_comm olog.tail]
  cases hlast : (olog.upTo shared).getLast? with
  | none =>
    rw [getLast?_eq_none_iff.mp hlast]
    rfl
  | some c =>
    dsimp only
    by_cases hc : max log.tail olog.tail < c.version
    · obtain ⟨init, heq⟩ := getLast?_eq_some_iff.mp hlast
      rw [max_eq_right hc.le, heq, filter_append, filter_cons_of_pos (by simpa using hc),
        filter_nil, getLast?_concat]
      rfl
    · have hnil : (olog.upTo shared).filter (fun e => max log.tail olog.tail < e.version) = [] := by
        rw [filter_eq_nil_iff]
        intro e he
        have hle := h.olog_ordered.le_of_getLast? he hlast
        rw [decide_eq_true_eq]
        exact not_lt.mpr (hle.trans (not_lt.mp hc))
      rw [hnil, max_eq_left (not_lt.mp hc)]
      rfl

/-- The last version shared, as `proc_replica_log` finds it, is the cut point of `merge_log`. -/
theorem lastShared_eq_cutPoint (log olog : PgLog) :
    lastShared olog log = cutPoint log.head olog log.tail := by
  unfold lastShared cutPoint
  cases (olog.log.rdropWhile (fun e => decide (log.head < e.version))).getLast? with
  | none => exact max_comm _ _
  | some e =>
    dsimp only
    rw [max_comm log.tail]
    split_ifs with hlt
    · exact (max_eq_left hlt.le).symm
    · exact (max_eq_right (not_lt.mp hlt)).symm

/-- After the newest common version the authoritative log has only newer entries. -/
theorem SharedHistory.after_cutPoint (h : SharedHistory log olog shared) :
    olog.after (cutPoint log.head olog log.tail) = olog.after shared := by
  have hcut := cutsAt_cutPoint h
  refine filter_congr fun e he => ?_
  rw [decide_eq_decide]
  refine ⟨fun hlt => ?_, fun hlt => hcut.le_shared.trans_lt hlt⟩
  by_contra hle
  have hmem := mem_upTo.mpr ⟨he, not_lt.mp hle⟩
  refine absurd hlt (not_lt.mpr ?_)
  unfold cutPoint
  rw [h.olog_ordered.rdropWhile_eq, h.upTo_head_eq]
  obtain ⟨c, hc⟩ : ∃ c, (olog.upTo shared).getLast? = some c :=
    Option.ne_none_iff_exists'.mp (by
      rw [ne_eq, getLast?_eq_none_iff]
      exact ne_nil_of_mem hmem)
  rw [hc]
  exact (h.olog_ordered.le_of_getLast? hmem hc).trans (le_max_right _ _)

/-! ## What the primary computes -/

/-- **The primary takes the divergent entries off.** -/
theorem procReplicaLog_spec (h : SharedHistory log olog shared) {oinfo : PgInfo}
    {m : MissingSet} {owner : UInt64 → Soid} (hupdate : oinfo.lastUpdate = log.head)
    (hlinked : ∀ o, Linked (objEntries (log.after shared) o)) (howned : m.OwnedBy owner)
    (hprior : ∀ o, ∀ first ∈ (objEntries (log.after shared) o).head?, ¬ first.Creates →
      owner first.priorVersion.version = o) :
    ∃ oinfo' m', procReplicaLog olog oinfo log m = some (oinfo', m') ∧
      oinfo'.lastUpdate =
        (if log.head = olog.head then log.head else newestCommon log olog) ∧
      olog.after oinfo'.lastUpdate = olog.after shared ∧
      m'.mayIncludeDeletes = m.mayIncludeDeletes ∧
      (∀ o ≤ oinfo.lastBackfill, m'.get o = (mergeResult log.canRollbackTo o false
        (objEntries (log.after shared) o) (m.get o)).1) ∧
      ∀ o, oinfo.lastBackfill < o → m'.get o = m.get o := by
  have hoverlap : ¬ log.head < olog.tail := not_lt.mpr (h.olog_tail_le.trans h.le_head)
  unfold procReplicaLog
  rw [if_neg hoverlap]
  by_cases heq : log.head = olog.head
  · -- the same head: nothing is looked at
    have hshared := h.ends heq.ge
    have hnil : log.after shared = [] := by
      rw [hshared, ← heq, PgLog.after, filter_eq_nil_iff]
      intro e he
      simpa using (h.ordered.below e he).le
    refine ⟨oinfo, m, if_pos heq, ?_, ?_, rfl, fun o _ => ?_, fun o _ => rfl⟩
    · rw [if_pos heq, hupdate]
    · rw [hupdate, heq, ← hshared]
    · rw [hnil]
      rfl
  · rw [if_neg heq, lastShared_eq_cutPoint]
    have hcut := cutsAt_cutPoint h
    have hofPgLog : (IndexedLog.ofPgLog log).log = [] ++ log.log := rfl
    obtain ⟨l', hrewind, hlog', -, -, hindexed⟩ :=
      h.rewindFromHead_spec hcut ⟨by simp, h.ordered, hofPgLog, rfl, le_rfl⟩
    have hold : ∀ e ∈ l'.log, e.version ≤ shared := by
      rw [hlog', nil_append]
      exact fun e he => (mem_upTo.mp he).2
    obtain ⟨m', calls, hmerge, htracked, hwithin, hbeyond⟩ := mergeDivergentEntries_result l'
      oinfo.lastBackfill log.canRollbackTo m (fun _ => false) h.divergent_pos
      h.divergent_sorted hlinked (fun o _ _ => by
        rw [hindexed.2]
        exact indexAgrees_of_le hold fun e he => (mem_after.mp he).2)
    obtain ⟨v, holdest⟩ := (ownedBy_mergeDivergentEntries howned h.divergent_pos
      h.divergent_sorted hlinked hprior hmerge).getOldestNeed
    have hlu : (if cutPoint log.head olog log.tail < oinfo.lastUpdate then
        cutPoint log.head olog log.tail else oinfo.lastUpdate) = newestCommon log olog := by
      rw [← h.cutPoint_eq_newestCommon]
      split_ifs with hlt
      · rfl
      · rw [hupdate] at hlt ⊢
        exact le_antisymm (not_lt.mp hlt) (hcut.le_shared.trans h.le_head)
    have hafter : olog.after (newestCommon log olog) = olog.after shared := by
      rw [← h.cutPoint_eq_newestCommon]
      exact h.after_cutPoint
    simp only [hrewind, hmerge, Option.bind_eq_bind, Option.bind_some, holdest, Option.pure_def,
      hlu, if_neg heq]
    split_ifs with hempty
    · exact ⟨_, m', rfl, rfl, hafter, htracked.mayIncludeDeletes_eq,
        fun o hb => (hwithin o hb).1, hbeyond⟩
    · exact ⟨_, m', rfl, rfl, hafter, htracked.mayIncludeDeletes_eq,
        fun o hb => (hwithin o hb).1, hbeyond⟩

end Common

/-- One round of the loop of `PG::activate` over the entries it sends to a replica. Deletes are
performed during peering if missing sets do not include them. -/
def windForwardOne (lastBackfill : Soid) (m : MissingSet) (e : LogEntry) : MissingSet :=
  if e.soid ≤ lastBackfill ∧ e.isError = false then
    if !m.mayIncludeDeletes && e.isDelete then m.rm e.soid e.version else m.addNextEvent e
  else m

/-- The missing set of a replica after `PG::activate` has sent it the entries. -/
def windForward (lastBackfill : Soid) (entries : List LogEntry) (m : MissingSet) : MissingSet :=
  entries.foldl (windForwardOne lastBackfill) m

/-- The primary does to its copy what the replica does when it appends the entry. -/
theorem windForwardOne_eq (lastBackfill : Soid) (m : MissingSet) (e : LogEntry) :
    windForwardOne lastBackfill m e = (appendToMissing lastBackfill false m e).1 := by
  unfold windForwardOne appendToMissing
  cases m.mayIncludeDeletes <;> cases e.isDelete <;> split_ifs <;> simp_all

theorem get_windForward (lastBackfill : Soid) (entries : List LogEntry) (m : MissingSet)
    (o : Soid) :
    (windForward lastBackfill entries m).get o = if o ≤ lastBackfill then
      (objEntries entries o).foldl (appendItem m.mayIncludeDeletes) (m.get o) else m.get o := by
  induction entries generalizing m with
  | nil => simp [windForward, objEntries]
  | cons e entries ih =>
    have htracked := tracked_appendToMissing lastBackfill false m e
    show (windForward lastBackfill entries (windForwardOne lastBackfill m e)).get o = _
    rw [ih, windForwardOne_eq, get_appendToMissing, htracked.mayIncludeDeletes_eq,
      foldl_objEntries_cons]

/-! ## Where the two views differ -/

/-- The item denies that a version is stored: it has none, or there is no item and the object
does not exist. -/
def Denies (ev : Option LastEvent) : Option MissingItem → Prop
  | none => versionAfter ev = none
  | some it => it.have_ = .zero

/-- **An entry that creates the object resets what the item has**, and later entries leave that
as it is. -/
theorem denies_appendItem (mayIncludeDeletes : Bool) {ev : Option LastEvent}
    {item : Option MissingItem} {e : LogEntry} (h : Denies ev item ∨ e.Creates)
    (hprior : e.before = versionAfter ev) (hneed : ∀ it ∈ item, it.need < e.version) :
    Denies (some e.event) (appendItem mayIncludeDeletes item e) := by
  unfold appendItem
  by_cases hdel : mayIncludeDeletes = false ∧ e.isDelete = true
  · have hnone : item.filter (fun it => !decide (it.need ≤ e.version)) = none := by
      rw [Option.filter_eq_none_iff]
      intro it hit
      simpa using (hneed it hit).le
    rw [if_pos hdel, hnone]
    show versionAfter (some ⟨e.version, e.isDelete⟩) = none
    rw [hdel.2]
    rfl
  · rw [if_neg hdel]
    show (MissingSet.nextItem item e).have_ = .zero
    unfold MissingSet.nextItem
    by_cases hcreate : e.Creates
    · rw [if_pos hcreate]
    · rw [if_neg hcreate]
      have hdenies := h.resolve_right hcreate
      cases item with
      | some it => exact hdenies
      | none => exact absurd ((before_eq_none_iff e).mp (hprior.trans hdenies)) hcreate

theorem denies_foldl_appendItem (mayIncludeDeletes : Bool) {entries : List LogEntry}
    {ev : Option LastEvent} {item : Option MissingItem}
    (h : Denies ev item ∨ ∃ e ∈ entries, e.Creates) (hchain : Chained ev entries)
    (hsorted : entries.Pairwise (fun a b => a.version < b.version))
    (hneed : ∀ it ∈ item, ∀ e ∈ entries, it.need < e.version) :
    Denies (lastEvent ev entries) (entries.foldl (appendItem mayIncludeDeletes) item) := by
  induction entries generalizing ev item with
  | nil => exact h.resolve_right (by simp)
  | cons e entries ih =>
    obtain ⟨hfirst, hrest⟩ := pairwise_cons.mp hsorted
    have hlast : lastEvent ev (e :: entries) = lastEvent (some e.event) entries :=
      lastEvent_cons ev e entries
    rw [hlast]
    refine ih ?_ hchain.2 hrest ?_
    · by_cases hlater : ∃ e' ∈ entries, e'.Creates
      · exact .inr hlater
      · refine .inl (denies_appendItem mayIncludeDeletes ?_ hchain.1
          fun it hit => hneed it hit e (by simp))
        rcases h with h | ⟨e', he', hcreate⟩
        · exact .inl h
        · rcases mem_cons.mp he' with rfl | he'
          · exact .inr hcreate
          · exact absurd ⟨e', he', hcreate⟩ hlater
    · intro it hit e' he'
      rcases need_appendItem hit with hold | heq
      · exact hneed it hold e' (by simp [he'])
      · rw [heq]
        exact hfirst e' he'

/-- Entries that do not create the object keep what the item has; a new item has the prior
version of the first. -/
theorem have_foldl_appendItem (mayIncludeDeletes : Bool) {e : LogEntry}
    {entries : List LogEntry} {ev : Option LastEvent} {item : Option MissingItem}
    (hchain : Chained ev (e :: entries)) (hcreate : ∀ e' ∈ e :: entries, ¬ e'.Creates)
    (hlast : ∀ n ∈ (e :: entries).getLast?, ¬ (mayIncludeDeletes = false ∧ n.isDelete = true)) :
    ∃ it, (e :: entries).foldl (appendItem mayIncludeDeletes) item = some it ∧
      it.have_ = (item.map (·.have_)).getD e.priorVersion := by
  induction entries generalizing e ev item with
  | nil =>
    refine ⟨MissingSet.nextItem item e, ?_, ?_⟩
    · rw [foldl_cons, foldl_nil, appendItem, if_neg (hlast e rfl)]
    · unfold MissingSet.nextItem
      rw [if_neg (hcreate e (by simp))]
      cases item <;> rfl
  | cons e' entries ih =>
    -- the next entry is about a version, so this one does not delete the object
    have hdel : e.isDelete = false := by
      have hbefore : e'.before = versionAfter (some e.event) := hchain.2.1
      have hsome : e'.before = some e'.priorVersion :=
        if_neg (hcreate e' (by simp))
      rw [hsome] at hbefore
      by_contra hyes
      have hyes' : e.isDelete = true := by simpa using hyes
      simp [versionAfter, LogEntry.event, hyes'] at hbefore
    have hstep : appendItem mayIncludeDeletes item e = some (MissingSet.nextItem item e) := by
      rw [appendItem, if_neg (by simp [hdel])]
    obtain ⟨it, hfold, hhave⟩ := @ih e' _ (some (MissingSet.nextItem item e))
      hchain.2 (fun x hx => hcreate x (mem_cons_of_mem _ hx))
      (fun n hn => hlast n (by rwa [getLast?_cons_cons]))
    refine ⟨it, ?_, ?_⟩
    · rw [foldl_cons, hstep]
      exact hfold
    · rw [hhave]
      show (MissingSet.nextItem item e).have_ = _
      unfold MissingSet.nextItem
      rw [if_neg (hcreate e (by simp))]
      cases item <;> rfl

/-- What two missing sets are compared by. -/
def itemVersions (item : Option MissingItem) : Option (Eversion × Eversion) :=
  item.map (fun it => (it.need, it.have_))

/-- The divergent entries can all be rolled back. -/
def rollsBack (canRollbackTo : Eversion) (divergent : List LogEntry) : Bool :=
  divergent.all (fun e => e.canRollback && decide (canRollbackTo < e.version))

/-- Without its divergent entries the replica is left with no version of the object: it had
none, or it had the divergent one and cannot roll back. -/
def KeepsNothing (canRollbackTo : Eversion) (divergent : List LogEntry) :
    Option MissingItem → Prop
  | some it => it.have_ = .zero
  | none => rollsBack canRollbackTo divergent = false

/-- **Where primary and replica agree about an object**: there are entries on one side only, or
a newer entry creates the object, or the last one deletes it for good; else, the replica had no
version of it, or cannot roll its divergent entries back. -/
def ViewsAgree (mayIncludeDeletes : Bool) (canRollbackTo : Eversion)
    (divergent newer : List LogEntry) (item : Option MissingItem) : Prop :=
  divergent = [] ∨ newer = [] ∨ (∃ e ∈ newer, e.Creates) ∨
    (mayIncludeDeletes = false ∧ ∃ e ∈ newer.getLast?, e.isDelete = true) ∨
    KeepsNothing canRollbackTo divergent item

section Views

variable {mayIncludeDeletes : Bool} {canRollbackTo : Eversion} {o : Soid}
variable {base : Option LastEvent} {first : LogEntry} {divergent newer : List LogEntry}
variable {item : Option MissingItem}

/-- What the primary keeps of an item: one that was there has what it had, and needs the prior
version; a new one has nothing. -/
theorem mergeResult_eq : (mergeResult canRollbackTo o false (first :: divergent) item).1 =
    if first.Creates then none else
      match item with
      | some it => if it.have_ = first.priorVersion then none
          else some ⟨first.priorVersion, it.have_, false⟩
      | none => if rollsBack canRollbackTo (first :: divergent) then none
          else some ⟨first.priorVersion, .zero, false⟩ := by
  obtain ⟨last, hlast⟩ : ∃ last, (first :: divergent).getLast? = some last :=
    ⟨_, getLast?_cons⟩
  unfold mergeResult
  rw [head?_cons, hlast]
  dsimp only
  rw [if_neg (by simp), unsupersededItem.eq_def]
  by_cases hcreate : first.Creates
  · rw [if_pos hcreate, if_pos hcreate]
  · rw [if_neg hcreate, if_neg hcreate]
    cases item with
    | some it => rfl
    | none => exact apply_ite Prod.fst _ _ _

theorem need_mergeResult (hprior : first.before = versionAfter base) {it : MissingItem}
    (h : (mergeResult canRollbackTo o false (first :: divergent) item).1 = some it) :
    ∃ x, base = some x ∧ it.need = x.version := by
  rw [mergeResult_eq, Option.ite_none_left_eq_some] at h
  obtain ⟨hcreate, h⟩ := h
  refine ⟨_, base_eq_of_not_creates hcreate hprior, ?_⟩
  cases item with
  | some it₀ =>
    dsimp only at h
    split_ifs at h
    cases h
    rfl
  | none =>
    split_ifs at h
    cases h
    rfl

/-- **What the primary believes the replica has**: nothing, exactly if a newer entry creates the
object, or the replica had nothing or could not roll back. -/
theorem primary_have_eq_zero_iff {e : LogEntry} {it : MissingItem}
    (hprior : first.before = versionAfter base) (hchain : Chained base (e :: newer))
    (hsorted : (e :: newer).Pairwise (fun a b => a.version < b.version))
    (hbase : ∀ x ∈ base, ∀ e' ∈ e :: newer, x.version < e'.version)
    (hlast : ∀ n ∈ (e :: newer).getLast?, ¬ (mayIncludeDeletes = false ∧ n.isDelete = true))
    (hit : (e :: newer).foldl (appendItem mayIncludeDeletes)
      (mergeResult canRollbackTo o false (first :: divergent) item).1 = some it) :
    it.have_ = .zero ↔
      (∃ e' ∈ e :: newer, e'.Creates) ∨ KeepsNothing canRollbackTo (first :: divergent) item := by
  by_cases hnew : ∃ e' ∈ e :: newer, e'.Creates
  · have hneed : ∀ it' ∈ (mergeResult canRollbackTo o false (first :: divergent) item).1,
        ∀ e' ∈ e :: newer, it'.need < e'.version := by
      intro it' hit' e' he'
      obtain ⟨x, hx, hneed⟩ := need_mergeResult hprior hit'
      rw [hneed]
      exact hbase x hx e' he'
    have hdenies := denies_foldl_appendItem mayIncludeDeletes (.inr hnew) hchain hsorted hneed
    rw [hit] at hdenies
    exact iff_of_true hdenies (.inl hnew)
  · -- nothing is created: the item keeps what it has, or begins with the prior version
    have hall : ∀ e' ∈ e :: newer, ¬ e'.Creates := fun e' he' hc => hnew ⟨e', he', hc⟩
    have hbase' := base_eq_of_not_creates (hall e (by simp)) hchain.1
    have hcreate : ¬ first.Creates := by
      rw [← before_eq_none_iff, hprior, hbase']
      simp [versionAfter]
    have hsame : first.priorVersion = e.priorVersion := by
      have hboth := (base_eq_of_not_creates hcreate hprior).symm.trans hbase'
      exact congrArg LastEvent.version (Option.some.inj hboth)
    have hne : e.priorVersion ≠ .zero := fun hzero => hall e (by simp) (.inl hzero)
    have hhave : it.have_ = ((mergeResult canRollbackTo o false (first :: divergent) item).1.map
        (·.have_)).getD e.priorVersion := by
      obtain ⟨it', hfold, hhave⟩ := have_foldl_appendItem mayIncludeDeletes hchain hall hlast
      rw [hit] at hfold
      rw [Option.some.inj hfold, hhave]
    rw [hhave, mergeResult_eq, if_neg hcreate, hsame, or_iff_right hnew]
    cases item with
    | some it₀ =>
      dsimp only [KeepsNothing]
      split_ifs with heq
      · exact iff_of_false hne (heq ▸ hne)
      · rfl
    | none =>
      dsimp only [KeepsNothing]
      cases rollsBack canRollbackTo (first :: divergent) with
      | true => exact iff_of_false hne (by simp)
      | false => exact iff_of_true rfl rfl

/-- What the replica keeps of an item with entries on both sides has nothing. -/
theorem mergedItem_superseded (hdivergent : divergent ≠ []) (hnewer : newer ≠ []) :
    mergedItem mayIncludeDeletes canRollbackTo o divergent newer item =
      (newer.foldl (appendItem mayIncludeDeletes) item).map
        (fun it => { it with have_ := .zero }) := by
  cases divergent with
  | nil => exact absurd rfl hdivergent
  | cons first divergent =>
    unfold mergedItem mergeResult
    rw [head?_cons, getLast?_cons, decide_eq_true hnewer]
    rfl

/-- **Primary and replica, one object.** -/
theorem itemVersions_eq_iff {head : Eversion} (hchain : Chained base divergent)
    (hchain' : Chained base newer) (hsorted : newer.Pairwise (fun a b => a.version < b.version))
    (herror : ∀ e ∈ newer, e.isError = false) (hnewer : ∀ e ∈ newer, head < e.version)
    (hbase : ∀ x ∈ base, x.version ≤ head) (hneed : ∀ it ∈ item, it.need ≤ head) :
    itemVersions (newer.foldl (appendItem mayIncludeDeletes)
        (mergeResult canRollbackTo o false divergent item).1) =
      itemVersions (mergedItem mayIncludeDeletes canRollbackTo o divergent newer item) ↔
    ViewsAgree mayIncludeDeletes canRollbackTo divergent newer item := by
  cases divergent with
  | nil => exact iff_of_true rfl (.inl rfl)
  | cons first divergent =>
    cases newer with
    | nil => exact iff_of_true rfl (.inr (.inl rfl))
    | cons e newer =>
      obtain ⟨n, hn⟩ : ∃ n, (e :: newer).getLast? = some n := ⟨_, getLast?_cons⟩
      have hnerror := herror n (mem_of_getLast? hn)
      have hneed' : ∀ it, (mergeResult canRollbackTo o false (first :: divergent) item).1 =
          some it → it.need ≤ head := by
        intro it hit
        obtain ⟨x, hx, heq⟩ := need_mergeResult hchain.1 hit
        rw [heq]
        exact hbase x hx
      -- both have appended the newest entry
      have hprimary := updatedTo_foldl_appendItem mayIncludeDeletes hneed' hnewer hsorted
        herror hn
      have hreplica := updatedTo_foldl_appendItem mayIncludeDeletes hneed hnewer hsorted
        herror hn
      rw [updatedTo_iff_of_not_error hnerror] at hprimary hreplica
      rw [mergedItem_superseded (by simp) (by simp)]
      split_ifs at hprimary hreplica with hdel
      · rw [hprimary, hreplica]
        exact iff_of_true rfl (.inr (.inr (.inr (.inl ⟨hdel.1, n, hn, hdel.2⟩))))
      · obtain ⟨it, hit, hitneed⟩ := hprimary
        obtain ⟨it', hit', hitneed'⟩ := hreplica
        have hhave := primary_have_eq_zero_iff hchain.1 hchain' hsorted
          (fun x hx e' he' => (hbase x hx).trans_lt (hnewer e' he'))
          (fun n' hn' => by rw [Option.mem_def, hn] at hn'; rwa [← Option.some.inj hn']) hit
        have hgood : ¬ (mayIncludeDeletes = false ∧
            ∃ n' ∈ (e :: newer).getLast?, n'.isDelete = true) := by
          rintro ⟨hmid, n', hn', hd⟩
          rw [Option.mem_def, hn] at hn'
          exact hdel ⟨hmid, Option.some.inj hn' ▸ hd⟩
        rw [hit, hit']
        simp only [itemVersions, Option.map_some, Option.some.injEq, Prod.mk.injEq, hitneed,
          hitneed', true_and, hhave, ViewsAgree, reduceCtorEq, false_or, hgood]

end Views

/-- A missing set that follows its log: every item needs the last event of its object, and the
reverse index finds it. -/
structure FollowsLog (lastBackfill : Soid) (base : Soid → Option LastEvent)
    (owner : UInt64 → Soid) (log : PgLog) (m : MissingSet) : Prop where
  need : ∀ o ≤ lastBackfill, ∀ it ∈ m.get o,
    ∃ x, lastEvent (base o) (objEntries log.log o) = some x ∧ it.need = x.version
  ownedBy : m.OwnedBy owner
  base_owned : ∀ o, ∀ x ∈ base o, owner x.version.version = o

/-- **When the primary and the replica agree.** For every authoritative log and every replica log
that share their history, and every missing set that follows the replica's log: both
computations run through, the primary ends with the newest common version, and the missing sets
name the same objects with the same versions exactly if they agree about each object within
the backfill range. -/
theorem primary_agrees_iff (p : PGLog) (auth : PgLog) (oinfo info : PgInfo) (shared : Eversion)
    {base : Soid → Option LastEvent} {owner : UInt64 → Soid}
    (h : SharedHistory p.log.toPgLog auth shared)
    (hist : ∀ o, ObjectHistory p.log.toPgLog auth shared o (base o))
    (hupdate : info.lastUpdate = p.log.head)
    (hfollows : FollowsLog info.lastBackfill base owner p.log.toPgLog p.missing) :
    ∃ p' info' calls oinfo' m', mergeLog p oinfo auth info = some (p', info', calls) ∧
      procReplicaLog auth info p.log.toPgLog p.missing = some (oinfo', m') ∧
      oinfo'.lastUpdate =
        (if p.log.head = auth.head then p.log.head else newestCommon p.log.toPgLog auth) ∧
      ((∀ o, itemVersions ((windForward info.lastBackfill (auth.after oinfo'.lastUpdate) m').get o) =
          itemVersions (p'.missing.get o)) ↔
        ∀ o ≤ info.lastBackfill, ViewsAgree p.missing.mayIncludeDeletes p.log.canRollbackTo
          (objEntries (p.log.after shared) o) (objEntries (auth.after shared) o)
          (p.missing.get o)) := by
  have hneed : ∀ o ≤ info.lastBackfill, ∀ it, p.missing.get o = some it →
      it.need ≤ p.log.head := by
    intro o hb it hit
    obtain ⟨x, hx, heq⟩ := hfollows.need o hb it hit
    rw [heq]
    exact (hist o).lastEvent_le_head h hx
  have hprior : ∀ o, ∀ first ∈ (objEntries (p.log.after shared) o).head?, ¬ first.Creates →
      owner first.priorVersion.version = o := by
    intro o first hfirst hcreate
    have hbefore : first.before = versionAfter (base o) := by
      have hchain := (hist o).chained
      cases hlist : objEntries (p.log.after shared) o with
      | nil => simp [hlist] at hfirst
      | cons e entries =>
        rw [hlist] at hfirst hchain
        rw [← Option.some.inj hfirst]
        exact hchain.1
    exact hfollows.base_owned o _ (base_eq_of_not_creates hcreate hbefore)
  obtain ⟨p', info', calls, hmerge, -, -, -, houtcome⟩ :=
    mergeLog_spec h oinfo (fun o => (hist o).linked) hneed
  obtain ⟨oinfo', m', hproc, hlu, hafter, hmid, hwithin, hbeyond⟩ :=
    procReplicaLog_spec h hupdate (fun o => (hist o).linked) hfollows.ownedBy hprior
  refine ⟨p', info', calls, oinfo', m', hmerge, hproc, hlu, ?_⟩
  -- objects beyond the backfill range are left alone by both
  have hobject : ∀ o, itemVersions ((windForward info.lastBackfill
      (auth.after oinfo'.lastUpdate) m').get o) = itemVersions (p'.missing.get o) ↔
      (o ≤ info.lastBackfill → ViewsAgree p.missing.mayIncludeDeletes p.log.canRollbackTo
        (objEntries (p.log.after shared) o) (objEntries (auth.after shared) o)
        (p.missing.get o)) := by
    intro o
    rw [get_windForward, hafter, hmid]
    split_ifs with hb
    · rw [hwithin o hb, houtcome.item o hb, imp_iff_right hb]
      exact itemVersions_eq_iff (hist o).chained (hist o).olog_chained
        (((h.olog_ordered.sorted.filter _).filter _).imp fun hab => hab.lt)
        (fun e he => (mem_objEntries.mp he).2.2)
        (fun e he => (h.newer e (mem_objEntries.mp he).1).2)
        (fun x hx => ((hist o).base_le x hx).trans h.le_head) (fun it hit => hneed o hb it hit)
    · rw [hbeyond o (not_le.mp hb), houtcome.beyond o (not_le.mp hb)]
      exact iff_of_true rfl fun hle => absurd hle hb
  exact forall_congr' hobject

/-! ## Examples -/

theorem followsLog_empty (lastBackfill : Soid) (x : LastEvent) (c : UInt8) (log : PgLog)
    (mayIncludeDeletes : Bool) :
    FollowsLog lastBackfill (onlyOf c x) (fun _ => letterObject c) log
      (.empty mayIncludeDeletes) := by
  have hget : ∀ o, (MissingSet.empty mayIncludeDeletes).get o = none := fun o => rfl
  refine ⟨fun o _ it hit => ?_, ⟨fun o it hit => ?_, fun n o => ?_⟩, fun o x' hx => ?_⟩
  · rw [hget] at hit
    exact absurd hit (by simp)
  · rw [hget] at hit
    exact absurd hit (by simp)
  · rw [hget]
    exact ⟨fun hbad => absurd hbad (by simp [MissingSet.empty]), fun ⟨it, hit, _⟩ => by simp at hit⟩
  · by_contra ho
    rw [onlyOf_ne (Ne.symm ho)] at hx
    exact absurd hx (by simp)

/-- A replica that cannot roll its change of object `a` back has nothing left of it, and the
primary knows. -/
theorem primary_agrees_iff_divergent :
    ∃ p' info' calls oinfo' m', mergeLog (cleanPGLog divergentLog (.empty false))
        (completeInfo ⟨2, 2⟩) authLog (completeInfo ⟨1, 2⟩) = some (p', info', calls) ∧
      procReplicaLog authLog (completeInfo ⟨1, 2⟩) divergentLog (.empty false) =
        some (oinfo', m') ∧
      oinfo'.lastUpdate = ⟨1, 1⟩ ∧
      ∀ o, itemVersions ((windForward ⟨.getMax, by decide⟩ (authLog.after oinfo'.lastUpdate)
        m').get o) = itemVersions (p'.missing.get o) := by
  have hsoid : ∀ e ∈ divergentLog.log ++ authLog.log, e.soid = letterObject 0x61 := by decide
  obtain ⟨p', info', calls, oinfo', m', hmerge, hproc, hlu, hiff⟩ :=
    primary_agrees_iff (cleanPGLog divergentLog (.empty false)) authLog (completeInfo ⟨2, 2⟩)
      (completeInfo ⟨1, 2⟩) ⟨1, 1⟩ ⟨by constructor <;> decide, by decide, by decide⟩
      (objectHistory_onlyOf hsoid (by decide)) rfl
      (followsLog_empty _ ⟨⟨1, 1⟩, false⟩ 0x61 _ false)
  refine ⟨p', info', calls, oinfo', m', hmerge, hproc, hlu.trans (by decide), hiff.mpr ?_⟩
  intro o _
  by_cases ho : o = letterObject 0x61
  · subst ho
    have hroll : rollsBack .zero (objEntries (divergentLog.after ⟨1, 1⟩) (letterObject 0x61)) =
        false := by decide
    exact .inr (.inr (.inr (.inr hroll)))
  · refine .inl (objEntries_eq_nil fun e he => ?_)
    exact hsoid e (mem_append_left _ (mem_after.mp he).1) ▸ Ne.symm ho

/-- The replica's change of object `a` can be rolled back. -/
def rollbackLog : PgLog := letterLog .zero ⟨1, 2⟩
  [letterEntry .modify 0x61 ⟨1, 1⟩ .zero false, letterEntry .modify 0x61 ⟨1, 2⟩ ⟨1, 1⟩ true]

/-- **Where they disagree.** The replica appends `2'2` first, finds its own `1'2` superseded and
removes the object, so it has nothing. The primary rolls `1'2` back first and believes that the
replica still has `1'1`. -/
theorem primary_disagrees :
    SharedHistory rollbackLog authLog ⟨1, 1⟩ ∧
    (∀ o, ObjectHistory rollbackLog authLog ⟨1, 1⟩ o (onlyOf 0x61 ⟨⟨1, 1⟩, false⟩ o)) ∧
    FollowsLog ⟨.getMax, by decide⟩ (onlyOf 0x61 ⟨⟨1, 1⟩, false⟩) (fun _ => letterObject 0x61)
      rollbackLog (.empty false) ∧
    (mergeLog (cleanPGLog rollbackLog (.empty false)) (completeInfo ⟨2, 2⟩) authLog
        (completeInfo ⟨1, 2⟩)).map (fun r => r.1.missing.get (letterObject 0x61)) =
      some (some ⟨⟨2, 2⟩, .zero, false⟩) ∧
    (procReplicaLog authLog (completeInfo ⟨1, 2⟩) rollbackLog (.empty false)).map
        (fun r => (windForward ⟨.getMax, by decide⟩ (authLog.after r.1.lastUpdate) r.2).get
          (letterObject 0x61)) =
      some (some ⟨⟨2, 2⟩, ⟨1, 1⟩, false⟩) := by
  have hsoid : ∀ e ∈ rollbackLog.log ++ authLog.log, e.soid = letterObject 0x61 := by decide
  refine ⟨⟨by constructor <;> decide, by decide, by decide⟩,
    objectHistory_onlyOf hsoid (by decide), followsLog_empty _ _ _ _ _, by decide, by decide⟩

end Ceph.Osd
