import Ceph.Osd.PGLog.SharedHistory

set_option autoImplicit false

/-! # Merging logs keeps the missing set truthful

A missing set is truthful (`Truthful`) if every object it does not name is stored at the version
the log gives it, and every object it names needs that version; the version it has, if it has
one, is the stored one. The store is followed through the callbacks of the merge
(`storedAfter`).

Per object, appending an entry that chains by its prior version keeps this
(`truthful_appendItem`), and so does each case of merging divergent entries
(`truthful_unsuperseded`, `truthful_superseded`). The merge of whole logs is then truthful for
every object within the backfill range (`merge_log_keeps_truth`).
-/

namespace Ceph.Osd

open List

/-! ## What happened to an object -/

/-- The last event of an object: its version, and whether it deleted the object. -/
structure LastEvent where
  version : Eversion
  deleted : Bool
  deriving DecidableEq, Repr

def LogEntry.event (e : LogEntry) : LastEvent := ⟨e.version, e.isDelete⟩

/-- The version an object has after its last event; none if there was no event or it was
deleted. -/
def versionAfter : Option LastEvent → Option Eversion
  | some ⟨v, false⟩ => some v
  | _ => none

/-- The last event of an object, from the event before its entries. -/
def lastEvent (base : Option LastEvent) (entries : List LogEntry) : Option LastEvent :=
  (entries.getLast?.map LogEntry.event).or base

theorem lastEvent_cons (base : Option LastEvent) (e : LogEntry) (entries : List LogEntry) :
    lastEvent base (e :: entries) = lastEvent (some e.event) entries := by
  unfold lastEvent
  cases entries using List.reverseRecOn with
  | nil => rfl
  | append_singleton init last =>
    rw [← cons_append, getLast?_concat, getLast?_concat]
    rfl

/-- **Entries of one object chain by their prior versions**: each is about the version the
object had before it. -/
def Chained : Option LastEvent → List LogEntry → Prop
  | _, [] => True
  | base, e :: entries => e.before = versionAfter base ∧ Chained (some e.event) entries

instance decidableChained : (base : Option LastEvent) → (entries : List LogEntry) →
    Decidable (Chained base entries)
  | _, [] => isTrue trivial
  | base, e :: entries =>
    have := decidableChained (some e.event) entries
    inferInstanceAs (Decidable (e.before = versionAfter base ∧ Chained (some e.event) entries))

/-- The stored version that a missing item claims; `0'0` stands for none. -/
def heldVersion (v : Eversion) : Option Eversion := if v = .zero then none else some v

/-- **The missing set tells the truth about an object.** An item may deny a stored version: the
source resets it "if an object is deleted, then created again". -/
def Truthful (ev : Option LastEvent) (item : Option MissingItem) (stored : Option Eversion) :
    Prop :=
  match item with
  | none => stored = versionAfter ev
  | some it => (∃ e, ev = some e ∧ it.need = e.version) ∧
      (it.have_ = .zero ∨ stored = heldVersion it.have_)

instance (ev : Option LastEvent) (item : Option MissingItem) (stored : Option Eversion) :
    Decidable (Truthful ev item stored) :=
  match item, ev with
  | none, _ => inferInstanceAs (Decidable (_ = _))
  | some it, none => isFalse (by simp [Truthful])
  | some it, some e => decidable_of_iff (it.need = e.version ∧
      (it.have_ = .zero ∨ stored = heldVersion it.have_)) (by simp [Truthful])

/-! ## One object -/

theorem before_eq_none_iff (e : LogEntry) : e.before = none ↔ e.Creates := by
  unfold LogEntry.before
  split_ifs with hcreate <;> simp [hcreate]

variable {divergent entries l : List LogEntry} {e first last : LogEntry} {stored : Option Eversion}
  {base ev : Option LastEvent} {item : Option MissingItem} {o : Soid}

/-- An entry that does not create the object follows the event of its prior version. -/
theorem base_eq_of_not_creates (hcreate : ¬ e.Creates) (hprior : e.before = versionAfter base) :
    base = some ⟨e.priorVersion, false⟩ := by
  have hbefore : e.before = some e.priorVersion := if_neg hcreate
  rw [hbefore] at hprior
  match base with
  | none => simp [versionAfter] at hprior
  | some ⟨v, true⟩ => simp [versionAfter] at hprior
  | some ⟨v, false⟩ => rw [Option.some.inj hprior]

theorem heldVersion_priorVersion (h : ¬ e.Creates) : heldVersion e.priorVersion = e.before := by
  rw [heldVersion, if_neg (fun hzero => h (.inl hzero)), LogEntry.before, if_neg h]

/-- **Appending an entry keeps the missing set truthful.** -/
theorem truthful_appendItem (mayIncludeDeletes : Bool) (h : Truthful ev item stored)
    (hprior : e.before = versionAfter ev) (hnewer : ∀ x, ev = some x → x.version < e.version) :
    Truthful (some e.event) (appendItem mayIncludeDeletes item e)
      (appendStored mayIncludeDeletes stored e) := by
  unfold appendItem appendStored
  by_cases hdel : mayIncludeDeletes = false ∧ e.isDelete = true
  · -- the delete is carried out, and whatever was missing is missing no more
    have hnone : item.filter (fun it => !decide (it.need ≤ e.version)) = none := by
      rw [Option.filter_eq_none_iff]
      rintro it rfl
      obtain ⟨⟨x, hx, hneed⟩, -⟩ := h
      simpa [hneed] using (hnewer x hx).le
    rw [if_pos hdel, if_pos hdel, hnone]
    show none = versionAfter (some ⟨e.version, e.isDelete⟩)
    rw [hdel.2]
    rfl
  · rw [if_neg hdel, if_neg hdel]
    refine ⟨⟨e.event, rfl, MissingSet.need_nextItem item e⟩, ?_⟩
    unfold MissingSet.nextItem
    by_cases hcreate : e.Creates
    · exact .inl (by rw [if_pos hcreate])
    · rw [if_neg hcreate]
      cases item with
      | some it => exact h.2
      | none =>
        right
        show stored = heldVersion e.priorVersion
        rw [heldVersion_priorVersion hcreate, hprior]
        exact h

/-- **Appending a chain of entries keeps the missing set truthful.** -/
theorem truthful_foldl_appendItem (mayIncludeDeletes : Bool) (h : Truthful ev item stored)
    (hchain : Chained ev entries) (hsorted : entries.Pairwise (fun a b => a.version < b.version))
    (hnewer : ∀ x, ev = some x → ∀ e ∈ entries, x.version < e.version) :
    Truthful (lastEvent ev entries) (entries.foldl (appendItem mayIncludeDeletes) item)
      (entries.foldl (appendStored mayIncludeDeletes) stored) := by
  induction entries generalizing ev item stored with
  | nil => exact h
  | cons e entries ih =>
    obtain ⟨hfirst, hrest⟩ := pairwise_cons.mp hsorted
    have hstep := truthful_appendItem mayIncludeDeletes h hchain.1
      (fun x hx => hnewer x hx e (by simp))
    have hall := ih hstep hchain.2 hrest (by
      rintro x hx e' he'
      rw [← Option.some.inj hx]
      exact hfirst e' he')
    rw [lastEvent_cons]
    exact hall

theorem storedAfter_rollback (hsoid : ∀ e ∈ entries, e.soid = o)
    (hfirst : entries.head? = some first) (v : Option Eversion) :
    storedAfter o v (entries.reverse.map .rollback) = first.before := by
  obtain ⟨rest, rfl⟩ : ∃ rest, entries = first :: rest := by
    cases entries with
    | nil => simp at hfirst
    | cons a rest => exact ⟨rest, by rw [Option.some.inj hfirst]⟩
  rw [reverse_cons, map_append, storedAfter_append]
  exact if_pos (hsoid first (by simp))

/-- **Divergent entries that nothing supersedes** (cases 2 to 5): the object is back where it
was before them. -/
theorem truthful_unsuperseded {canRollbackTo : Eversion} (hsoid : ∀ e ∈ divergent, e.soid = o)
    (hfirst : divergent.head? = some first) (hprior : first.before = versionAfter base)
    (h : Truthful (some last.event) item stored) :
    let r := unsupersededItem canRollbackTo o first (item.isNone && last.isDelete) divergent item
    Truthful base r.1 (storedAfter o stored r.2) := by
  -- an object that is not in the store need not be removed
  have hgone : (item.isNone && last.isDelete) = true → stored = none := by
    intro hboth
    cases item with
    | some it => simp at hboth
    | none =>
      have hdel : last.isDelete = true := by simpa using hboth
      have hst : stored = versionAfter (some ⟨last.version, last.isDelete⟩) := h
      rw [hst, hdel]
      rfl
  have hremoved : (if (item.isNone && last.isDelete) = true then stored else none) = none := by
    split_ifs with hboth
    · exact hgone hboth
    · rfl
  unfold unsupersededItem
  by_cases hcreate : first.Creates
  · rw [if_pos hcreate]
    show storedAfter o stored _ = versionAfter base
    rw [storedAfter_removeAndTrim, hremoved, ← hprior, (before_eq_none_iff first).mpr hcreate]
  · rw [if_neg hcreate]
    have hbase := base_eq_of_not_creates hcreate hprior
    cases item with
    | some it =>
      dsimp only
      rw [storedAfter_trim]
      by_cases hhave : it.have_ = first.priorVersion
      · rw [if_pos hhave]
        show stored = versionAfter base
        have hne : it.have_ ≠ .zero := fun hzero => hcreate (.inl (hhave ▸ hzero))
        rw [h.2.resolve_left hne, hhave, heldVersion_priorVersion hcreate, hprior]
      · rw [if_neg hhave]
        exact ⟨⟨_, hbase, rfl⟩, h.2⟩
    | none =>
      split_ifs with hall
      · show storedAfter o stored _ = versionAfter base
        rw [storedAfter_rollback hsoid hfirst, hprior]
      · exact ⟨⟨_, hbase, rfl⟩, .inl rfl⟩

/-- **Divergent entries that a newer one supersedes** (case 1): the object is removed, and
missing unless the newer entry deletes it. -/
theorem truthful_superseded {mayIncludeDeletes notInStore : Bool} {newest : LogEntry}
    (hupdated : UpdatedTo newest mayIncludeDeletes item) (herror : newest.isError = false)
    (hstored : mayIncludeDeletes = false → newest.isDelete = true → stored = none) :
    Truthful (some newest.event) (item.map (fun it => { it with have_ := .zero }))
      (storedAfter o stored (removeAndTrim o notInStore divergent)) := by
  rw [updatedTo_iff_of_not_error herror] at hupdated
  split_ifs at hupdated with hcase
  · subst hupdated
    show storedAfter o stored _ = versionAfter (some ⟨newest.version, newest.isDelete⟩)
    rw [storedAfter_removeAndTrim, hstored hcase.1 hcase.2, hcase.2]
    split_ifs <;> rfl
  · obtain ⟨it, rfl, hneed⟩ := hupdated
    exact ⟨⟨newest.event, rfl, hneed⟩, .inl rfl⟩

theorem lastEvent_eq (h : entries.getLast? = some last) :
    lastEvent base entries = some last.event := by
  rw [lastEvent, h]
  rfl

/-- **The merge of one object is truthful**: from its divergent entries to its newer ones. -/
theorem truthful_merged (mayIncludeDeletes : Bool) (canRollbackTo : Eversion)
    {newer : List LogEntry} {head : Eversion} (h : Truthful (lastEvent base divergent) item stored)
    (hsoid : ∀ e ∈ divergent, e.soid = o) (hchain : Chained base divergent)
    (hhead : ∀ e ∈ divergent, e.version ≤ head) (hbase : ∀ x, base = some x → x.version ≤ head)
    (hchain' : Chained base newer) (herror : ∀ e ∈ newer, e.isError = false)
    (hsorted : newer.Pairwise (fun a b => a.version < b.version))
    (hnewer : ∀ e ∈ newer, head < e.version) :
    Truthful (lastEvent base newer)
      (mergedItem mayIncludeDeletes canRollbackTo o divergent newer item)
      (mergedStored mayIncludeDeletes canRollbackTo o divergent newer item stored) := by
  unfold mergedItem mergedStored mergeResult
  cases hfirst : divergent.head? with
  | none =>
    have hnil : divergent = [] := head?_eq_none_iff.mp hfirst
    subst hnil
    exact truthful_foldl_appendItem mayIncludeDeletes h hchain' hsorted
      fun x hx e he => (hbase x hx).trans_lt (hnewer e he)
  | some first =>
    obtain ⟨last, hlast⟩ : ∃ last, divergent.getLast? = some last :=
      Option.ne_none_iff_exists'.mp (by
        rw [ne_eq, getLast?_eq_none_iff]
        rintro rfl
        simp at hfirst)
    rw [lastEvent_eq hlast] at h
    rw [hlast]
    dsimp only
    cases hnewest : newer.getLast? with
    | none =>
      have hnil : newer = [] := getLast?_eq_none_iff.mp hnewest
      subst hnil
      have hprior : first.before = versionAfter base := by
        cases divergent with
        | nil => simp at hfirst
        | cons e entries =>
          rw [← Option.some.inj hfirst]
          exact hchain.1
      exact truthful_unsuperseded hsoid hfirst hprior h
    | some newest =>
      have hne : newer ≠ [] := by
        rintro rfl
        simp at hnewest
      rw [lastEvent_eq hnewest, decide_eq_true hne, if_pos rfl]
      have hneed : ∀ it, item = some it → it.need ≤ head := by
        rintro it rfl
        obtain ⟨⟨x, hx, hneed⟩, -⟩ := h
        rw [hneed, ← Option.some.inj hx]
        exact hhead last (mem_of_getLast? hlast)
      refine truthful_superseded
        (updatedTo_foldl_appendItem _ hneed hnewer hsorted herror hnewest)
        (herror newest (mem_of_getLast? hnewest)) ?_
      -- the newest entry has been carried out if it deletes
      intro hmid hdel
      obtain ⟨init, rfl⟩ := getLast?_eq_some_iff.mp hnewest
      rw [foldl_append, foldl_cons, foldl_nil, appendStored,
        if_pos ⟨hmid, hdel⟩]

/-! ## Whole logs -/

/-- **The history of an object up to the last shared version**, and its chains from there in
both logs. `base` is the last event up to then; if one of the logs has an entry for that, it is
the newest shared one. -/
structure ObjectHistory (log olog : PgLog) (shared : Eversion) (o : Soid)
    (base : Option LastEvent) : Prop where
  base_le : ∀ x ∈ base, x.version ≤ shared
  log_base : ∀ e ∈ newestEntry (log.upTo shared) o, base = some e.event
  olog_base : ∀ e ∈ newestEntry (olog.upTo shared) o, base = some e.event
  chained : Chained base (objEntries (log.after shared) o)
  linked : Linked (objEntries (log.after shared) o)
  olog_chained : Chained base (objEntries (olog.after shared) o)

instance (log olog : PgLog) (shared : Eversion) (o : Soid) (base : Option LastEvent) :
    Decidable (ObjectHistory log olog shared o base) :=
  have : Decidable (Linked (objEntries (log.after shared) o)) :=
    inferInstanceAs (Decidable (List.IsChain _ _))
  decidable_of_iff ((∀ x ∈ base, x.version ≤ shared) ∧
      (∀ e ∈ newestEntry (log.upTo shared) o, base = some e.event) ∧
      (∀ e ∈ newestEntry (olog.upTo shared) o, base = some e.event) ∧
      Chained base (objEntries (log.after shared) o) ∧
      Linked (objEntries (log.after shared) o) ∧
      Chained base (objEntries (olog.after shared) o))
    ⟨fun ⟨h1, h2, h3, h4, h5, h6⟩ => ⟨h1, h2, h3, h4, h5, h6⟩,
      fun ⟨h1, h2, h3, h4, h5, h6⟩ => ⟨h1, h2, h3, h4, h5, h6⟩⟩

/-- **Consistent** log, missing set and store: the missing set tells the truth about every
object within the backfill range. -/
def Consistent (lastBackfill : Soid) (base : Soid → Option LastEvent) (log : List LogEntry)
    (m : MissingSet) (store : Soid → Option Eversion) : Prop :=
  ∀ o ≤ lastBackfill, Truthful (lastEvent (base o) (objEntries log o)) (m.get o) (store o)

/-- Shared entries add nothing to what had happened to an object. -/
theorem lastEvent_append {rest : List LogEntry}
    (h : ∀ e, newestEntry entries o = some e → base = some e.event) :
    lastEvent base (objEntries (entries ++ rest) o) = lastEvent base (objEntries rest o) := by
  unfold lastEvent
  have happend := newestEntry_append entries rest o
  unfold newestEntry at happend h
  rw [happend]
  cases hrest : (objEntries rest o).getLast? with
  | some e => rfl
  | none =>
    cases hentries : (objEntries entries o).getLast? with
    | none => rfl
    | some e => rw [h e hentries]; rfl

section Logs

variable {log olog : PgLog} {shared : Eversion}

theorem objEntries_eq_nil (h : ∀ e ∈ l, e.soid ≠ o) : objEntries l o = [] := by
  rw [eq_nil_iff_forall_not_mem]
  intro e he
  obtain ⟨hmem, hsoid, -⟩ := mem_objEntries.mp he
  exact h e hmem hsoid

/-- The truth about an object without entries is that it is not there. -/
theorem truthful_of_no_entries (h : ∀ e ∈ l, e.soid ≠ o) :
    Truthful (lastEvent none (objEntries l o)) none none := by
  rw [objEntries_eq_nil h]
  rfl

theorem objectHistory_of_no_entries (h : ∀ e ∈ log.log ++ olog.log, e.soid ≠ o) :
    ObjectHistory log olog shared o none := by
  have hlog : ∀ p, objEntries (log.log.filter p) o = [] := fun p =>
    objEntries_eq_nil fun e he => h e (mem_append_left _ (mem_filter.mp he).1)
  have holog : ∀ p, objEntries (olog.log.filter p) o = [] := fun p =>
    objEntries_eq_nil fun e he => h e (mem_append_right _ (mem_filter.mp he).1)
  refine ⟨by simp, ?_, ?_, ?_, ?_, ?_⟩
  · simp [newestEntry, PgLog.upTo, hlog]
  · simp [newestEntry, PgLog.upTo, holog]
  · rw [PgLog.after, hlog]
    exact trivial
  · rw [PgLog.after, hlog]
    exact List.IsChain.nil
  · rw [PgLog.after, holog]
    exact trivial

/-- An object without shared entries in the local log has none in the overlap, so its newest
shared entry is before the local tail. -/
theorem newestEntry_upTo_tail (h : SharedHistory log olog shared) (htail : olog.tail < log.tail)
    (hnone : newestEntry (log.upTo shared) o = none) :
    newestEntry (olog.upTo shared) o = newestEntry (olog.upTo log.tail) o := by
  have hsplit := (h.olog_ordered.filter (fun e => e.version ≤ shared)).upTo_append_after log.tail
  have hfront : ({ olog with log := olog.log.filter (fun e => e.version ≤ shared) } :
      PgLog).upTo log.tail = olog.upTo log.tail := by
    show (olog.log.filter _).filter _ = _
    rw [filter_filter]
    refine filter_congr fun e _ => ?_
    by_cases hle : e.version ≤ log.tail
    · simp [hle, hle.trans h.tail_le]
    · simp [hle]
  have hmid : newestEntry (({ olog with log := olog.log.filter (fun e => e.version ≤ shared) } :
      PgLog).after log.tail) o = none := by
    rw [newestEntry, getLast?_eq_none_iff] at hnone ⊢
    have hagree := h.agree
    rw [max_eq_left htail.le] at hagree
    have hoverlap : ({ olog with log := olog.log.filter (fun e => e.version ≤ shared) } :
        PgLog).after log.tail = (log.upTo shared).filter (fun e => log.tail < e.version) :=
      hagree.symm
    rw [hoverlap, eq_nil_iff_forall_not_mem]
    intro e he
    obtain ⟨hmem, hrest⟩ := mem_objEntries.mp he
    have hin : e ∈ objEntries (log.upTo shared) o :=
      mem_objEntries.mpr ⟨(mem_filter.mp hmem).1, hrest⟩
    rw [hnone] at hin
    exact absurd hin (by simp)
  have hlog : ({ olog with log := olog.log.filter (fun e => e.version ≤ shared) } : PgLog).log =
      olog.upTo shared := rfl
  rw [← hlog, ← hsplit, newestEntry_append, hmid, Option.none_or, hfront]

/-- The shared part of the merged log says of each object what had happened to it. -/
theorem ObjectHistory.kept_base (hist : ObjectHistory log olog shared o base)
    (h : SharedHistory log olog shared) (e : LogEntry)
    (he : newestEntry (SharedHistory.older log olog ++ log.upTo shared) o = some e) :
    base = some e.event := by
  rw [newestEntry_append] at he
  cases hnew : newestEntry (log.upTo shared) o with
  | some n =>
    rw [hnew, Option.some_or] at he
    rw [← Option.some.inj he]
    exact hist.log_base n hnew
  | none =>
    rw [hnew, Option.none_or, SharedHistory.older] at he
    split_ifs at he with htail
    · apply hist.olog_base e
      show newestEntry (olog.upTo shared) o = some e
      rw [newestEntry_upTo_tail h htail hnew]
      exact he
    · simp [newestEntry, objEntries] at he

/-- In the local log the last event of an object is a divergent one, if there is any. -/
theorem ObjectHistory.lastEvent_eq_divergent (hist : ObjectHistory log olog shared o base)
    (h : SharedHistory log olog shared) :
    lastEvent base (objEntries log.log o) = lastEvent base (objEntries (log.after shared) o) := by
  rw [← h.ordered.upTo_append_after shared]
  exact lastEvent_append hist.log_base

theorem ObjectHistory.lastEvent_le_head (hist : ObjectHistory log olog shared o base)
    (h : SharedHistory log olog shared) {x : LastEvent}
    (hx : lastEvent base (objEntries log.log o) = some x) : x.version ≤ log.head := by
  cases hlast : (objEntries log.log o).getLast? with
  | some e =>
    rw [lastEvent_eq hlast] at hx
    rw [← Option.some.inj hx]
    exact (h.ordered.below e (mem_objEntries.mp (mem_of_getLast? hlast)).1).le
  | none =>
    rw [lastEvent, hlast] at hx
    exact (hist.base_le x hx).trans h.le_head

/-- The merged log above both tails is the authoritative one. -/
theorem merged_above_tails (h : SharedHistory log olog shared) :
    (SharedHistory.older log olog ++ log.upTo shared ++ olog.after shared).filter
        (fun e => max log.tail olog.tail < e.version) =
      olog.log.filter (fun e => max log.tail olog.tail < e.version) := by
  have holder : (SharedHistory.older log olog).filter
      (fun e => max log.tail olog.tail < e.version) = [] := by
    rw [filter_eq_nil_iff]
    intro e he
    simpa using fun hlt => absurd hlt (not_lt.mpr (SharedHistory.mem_older he).2.2)
  calc (SharedHistory.older log olog ++ log.upTo shared ++ olog.after shared).filter _
      = (log.upTo shared).filter (fun e => max log.tail olog.tail < e.version) ++
          (olog.after shared).filter (fun e => max log.tail olog.tail < e.version) := by
        rw [filter_append, filter_append, holder, nil_append]
    _ = (olog.upTo shared ++ olog.after shared).filter
          (fun e => max log.tail olog.tail < e.version) := by
        rw [h.agree, filter_append]
    _ = olog.log.filter (fun e => max log.tail olog.tail < e.version) := by
        rw [h.olog_ordered.upTo_append_after]

end Logs

/-- **Merging logs keeps log, missing set and store consistent.** For every local log and every
authoritative log that share their history, with the entries of each object chained by their
prior versions: `merge_log` runs through, its log ends like the authoritative one and agrees
with it above both tails, and for every object within the backfill range the missing set still
tells the truth about the store that the callbacks leave. -/
theorem merge_log_keeps_truth {p : PGLog} {olog : PgLog} {oinfo info : PgInfo}
    (shared : Eversion) {base : Soid → Option LastEvent} {store : Soid → Option Eversion}
    (h : SharedHistory p.log.toPgLog olog shared)
    (hist : ∀ o, ObjectHistory p.log.toPgLog olog shared o (base o))
    (hcons : Consistent info.lastBackfill base p.log.log p.missing store) :
    ∃ p' info' calls, mergeLog p oinfo olog info = some (p', info', calls) ∧
      p'.log.head = olog.head ∧
      p'.log.log.filter (fun e => max p.log.tail olog.tail < e.version) =
        olog.log.filter (fun e => max p.log.tail olog.tail < e.version) ∧
      Consistent info.lastBackfill base p'.log.log p'.missing
        (fun o => storedAfter o (store o) calls) := by
  have hneed : ∀ o ≤ info.lastBackfill, ∀ it, p.missing.get o = some it →
      it.need ≤ p.log.head := by
    intro o hb it hit
    have htruth := hcons o hb
    rw [hit] at htruth
    obtain ⟨⟨x, hx, hneed⟩, -⟩ := htruth
    rw [hneed]
    exact (hist o).lastEvent_le_head h hx
  obtain ⟨p', info', calls, hmerge, hhead, -, hlog, houtcome⟩ :=
    mergeLog_spec h oinfo (fun o => (hist o).linked) hneed
  refine ⟨p', info', calls, hmerge, hhead, ?_, fun o hb => ?_⟩
  · rw [hlog]
    exact merged_above_tails h
  · -- the last event moves from the divergent entries to the newer ones
    have hafter : lastEvent (base o) (objEntries p'.log.log o) =
        lastEvent (base o) (objEntries (olog.after shared) o) := by
      rw [hlog]
      exact lastEvent_append ((hist o).kept_base h)
    have htruth := hcons o hb
    rw [(hist o).lastEvent_eq_divergent h] at htruth
    show Truthful _ (p'.missing.get o) (storedAfter o (store o) calls)
    rw [hafter, houtcome.item o hb, houtcome.stored o hb]
    refine truthful_merged _ _ htruth (fun e he => (mem_objEntries.mp he).2.1) (hist o).chained
      (fun e he => ?_) (fun x hx => ((hist o).base_le x hx).trans h.le_head)
      (hist o).olog_chained (fun e he => (mem_objEntries.mp he).2.2) ?_ (fun e he => ?_)
    · exact (h.ordered.below e (PgLog.mem_after.mp (mem_objEntries.mp he).1).1).le
    · exact ((h.olog_ordered.sorted.filter _).filter _).imp fun hab => hab.lt
    · exact (h.newer e (mem_objEntries.mp he).1).2

/-! ## Examples -/

/-- An object of pool 1 with a one-letter name. -/
def letterObject (c : UInt8) : Soid :=
  ⟨.mk' [c] [] noSnap 0 1 [], ⟨Hobject.canonical_mk' _ _ _ _ _ _, by simp [Hobject.mk']⟩⟩

/-- An entry of a log, with what matters to a merge. -/
def letterEntry (op : LogOp) (c : UInt8) (version priorVersion : Eversion)
    (canLocalRollback : Bool) : LogEntry :=
  { op, soid := letterObject c, version, priorVersion, revertingTo := .zero, userVersion := 0
    reqid := ⟨0, 0, 0, 0⟩, extraReqids := [], extraReqidReturnCodes := .empty, mtime := (0, 0)
    returnCode := 0, snaps := [], modDesc := ⟨canLocalRollback, false, 0, []⟩ }

/-- A log of entries from a tail to a head. -/
def letterLog (tail head : Eversion) (log : List LogEntry) : PgLog :=
  { head, tail, canRollbackTo := .zero, rollbackInfoTrimmedTo := .zero, log, dups := [] }

/-- The state of a replica with nothing to write. -/
def cleanPGLog (log : PgLog) (missing : MissingSet) : PGLog :=
  { missing, log := .ofPgLog log, dirtyTo := .zero, dirtyFrom := .max, writeoutFrom := .max
    trimmed := .empty, dirtyToDups := .zero, dirtyFromDups := .max, writeFromDups := .max
    trimmedDups := .empty, touchedLog := false, dirtyLog := false, clearDivergentPriors := false
    rebuiltMissingWithDeletes := false }

/-- The info of a replica that is not being backfilled. -/
def completeInfo (v : Eversion) : PgInfo :=
  { lastUpdate := v, lastComplete := v, logTail := .zero, lastUserVersion := 0
    lastBackfill := ⟨.getMax, by decide⟩ }

/-- Object `a` is created, and changed by the replica alone. -/
def divergentLog : PgLog := letterLog .zero ⟨1, 2⟩
  [letterEntry .modify 0x61 ⟨1, 1⟩ .zero false, letterEntry .modify 0x61 ⟨1, 2⟩ ⟨1, 1⟩ false]

/-- Object `a` is created, and changed later by the others. -/
def authLog : PgLog := letterLog .zero ⟨2, 2⟩
  [letterEntry .modify 0x61 ⟨1, 1⟩ .zero false, letterEntry .modify 0x61 ⟨2, 2⟩ ⟨1, 1⟩ false]

/-- Something known of one object only. -/
def onlyOf {α : Type} (c : UInt8) (x : α) (o : Soid) : Option α :=
  if o = letterObject c then some x else none

theorem onlyOf_self {α : Type} (c : UInt8) (x : α) : onlyOf c x (letterObject c) = some x :=
  if_pos rfl

theorem onlyOf_ne {α : Type} {c : UInt8} (h : o ≠ letterObject c) (x : α) :
    onlyOf c x o = none := if_neg h

theorem objectHistory_onlyOf {log olog : PgLog} {shared : Eversion} {c : UInt8} {x : LastEvent}
    (hsoid : ∀ e ∈ log.log ++ olog.log, e.soid = letterObject c)
    (h : ObjectHistory log olog shared (letterObject c) (some x)) (o : Soid) :
    ObjectHistory log olog shared o (onlyOf c x o) := by
  by_cases ho : o = letterObject c
  · subst ho
    rw [onlyOf_self]
    exact h
  · rw [onlyOf_ne ho]
    exact objectHistory_of_no_entries fun e he => hsoid e he ▸ Ne.symm ho

theorem consistent_onlyOf {log : List LogEntry} {lastBackfill : Soid} {c : UInt8} {x : LastEvent}
    {v : Eversion} (hsoid : ∀ e ∈ log, e.soid = letterObject c)
    (h : Truthful (lastEvent (some x) (objEntries log (letterObject c))) none (some v)) :
    Consistent lastBackfill (onlyOf c x) log (.empty false) (onlyOf c v) := by
  intro o _
  show Truthful _ none _
  by_cases ho : o = letterObject c
  · subst ho
    rw [onlyOf_self, onlyOf_self]
    exact h
  · rw [onlyOf_ne ho, onlyOf_ne ho]
    exact truthful_of_no_entries fun e he => hsoid e he ▸ Ne.symm ho

/-- Object `a` was changed to `1'2` where the others changed it to `2'2`: the merge removes it
and notes that `2'2` is missing. -/
theorem merge_log_keeps_truth_divergent :
    ∃ p' info' calls, mergeLog (cleanPGLog divergentLog (.empty false)) (completeInfo ⟨2, 2⟩)
        authLog (completeInfo ⟨1, 2⟩) = some (p', info', calls) ∧
      p'.log.head = ⟨2, 2⟩ ∧
      p'.log.log.filter (fun e => .zero < e.version) = authLog.log ∧
      Consistent ⟨.getMax, by decide⟩ (onlyOf 0x61 ⟨⟨1, 1⟩, false⟩) p'.log.log p'.missing
        (fun o => storedAfter o (onlyOf 0x61 ⟨1, 2⟩ o) calls) := by
  have hsoid : ∀ e ∈ divergentLog.log ++ authLog.log, e.soid = letterObject 0x61 := by decide
  refine merge_log_keeps_truth ⟨1, 1⟩ ⟨?_, by decide, by decide⟩
    (objectHistory_onlyOf hsoid (by decide)) ?_
  · constructor <;> decide
  · exact consistent_onlyOf (fun e he => hsoid e (mem_append_left _ he)) (by decide)

/-- A store that agrees with the log for the objects that have entries and are not missing, and
with what the missing items have for the others. This leaves out what the items need, and the
objects without entries. -/
def StoreMatches (lastBackfill : Soid) (log : List LogEntry) (m : MissingSet)
    (store : Soid → Option Eversion) : Prop :=
  ∀ o ≤ lastBackfill, match m.get o with
    | none => ∀ e ∈ newestEntry log o, store o = versionAfter (some e.event)
    | some it => store o = heldVersion it.have_

/-- The others have gone on with object `b`. -/
def continuedLog : PgLog := letterLog .zero ⟨2, 3⟩
  (divergentLog.log ++ [letterEntry .modify 0x62 ⟨2, 3⟩ .zero false])

/-- A missing set that has not followed the log. -/
def staleMissing : MissingSet := (MissingSet.empty false).add (letterObject 0x61) ⟨1, 1⟩ .zero false

/-- Object `a` is created by the second entry; the first has been trimmed. -/
def trimmedLog : PgLog := letterLog ⟨1, 1⟩ ⟨1, 2⟩ [letterEntry .modify 0x61 ⟨1, 2⟩ .zero false]

/-- The same log with the first entry, which creates object `b`. -/
def untrimmedLog : PgLog := letterLog .zero ⟨1, 2⟩
  [letterEntry .modify 0x62 ⟨1, 1⟩ .zero false, letterEntry .modify 0x61 ⟨1, 2⟩ .zero false]

/-- Object `a` is created, and changed by the replica in a later epoch than by the others. -/
def forkedLog : PgLog := letterLog .zero ⟨3, 2⟩
  [letterEntry .modify 0x61 ⟨1, 1⟩ .zero false, letterEntry .modify 0x61 ⟨3, 2⟩ ⟨1, 1⟩ false]

/-- The others have gone on with object `a`. -/
def lateLog : PgLog := letterLog .zero ⟨4, 3⟩
  (authLog.log ++ [letterEntry .modify 0x61 ⟨4, 3⟩ ⟨2, 2⟩ false])

/-- Object `a` is created; the head is that of an entry the log does not have. -/
def gapLog : PgLog := letterLog .zero ⟨1, 2⟩ [letterEntry .modify 0x61 ⟨1, 1⟩ .zero false]

/-- **Why consistency has to cover what is needed and objects without entries, and why the
authoritative log has to go on with newer entries from where the logs part.** An item that needs an
old version is left as it is when other objects go on, and an object whose entries come with the
older part of the authoritative log is not looked for in the store. A divergent entry is cut off by
its version without the epoch, and stays in the place of `2'2`. And nothing is cut off if the heads
are equal. -/
theorem merge_log_conditions_needed :
    (SharedHistory divergentLog continuedLog ⟨1, 2⟩ ∧
      (∀ o, ObjectHistory divergentLog continuedLog ⟨1, 2⟩ o
        (onlyOf 0x61 ⟨⟨1, 2⟩, false⟩ o)) ∧
      StoreMatches ⟨.getMax, by decide⟩ divergentLog.log staleMissing (fun _ => none) ∧
      (mergeLog (cleanPGLog divergentLog staleMissing) (completeInfo ⟨2, 3⟩) continuedLog
          (completeInfo ⟨1, 2⟩)).map (fun r => ((r.1.missing.get (letterObject 0x61)).map (·.need),
            (newestEntry r.1.log.log (letterObject 0x61)).map (·.version))) =
        some (some ⟨1, 1⟩, some ⟨1, 2⟩)) ∧
    (SharedHistory trimmedLog untrimmedLog ⟨1, 2⟩ ∧
      (∀ o, ObjectHistory trimmedLog untrimmedLog ⟨1, 2⟩ o
        ((onlyOf 0x61 ⟨⟨1, 2⟩, false⟩ o).or (onlyOf 0x62 ⟨⟨1, 1⟩, false⟩ o))) ∧
      StoreMatches ⟨.getMax, by decide⟩ trimmedLog.log (.empty false) (onlyOf 0x61 ⟨1, 2⟩) ∧
      (mergeLog (cleanPGLog trimmedLog (.empty false)) (completeInfo ⟨1, 2⟩) untrimmedLog
          (completeInfo ⟨1, 2⟩)).map (fun r => (r.1.missing.get (letterObject 0x62),
            storedAfter (letterObject 0x62) none r.2.2,
            (newestEntry r.1.log.log (letterObject 0x62)).map (·.version))) =
        some (none, none, some ⟨1, 1⟩)) ∧
    (AgreesUpTo forkedLog lateLog ⟨1, 1⟩ ∧
      (∀ e ∈ lateLog.after ⟨1, 1⟩, Eversion.Before ⟨1, 1⟩ e.version) ∧
      (lateLog.head ≤ forkedLog.head → ⟨1, 1⟩ = lateLog.head) ∧
      (∀ o, ObjectHistory forkedLog lateLog ⟨1, 1⟩ o (onlyOf 0x61 ⟨⟨1, 1⟩, false⟩ o)) ∧
      Consistent ⟨.getMax, by decide⟩ (onlyOf 0x61 ⟨⟨1, 1⟩, false⟩) forkedLog.log (.empty false)
        (onlyOf 0x61 ⟨3, 2⟩) ∧
      (mergeLog (cleanPGLog forkedLog (.empty false)) (completeInfo ⟨4, 3⟩) lateLog
          (completeInfo ⟨3, 2⟩)).map (fun r => r.1.log.log.map (·.version)) =
        some [⟨1, 1⟩, ⟨3, 2⟩, ⟨4, 3⟩]) ∧
    (AgreesUpTo divergentLog gapLog ⟨1, 1⟩ ∧
      (∀ e ∈ gapLog.after ⟨1, 1⟩, Eversion.Before ⟨1, 1⟩ e.version ∧
        divergentLog.head < e.version) ∧
      (∀ o, ObjectHistory divergentLog gapLog ⟨1, 1⟩ o (onlyOf 0x61 ⟨⟨1, 1⟩, false⟩ o)) ∧
      Consistent ⟨.getMax, by decide⟩ (onlyOf 0x61 ⟨⟨1, 1⟩, false⟩) divergentLog.log (.empty false)
        (onlyOf 0x61 ⟨1, 2⟩) ∧
      (mergeLog (cleanPGLog divergentLog (.empty false)) (completeInfo ⟨1, 2⟩) gapLog
          (completeInfo ⟨1, 2⟩)).map (fun r => r.1.log.log.map (·.version)) =
        some [⟨1, 1⟩, ⟨1, 2⟩]) := by
  have hsoid : ∀ e ∈ divergentLog.log ++ continuedLog.log,
      e.soid = letterObject 0x61 ∨ e.soid = letterObject 0x62 := by decide
  have hsoid' : ∀ e ∈ trimmedLog.log ++ untrimmedLog.log,
      e.soid = letterObject 0x61 ∨ e.soid = letterObject 0x62 := by decide
  refine ⟨⟨⟨?_, by decide, by decide⟩, fun o => ?_, fun o _ => ?_, by decide⟩,
    ⟨⟨?_, by decide, by decide⟩, fun o => ?_, fun o _ => ?_, by decide⟩,
    ⟨?_, by decide, by decide, objectHistory_onlyOf (by decide) (by decide),
      consistent_onlyOf (by decide) (by decide), by decide⟩,
    ⟨?_, by decide, objectHistory_onlyOf (by decide) (by decide),
      consistent_onlyOf (by decide) (by decide), by decide⟩⟩
  · constructor <;> decide
  · by_cases ha : o = letterObject 0x61
    · subst ha
      decide
    · by_cases hb : o = letterObject 0x62
      · subst hb
        decide
      · rw [onlyOf_ne ha]
        refine objectHistory_of_no_entries fun e he => ?_
        rcases hsoid e he with hs | hs <;> rw [hs]
        · exact Ne.symm ha
        · exact Ne.symm hb
  · by_cases ha : o = letterObject 0x61
    · have hget : staleMissing.get (letterObject 0x61) = some ⟨⟨1, 1⟩, .zero, false⟩ := by decide
      rw [ha, hget]
      rfl
    · have hget : staleMissing.get o = none := by
        rw [staleMissing, MissingSet.add, MissingSet.get_put, if_neg ha]
        rfl
      have hnil : objEntries divergentLog.log o = [] := objEntries_eq_nil (by
        have hall : ∀ e ∈ divergentLog.log, e.soid = letterObject 0x61 := by decide
        exact fun e he => hall e he ▸ Ne.symm ha)
      rw [hget]
      simp [newestEntry, hnil]
  · constructor <;> decide
  · by_cases ha : o = letterObject 0x61
    · subst ha
      decide
    · by_cases hb : o = letterObject 0x62
      · subst hb
        decide
      · rw [onlyOf_ne ha, onlyOf_ne hb]
        refine objectHistory_of_no_entries fun e he => ?_
        rcases hsoid' e he with hs | hs <;> rw [hs]
        · exact Ne.symm ha
        · exact Ne.symm hb
  · show ∀ e ∈ newestEntry trimmedLog.log o, onlyOf 0x61 ⟨1, 2⟩ o = versionAfter (some e.event)
    by_cases ha : o = letterObject 0x61
    · subst ha
      decide
    · have hnil : objEntries trimmedLog.log o = [] := objEntries_eq_nil (by
        have hall : ∀ e ∈ trimmedLog.log, e.soid = letterObject 0x61 := by decide
        exact fun e he => hall e he ▸ Ne.symm ha)
      simp [newestEntry, hnil]
  · constructor <;> decide
  · constructor <;> decide

end Ceph.Osd
