import Ceph.Osd.PGLog.Merge

set_option autoImplicit false

/-! # Merging one object

Merging logs treats every object by itself: what happens to the item of an object in the missing
set, and to its stored version, depends on its own entries only. This file states the merge of
one object as functions on its item (`appendItem`, `unsupersededItem`) and on its stored version
(`storedAfter`), and shows that the loops of the source over all entries and all objects do
exactly that to each object (`appendLoop_spec`, `mergeDivergentEntries_spec`).
-/

namespace Ceph.Osd

open MissingSet List

/-! ## The callbacks seen by one object -/

/-- The version of the object before the entry, none if it did not exist. -/
def LogEntry.before (e : LogEntry) : Option Eversion :=
  if e.Creates then none else some e.priorVersion

/-- What a call of the handler does to the stored version of an object: `remove` deletes the
object, `rollback` undoes the entry, a stashed object leaves its place; rolling forward and
trimming rollback information do not touch it. -/
def storeStep (o : Soid) (v : Option Eversion) : HandlerCall → Option Eversion
  | .rollback e => if e.soid = o then e.before else v
  | .rollforward _ => v
  | .trim _ => v
  | .remove hoid => if hoid = o then none else v
  | .tryStash hoid _ => if hoid = o then none else v

/-- The stored version of an object after the calls. -/
def storedAfter (o : Soid) (v : Option Eversion) (calls : List HandlerCall) : Option Eversion :=
  calls.foldl (storeStep o) v

theorem storedAfter_append (o : Soid) (v : Option Eversion) (calls calls' : List HandlerCall) :
    storedAfter o v (calls ++ calls') = storedAfter o (storedAfter o v calls) calls' :=
  foldl_append

variable {canRollbackTo : Eversion} {calls : List HandlerCall}
  {divergent entries origEntries : List LogEntry} {first last : LogEntry} {hoid lastBackfill : Soid}

theorem storedAfter_of_inert {o : Soid} (h : ∀ c ∈ calls, ∀ v, storeStep o v c = v)
    (v : Option Eversion) : storedAfter o v calls = v := by
  induction calls with
  | nil => rfl
  | cons c calls ih =>
    show storedAfter o (storeStep o v c) calls = v
    rw [h c (by simp)]
    exact ih (fun c' hc' => h c' (by simp [hc']))

theorem storedAfter_trim (o : Soid) (v : Option Eversion) (entries : List LogEntry) :
    storedAfter o v (entries.map .trim) = v := by
  apply storedAfter_of_inert
  intro c hc v
  obtain ⟨e, -, rfl⟩ := mem_map.mp hc
  rfl

theorem storedAfter_rollforward (o : Soid) (v : Option Eversion) (entries : List LogEntry) :
    storedAfter o v (entries.map .rollforward) = v := by
  apply storedAfter_of_inert
  intro c hc v
  obtain ⟨e, -, rfl⟩ := mem_map.mp hc
  rfl

theorem storedAfter_removeAndTrim (hoid : Soid) (notInStore : Bool) (entries : List LogEntry)
    (v : Option Eversion) :
    storedAfter hoid v (removeAndTrim hoid notInStore entries) =
      if notInStore then v else none := by
  rw [removeAndTrim, storedAfter_append, storedAfter_trim]
  cases notInStore <;> simp [storedAfter, storeStep]

/-- The calls leave every other object alone. -/
def CallsOnly (hoid : Soid) (calls : List HandlerCall) : Prop :=
  ∀ o, o ≠ hoid → ∀ v, storedAfter o v calls = v

theorem callsOnly_removeAndTrim (hoid : Soid) (notInStore : Bool) (entries : List LogEntry) :
    CallsOnly hoid (removeAndTrim hoid notInStore entries) := by
  intro o ho v
  rw [removeAndTrim, storedAfter_append, storedAfter_trim]
  cases notInStore <;> simp [storedAfter, storeStep, Ne.symm ho]

theorem callsOnly_trim (hoid : Soid) (entries : List LogEntry) :
    CallsOnly hoid (entries.map .trim) := fun o _ v => storedAfter_trim o v entries

theorem callsOnly_rollback (h : ∀ e ∈ entries, e.soid = hoid) :
    CallsOnly hoid (entries.reverse.map .rollback) := by
  intro o ho
  apply storedAfter_of_inert
  intro c hc v
  obtain ⟨e, he, rfl⟩ := mem_map.mp hc
  exact if_neg (fun heq => ho (heq.symm.trans (h e (mem_reverse.mp he))))

/-! ## Appending entries -/

/-- The item of an object after one of its entries is appended. -/
def appendItem (mayIncludeDeletes : Bool) (item : Option MissingItem) (e : LogEntry) :
    Option MissingItem :=
  if mayIncludeDeletes = false ∧ e.isDelete = true then
    item.filter (fun it => !decide (it.need ≤ e.version))
  else some (MissingSet.nextItem item e)

/-- Its stored version: an appended delete is carried out at once if the missing set has no
deletes. -/
def appendStored (mayIncludeDeletes : Bool) (v : Option Eversion) (e : LogEntry) :
    Option Eversion :=
  if mayIncludeDeletes = false ∧ e.isDelete = true then none else v

theorem get_appendToMissing (lastBackfill : Soid) (maintainRollback : Bool) (m : MissingSet)
    (e : LogEntry) (o : Soid) :
    (appendToMissing lastBackfill maintainRollback m e).1.get o =
      if o ≤ lastBackfill ∧ e.soid = o ∧ e.isError = false then
        appendItem m.mayIncludeDeletes (m.get o) e
      else m.get o := by
  unfold appendToMissing appendItem
  by_cases he : e.soid ≤ lastBackfill ∧ e.isError = false
  · rw [if_pos he]
    by_cases ho : e.soid = o
    · subst ho
      cases hmid : m.mayIncludeDeletes <;> cases hdel : e.isDelete <;>
        simp [he, get_addNextEvent, get_rm]
    · cases hmid : m.mayIncludeDeletes <;> cases hdel : e.isDelete <;>
        simp [ho, Ne.symm ho, get_addNextEvent, get_rm]
  · have hno : ¬ (o ≤ lastBackfill ∧ e.soid = o ∧ e.isError = false) := by
      rintro ⟨h1, rfl, h3⟩
      exact he ⟨h1, h3⟩
    rw [if_neg he, if_neg hno]

theorem tracked_appendToMissing (lastBackfill : Soid) (maintainRollback : Bool)
    (m : MissingSet) (e : LogEntry) :
    m.Tracked (appendToMissing lastBackfill maintainRollback m e).1 := by
  have hnext := tracked_addNextEvent m e
  unfold appendToMissing
  by_cases he : e.soid ≤ lastBackfill ∧ e.isError = false
  · rw [if_pos he]
    by_cases hmid : m.mayIncludeDeletes = true
    · rw [if_pos hmid]
      exact hnext
    · rw [if_neg hmid]
      by_cases hdel : e.isDelete = true
      · simp only [if_pos hdel]
        exact tracked_rm m _ _
      · simp only [if_neg hdel]
        exact hnext
  · rw [if_neg he]
    exact MissingSet.Tracked.refl m

theorem storedAfter_appendToMissing (lastBackfill : Soid) (m : MissingSet) (e : LogEntry)
    (o : Soid) (v : Option Eversion) :
    storedAfter o v (appendToMissing lastBackfill false m e).2 =
      if o ≤ lastBackfill ∧ e.soid = o ∧ e.isError = false then
        appendStored m.mayIncludeDeletes v e
      else v := by
  unfold appendToMissing appendStored
  by_cases he : e.soid ≤ lastBackfill ∧ e.isError = false
  · rw [if_pos he]
    by_cases ho : e.soid = o
    · subst ho
      cases hmid : m.mayIncludeDeletes <;> cases hdel : e.isDelete <;>
        simp [he, storedAfter, storeStep]
    · cases hmid : m.mayIncludeDeletes <;> cases hdel : e.isDelete <;>
        simp [storedAfter, storeStep, ho]
  · have hno : ¬ (o ≤ lastBackfill ∧ e.soid = o ∧ e.isError = false) := by
      rintro ⟨h1, rfl, h3⟩
      exact he ⟨h1, h3⟩
    rw [if_neg he, if_neg hno]
    rfl

theorem objEntries_cons (e : LogEntry) (l : List LogEntry) (o : Soid) :
    objEntries (e :: l) o =
      if e.soid = o ∧ e.isError = false then e :: objEntries l o else objEntries l o := by
  simp [objEntries, filter_cons]

/-- An entry goes first, if it is one of the object. -/
theorem foldl_objEntries_cons {β : Type} (f : β → LogEntry → β) (lastBackfill : Soid)
    (e : LogEntry) (l : List LogEntry) (o : Soid) (x : β) :
    (if o ≤ lastBackfill then (objEntries l o).foldl f
        (if o ≤ lastBackfill ∧ e.soid = o ∧ e.isError = false then f x e else x)
      else if o ≤ lastBackfill ∧ e.soid = o ∧ e.isError = false then f x e else x) =
      if o ≤ lastBackfill then (objEntries (e :: l) o).foldl f x else x := by
  rw [objEntries_cons]
  by_cases hb : o ≤ lastBackfill <;> by_cases he : e.soid = o ∧ e.isError = false <;> simp [hb, he]

/-- **Appending a list of entries.** The entries stand at the head of the log, and each object
sees its own entries, one after the other. -/
theorem appendLoop_spec (lastBackfill : Soid) (maintainRollback : Bool)
    (entries : List LogEntry) (log : IndexedLog) (m : MissingSet)
    (hsorted : entries.Pairwise (fun a b => a.version.Before b.version))
    (hhead : ∀ e ∈ entries, log.head.Before e.version) :
    ∃ m' calls, appendLoop lastBackfill maintainRollback entries log m =
        some (entries.foldl IndexedLog.append log, m', calls) ∧
      m.Tracked m' ∧
      (∀ o, m'.get o = if o ≤ lastBackfill then
        (objEntries entries o).foldl (appendItem m.mayIncludeDeletes) (m.get o) else m.get o) ∧
      (maintainRollback = false → ∀ o v, storedAfter o v calls = if o ≤ lastBackfill then
        (objEntries entries o).foldl (appendStored m.mayIncludeDeletes) v else v) := by
  induction entries generalizing log m with
  | nil =>
    refine ⟨m, [], rfl, MissingSet.Tracked.refl m, fun o => ?_, fun _ o v => ?_⟩
    · simp [objEntries]
    · simp [objEntries, storedAfter]
  | cons e entries ih =>
    obtain ⟨hfirst, hrest⟩ := pairwise_cons.mp hsorted
    have htracked := tracked_appendToMissing lastBackfill maintainRollback m e
    obtain ⟨m', calls, hloop, htracked', hget, hstored⟩ := ih (log.append e)
      (appendToMissing lastBackfill maintainRollback m e).1 hrest hfirst
    refine ⟨m', (appendToMissing lastBackfill maintainRollback m e).2 ++ calls, ?_,
      htracked.trans htracked', ?_, ?_⟩
    · rw [appendLoop, IndexedLog.add_eq (hhead e (by simp)), Option.bind_some]
      dsimp only
      rw [hloop]
      rfl
    · intro o
      rw [hget, get_appendToMissing, htracked.mayIncludeDeletes_eq, foldl_objEntries_cons]
    · rintro rfl o v
      rw [storedAfter_append, hstored rfl, storedAfter_appendToMissing,
        htracked.mayIncludeDeletes_eq, foldl_objEntries_cons]

/-! ## Divergent entries -/

/-- Cases 2 to 5 for the item of one object. -/
def unsupersededItem (canRollbackTo : Eversion) (hoid : Soid) (first : LogEntry)
    (notInStore : Bool) (entries : List LogEntry) (item : Option MissingItem) :
    Option MissingItem × List HandlerCall :=
  if first.Creates then (none, removeAndTrim hoid notInStore entries)
  else
    match item with
    | some it =>
      (if it.have_ = first.priorVersion then none
        else some ⟨first.priorVersion, it.have_, false⟩, entries.map .trim)
    | none =>
      if entries.all (fun e => e.canRollback && decide (canRollbackTo < e.version)) then
        (none, entries.reverse.map .rollback)
      else (some ⟨first.priorVersion, .zero, false⟩, removeAndTrim hoid notInStore entries)

/-- What case 1 asserts of the item: appending the newest entry has updated it. -/
def UpdatedTo (newest : LogEntry) (mayIncludeDeletes : Bool) (item : Option MissingItem) :
    Prop :=
  if newest.isUpdate = true ∨ mayIncludeDeletes = true ∧ newest.isDelete = true then
    ∃ it, item = some it ∧ it.need = newest.version
  else item = none

/-- The merge of an object's divergent entries, for its item. -/
inductive MergesItem (newest : Option LogEntry) (mayIncludeDeletes : Bool)
    (canRollbackTo : Eversion) (hoid : Soid) (first last : LogEntry) (entries : List LogEntry)
    (item : Option MissingItem) : Option MissingItem → List HandlerCall → Prop
  | superseded (n : LogEntry) (hnewest : newest = some n) (hfirst : first.version ≤ n.version)
      (hlast : last.version < n.version) (hupdated : UpdatedTo n mayIncludeDeletes item) :
      MergesItem newest mayIncludeDeletes canRollbackTo hoid first last entries item
        (item.map (fun it => { it with have_ := .zero }))
        (removeAndTrim hoid (item.isNone && last.isDelete) entries)
  | unsuperseded (hnewest : ∀ n, newest = some n → n.version < first.version) :
      MergesItem newest mayIncludeDeletes canRollbackTo hoid first last entries item
        (unsupersededItem canRollbackTo hoid first (item.isNone && last.isDelete) entries item).1
        (unsupersededItem canRollbackTo hoid first (item.isNone && last.isDelete) entries item).2

theorem mergeUnsuperseded_eq (first : LogEntry) (hoid : Soid) (notInStore : Bool)
    (entries : List LogEntry) (canRollbackTo : Eversion) (m : MissingSet) :
    (mergeUnsuperseded first hoid notInStore entries canRollbackTo m).2 =
        (unsupersededItem canRollbackTo hoid first notInStore entries (m.get hoid)).2 ∧
      m.Tracked (mergeUnsuperseded first hoid notInStore entries canRollbackTo m).1 ∧
      ∀ o, (mergeUnsuperseded first hoid notInStore entries canRollbackTo m).1.get o =
        if o = hoid then
          (unsupersededItem canRollbackTo hoid first notInStore entries (m.get hoid)).1
        else m.get o := by
  unfold mergeUnsuperseded unsupersededItem
  by_cases hcreate : first.Creates
  · simp only [if_pos hcreate]
    exact ⟨trivial, tracked_rmItem m hoid, get_rmItem m hoid⟩
  · simp only [if_neg hcreate]
    cases hitem : m.get hoid with
    | some it =>
      refine ⟨rfl, ?_, fun o => ?_⟩
      · dsimp only
        split_ifs
        · exact tracked_rmItem m hoid
        · exact tracked_reviseNeed m hoid _ _
      · dsimp only
        split_ifs with hhave ho ho
        · rw [get_rmItem, if_pos ho]
        · rw [get_rmItem, if_neg ho]
        · rw [get_reviseNeed, if_pos ho, hitem]
          rfl
        · rw [get_reviseNeed, if_neg ho]
    | none =>
      split_ifs with hall
      · refine ⟨rfl, MissingSet.Tracked.refl m, fun o => ?_⟩
        by_cases ho : o = hoid
        · rw [if_pos ho, ho, hitem]
        · rw [if_neg ho]
      · exact ⟨rfl, tracked_put m hoid _, fun o => get_put m hoid o _⟩

theorem updatedTo_iff (newest : LogEntry) (mayIncludeDeletes : Bool) (item : Option MissingItem) :
    UpdatedTo newest mayIncludeDeletes item ↔
      (if newest.isUpdate || (mayIncludeDeletes && newest.isDelete) then
        item.any (fun it => it.need = newest.version) else item.isNone) = true := by
  unfold UpdatedTo
  by_cases h : newest.isUpdate = true ∨ mayIncludeDeletes = true ∧ newest.isDelete = true
  · rw [if_pos h, if_pos (by simpa using h)]
    cases item <;> simp
  · rw [if_neg h, if_neg (by simpa using h)]
    cases item <;> simp

theorem MergesItem.callsOnly {newest : Option LogEntry} {mayIncludeDeletes : Bool}
    {item item' : Option MissingItem}
    (h : MergesItem newest mayIncludeDeletes canRollbackTo hoid first last entries item item' calls)
    (hentries : ∀ e ∈ entries, e.soid = hoid) : CallsOnly hoid calls := by
  cases h with
  | superseded n hnewest hfirst hlast hupdated => exact callsOnly_removeAndTrim _ _ _
  | unsuperseded hnewest =>
    unfold unsupersededItem
    by_cases hcreate : first.Creates
    · rw [if_pos hcreate]
      exact callsOnly_removeAndTrim _ _ _
    · rw [if_neg hcreate]
      cases item with
      | some it => exact callsOnly_trim _ _
      | none =>
        split_ifs
        · exact callsOnly_rollback hentries
        · exact callsOnly_removeAndTrim _ _ _

variable (log : IndexedLog)

/-- **The merge of one object.** Where the item merges, the function of the source returns,
with the item and the calls, and other objects keep their items. -/
theorem mergeObjectDivergentEntries_spec {m : MissingSet} {item : Option MissingItem}
    (hbackfill : hoid ≤ lastBackfill) (horig : origEntries ≠ [])
    (hkeep : keepEntries hoid true false .zero origEntries = some entries)
    (hfirst : entries.head? = some first) (hlast : entries.getLast? = some last)
    (h : MergesItem (log.objects.get hoid) m.mayIncludeDeletes canRollbackTo hoid first last
      entries (m.get hoid) item calls) :
    ∃ m', mergeObjectDivergentEntries log hoid origEntries lastBackfill canRollbackTo m =
        some (m', calls) ∧ m.Tracked m' ∧ ∀ o, m'.get o = if o = hoid then item else m.get o := by
  unfold mergeObjectDivergentEntries
  rw [if_neg (not_lt.mpr hbackfill), if_neg horig, hkeep, Option.bind_some, hfirst, hlast]
  cases h with
  | superseded n hnewest hle hlt hupdated =>
    rw [hnewest]
    dsimp only
    rw [if_pos hle, mergeSuperseded, if_pos ⟨hlt, (updatedTo_iff ..).mp hupdated⟩]
    refine ⟨_, rfl, tracked_reviseHave m hoid _, fun o => ?_⟩
    rw [get_reviseHave]
  | unsuperseded hnewest =>
    obtain ⟨hcalls, htracked, hget⟩ := mergeUnsuperseded_eq first hoid
      ((m.get hoid).isNone && last.isDelete) entries canRollbackTo m
    cases hobj : log.objects.get hoid with
    | none => exact ⟨_, congrArg some (Prod.ext rfl hcalls), htracked, hget⟩
    | some n =>
      dsimp only
      rw [if_neg (not_le.mpr (hnewest n hobj))]
      exact ⟨_, congrArg some (Prod.ext rfl hcalls), htracked, hget⟩

/-- **What the merge of one object can do**: nothing, case 1, or one of the other cases. -/
theorem mergeObjectDivergentEntries_cases {log : IndexedLog} {m m' : MissingSet}
    (h : mergeObjectDivergentEntries log hoid origEntries lastBackfill canRollbackTo m =
      some (m', calls)) :
    m' = m ∧ calls = [] ∨ ∃ entries first notInStore,
      keepEntries hoid true false .zero origEntries = some entries ∧ entries.head? = some first ∧
        (m' = m.reviseHave hoid .zero ∧ calls = removeAndTrim hoid notInStore entries ∨
          mergeUnsuperseded first hoid notInStore entries canRollbackTo m = (m', calls)) := by
  unfold mergeObjectDivergentEntries at h
  split_ifs at h
  · cases h
    exact .inl ⟨rfl, rfl⟩
  obtain ⟨entries, hkeep, h⟩ := Option.bind_eq_some_iff.mp h
  split at h
  · rename_i first last hfirst _
    refine .inr ⟨entries, first, (m.get hoid).isNone && last.isDelete, hkeep, hfirst, ?_⟩
    split at h
    · split_ifs at h
      · obtain ⟨-, h⟩ := Option.ite_none_right_eq_some.mp h
        cases h
        exact .inl ⟨rfl, rfl⟩
      · exact .inr (Option.some.inj h)
    · exact .inr (Option.some.inj h)
  · cases h
    exact .inl ⟨rfl, rfl⟩

/-! ## The entries of an object, errors stripped -/

def stripErrors (entries : List LogEntry) : List LogEntry :=
  entries.filter (fun e => e.isError = false)

theorem stripErrors_cons (e : LogEntry) (entries : List LogEntry) :
    stripErrors (e :: entries) =
      if e.isError = false then e :: stripErrors entries else stripErrors entries := by
  simp [stripErrors, filter_cons]

/-- The prior version an entry must name if it follows another: none after a delete. -/
def LogEntry.nextPrior (e : LogEntry) : Eversion := if e.isDelete then .zero else e.version

/-- **Entries linked by their prior versions.** -/
def Linked (entries : List LogEntry) : Prop :=
  entries.IsChain (fun a b => b.priorVersion = a.nextPrior)

/-- The loop after the first entry kept. -/
theorem keepEntries_of_seen (atBegin : Bool) {l : LogEntry} (hsoid : ∀ e ∈ entries, e.soid = hoid)
    (hafter : ∀ e ∈ entries, l.version < e.version)
    (hsorted : entries.Pairwise (fun a b => a.version < b.version))
    (hlinked : Linked (l :: stripErrors entries)) :
    keepEntries hoid atBegin true l.version entries = some (stripErrors entries) := by
  induction entries generalizing atBegin l with
  | nil => rfl
  | cons e entries ih =>
    obtain ⟨hfirst, hrest⟩ := pairwise_cons.mp hsorted
    have hlt := hafter e (by simp)
    have hsoid' := hsoid e (by simp)
    rw [stripErrors_cons] at hlinked ⊢
    rw [keepEntries]
    cases herr : e.isError with
    | true =>
      simp only [herr, Bool.true_eq_false, if_false] at hlinked
      simp only [hsoid', hlt, decide_true, Bool.or_true, Bool.true_and, and_self, if_true,
        Bool.true_eq_false, if_false]
      exact ih false (fun e' he' => hsoid e' (by simp [he']))
        (fun e' he' => hafter e' (by simp [he'])) hrest hlinked
    | false =>
      simp only [herr, if_true] at hlinked
      obtain ⟨hprior, hlinked⟩ := isChain_cons_cons.mp hlinked
      have hcheck : decide (e.priorVersion = .zero) ||
          decide (e.priorVersion = l.version) = true := by
        rw [hprior, LogEntry.nextPrior]
        cases l.isDelete <;> simp
      have hkeep := ih false (l := e) (fun e' he' => hsoid e' (by simp [he'])) hfirst hrest
        hlinked
      rw [hkeep, if_pos]
      · simp
      · refine ⟨hsoid', ?_⟩
        simp only [hlt, decide_true, Bool.true_and, Bool.or_false, Bool.not_true,
          Bool.false_and]
        cases h1 : decide (e.priorVersion = .zero) <;> simp_all

/-- **The loop keeps the entries that are no errors**, if these are linked. -/
theorem keepEntries_eq (atBegin : Bool) (hsoid : ∀ e ∈ entries, e.soid = hoid)
    (hpos : ∀ e ∈ entries, .zero < e.version)
    (hsorted : entries.Pairwise (fun a b => a.version < b.version))
    (hlinked : Linked (stripErrors entries)) :
    keepEntries hoid atBegin false .zero entries = some (stripErrors entries) := by
  induction entries generalizing atBegin with
  | nil => rfl
  | cons e entries ih =>
    obtain ⟨hfirst, hrest⟩ := pairwise_cons.mp hsorted
    have hsoid' := hsoid e (by simp)
    have hsoids : ∀ e' ∈ entries, e'.soid = hoid := fun e' he' => hsoid e' (by simp [he'])
    rw [stripErrors_cons] at hlinked ⊢
    rw [keepEntries]
    cases herr : e.isError with
    | true =>
      simp only [herr, Bool.true_eq_false, if_false] at hlinked
      simp only [hsoid', hpos e (by simp), decide_true, Bool.or_true, Bool.true_and, and_self,
        if_true, Bool.true_eq_false, if_false]
      exact ih false hsoids (fun e' he' => hpos e' (by simp [he'])) hrest hlinked
    | false =>
      simp only [herr, if_true] at hlinked
      rw [keepEntries_of_seen false hsoids hfirst hrest hlinked]
      simp [hsoid']

/-! ## All objects -/

/-- The entries of one object, errors included. -/
def entriesOf (entries : List LogEntry) (o : Soid) : List LogEntry :=
  entries.filter (fun e => e.soid = o)

theorem stripErrors_entriesOf (entries : List LogEntry) (o : Soid) :
    stripErrors (entriesOf entries o) = objEntries entries o := by
  rw [stripErrors, entriesOf, filter_filter, objEntries]
  refine filter_congr fun e _ => ?_
  simp [Bool.and_comm]

theorem get_splitByObject (entries : List LogEntry) (o : Soid) :
    (splitByObject entries).get o =
      if entriesOf entries o = [] then none else some (entriesOf entries o) := by
  induction entries using List.reverseRecOn with
  | nil => rfl
  | append_singleton entries e ih =>
    have hsplit : splitByObject (entries ++ [e]) = (splitByObject entries).insert e.soid
        (((splitByObject entries).get e.soid).getD [] ++ [e]) := by
      simp [splitByObject]
    have hentries : entriesOf (entries ++ [e]) o =
        entriesOf entries o ++ if e.soid = o then [e] else [] := by
      by_cases h : e.soid = o <;> simp [entriesOf, h]
    rw [hsplit, OrdMap.get_insert, hentries]
    by_cases h : o = e.soid
    · subst h
      rw [if_pos rfl, if_pos rfl, if_neg (by simp), ih]
      by_cases hnil : entriesOf entries e.soid = []
      · simp [hnil]
      · simp [hnil]
    · rw [if_neg h, if_neg (Ne.symm h), ih, append_nil]

/-- **The loop over the objects.** If each object's merge returns a result that depends on its
own item, every object ends with its own result. -/
theorem mergeObjects_spec (lastBackfill : Soid) (canRollbackTo : Eversion)
    (res : Soid → Option MissingItem × List HandlerCall) {split : List (Soid × List LogEntry)}
    (hnodup : split.Pairwise (fun a b => a.1 ≠ b.1)) {m : MissingSet}
    (hres : ∀ p ∈ split, CallsOnly p.1 (res p.1).2 ∧ ∀ m₁ : MissingSet,
      m₁.get p.1 = m.get p.1 → m₁.mayIncludeDeletes = m.mayIncludeDeletes →
      ∃ m₂, mergeObjectDivergentEntries log p.1 p.2 lastBackfill canRollbackTo m₁ =
          some (m₂, (res p.1).2) ∧
        m₁.Tracked m₂ ∧ ∀ o, m₂.get o = if o = p.1 then (res p.1).1 else m₁.get o) :
    ∃ m' calls, mergeObjects log lastBackfill canRollbackTo split m = some (m', calls) ∧
      m.Tracked m' ∧
      ∀ o, (o ∈ split.map Prod.fst →
          m'.get o = (res o).1 ∧ ∀ v, storedAfter o v calls = storedAfter o v (res o).2) ∧
        (o ∉ split.map Prod.fst → m'.get o = m.get o ∧ ∀ v, storedAfter o v calls = v) := by
  induction split generalizing m with
  | nil => exact ⟨m, [], rfl, MissingSet.Tracked.refl m, by simp [storedAfter]⟩
  | cons p split ih =>
    obtain ⟨hne, hnodup'⟩ := pairwise_cons.mp hnodup
    obtain ⟨honly, hmerge⟩ := hres p (by simp)
    obtain ⟨m₂, hm₂, htracked, hget⟩ := hmerge m rfl rfl
    -- the objects that follow still have the items they began with
    obtain ⟨m', calls, hloop, htracked', hall⟩ := ih (m := m₂) hnodup' (by
      intro q hq
      refine ⟨(hres q (by simp [hq])).1, fun m₁ hitem hmid => ?_⟩
      refine (hres q (by simp [hq])).2 m₁ ?_ (hmid.trans htracked.mayIncludeDeletes_eq)
      rw [hitem, hget, if_neg (Ne.symm (hne q hq))])
    refine ⟨m', (res p.1).2 ++ calls, ?_, htracked.trans htracked', ?_⟩
    · obtain ⟨hoid, entries⟩ := p
      rw [mergeObjects, hm₂, Option.bind_some, hloop]
      rfl
    · intro o
      simp only [storedAfter_append, map_cons, mem_cons, not_or]
      by_cases ho : o = p.1
      · have hnot : o ∉ split.map Prod.fst := by
          intro hmem
          obtain ⟨q, hq, hqo⟩ := mem_map.mp hmem
          exact hne q hq (hqo.trans ho).symm
        obtain ⟨hitem, hcalls⟩ := (hall o).2 hnot
        refine ⟨fun _ => ⟨?_, fun v => ?_⟩, fun h => absurd ho h.1⟩
        · rw [hitem, hget, if_pos ho, ho]
        · rw [hcalls, ho]
      · refine ⟨fun h => ?_, fun h => ?_⟩
        · obtain ⟨hitem, hcalls⟩ := (hall o).1 (h.resolve_left ho)
          refine ⟨hitem, fun v => ?_⟩
          rw [honly o ho, hcalls]
        · obtain ⟨hitem, hcalls⟩ := (hall o).2 h.2
          refine ⟨by rw [hitem, hget, if_neg ho], fun v => ?_⟩
          rw [honly o ho, hcalls]

theorem mem_splitByObject (h : (hoid, entries) ∈ (splitByObject divergent).entries) :
    entries = entriesOf divergent hoid ∧ entriesOf divergent hoid ≠ [] := by
  have hget := (OrdMap.mem_entries_iff _ _ _).mp h
  rw [get_splitByObject] at hget
  split_ifs at hget with hnil
  exact ⟨(Option.some.inj hget).symm, hnil⟩

theorem keepEntries_entriesOf (hoid : Soid)
    (hpos : ∀ e ∈ entriesOf divergent hoid, .zero < e.version)
    (hsorted : divergent.Pairwise (fun a b => a.version < b.version))
    (hlinked : Linked (objEntries divergent hoid)) :
    keepEntries hoid true false .zero (entriesOf divergent hoid) =
      some (objEntries divergent hoid) := by
  rw [← stripErrors_entriesOf] at hlinked ⊢
  refine keepEntries_eq true ?_ hpos (hsorted.filter _) hlinked
  intro e he
  simpa using (mem_filter.mp he).2

/-- Nothing happens to an object beyond the backfill range or with errors only. -/
theorem mergeObjectDivergentEntries_inert (m : MissingSet) (horig : origEntries ≠ [])
    (hkeep : keepEntries hoid true false .zero origEntries = some entries)
    (h : lastBackfill < hoid ∨ entries = []) :
    mergeObjectDivergentEntries log hoid origEntries lastBackfill canRollbackTo m =
      some (m, []) := by
  unfold mergeObjectDivergentEntries
  by_cases hb : lastBackfill < hoid
  · rw [if_pos hb]
  · rw [if_neg hb, if_neg horig, hkeep, h.resolve_left hb]
    rfl

/-- **Merging divergent entries.** If the entries of each object within the backfill range
merge into its item, every such object ends with its own result and the others keep theirs. -/
theorem mergeDivergentEntries_spec (lastBackfill : Soid) (canRollbackTo : Eversion) (m : MissingSet)
    (res : Soid → Option MissingItem × List HandlerCall) (hpos : ∀ e ∈ divergent, .zero < e.version)
    (hsorted : divergent.Pairwise (fun a b => a.version < b.version))
    (hlinked : ∀ o, Linked (objEntries divergent o))
    (hres : ∀ o first last, o ≤ lastBackfill → (objEntries divergent o).head? = some first →
      (objEntries divergent o).getLast? = some last →
      MergesItem (log.objects.get o) m.mayIncludeDeletes canRollbackTo o first last
        (objEntries divergent o) (m.get o) (res o).1 (res o).2) :
    ∃ m' calls, mergeDivergentEntries log divergent lastBackfill canRollbackTo m =
        some (m', calls) ∧
      m.Tracked m' ∧
      ∀ o, (o ≤ lastBackfill → objEntries divergent o ≠ [] →
          m'.get o = (res o).1 ∧ ∀ v, storedAfter o v calls = storedAfter o v (res o).2) ∧
        (lastBackfill < o ∨ objEntries divergent o = [] →
          m'.get o = m.get o ∧ ∀ v, storedAfter o v calls = v) := by
  -- objects beyond the backfill range, and those with errors only, keep what they have
  let res' := fun o =>
    if o ≤ lastBackfill ∧ objEntries divergent o ≠ [] then res o else (m.get o, [])
  have hpos' : ∀ o, ∀ e ∈ entriesOf divergent o, .zero < e.version :=
    fun o e he => hpos e (mem_filter.mp he).1
  obtain ⟨m', calls, hloop, htracked, hall⟩ := mergeObjects_spec log lastBackfill canRollbackTo
    res' ((splitByObject divergent).sorted.imp fun h => h.ne) (m := m) (by
      rintro ⟨hoid, entries⟩ hp
      obtain ⟨hentries, hne⟩ := mem_splitByObject hp
      subst hentries
      have hkeep := keepEntries_entriesOf hoid (hpos' hoid) hsorted (hlinked hoid)
      by_cases hcase : hoid ≤ lastBackfill ∧ objEntries divergent hoid ≠ []
      · obtain ⟨first, hfirst⟩ : ∃ e, (objEntries divergent hoid).head? = some e :=
          Option.ne_none_iff_exists'.mp (by simpa using hcase.2)
        obtain ⟨last, hlast⟩ : ∃ e, (objEntries divergent hoid).getLast? = some e :=
          Option.ne_none_iff_exists'.mp (by simpa using hcase.2)
        have hitem := hres hoid first last hcase.1 hfirst hlast
        have hr : res' hoid = res hoid := if_pos hcase
        rw [hr]
        refine ⟨hitem.callsOnly fun e he => (mem_objEntries.mp he).2.1, fun m₁ hget hmid => ?_⟩
        rw [← hget, ← hmid] at hitem
        exact mergeObjectDivergentEntries_spec log hcase.1 hne hkeep hfirst hlast hitem
      · have hr : res' hoid = (m.get hoid, []) := if_neg hcase
        rw [hr]
        refine ⟨fun o _ v => rfl, fun m₁ hget _ => ⟨m₁, ?_, MissingSet.Tracked.refl m₁, ?_⟩⟩
        · exact mergeObjectDivergentEntries_inert log m₁ hne hkeep (by
            by_contra hc
            push Not at hc
            exact hcase hc)
        · intro o
          by_cases ho : o = hoid
          · rw [if_pos ho, ho, hget]
          · rw [if_neg ho])
  refine ⟨m', calls, hloop, htracked, fun o => ⟨fun hb hne => ?_, fun hcase => ?_⟩⟩
  · have hkey : o ∈ (splitByObject divergent).entries.map Prod.fst := by
      rw [← OrdMap.keys, OrdMap.mem_keys_iff, OrdMap.mem_iff_isSome, get_splitByObject, if_neg]
      · rfl
      · intro hnil
        rw [← stripErrors_entriesOf, hnil] at hne
        exact hne rfl
    have hr : res' o = res o := if_pos ⟨hb, hne⟩
    have := (hall o).1 hkey
    rwa [hr] at this
  · by_cases hkey : o ∈ (splitByObject divergent).entries.map Prod.fst
    · have hr : res' o = (m.get o, []) := by
        refine if_neg ?_
        rintro ⟨h1, h2⟩
        exact hcase.elim (fun h => absurd h1 (not_le.mpr h)) h2
      have := (hall o).1 hkey
      rwa [hr] at this
    · exact (hall o).2 hkey

end Ceph.Osd
