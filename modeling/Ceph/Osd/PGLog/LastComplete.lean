import Ceph.Osd.MissingIndex
import Ceph.Osd.PGLog.MergeSound
import Ceph.Osd.PGLog.Operations

set_option autoImplicit false

/-! # How far a log is complete

While objects are recovered, `complete_to` stands at the first log entry that is not complete, and
`info.last_complete` at the version before it. `reset_complete_to` sets both from the oldest
version that is needed, and `recover_got` moves them on whenever an object is recovered.

`last_complete` stays below every version that is needed (`Recovering.Inv`), and comes up to
`last_update` when the last object is recovered. If nothing is missing to begin with,
`reset_complete_to` sends it back to `0'0`, and there it stays.
-/

namespace Ceph.Osd

open MissingSet OrdMap Option List

/-! ## The model -/

/-- The iterator `complete_to`: the entries it has passed, the last one first, and those from where
it stands. -/
structure CompleteTo where
  passed : List LogEntry
  rest : List LogEntry
  deriving DecidableEq

/-- The version before the iterator. -/
def CompleteTo.previous (c : CompleteTo) : Eversion := (c.passed.head?.map (·.version)).getD .zero

/-- The loop of `reset_complete_to`; nothing where the iterator comes to the end. -/
def skipOlder (oldestNeed : Eversion) : List LogEntry → List LogEntry → Option CompleteTo
  | _, [] => none
  | passed, e :: rest =>
    if e.version < oldestNeed then skipOlder oldestNeed (e :: passed) rest
    else some ⟨passed, e :: rest⟩

/-- Where `reset_complete_to` lets the iterator stand. -/
def startAt (oldestNeed : Eversion) (log : List LogEntry) : Option CompleteTo :=
  if oldestNeed ≠ .zero then skipOlder oldestNeed [] log else some ⟨[], log⟩

/-- The loop of `recover_got`. -/
def raiseLastComplete (oldestNeed : Eversion) :
    List LogEntry → List LogEntry → Eversion → CompleteTo × Eversion
  | passed, [], lastComplete => (⟨passed, []⟩, lastComplete)
  | passed, e :: rest, lastComplete =>
    if oldestNeed ≤ e.version then (⟨passed, e :: rest⟩, lastComplete)
    else raiseLastComplete oldestNeed (e :: passed) rest
      (if lastComplete < e.version then e.version else lastComplete)

/-- A log with what is missing, the info and the iterator. -/
structure Recovering where
  pglog : PGLog
  info : PgInfo
  completeTo : CompleteTo
  deriving DecidableEq

namespace Recovering

/-- `reset_complete_to`; nothing where an assertion fails. -/
def resetCompleteTo (s : Recovering) : Option Recovering :=
  match s.pglog.log.log with
  | [] => some s
  | first :: more => do
    let oldestNeed ← s.pglog.missing.getOldestNeed
    let c ← startAt oldestNeed (first :: more)
    return { s with completeTo := c, info := { s.info with lastComplete := c.previous } }

/-- `recover_got`; nothing where an assertion fails. -/
def recoverGot (s : Recovering) (oid : Soid) (v : Eversion) : Option Recovering := do
  let p ← s.pglog.recoverGot oid v
  if (s.pglog.missing.get oid).any (fun item => item.need ≤ v) then
    let s' := if p.missing.missing.entries = [] then
        { s with
          completeTo := ⟨p.log.log.reverse, []⟩
          info := { s.info with lastComplete := s.info.lastUpdate } }
      else s
    let oldestNeed ← p.missing.getOldestNeed
    let (c, lastComplete) := raiseLastComplete oldestNeed s'.completeTo.passed s'.completeTo.rest
      s'.info.lastComplete
    return { pglog := p, completeTo := c, info := { s'.info with lastComplete := lastComplete } }
  else return { s with pglog := p }

/-- One call of `recover_got`. -/
def step (s : Recovering) (got : Soid × Eversion) : Option Recovering := s.recoverGot got.1 got.2

end Recovering

variable {c : CompleteTo} {v : Eversion} {log passed rest : List LogEntry} {m : MissingSet}
  {s s' : Recovering}

namespace MissingSet

/-- The versions needed are versions of one history, and none of them is `0'0`. -/
structure OneHistory (m : MissingSet) : Prop where
  upto : ∀ o o' item item', m.get o = some item → m.get o' = some item' →
    item.need.Upto item'.need ∨ item'.need.Upto item.need
  need_ne_zero : ∀ o item, m.get o = some item → item.need ≠ .zero

theorem get_of_get_rmItem {oid o : Soid} {item : MissingItem}
    (h : (m.rmItem oid).get o = some item) : m.get o = some item := by
  rw [get_rmItem] at h
  split_ifs at h
  exact h

theorem OneHistory.rmItem (h : m.OneHistory) (oid : Soid) : (m.rmItem oid).OneHistory := by
  refine ⟨fun o o' item item' hitem hitem' => ?_, fun o item hitem => ?_⟩
  · exact h.upto o o' item item' (get_of_get_rmItem hitem) (get_of_get_rmItem hitem')
  · exact h.need_ne_zero o item (get_of_get_rmItem hitem)

/-- **`get_oldest_need` finds the oldest need.** -/
theorem getOldestNeed_spec (hindex : m.Indexed) (h : m.OneHistory) (hne : m.missing.entries ≠ []) :
    ∃ oid item, m.get oid = some item ∧ m.getOldestNeed = some item.need ∧
      ∀ o item', m.get o = some item' → item.need ≤ item'.need := by
  obtain ⟨⟨o₀, item₀⟩, more, hentries⟩ := exists_cons_of_ne_nil hne
  have hkey : ∀ o item, m.get o = some item → (item.need.version, o) ∈ m.rmissing.entries := by
    intro o item hitem
    exact (mem_entries_iff _ _ _).mpr (OrdMap.Inverse.get_key hindex hitem)
  have hfirst : m.get o₀ = some item₀ :=
    (mem_entries_iff m.missing o₀ item₀).mp (hentries ▸ mem_cons_self)
  obtain ⟨⟨v, oid⟩, keys, hkeys⟩ :=
    exists_cons_of_ne_nil (ne_nil_of_mem (hkey o₀ item₀ hfirst))
  have hoid : m.rmissing.get v = some oid :=
    (mem_entries_iff _ _ _).mp (hkeys ▸ mem_cons_self)
  obtain ⟨item, hget, rfl⟩ := (hindex v oid).mp hoid
  have hitem : m.get oid = some item := hget
  refine ⟨oid, item, hitem, ?_, fun o item' hitem' => ?_⟩
  · rw [getOldestNeed, hentries, hkeys]
    show (m.get oid).map (·.need) = some item.need
    rw [hitem]
    rfl
  · -- the first key is the least one, and a key belongs to one object
    have hmem := hkey o item' hitem'
    have hsorted := m.rmissing.sorted
    rw [hkeys] at hmem hsorted
    rcases mem_cons.mp hmem with heq | hlater
    · obtain ⟨-, rfl⟩ := Prod.mk.inj heq
      rw [hitem, Option.some.injEq] at hitem'
      rw [hitem']
    · have hlt : item.need.version < item'.need.version :=
        (pairwise_cons.mp hsorted).1 _ hlater
      rcases h.upto oid o item item' hitem hitem' with hupto | hupto
      · exact hupto.le
      · exact absurd hupto.2 (not_le.mpr hlt)

end MissingSet

/-! ## The iterator -/

/-- The iterator stands in the log, and `last_complete` is the version before it, unless it has
come to the end. -/
structure Standing (log : List LogEntry) (c : CompleteTo) (lastComplete : Eversion) : Prop where
  split : c.passed.reverse ++ c.rest = log
  previous : c.rest ≠ [] → lastComplete = c.previous

theorem CompleteTo.previous_cons (e : LogEntry) (passed rest : List LogEntry) :
    (⟨e :: passed, rest⟩ : CompleteTo).previous = e.version := rfl

/-- The version before the iterator is older than the entry it stands at. -/
theorem CompleteTo.previous_le {e : LogEntry}
    (hsorted : (passed.reverse ++ e :: rest).Pairwise fun a b => a.version < b.version) :
    (⟨passed, e :: rest⟩ : CompleteTo).previous ≤ e.version := by
  cases passed with
  | nil => exact Eversion.zero_le _
  | cons d passed =>
    rw [CompleteTo.previous_cons]
    exact ((pairwise_append.mp hsorted).2.2 d (by simp) e mem_cons_self).le

/-- **The loop of `reset_complete_to`** passes entries older than the need only. -/
theorem skipOlder_spec {oldestNeed : Eversion} (h : skipOlder oldestNeed passed rest = some c)
    (hpassed : ∀ e ∈ passed, e.version < oldestNeed) :
    c.passed.reverse ++ c.rest = passed.reverse ++ rest ∧
      ∀ e ∈ c.passed, e.version < oldestNeed := by
  induction rest generalizing passed with
  | nil => exact nomatch h
  | cons e rest ih =>
    rw [skipOlder] at h
    split_ifs at h with hlt
    · obtain ⟨hsplit, hc⟩ := ih h (forall_mem_cons.mpr ⟨hlt, hpassed⟩)
      refine ⟨?_, hc⟩
      rw [hsplit, reverse_cons, append_assoc, singleton_append]
    · cases h
      exact ⟨rfl, hpassed⟩

/-- **The loop of `recover_got`** moves on to entries of the log older than the need only. -/
theorem raiseLastComplete_spec (oldestNeed : Eversion)
    (hsorted : log.Pairwise fun a b => a.version < b.version) {lastComplete : Eversion}
    (h : Standing log ⟨passed, rest⟩ lastComplete) :
    Standing log (raiseLastComplete oldestNeed passed rest lastComplete).1
        (raiseLastComplete oldestNeed passed rest lastComplete).2 ∧
      lastComplete ≤ (raiseLastComplete oldestNeed passed rest lastComplete).2 ∧
      ((raiseLastComplete oldestNeed passed rest lastComplete).2 = lastComplete ∨
        ∃ e ∈ log, e.version < oldestNeed ∧
          (raiseLastComplete oldestNeed passed rest lastComplete).2 = e.version) := by
  induction rest generalizing passed lastComplete with
  | nil => exact ⟨h, le_rfl, .inl rfl⟩
  | cons e rest ih =>
    by_cases hneed : oldestNeed ≤ e.version
    · rw [raiseLastComplete, if_pos hneed]
      exact ⟨h, le_rfl, .inl rfl⟩
    · have hle : lastComplete ≤ e.version := by
        rw [h.previous (cons_ne_nil e rest)]
        exact CompleteTo.previous_le (h.split ▸ hsorted)
      have hraised :
          (if lastComplete < e.version then e.version else lastComplete) = e.version := by
        rcases hle.lt_or_eq with hlt | heq
        · rw [if_pos hlt]
        · rw [heq, if_neg (lt_irrefl _)]
      have hmem : e ∈ log := by
        rw [← h.split]
        simp
      have hnext : Standing log ⟨e :: passed, rest⟩ e.version := by
        refine ⟨?_, fun _ => rfl⟩
        rw [← h.split, reverse_cons, append_assoc, singleton_append]
      obtain ⟨hstanding, hmono, hvalue⟩ := ih hnext
      rw [raiseLastComplete, if_neg hneed, hraised]
      refine ⟨hstanding, hle.trans hmono, .inr ?_⟩
      rcases hvalue with heq | hlater
      · exact ⟨e, hmem, not_le.mp hneed, heq⟩
      · exact hlater

namespace Recovering

/-- **What the log, the missing set and the info have to do with each other** before the iterator
is set. The iterator of an empty log stands at its end, and there is nothing to tell how far that
log is complete but `last_complete` itself. -/
structure Consistent (s : Recovering) : Prop where
  ordered : s.pglog.log.toPgLog.Ordered
  lastUpdate : s.info.lastUpdate = s.pglog.log.head
  indexed : s.pglog.missing.Indexed
  oneHistory : s.pglog.missing.OneHistory
  empty : s.pglog.log.log = [] → s.completeTo = ⟨[], []⟩ ∧
    s.info.lastComplete ≤ s.info.lastUpdate ∧
    ∀ o item, s.pglog.missing.get o = some item → s.info.lastComplete < item.need

/-- **The state between calls of `recover_got`.** -/
structure Inv (s : Recovering) : Prop where
  sorted : s.pglog.log.log.Pairwise fun a b => a.version < b.version
  upto : ∀ e ∈ s.pglog.log.log, e.version ≤ s.info.lastUpdate
  indexed : s.pglog.missing.Indexed
  oneHistory : s.pglog.missing.OneHistory
  standing : Standing s.pglog.log.log s.completeTo s.info.lastComplete
  below : ∀ o item, s.pglog.missing.get o = some item → s.info.lastComplete < item.need
  le : s.info.lastComplete ≤ s.info.lastUpdate

theorem Consistent.sorted (h : s.Consistent) :
    s.pglog.log.log.Pairwise fun a b => a.version < b.version :=
  h.ordered.sorted.imp fun hab => hab.lt

theorem Consistent.upto (h : s.Consistent) :
    ∀ e ∈ s.pglog.log.log, e.version ≤ s.info.lastUpdate := by
  intro e he
  rw [h.lastUpdate]
  exact (h.ordered.below e he).le

theorem previous_lt (hv : v ≠ .zero) (hc : ∀ e ∈ c.passed, e.version < v) : c.previous < v := by
  obtain ⟨passed, rest⟩ := c
  cases passed with
  | nil => exact lt_of_le_of_ne (Eversion.zero_le v) (Ne.symm hv)
  | cons e passed => exact hc e mem_cons_self

theorem previous_le_of_split (hsplit : c.passed.reverse ++ c.rest = log)
    (hlog : ∀ e ∈ log, e.version ≤ v) : c.previous ≤ v := by
  obtain ⟨passed, rest⟩ := c
  cases passed with
  | nil => exact Eversion.zero_le v
  | cons e passed => exact hlog e (by rw [← hsplit]; simp)

/-- **Resetting the iterator.** -/
theorem Consistent.reset (h : s.Consistent) (hreset : s.resetCompleteTo = some s') :
    s'.Inv ∧ s'.pglog = s.pglog := by
  rw [resetCompleteTo] at hreset
  cases hlog : s.pglog.log.log with
  | nil =>
    rw [hlog] at hreset
    cases hreset
    obtain ⟨hc, hle, hbelow⟩ := h.empty hlog
    refine ⟨⟨h.sorted, h.upto, h.indexed, h.oneHistory, ?_, hbelow, hle⟩, rfl⟩
    rw [hc, hlog]
    exact ⟨rfl, fun hne => absurd rfl hne⟩
  | cons first more =>
    rw [hlog] at hreset
    simp only [bind_eq_bind, bind_eq_some_iff] at hreset
    obtain ⟨oldestNeed, hneed, c, hc, hs'⟩ := hreset
    cases hs'
    have hpassed : c.passed.reverse ++ c.rest = s.pglog.log.log ∧
        (oldestNeed ≠ .zero → ∀ e ∈ c.passed, e.version < oldestNeed) := by
      rw [hlog]
      rw [startAt] at hc
      split_ifs at hc with hzero
      · obtain ⟨hsplit, hold⟩ := skipOlder_spec hc (fun _ he => nomatch he)
        exact ⟨hsplit, fun _ => hold⟩
      · cases hc
        exact ⟨rfl, fun hne => absurd hne hzero⟩
    refine ⟨⟨h.sorted, h.upto, h.indexed, h.oneHistory, ⟨hpassed.1, fun _ => rfl⟩, ?_,
      previous_le_of_split hpassed.1 h.upto⟩, rfl⟩
    intro o item hitem
    obtain ⟨oid, oldest, holdest, hget, hleast⟩ :=
      getOldestNeed_spec h.indexed h.oneHistory (entries_ne_nil hitem)
    rw [hget, Option.some.injEq] at hneed
    have hzero : oldestNeed ≠ .zero := hneed ▸ h.oneHistory.need_ne_zero oid oldest holdest
    calc c.previous < oldestNeed := previous_lt hzero (hpassed.2 hzero)
      _ = oldest.need := hneed.symm
      _ ≤ item.need := hleast o item hitem

/-- **Resetting the iterator with nothing missing** sends it to the first entry. -/
theorem reset_of_nothing_missing (hnil : s.pglog.missing.missing.entries = [])
    (hlog : s.pglog.log.log ≠ []) (hreset : s.resetCompleteTo = some s') :
    s'.completeTo = ⟨[], s.pglog.log.log⟩ ∧ s'.info.lastComplete = .zero := by
  obtain ⟨first, more, hcons⟩ := exists_cons_of_ne_nil hlog
  have hneed : s.pglog.missing.getOldestNeed = some .zero := by rw [getOldestNeed, hnil]
  rw [resetCompleteTo, hcons, hneed] at hreset
  cases hreset
  exact ⟨by rw [hcons], rfl⟩

theorem eq_of_recoverGot {p p' : PGLog} {oid : Soid} (h : p.recoverGot oid v = some p') :
    p' = { p with missing := if (p.missing.get oid).any (fun item => item.need ≤ v) then
        p.missing.rmItem oid else p.missing } := by
  simp only [PGLog.recoverGot, bind_eq_some_iff] at h
  obtain ⟨missing, hmissing, hp⟩ := h
  simp only [ite_none_right_eq_some, Option.some.injEq] at hp
  obtain ⟨-, rfl⟩ := hp
  split_ifs at hmissing ⊢
  · rw [eq_rmItem_of_got hmissing]
  · rw [← Option.some.inj hmissing]

/-- **One call of `recover_got`** keeps the invariant, does not lower `last_complete`, and brings it
up to `last_update` if it recovers the last missing object. -/
theorem Inv.step {got : Soid × Eversion} (h : s.Inv) (hstep : s.step got = some s') :
    s'.Inv ∧ s.info.lastComplete ≤ s'.info.lastComplete ∧
      s'.info.lastUpdate = s.info.lastUpdate ∧
      (s.pglog.missing.missing.entries ≠ [] → s'.pglog.missing.missing.entries = [] →
        s'.info.lastComplete = s'.info.lastUpdate) := by
  simp only [Recovering.step, recoverGot, bind_eq_bind, bind_eq_some_iff] at hstep
  obtain ⟨p, hp, hs'⟩ := hstep
  have hpglog := eq_of_recoverGot hp
  split_ifs at hpglog with hany
  · subst hpglog
    simp only [hany, if_true, bind_eq_some_iff] at hs'
    obtain ⟨oldestNeed, hneed, hs'⟩ := hs'
    have hindexed := indexed_rmItem h.indexed got.1
    have hhistory := h.oneHistory.rmItem got.1
    by_cases hnil : (s.pglog.missing.rmItem got.1).missing.entries = []
    · -- the last object: the iterator goes to the end and the loop has nothing to do
      simp only [hnil, if_true] at hs'
      cases hs'
      refine ⟨⟨h.sorted, h.upto, hindexed, hhistory, ⟨?_, fun hne => absurd rfl hne⟩, ?_,
        le_rfl⟩, h.le, rfl, fun _ _ => rfl⟩
      · show s.pglog.log.log.reverse.reverse ++ [] = s.pglog.log.log
        rw [reverse_reverse, append_nil]
      · intro o item hitem
        exact absurd hnil (entries_ne_nil hitem)
    · simp only [hnil, if_false] at hs'
      cases hs'
      obtain ⟨hstanding, hmono, hvalue⟩ :=
        raiseLastComplete_spec oldestNeed h.sorted h.standing
      obtain ⟨oid, oldest, holdest, hget, hleast⟩ :=
        getOldestNeed_spec hindexed hhistory hnil
      rw [hget, Option.some.injEq] at hneed
      refine ⟨⟨h.sorted, h.upto, hindexed, hhistory, hstanding, ?_, ?_⟩, hmono, rfl,
        fun _ hnil' => absurd hnil' hnil⟩
      · intro o item hitem
        rcases hvalue with heq | ⟨e, -, hlt, heq⟩
        · exact lt_of_eq_of_lt heq (h.below o item (get_of_get_rmItem hitem))
        · calc _ = e.version := heq
            _ < oldestNeed := hlt
            _ = oldest.need := hneed.symm
            _ ≤ item.need := hleast o item hitem
      · rcases hvalue with heq | ⟨e, he, -, heq⟩
        · exact heq.trans_le h.le
        · exact heq.trans_le (h.upto e he)
  · subst hpglog
    simp only [hany] at hs'
    cases hs'
    exact ⟨h, le_rfl, rfl, fun hne hnil => absurd hnil hne⟩

/-- **The bookkeeping of `last_complete`.** After `reset_complete_to` and any calls of
`recover_got`, the version `last_complete` is below every version that is needed and is the version
before the entry `complete_to` stands at; a further call does not lower it; and if objects were
missing and none is any more, it is `last_update`. If nothing is missing to begin with in a log
with entries, the reset itself sends `complete_to` to the first entry and `last_complete` to
`0'0`. -/
theorem last_complete_kept (s₀ s : Recovering) (h₀ : s₀.Consistent)
    (hreset : s₀.resetCompleteTo = some s) (gots : List (Soid × Eversion)) (t : Recovering)
    (hrun : Transition.run step gots s = some t) :
    (∀ got t', t.step got = some t' → t.info.lastComplete ≤ t'.info.lastComplete) ∧
      (∀ oid item, t.pglog.missing.get oid = some item → t.info.lastComplete < item.need) ∧
      (∀ v, t.pglog.missing.missing.entries ≠ [] → t.pglog.missing.getOldestNeed = some v →
        t.info.lastComplete < v) ∧
      (t.completeTo.passed.reverse ++ t.completeTo.rest = t.pglog.log.log ∧
        (t.completeTo.rest ≠ [] → t.info.lastComplete = t.completeTo.previous)) ∧
      (s₀.pglog.missing.missing.entries ≠ [] → t.pglog.missing.missing.entries = [] →
        t.info.lastComplete = t.info.lastUpdate) ∧
      (s₀.pglog.missing.missing.entries = [] → s₀.pglog.log.log ≠ [] →
        s.completeTo = ⟨[], s₀.pglog.log.log⟩ ∧ s.info.lastComplete = .zero) := by
  obtain ⟨hinv, hpglog⟩ := h₀.reset hreset
  -- once objects were missing, an empty missing set means that the log is complete
  let P : Recovering → Prop := fun t => t.Inv ∧ (s.pglog.missing.missing.entries ≠ [] →
    t.pglog.missing.missing.entries = [] → t.info.lastComplete = t.info.lastUpdate)
  have hstep : ∀ t got t', P t → t.step got = some t' → P t' := by
    rintro t got t' ⟨ht, hdone⟩ htstep
    obtain ⟨ht', hmono, hupdate, hlast⟩ := ht.step htstep
    refine ⟨ht', fun hne hnil => ?_⟩
    by_cases hbefore : t.pglog.missing.missing.entries = []
    · refine le_antisymm ht'.le ?_
      rw [hupdate, ← hdone hne hbefore]
      exact hmono
    · exact hlast hbefore hnil
  obtain ⟨ht, hdone⟩ := Transition.invariant_of_run hstep hrun
    ⟨hinv, fun hne hnil => absurd hnil hne⟩
  refine ⟨fun got t' hgot => (ht.step hgot).2.1, ht.below, ?_,
    ⟨ht.standing.split, ht.standing.previous⟩, fun hne => hdone (hpglog ▸ hne),
    fun hnil hlog => reset_of_nothing_missing hnil hlog hreset⟩
  intro v hne hv
  obtain ⟨oid, item, hitem, hget, -⟩ :=
    getOldestNeed_spec ht.indexed ht.oneHistory hne
  rw [hget, Option.some.injEq] at hv
  exact hv ▸ ht.below oid item hitem

/-- A log whose entries can no longer be rolled back, before the iterator is set. -/
def ofEntries (head : Eversion) (log : List LogEntry) (missing : MissingSet) : Recovering :=
  ⟨cleanPGLog { letterLog .zero head log with canRollbackTo := head } missing, completeInfo head,
    ⟨[], []⟩⟩

/-- Objects `a` and `b` are missing. -/
def twoMissing : Recovering :=
  ofEntries ⟨1, 3⟩
    [letterEntry .modify 0x61 ⟨1, 1⟩ .zero false, letterEntry .modify 0x62 ⟨1, 2⟩ .zero false,
      letterEntry .modify 0x61 ⟨1, 3⟩ ⟨1, 1⟩ false]
    (((MissingSet.empty false).put (letterObject 0x61) ⟨⟨1, 3⟩, ⟨1, 1⟩, false⟩).put
      (letterObject 0x62) ⟨⟨1, 2⟩, .zero, false⟩)

theorem twoMissing_consistent : twoMissing.Consistent := by
  have hneed : ∀ o item, twoMissing.pglog.missing.get o = some item →
      item.need = ⟨1, 2⟩ ∨ item.need = ⟨1, 3⟩ := by
    have hall : ∀ e ∈ twoMissing.pglog.missing.missing.entries,
        e.2.need = ⟨1, 2⟩ ∨ e.2.need = ⟨1, 3⟩ := by decide
    intro o item hitem
    exact hall (o, item) ((mem_entries_iff _ o item).mpr hitem)
  have hempty : (MissingSet.empty false).Indexed := inverse_empty _
  have hone := (indexed_put_iff hempty (letterObject 0x61)
    ⟨⟨1, 3⟩, ⟨1, 1⟩, false⟩).mpr (by decide)
  refine ⟨by decide, rfl, ?_, ⟨?_, ?_⟩, fun h => nomatch h⟩
  · exact (indexed_put_iff hone (letterObject 0x62)
      ⟨⟨1, 2⟩, .zero, false⟩).mpr (by decide)
  · intro o o' item item' hitem hitem'
    rcases hneed o item hitem with h | h <;> rcases hneed o' item' hitem' with h' | h' <;>
      rw [h, h'] <;> decide
  · intro o item hitem
    rcases hneed o item hitem with h | h <;> rw [h] <;> decide

/-- Both objects are recovered. -/
theorem last_complete_kept_two :
    ∃ s t, twoMissing.resetCompleteTo = some s ∧ s.info.lastComplete = ⟨1, 1⟩ ∧
      Transition.run step [(letterObject 0x62, ⟨1, 2⟩), (letterObject 0x61, ⟨1, 3⟩)] s = some t ∧
      t.info.lastComplete = t.info.lastUpdate := by
  refine ⟨_, _, rfl, rfl, rfl, ?_⟩
  exact (last_complete_kept twoMissing _ twoMissing_consistent rfl
    [(letterObject 0x62, ⟨1, 2⟩), (letterObject 0x61, ⟨1, 3⟩)] _ rfl).2.2.2.2.1
    (by decide) (by decide)

/-- Where nothing is missing, the iterator is sent to the first entry and `last_complete` to
`0'0`. -/
theorem last_complete_reset_to_zero :
    (ofEntries ⟨1, 1⟩ [letterEntry .modify 0x61 ⟨1, 1⟩ .zero false] (.empty false)).Consistent ∧
      ∃ s, (ofEntries ⟨1, 1⟩ [letterEntry .modify 0x61 ⟨1, 1⟩ .zero false]
        (.empty false)).resetCompleteTo = some s ∧ s.pglog.missing.missing.entries = [] ∧
        s.info.lastComplete = .zero ∧ s.info.lastUpdate = ⟨1, 1⟩ := by
  refine ⟨⟨by decide, rfl, inverse_empty _, ⟨?_, ?_⟩, fun h => nomatch h⟩, _, rfl, rfl, rfl,
    rfl⟩
  · intro o o' item item' h
    exact nomatch h
  · intro o item h
    exact nomatch h

end Recovering

end Ceph.Osd
