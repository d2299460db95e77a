import Ceph.Lib.Cursor
import Ceph.Lib.Transition
import Ceph.Osd.PGLog.Operations

set_option autoImplicit false

/-! # Consuming rollback information

An entry of an erasure-coded group carries what is needed to undo it. That information is given
up once: `rollback_info_trimmed_to` moves forward through the log, and the handler is told to roll
forward or to trim each entry it passes. `IndexedLog` remembers where it stands in a reverse
iterator, `rollback_info_trimmed_to_riter`, which is kept while entries are added at the head,
dropped at the tail and spliced in before it.

Here the iterator is a number, the count of entries up to and including the one it points to, so
that zero is `rend()` and the length of the log is `rbegin()`. This file has the operations of the
log with the iterator as the source moves it, and what each of them keeps: the iterator points to
the newest entry up to `rollback_info_trimmed_to` (`PgLog.RollbackOk`), and an entry beyond it has
not been given to the handler (`HistoryOk`).
-/

namespace Ceph.Osd

open List

namespace PgLog

/-- `reset_rollback_info_trimmed_to_riter`. -/
def resetRiter (l : PgLog) : ℕ :=
  (l.log.rdropWhile fun e => decide (l.rollbackInfoTrimmedTo < e.version)).length

/-- The entries that the loop of `advance_can_rollback_to` gives to its callback. -/
def visited (l : PgLog) (riter : ℕ) : List LogEntry :=
  Cursor.passed LogEntry.version l.rollbackInfoTrimmedTo l.log riter

end PgLog

/-- The iterator of a log with `n` entries when one is added at its head. An iterator at
`rbegin()` would come to point to the new entry, and is moved back. -/
def pushRiter (n riter : ℕ) : ℕ :=
  let riter := if riter = n then n + 1 else riter
  if riter = n + 1 then riter - 1 else riter

/-- The iterator when entries are added one after the other. -/
def pushRiters : List LogEntry → ℕ → ℕ → ℕ
  | [], _, riter => riter
  | _ :: entries, n, riter => pushRiters entries (n + 1) (pushRiter n riter)

/-- The iterator along the loop of `trim`, over the entries from the tail on. The last entry it
can point to takes it to `rend()`; an entry that goes before it leaves one less to count. -/
def popRiter (s : Eversion) : List LogEntry → ℕ → ℕ
  | [], riter => riter
  | e :: entries, riter =>
    if s < e.version then riter
    else if riter = 0 ∨ (((e :: entries).drop (riter - 1)).head?.any fun pointed =>
        decide (e.version = pointed.version)) = true then
      popRiter s entries 0
    else popRiter s entries (riter - 1)

theorem pushRiter_eq {n riter : ℕ} (h : riter ≤ n) : pushRiter n riter = riter := by
  unfold pushRiter
  by_cases hn : riter = n
  · simp [hn]
  · simp only [if_neg hn]
    rw [if_neg (by omega)]

theorem pushRiters_eq (entries : List LogEntry) {n riter : ℕ} (h : riter ≤ n) :
    pushRiters entries n riter = riter := by
  induction entries generalizing n with
  | nil => rfl
  | cons e entries ih =>
    rw [pushRiters, pushRiter_eq h]
    exact ih (h.trans (Nat.le_succ n))

/-- **Trimming entries up to the bound** takes each of them off the count. -/
theorem popRiter_eq {s b : Eversion} {entries : List LogEntry} {riter : ℕ}
    (hsorted : entries.Pairwise fun a b => a.version < b.version)
    (h : Cursor.At LogEntry.version b entries riter) (hs : s ≤ b) :
    popRiter s entries riter =
      riter - (entries.takeWhile fun e => !decide (s < e.version)).length := by
  induction entries generalizing riter with
  | nil => rfl
  | cons e entries ih =>
    obtain ⟨hfirst, hrest⟩ := pairwise_cons.mp hsorted
    unfold popRiter
    by_cases he : s < e.version
    · rw [if_pos he, takeWhile_cons_of_neg (by simpa using he), length_nil, Nat.sub_zero]
    · rw [if_neg he, takeWhile_cons_of_pos (by simpa using he), length_cons]
      have hcons : Cursor.At LogEntry.version b ([e] ++ entries) riter := h
      obtain ⟨hpos, hat⟩ := hcons.of_prepend (by simpa using (not_lt.mp he).trans hs)
      rw [length_singleton] at hpos hat
      -- versions differ, so the iterator points to the first entry if it is the only one counted
      have hpointed : (((e :: entries).drop (riter - 1)).head?.any fun pointed =>
          decide (e.version = pointed.version)) = true → riter - 1 = 0 := by
        intro hany
        by_contra hne
        obtain ⟨j, hj⟩ : ∃ j, riter - 1 = j + 1 := ⟨riter - 2, by omega⟩
        rw [hj, drop_succ_cons] at hany
        cases hhead : (entries.drop j).head? with
        | none => simp [hhead] at hany
        | some pointed =>
          rw [hhead, Option.any_some] at hany
          have hmem : pointed ∈ entries := mem_of_mem_drop (mem_of_mem_head? hhead)
          exact absurd (of_decide_eq_true hany) (hfirst pointed hmem).ne
      have hgoal : popRiter s entries (riter - 1) =
          riter - ((entries.takeWhile fun e => !decide (s < e.version)).length + 1) := by
        rw [ih hrest hat, Nat.sub_sub, Nat.add_comm 1]
      split_ifs with hzero
      · rcases hzero with hzero | hany
        · omega
        · rw [← hgoal, hpointed hany]
      · exact hgoal

/-! ## What the iterator points to -/

/-- **A log in order**: the versions of the entries increase, above the tail and up to the head. -/
structure PgLog.InOrder (l : PgLog) : Prop where
  sorted : l.log.Pairwise fun a b => a.version < b.version
  above : ∀ e ∈ l.log, l.tail < e.version
  below : ∀ e ∈ l.log, e.version ≤ l.head
  tail_le : l.tail ≤ l.head

instance (l : PgLog) : Decidable l.InOrder :=
  decidable_of_iff (l.log.Pairwise (fun a b => a.version < b.version) ∧
      (∀ e ∈ l.log, l.tail < e.version) ∧ (∀ e ∈ l.log, e.version ≤ l.head) ∧ l.tail ≤ l.head)
    ⟨fun ⟨h1, h2, h3, h4⟩ => ⟨h1, h2, h3, h4⟩, fun ⟨h1, h2, h3, h4⟩ => ⟨h1, h2, h3, h4⟩⟩

/-- **The bounds of a log and its iterator agree.** -/
structure PgLog.RollbackOk (l : PgLog) (riter : ℕ) : Prop where
  sorted : l.log.Pairwise fun a b => a.version < b.version
  above : ∀ e ∈ l.log, l.tail < e.version
  below : ∀ e ∈ l.log, e.version ≤ l.head
  tail_le : l.tail ≤ l.rollbackInfoTrimmedTo
  trimmed_le : l.rollbackInfoTrimmedTo ≤ l.canRollbackTo
  rollback_le : l.canRollbackTo ≤ l.head
  cursor : Cursor.At LogEntry.version l.rollbackInfoTrimmedTo l.log riter

/-- A cut at a version keeps entries up to it only. The loop of `rewind_from_head` compares version
numbers, so this is a condition on where the cut is made. -/
def PgLog.CutOk (l : PgLog) (newhead : Eversion) : Prop :=
  ∀ e ∈ l.log, e.version.version ≤ newhead.version → e.version ≤ newhead

instance (l : PgLog) (newhead : Eversion) : Decidable (l.CutOk newhead) :=
  inferInstanceAs (Decidable (∀ e ∈ l.log, _))

namespace PgLog.RollbackOk

variable {l l' : PgLog} {riter : ℕ}

theorem trimmed_le_head (h : l.RollbackOk riter) : l.rollbackInfoTrimmedTo ≤ l.head :=
  h.trimmed_le.trans h.rollback_le

/-- **Moving the bounds forward**, up to a version not beyond the head. -/
theorem advance {l : IndexedLog} (h : l.toPgLog.RollbackOk riter) {upTo : Eversion}
    (hle : upTo ≤ l.head) :
    (l.advanceCanRollbackTo upTo).1.toPgLog.RollbackOk
        (riter + ((l.advanceCanRollbackTo upTo).1.toPgLog.visited riter).length) ∧
      (l.advanceCanRollbackTo upTo).1.toPgLog.visited riter =
        (l.advanceCanRollbackTo upTo).2.1 := by
  obtain ⟨hat, hvisited⟩ := h.cursor.advance h.sorted
    (le_max_left l.rollbackInfoTrimmedTo upTo)
  exact ⟨⟨h.sorted, h.above, h.below, h.tail_le.trans (le_max_left _ _),
    max_le_max h.trimmed_le le_rfl, max_le h.rollback_le hle, hat⟩, hvisited⟩

/-- **Adding an entry at the head.** -/
theorem append {l : IndexedLog} (h : l.toPgLog.RollbackOk riter) {e : LogEntry}
    (he : l.head < e.version) : (l.append e).toPgLog.RollbackOk riter := by
  have hmem : ∀ a ∈ l.log ++ [e], a ∈ l.log ∨ a = e := fun a ha => by
    simpa using mem_append.mp ha
  refine ⟨?_, fun a ha => ?_, fun a ha => ?_, h.tail_le, h.trimmed_le, h.rollback_le.trans he.le,
    h.cursor.append (h.trimmed_le_head.trans_lt he)⟩
  · show (l.log ++ [e]).Pairwise _
    rw [pairwise_append]
    refine ⟨h.sorted, pairwise_singleton _ _, fun a ha b hb => ?_⟩
    rw [mem_singleton.mp hb]
    exact (h.below a ha).trans_lt he
  · rcases hmem a ha with ha | rfl
    · exact h.above a ha
    · exact (h.tail_le.trans h.trimmed_le_head).trans_lt he
  · rcases hmem a ha with ha | rfl
    · exact (h.below a ha).trans he.le
    · exact le_refl _

/-- **Dropping entries**: any part of the log, with the iterator found anew. -/
theorem filter (h : l.RollbackOk riter) (keep : LogEntry → Bool) :
    ({ l with log := l.log.filter keep } : PgLog).RollbackOk
      ({ l with log := l.log.filter keep } : PgLog).resetRiter :=
  ⟨h.sorted.filter _, fun e he => h.above e (mem_filter.mp he).1,
    fun e he => h.below e (mem_filter.mp he).1, h.tail_le, h.trimmed_le, h.rollback_le,
    Cursor.at_reset (h.sorted.filter _) _⟩

/-- **Splicing older entries in at the tail.** -/
theorem prepend (h : l.RollbackOk riter) {older : List LogEntry} {tail : Eversion}
    (hsorted : older.Pairwise fun a b => a.version < b.version)
    (habove : ∀ e ∈ older, tail < e.version) (hbelow : ∀ e ∈ older, e.version ≤ l.tail)
    (htail : tail ≤ l.tail) : ({ l with log := older ++ l.log, tail := tail } : PgLog).RollbackOk
      (riter + older.length) := by
  refine ⟨?_, fun e he => ?_, fun e he => ?_, htail.trans h.tail_le, h.trimmed_le, h.rollback_le,
    h.cursor.prepend fun e he => (hbelow e he).trans h.tail_le⟩
  · refine pairwise_append.mpr ⟨hsorted, h.sorted, fun a ha b hb => ?_⟩
    exact (hbelow a ha).trans_lt (h.above b hb)
  · rcases mem_append.mp he with he | he
    · exact habove e he
    · exact htail.trans_lt (h.above e he)
  · rcases mem_append.mp he with he | he
    · exact (hbelow e he).trans (h.tail_le.trans h.trimmed_le_head)
    · exact h.below e he

/-- **Trimming the tail**, up to `rollback_info_trimmed_to`. -/
theorem trim (h : l.RollbackOk riter) {s : Eversion} {taken rest : List LogEntry}
    (hlog : l.log = taken ++ rest) (htaken : ∀ e ∈ taken, e.version ≤ s)
    (hrest : ∀ e ∈ rest, s < e.version) (hs : s ≤ l.rollbackInfoTrimmedTo) {dups : List LogDup} :
    ({ l with log := rest, tail := s, dups := dups } : PgLog).RollbackOk
      (popRiter s l.log riter) := by
  have hcount : l.log.takeWhile (fun e => !decide (s < e.version)) = taken := by
    have hstop : rest.takeWhile (fun e => !decide (s < e.version)) = [] := by
      cases rest with
      | nil => rfl
      | cons e rest =>
        exact takeWhile_cons_of_neg (by simpa using hrest e mem_cons_self)
    rw [hlog, takeWhile_append_of_pos, hstop, append_nil]
    intro e he
    simpa using htaken e he
  have hcursor := h.cursor
  rw [popRiter_eq h.sorted hcursor hs, hcount]
  have hsorted := h.sorted
  rw [hlog] at hsorted hcursor
  obtain ⟨-, hat⟩ := hcursor.of_prepend fun e he => (htaken e he).trans hs
  exact ⟨(pairwise_append.mp hsorted).2.1, hrest,
    fun e he => h.below e (hlog ▸ mem_append_right _ he), hs, h.trimmed_le, h.rollback_le, hat⟩

end PgLog.RollbackOk

/-- **Cutting off the head.** What `rewind_from_head` keeps is up to the new head, what it returns
is beyond it. -/
theorem PgLog.RollbackOk.rewind {l l' : IndexedLog} {riter : ℕ} {newhead : Eversion}
    {divergent : List LogEntry} (h : l.toPgLog.RollbackOk riter) (hcut : l.toPgLog.CutOk newhead)
    (hrewind : l.rewindFromHead newhead = some (l', divergent)) :
    l'.toPgLog.RollbackOk l'.toPgLog.resetRiter ∧ l.log = l'.log ++ divergent ∧
      (∀ e ∈ l'.log, e.version ≤ newhead) ∧ (∀ e ∈ divergent, newhead < e.version) ∧
      l'.head = newhead ∧ ∀ e ∈ l'.log, l'.rollbackInfoTrimmedTo < e.version →
        e ∈ l.log ∧ l.rollbackInfoTrimmedTo < e.version := by
  have hmin : ∀ v : Eversion, (if newhead < v then newhead else v) = min v newhead := by
    intro v
    split_ifs with hv
    · rw [min_eq_right hv.le]
    · rw [min_eq_left (not_lt.mp hv)]
  unfold IndexedLog.rewindFromHead PgLog.rewindFromHead at hrewind
  simp only [hmin] at hrewind
  split_ifs at hrewind with htail hbeyond
  · exact absurd hrewind (by simp)
  · cases hrewind
    set beyond := fun e : LogEntry => decide (newhead.version < e.version.version)
    have hsplit : l.log.rdropWhile beyond ++ l.log.rtakeWhile beyond = l.log :=
      rdropWhile_append_rtakeWhile ..
    have hsub : (l.log.rdropWhile beyond).Sublist l.log := (l.log.rdropWhile_prefix beyond).sublist
    have hsorted := h.sorted.sublist hsub
    have hkept : ∀ e ∈ l.log.rdropWhile beyond, e.version ≤ newhead := by
      intro e he
      have hne := ne_nil_of_mem he
      -- the loop stopped at the last entry kept, and the others are older
      have hlast := rdropWhile_last_not beyond l.log hne
      have hle : (List.getLast _ hne).version ≤ newhead :=
        hcut _ (hsub.subset (getLast_mem hne)) (by simpa [beyond] using hlast)
      refine le_trans ?_ hle
      exact (hsorted.imp fun hab => hab.le).rel_getLast he
    refine ⟨⟨hsorted, fun e he => h.above e (hsub.subset he), hkept, ?_, ?_, min_le_right _ _,
      Cursor.at_reset hsorted _⟩, hsplit.symm, hkept, fun e he => ?_, rfl, fun e he hlt => ?_⟩
    · exact le_min h.tail_le (not_lt.mp htail)
    · exact min_le_min h.trimmed_le le_rfl
    · exact of_decide_eq_true (all_eq_true.mp hbeyond e he)
    · -- what is kept is up to the new head, so the bound was not moved
      exact ⟨hsub.subset he, (min_lt_iff.mp hlt).resolve_right (not_lt.mpr (hkept e he))⟩
  · exact absurd hrewind (by simp)

/-! ## What the handler was given -/

/-- **The history of a log**: the entries `handled` that were given to the handler when the bounds
moved forward, in their order, and all its calls. -/
structure HistoryOk (l : PgLog) (handled : List LogEntry) (calls : List HandlerCall) : Prop where
  increasing : handled.Pairwise fun a b => a.version < b.version
  fresh : ∀ e ∈ l.log, l.rollbackInfoTrimmedTo < e.version →
    (∀ a ∈ handled, a.version < e.version) ∧ .trim e ∉ calls
  rolled : ∀ e, .rollforward e ∈ calls → e ∈ handled
  undone : calls.Pairwise fun a b => ∀ e, b = .rollback e → a ≠ .rollforward e ∧ a ≠ .trim e

namespace HistoryOk

variable {l l' : PgLog} {handled : List LogEntry} {calls : List HandlerCall}

theorem not_mem_handled (h : HistoryOk l handled calls) {e : LogEntry} (he : e ∈ l.log)
    (hlt : l.rollbackInfoTrimmedTo < e.version) : e ∉ handled := fun hmem =>
  lt_irrefl _ ((h.fresh e he hlt).1 e hmem)

/-- **Further calls**, which roll back only what was never rolled forward or trimmed. -/
theorem call (h : HistoryOk l handled calls) (cs : List HandlerCall)
    (hlog : ∀ e ∈ l'.log, l'.rollbackInfoTrimmedTo < e.version →
      e ∈ l.log ∧ l.rollbackInfoTrimmedTo < e.version ∧ .trim e ∉ cs)
    (hroll : ∀ e, .rollforward e ∉ cs)
    (hback : ∀ e, .rollback e ∈ cs → e ∉ handled ∧ .trim e ∉ calls ∧ .trim e ∉ cs) :
    HistoryOk l' handled (calls ++ cs) := by
  refine ⟨h.increasing, fun e he hlt => ?_, fun e he => ?_, ?_⟩
  · obtain ⟨hmem, hlt', htrim⟩ := hlog e he hlt
    obtain ⟨hhandled, htrimmed⟩ := h.fresh e hmem hlt'
    exact ⟨hhandled, fun hc => (mem_append.mp hc).elim htrimmed htrim⟩
  · exact (mem_append.mp he).elim (h.rolled e) fun hc => absurd hc (hroll e)
  · refine pairwise_append.mpr ⟨h.undone, ?_, ?_⟩
    · refine pairwise_of_forall_mem_list ?_
      rintro a ha b hb e rfl
      exact ⟨fun heq => hroll e (heq ▸ ha), fun heq => (hback e hb).2.2 (heq ▸ ha)⟩
    · rintro a ha b hb e rfl
      obtain ⟨hhandled, htrim, -⟩ := hback e hb
      exact ⟨fun heq => hhandled (h.rolled e (heq ▸ ha)), fun heq => htrim (heq ▸ ha)⟩

/-- A change of the log without calls, if no entry comes to stand beyond the iterator. -/
theorem of_log (h : HistoryOk l handled calls)
    (hlog : ∀ e ∈ l'.log, l'.rollbackInfoTrimmedTo < e.version →
      e ∈ l.log ∧ l.rollbackInfoTrimmedTo < e.version) : HistoryOk l' handled calls := by
  have hcall := h.call [] (fun e he hlt => by simpa using hlog e he hlt) (by simp) (by simp)
  rwa [append_nil] at hcall

/-- **Moving the bounds forward** gives the handler the entries between the old and the new
bound, which are newer than all it was given before. -/
theorem advance {l : IndexedLog} (h : HistoryOk l.toPgLog handled calls) {riter : ℕ}
    (hok : l.toPgLog.RollbackOk riter) (upTo : Eversion) {c : LogEntry → HandlerCall}
    (hc : c = .rollforward ∨ c = .trim) :
    HistoryOk (l.advanceCanRollbackTo upTo).1.toPgLog
      (handled ++ (l.advanceCanRollbackTo upTo).2.1)
      (calls ++ (l.advanceCanRollbackTo upTo).2.1.map c) := by
  set es := (l.advanceCanRollbackTo upTo).2.1 with hes
  have hmem : ∀ e ∈ es, e ∈ l.log ∧ l.rollbackInfoTrimmedTo < e.version ∧
      e.version ≤ max l.rollbackInfoTrimmedTo upTo := fun e he => by
    obtain ⟨hin, hbetween⟩ := mem_filter.mp he
    exact ⟨hin, of_decide_eq_true hbetween⟩
  have hof : ∀ x ∈ es.map c, ∃ e ∈ es, x = .rollforward e ∨ x = .trim e := by
    intro x hx
    obtain ⟨e, he, rfl⟩ := mem_map.mp hx
    refine ⟨e, he, ?_⟩
    rcases hc with rfl | rfl
    · exact .inl rfl
    · exact .inr rfl
  refine ⟨?_, fun e he hlt => ⟨fun a ha => ?_, fun htrim => ?_⟩, fun e he => ?_, ?_⟩
  · refine pairwise_append.mpr ⟨h.increasing, hok.sorted.filter _, fun a ha e he => ?_⟩
    exact (h.fresh e (hmem e he).1 (hmem e he).2.1).1 a ha
  · rcases mem_append.mp ha with ha | ha
    · exact (h.fresh e he (lt_of_le_of_lt (le_max_left _ _) hlt)).1 a ha
    · exact (hmem a ha).2.2.trans_lt hlt
  · rcases mem_append.mp htrim with htrim | htrim
    · exact (h.fresh e he (lt_of_le_of_lt (le_max_left _ _) hlt)).2 htrim
    · obtain ⟨a, ha, heq⟩ := hof _ htrim
      have hea : e = a := by simpa using heq
      exact absurd (hmem a ha).2.2 (not_le.mpr (hea ▸ hlt))
  · rcases mem_append.mp he with he | he
    · exact mem_append_left _ (h.rolled e he)
    · obtain ⟨a, ha, heq⟩ := hof _ he
      have hea : e = a := by simpa using heq
      exact mem_append_right _ (hea ▸ ha)
  · refine pairwise_append.mpr ⟨h.undone, pairwise_of_forall_mem_list ?_, ?_⟩
    all_goals
      rintro a - b hb e rfl
      obtain ⟨a', -, heq⟩ := hof _ hb
      simp at heq

end HistoryOk

end Ceph.Osd
