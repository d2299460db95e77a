import Ceph.Cls.RgwBucketIndex
import Ceph.Lib.SortedScan
import Ceph.Lib.Transition

set_option autoImplicit false

/-! # The statistics of a bucket shard are a recount of its entries

The header of a shard is balanced when the statistics of every category are the sums over the
entries that exist. A call keeps this if what it takes off the header is what the entry it writes
over counted for, and what it adds is what the new entry counts for.

Three places break the pairing. The loop over further objects takes off entries that may not
exist, or one entry twice, since it reads the index as it was before the call. A cancellation
without a tag takes off an entry and leaves it. A suggestion is believed when it says nothing
exists. And the recount that rebuilds the header counts every entry, existing or not.
-/

namespace Ceph.Cls.Rgw

open OrdMap List

/-! ## Recounting -/

/-- What an entry counts for in a category. -/
def DirEntry.contribution (e : DirEntry) (category : ℕ) : CategoryStats :=
  if e.existsFlag ∧ e.entryMeta.category = category then e.entryMeta.stats else 0

/-- The sums over the entries that exist. -/
def recount (index : OrdMap String DirEntry) (category : ℕ) : CategoryStats :=
  (index.entries.map fun e => e.2.contribution category).sum

/-- What the entry of a name counts for, if there is one. -/
def contributionAt (index : OrdMap String DirEntry) (name : String) (category : ℕ) :
    CategoryStats :=
  match index.get name with
  | none => 0
  | some e => e.contribution category

variable {ondisk : Bool} {op : CompleteOp} {curDisk e entry : DirEntry} {cs : List Suggestion}
  {disk index : OrdMap String DirEntry} {now timeout : ℕ}

variable {s t : Shard} {name : String}

theorem contribution_of_not_exists (h : e.existsFlag = false) (category : ℕ) :
    e.contribution category = 0 :=
  if_neg fun h' => by simp [h] at h'

theorem contribution_congr {e' : DirEntry} (hexists : e.existsFlag = e'.existsFlag)
    (hmeta : e.entryMeta = e'.entryMeta) (category : ℕ) :
    e.contribution category = e'.contribution category := by
  rw [DirEntry.contribution, DirEntry.contribution, hexists, hmeta]

theorem contributionAt_of_get (h : index.get name = some e) (category : ℕ) :
    contributionAt index name category = e.contribution category := by
  rw [contributionAt, h]

theorem contributionAt_of_none (h : index.get name = none) (category : ℕ) :
    contributionAt index name category = 0 := by
  rw [contributionAt, h]

theorem recount_eq_add_erase (index : OrdMap String DirEntry) (name : String) (category : ℕ) :
    recount index category = contributionAt index name category
      + recount (index.erase name) category := by
  cases h : index.get name with
  | none => rw [contributionAt_of_none h, erase_of_get_eq_none h, zero_add]
  | some e =>
    have hperm := (entries_perm_of_get h).map fun e => e.2.contribution category
    rw [contributionAt_of_get h, recount, hperm.sum_eq, map_cons, sum_cons]
    rfl

theorem recount_insert (index : OrdMap String DirEntry) (name : String) (e : DirEntry)
    (category : ℕ) :
    recount (index.insert name e) category
      = e.contribution category + recount (index.erase name) category := by
  have hperm := (index.entries_insert_perm name e).map fun e => e.2.contribution category
  rw [recount, hperm.sum_eq, map_cons, sum_cons]
  rfl

/-! ## Balanced headers -/

/-- **The statistics are the recount.** -/
def Balanced (s : Shard) : Prop := ∀ category, s.header.statsOf category = recount s.index category

section

variable {h : DirHeader}

/-- Writing an entry, when the header changes by what it and the old one count for. -/
theorem Balanced.insert (hs : Balanced s)
    (hh : ∀ category, h.statsOf category + contributionAt s.index name category
      = s.header.statsOf category + e.contribution category) :
    Balanced { index := s.index.insert name e, header := h } := by
  intro category
  have hold := hs category
  rw [recount_eq_add_erase s.index name] at hold
  have hnew := hh category
  rw [hold, add_assoc, add_comm, add_left_cancel_iff] at hnew
  show h.statsOf category = recount (s.index.insert name e) category
  rw [recount_insert, hnew, add_comm]

theorem Balanced.erase (hs : Balanced s)
    (hh : ∀ category, h.statsOf category + contributionAt s.index name category
      = s.header.statsOf category) : Balanced { index := s.index.erase name, header := h } := by
  intro category
  have hold := hs category
  rw [recount_eq_add_erase s.index name] at hold
  have hnew := hh category
  rw [hold, add_comm, add_left_cancel_iff] at hnew
  exact hnew

theorem Balanced.congr (hs : Balanced s)
    (hh : ∀ category, h.statsOf category = s.header.statsOf category) :
    Balanced { s with header := h } :=
  fun category => (hh category).trans (hs category)

end

theorem statsOf_accountEntry (h : DirHeader) (he : e.existsFlag = true) (category : ℕ) :
    (h.accountEntry e.entryMeta).statsOf category
      = h.statsOf category + e.contribution category := by
  rw [DirHeader.accountEntry, DirHeader.statsOf_adjust, DirEntry.contribution]
  simp only [he, true_and]

theorem statsOf_unaccountEntry (h : DirHeader) (he : e.existsFlag = true) (category : ℕ) :
    (h.unaccountEntry e).statsOf category + e.contribution category = h.statsOf category := by
  rw [DirHeader.unaccountEntry, DirHeader.statsOf_adjust, DirEntry.contribution]
  simp only [he, true_and]
  split
  · rw [neg_add_cancel_right]
  · rw [add_zero, add_zero]

theorem statsOf_ite_unaccountEntry (h : DirHeader) (e : DirEntry) (category : ℕ) :
    (if e.existsFlag then h.unaccountEntry e else h).statsOf category + e.contribution category
      = h.statsOf category := by
  cases he : e.existsFlag with
  | true => exact statsOf_unaccountEntry h he category
  | false => rw [contribution_of_not_exists he, add_zero]; rfl

theorem statsOf_ite_write (b : Bool) (h : DirHeader) (category : ℕ) :
    (if b then h.write else h).statsOf category = h.statsOf category := by
  cases b <;> rfl

/-! ## The calls -/

theorem balanced_bucketPrepareOp {op : PrepareOp} (hs : Balanced s)
    (h : bucketPrepareOp s op now = .ok t) : Balanced t := by
  rw [bucketPrepareOp] at h
  split at h
  · exact nomatch h
  · cases h
    apply hs.insert
    intro category
    rw [statsOf_ite_write]
    congr 1
    -- the entry differs from the one before in its pending operations only
    cases hget : s.index.get op.name with
    | none =>
      rw [contributionAt_of_none hget]
      exact (contribution_of_not_exists rfl category).symm
    | some e =>
      rw [contributionAt_of_get hget]
      exact contribution_congr rfl rfl category

/-- The entry a completion works on counts for what the one on disk does. -/
theorem contribution_entry (op : CompleteOp) (index : OrdMap String DirEntry) (category : ℕ) :
    (op.entry (index.get op.name)).contribution category
      = contributionAt index op.name category := by
  have hsame : ∀ e : DirEntry, (if op.tag = "" then e else e.erasePending op.tag).contribution
      category = e.contribution category := by
    intro e
    split
    · rfl
    · exact contribution_congr rfl rfl category
  rw [CompleteOp.entry, hsame]
  cases hget : index.get op.name with
  | none =>
    rw [contributionAt_of_none hget]
    exact contribution_of_not_exists rfl category
  | some e => rw [contributionAt_of_get hget]; rfl

/-- What the switch can do: remove the entry, write one that does not exist, write and count one
that does, or nothing at all for a cancellation. -/
theorem apply_cases (h : op.apply s ondisk entry = .ok t) :
    t = { s with index := s.index.erase op.name } ∨
    (∃ e : DirEntry, e.existsFlag = false ∧ t = { s with index := s.index.insert op.name e }) ∨
    (∃ e : DirEntry, e.existsFlag = true ∧
      t = ⟨s.index.insert op.name e, s.header.accountEntry e.entryMeta⟩) ∨
    (op.op = .cancel ∧ t = s) := by
  cases hop : op.op with
  | del =>
    simp only [CompleteOp.apply, hop] at h
    by_cases hdisk : (!ondisk) = true
    · rw [if_pos hdisk] at h
      exact nomatch h
    rw [if_neg hdisk] at h
    split_ifs at h with hpending
    · cases h
      exact .inl rfl
    · cases h
      exact .inr (.inl ⟨_, rfl, rfl⟩)
  | add =>
    simp only [CompleteOp.apply, hop] at h
    cases h
    refine .inr (.inr (.inl ⟨_, ?_, rfl⟩))
    rfl
  | cancel =>
    simp only [CompleteOp.apply, hop] at h
    cases h
    exact .inr (.inr (.inr ⟨rfl, rfl⟩))

/-- The switch, after the old entry has been taken off. A cancellation leaves the entry, so it
must be one that counts for nothing. -/
theorem balanced_apply {h : DirHeader} (hs : Balanced s)
    (hh : ∀ category, h.statsOf category + contributionAt s.index op.name category
      = s.header.statsOf category)
    (hop : op.op = .cancel → ∀ category, contributionAt s.index op.name category = 0)
    (ht : op.apply { s with header := h } ondisk entry = .ok t) : Balanced t := by
  rcases apply_cases ht with rfl | ⟨e, he, rfl⟩ | ⟨e, he, rfl⟩ | ⟨hcancel, rfl⟩
  · exact hs.erase hh
  · apply hs.insert
    intro category
    rw [contribution_of_not_exists he, add_zero]
    exact hh category
  · apply hs.insert
    intro category
    rw [← hh category, add_right_comm]
    congr 1
    exact statsOf_accountEntry h he category
  · refine hs.congr fun category => ?_
    rw [← hh category, hop hcancel, add_zero]

theorem get_apply {s t : Shard} (ht : op.apply s ondisk entry = .ok t) {name : String}
    (hname : name ≠ op.name) : t.index.get name = s.index.get name := by
  rcases apply_cases ht with rfl | ⟨e, -, rfl⟩ | ⟨e, -, rfl⟩ | ⟨-, rfl⟩
  · rw [get_erase, if_neg hname]
  · rw [get_insert, if_neg hname]
  · rw [get_insert, if_neg hname]
  · rfl

/-- The loop over further objects: each is taken off once, as long as it exists and is still what
the loop reads. -/
theorem balanced_removeLoop (disk : OrdMap String DirEntry) (logs : Bool) {names : List String}
    (hs : Balanced s) (hnodup : names.Nodup)
    (hdisk : ∀ name ∈ names, s.index.get name = disk.get name)
    (hexists : ∀ name ∈ names, ∀ e, disk.get name = some e → e.existsFlag = true) :
    Balanced (removeLoop disk logs names s) := by
  induction names generalizing s with
  | nil => exact hs
  | cons name names ih =>
    obtain ⟨hfresh, hnodup⟩ := nodup_cons.mp hnodup
    have hexists' := fun n hn => hexists n (mem_cons_of_mem name hn)
    rw [removeLoop]
    cases hget : disk.get name with
    | none => exact ih hs hnodup (fun n hn => hdisk n (mem_cons_of_mem name hn)) hexists'
    | some e =>
      have hcur : s.index.get name = some e := by rw [hdisk name mem_cons_self, hget]
      refine ih (hs.erase fun category => ?_) hnodup (fun n hn => ?_) hexists'
      · rw [statsOf_ite_write, contributionAt_of_get hcur]
        exact statsOf_unaccountEntry _ (hexists name mem_cons_self e hget) category
      · have hne : n ≠ name := fun h => hfresh (h ▸ hn)
        rw [get_erase, if_neg hne]
        exact hdisk n (mem_cons_of_mem name hn)

/-- The loop passes over the names that have no entry. -/
theorem removeLoop_filter (disk : OrdMap String DirEntry) (logs : Bool) (names : List String)
    (s : Shard) :
    removeLoop disk logs (names.filter fun name => (disk.get name).isSome) s
      = removeLoop disk logs names s := by
  induction names generalizing s with
  | nil => rfl
  | cons name names ih =>
    cases hget : disk.get name with
    | none => rw [filter_cons_of_neg (by simp [hget]), ih, removeLoop, hget]
    | some e =>
      rw [filter_cons_of_pos (by simp [hget]), removeLoop, removeLoop, hget]
      exact ih _

/-- The further objects that have an entry. -/
def CompleteOp.removed (op : CompleteOp) (s : Shard) : List String :=
  op.removeObjs.filter fun name => (s.index.get name).isSome

/-- When a completion is refused: its tag is not pending, or it deletes what has no entry. -/
def CompleteOp.Refused (s : Shard) (op : CompleteOp) : Prop :=
  (op.tag ≠ "" ∧ ¬ ((s.index.get op.name).getD {}).isPending op.tag) ∨
    op.op = .del ∧ s.index.get op.name = none

/-- When a completion is sound: it is refused or cancelled, or the further objects with an entry
are different ones that exist, and nothing that exists is cancelled without a tag. -/
def CompleteOp.Sound (s : Shard) (op : CompleteOp) : Prop :=
  op.Refused s ∨ op.cancels (op.entry (s.index.get op.name)) = true ∨
    (op.op = .cancel → (s.index.get op.name).all (!·.existsFlag) = true) ∧
      (op.removed s).Nodup ∧ op.name ∉ op.removed s ∧
      ∀ name ∈ op.removed s, (s.index.get name).all (·.existsFlag) = true

instance (s : Shard) (op : CompleteOp) : Decidable (op.Sound s) := by
  unfold CompleteOp.Sound CompleteOp.Refused
  infer_instance

theorem balanced_bucketCompleteOp (hs : Balanced s) (hsound : op.Sound s)
    (h : bucketCompleteOp s op = .ok t) : Balanced t := by
  rw [bucketCompleteOp] at h
  dsimp only at h
  by_cases htag : op.tag ≠ "" ∧ ¬ ((s.index.get op.name).getD {}).isPending op.tag
  · rw [if_pos htag] at h
    exact nomatch h
  rw [if_neg htag] at h
  by_cases hcancels : op.cancels (op.entry (s.index.get op.name)) = true
  · -- the pending operation goes and nothing else changes
    rw [if_pos hcancels] at h
    cases h
    by_cases hempty : op.tag = ""
    · rw [if_pos hempty]
      exact hs.congr fun category => statsOf_ite_write _ _ _
    · rw [if_neg hempty]
      apply hs.insert
      intro category
      rw [statsOf_ite_write, contribution_entry]
  · rw [if_neg hcancels] at h
    -- what is deleted without an entry is refused by the switch
    have hsound : op.op = .del ∧ s.index.get op.name = none ∨ _ :=
      (hsound.imp_left fun hrefused => hrefused.resolve_left htag).imp_right
        fun hrest => hrest.resolve_left hcancels
    rcases hsound with ⟨hdel, hnone⟩ | ⟨hop, hnodup, hself, hexists⟩
    · simp only [CompleteOp.apply, hdel, hnone, Option.isSome_none, Bool.not_false, if_true] at h
      exact nomatch h
    generalize hentry : op.entry (s.index.get op.name) = entry at h
    cases happly : op.apply
        { s with header := if entry.existsFlag then s.header.unaccountEntry entry else s.header }
        (s.index.get op.name).isSome entry with
    | error err => rw [happly] at h; exact nomatch h
    | ok u =>
      rw [happly] at h
      cases h
      have hu : Balanced u := by
        refine balanced_apply hs (fun category => ?_) (fun hcancel category => ?_) happly
        · rw [← contribution_entry, hentry]
          exact statsOf_ite_unaccountEntry s.header entry category
        · have hgone := hop hcancel
          cases hget : s.index.get op.name with
          | none => exact contributionAt_of_none hget category
          | some e =>
            rw [contributionAt_of_get hget]
            exact contribution_of_not_exists (by simpa [hget] using hgone) category
      have hloop := balanced_removeLoop s.index (op.logOp && !s.header.syncstopped) hu hnodup
        (fun name hn => get_apply happly fun heq => hself (heq ▸ hn))
        (fun name hn e he => by simpa [he] using hexists name hn)
      rw [CompleteOp.removed, removeLoop_filter] at hloop
      exact hloop.congr fun category => rfl

/-- Whether a suggestion is looked at: there is an entry, and none of its pending operations is
recent. -/
def Suggestion.applies (disk : OrdMap String DirEntry) (timeout now : ℕ) (c : Suggestion) : Bool :=
  (disk.get c.name).any fun entry => decide ((entry.expire timeout now).pendingMap = [])

/-- When a suggestion is sound: it removes, it stores an entry that exists, or it does neither and
there is nothing that exists. -/
def Suggestion.Sound (disk : OrdMap String DirEntry) (c : Suggestion) : Prop :=
  c.action = cephRgwRemove ∨ c.action = cephRgwUpdate ∧ c.change.existsFlag = true ∨
    c.action ≠ cephRgwUpdate ∧ (disk.get c.name).all (!·.existsFlag) = true

instance (c : Suggestion) : Decidable (c.Sound disk) := by
  unfold Suggestion.Sound
  infer_instance

/-- **One suggestion**, for an entry that is still what the loop has read. -/
theorem balanced_suggestion {c : Suggestion} {t : SuggestState} (ht : Balanced t.shard)
    (hsound : c.Sound disk) (hdisk : disk.get c.name = some entry)
    (hget : t.shard.index.get c.name = some entry)
    (hcur : ∀ category, curDisk.contribution category = entry.contribution category) :
    Balanced (c.apply curDisk t).shard := by
  have hoff : ∀ category, (c.takeOff curDisk t.shard.header).statsOf category
      + contributionAt t.shard.index c.name category = t.shard.header.statsOf category := by
    intro category
    rw [Suggestion.takeOff, DirHeader.statsOf_adjust, ite_self, add_zero,
      contributionAt_of_get hget, ← hcur]
    exact statsOf_ite_unaccountEntry _ curDisk category
  by_cases hremove : c.action = cephRgwRemove
  · rw [Suggestion.apply, if_pos hremove]
    exact ht.erase hoff
  rcases hsound.resolve_left hremove with ⟨hupdate, hexists⟩ | ⟨hother, hgone⟩
  · rw [Suggestion.apply, if_neg hremove, if_pos hupdate]
    apply ht.insert
    intro category
    rw [statsOf_accountEntry _ hexists, add_right_comm, hoff category]
  · rw [Suggestion.apply, if_neg hremove, if_neg hother]
    refine ht.congr fun category => ?_
    have hzero : entry.contribution category = 0 :=
      contribution_of_not_exists (by simpa [hdisk] using hgone) category
    rw [← hoff category, contributionAt_of_get hget, hzero, add_zero]

theorem statsOf_suggestion {c : Suggestion} {t : SuggestState}
    (h : (c.apply curDisk t).headerChanged = false) :
    t.headerChanged = false ∧ ∀ category,
      (c.apply curDisk t).shard.header.statsOf category = t.shard.header.statsOf category := by
  have hoff : (t.headerChanged || curDisk.existsFlag) = false →
      t.headerChanged = false ∧ ∀ category,
        (c.takeOff curDisk t.shard.header).statsOf category
          = t.shard.header.statsOf category := by
    intro hchanged
    obtain ⟨ht, hexists⟩ := Bool.or_eq_false_iff.mp hchanged
    refine ⟨ht, fun category => ?_⟩
    rw [Suggestion.takeOff, DirHeader.statsOf_adjust, ite_self, add_zero, hexists]
    rfl
  rw [Suggestion.apply] at h ⊢
  split_ifs at h ⊢
  · exact hoff h
  · exact hoff h

theorem get_suggestion (c : Suggestion) (curDisk : DirEntry) (t : SuggestState)
    (hname : name ≠ c.name) :
    (c.apply curDisk t).shard.index.get name = t.shard.index.get name := by
  rw [Suggestion.apply]
  split_ifs
  · exact (get_erase _ _ _).trans (if_neg hname)
  · exact (get_insert _ _ _ _).trans (if_neg hname)
  · rfl

/-- The loop passes over the suggestions it does not look at. -/
theorem suggestLoop_filter (disk : OrdMap String DirEntry) (timeout now : ℕ)
    (cs : List Suggestion) (t : SuggestState) :
    suggestLoop disk timeout now (cs.filter (Suggestion.applies disk timeout now)) t
      = suggestLoop disk timeout now cs t := by
  induction cs generalizing t with
  | nil => rfl
  | cons c cs ih =>
    cases hget : disk.get c.name with
    | none =>
      rw [filter_cons_of_neg (by simp [Suggestion.applies, hget]), ih, suggestLoop, hget]
    | some entry =>
      by_cases hpending : (entry.expire timeout now).pendingMap = []
      · rw [filter_cons_of_pos (by simp [Suggestion.applies, hget, hpending]), suggestLoop,
          suggestLoop, hget]
        simp only [if_pos hpending, ih]
      · rw [filter_cons_of_neg (by simp [Suggestion.applies, hget, hpending]), ih, suggestLoop,
          hget]
        simp only [if_neg hpending]

theorem balanced_suggestLoop {t : SuggestState} (ht : Balanced t.shard)
    (hnodup : (cs.map Suggestion.name).Nodup) (hsound : ∀ c ∈ cs, c.Sound disk)
    (hdisk : ∀ c ∈ cs, t.shard.index.get c.name = disk.get c.name) :
    Balanced (suggestLoop disk timeout now cs t).shard := by
  induction cs generalizing t with
  | nil => exact ht
  | cons c cs ih =>
    obtain ⟨hfresh, hnodup⟩ := nodup_cons.mp hnodup
    have hsound' := fun d hd => hsound d (mem_cons_of_mem c hd)
    have hdisk' := fun d hd => hdisk d (mem_cons_of_mem c hd)
    rw [suggestLoop]
    cases hget : disk.get c.name with
    | none => exact ih ht hnodup hsound' hdisk'
    | some entry =>
      dsimp only
      split
      · have hcur : t.shard.index.get c.name = some entry := by
          rw [hdisk c mem_cons_self, hget]
        refine ih ?_ hnodup hsound' fun d hd => ?_
        · exact balanced_suggestion ht (hsound c mem_cons_self) hget hcur
            fun category => contribution_congr rfl rfl category
        · have hne : d.name ≠ c.name := by
            intro heq
            exact hfresh (heq ▸ mem_map_of_mem hd)
          rw [get_suggestion c _ t hne]
          exact hdisk' d hd
      · exact ih ht hnodup hsound' hdisk'

theorem statsOf_suggestLoop {t : SuggestState}
    (h : (suggestLoop disk timeout now cs t).headerChanged = false) :
    t.headerChanged = false ∧ ∀ category,
      (suggestLoop disk timeout now cs t).shard.header.statsOf category
        = t.shard.header.statsOf category := by
  induction cs generalizing t with
  | nil => exact ⟨h, fun _ => rfl⟩
  | cons c cs ih =>
    rw [suggestLoop] at h ⊢
    cases hget : disk.get c.name with
    | none =>
      rw [hget] at h
      exact ih h
    | some entry =>
      rw [hget] at h
      dsimp only at h ⊢
      split at h
      · rename_i hpending
        rw [if_pos hpending]
        obtain ⟨hchanged, hstats⟩ := ih h
        obtain ⟨hbefore, hfirst⟩ := statsOf_suggestion hchanged
        exact ⟨hbefore, fun category => (hstats category).trans (hfirst category)⟩
      · rename_i hpending
        rw [if_neg hpending]
        exact ih h

/-- The suggestions of a call that are looked at. -/
def appliedChanges (s : Shard) (changes : List Suggestion) (now : ℕ) : List Suggestion :=
  changes.filter (Suggestion.applies s.index s.header.tagTimeoutNs now)

theorem balanced_dirSuggestChanges {changes : List Suggestion} (hs : Balanced s)
    (hnodup : ((appliedChanges s changes now).map Suggestion.name).Nodup)
    (hsound : ∀ c ∈ appliedChanges s changes now, c.Sound s.index) :
    Balanced (dirSuggestChanges s changes now) := by
  have hloop : Balanced
      (suggestLoop s.index s.header.tagTimeoutNs now changes { shard := s }).shard := by
    rw [← suggestLoop_filter]
    exact balanced_suggestLoop hs hnodup hsound fun _ _ => rfl
  rw [dirSuggestChanges]
  cases hchanged : (suggestLoop s.index s.header.tagTimeoutNs now changes
      { shard := s }).headerChanged with
  | true => exact hloop.congr fun category => rfl
  | false =>
    exact hloop.congr fun category => ((statsOf_suggestLoop hchanged).2 category).symm

/-! ## Rebuilding -/

/-- What the recount of `check_index` counts an entry for: it does not ask whether it exists. -/
def DirEntry.counted (e : DirEntry) (category : ℕ) : CategoryStats :=
  if e.entryMeta.category = category then e.entryMeta.stats else 0

/-- What it counts and should not. -/
def DirEntry.surplus (e : DirEntry) (category : ℕ) : CategoryStats :=
  if e.existsFlag = false ∧ e.entryMeta.category = category then e.entryMeta.stats else 0

theorem counted_eq (e : DirEntry) (category : ℕ) :
    e.counted category = e.contribution category + e.surplus category := by
  rw [DirEntry.counted, DirEntry.contribution, DirEntry.surplus]
  cases he : e.existsFlag <;> simp

theorem statsOf_foldl_countEntry (l : List (String × DirEntry)) (h : DirHeader) (category : ℕ) :
    (l.foldl countEntry h).statsOf category
      = h.statsOf category + (l.map fun e => e.2.counted category).sum := by
  induction l generalizing h with
  | nil => simp
  | cons e l ih =>
    rw [foldl_cons, ih, map_cons, sum_cons, ← add_assoc]
    congr 1
    exact DirHeader.statsOf_adjust h _ category _

/-- **The chunks together are the entries** after where the loop starts. -/
theorem checkLoop_eq (index : OrdMap String DirEntry) (fuel : ℕ) (start : String) (h : DirHeader)
    (hfuel : (index.entries.filter fun e => start < e.1).length < fuel) :
    checkLoop index fuel start h
      = (index.entries.filter fun e => start < e.1).foldl countEntry h := by
  induction fuel generalizing start h with
  | zero => exact absurd hfuel (Nat.not_lt_zero _)
  | succ fuel ih =>
    generalize hrest : (index.entries.filter fun e => start < e.1) = rest at hfuel
    have hsorted : rest.Pairwise (fun a b => a.1 < b.1) := by
      rw [← hrest]
      exact index.sorted.filter _
    rw [checkLoop, getObjVals, hrest]
    split_ifs with hfull
    · have hlong : checkChunkSize ≤ rest.length := by
        rw [length_take] at hfull
        omega
      have hpos : 0 < checkChunkSize := by decide
      -- the chunk has a last entry, and what is left comes after it
      have hne : rest.take checkChunkSize ≠ [] := by
        intro hnil
        rw [hnil] at hfull
        exact absurd hfull (by decide)
      obtain ⟨x, hx⟩ : ∃ x, (rest.take checkChunkSize).getLast? = some x :=
        ⟨_, getLast?_eq_some_getLast hne⟩
      have hafter : start < x.1 := by
        have hmem : x ∈ index.entries.filter fun e => start < e.1 := by
          rw [hrest]
          exact mem_of_mem_take (mem_of_getLast? hx)
        simpa using (mem_filter.mp hmem).2
      have hleft : (index.entries.filter fun e => x.1 < e.1) = rest.drop checkChunkSize := by
        rw [← SortedScan.filter_lt_eq_drop hsorted hx, ← hrest, filter_filter]
        refine filter_congr fun e _ => ?_
        by_cases hlt : x.1 < e.1
        · simp [hlt, hafter.trans hlt]
        · simp [hlt]
      rw [hx, Option.map_some, Option.getD_some, ih, hleft, ← foldl_append,
        take_append_drop]
      rw [hleft, length_drop]
      omega
    · rw [take_of_length_le]
      rw [length_take] at hfull
      omega

theorem empty_lt_iff (name : String) : "" < name ↔ name ≠ "" := by
  rw [String.lt_iff_toList_lt, ← String.toList_inj.ne]
  cases name.toList with
  | nil => simp
  | cons c l => simp

/-- The statistics of the rebuilt header: the recount, and what was counted in excess. The scan
starts after the empty name. -/
theorem statsOf_checkIndex (hname : s.index.get "" = none) (category : ℕ) :
    (checkIndex s).statsOf category = recount s.index category
      + (s.index.entries.map fun e => e.2.surplus category).sum := by
  have hall : (s.index.entries.filter fun e => "" < e.1) = s.index.entries := by
    rw [filter_eq_self]
    rintro ⟨name, e⟩ he
    have hne : name ≠ "" := by
      rintro rfl
      rw [mem_entries_iff, hname] at he
      exact nomatch he
    simpa using (empty_lt_iff name).mpr hne
  rw [checkIndex, checkLoop_eq _ _ _ _ (by rw [hall]; exact Nat.lt_succ_self _), hall,
    statsOf_foldl_countEntry, recount, ← sum_map_add]
  simp only [counted_eq]
  exact zero_add _

theorem numEntries_surplus (l : List (String × DirEntry)) (category : ℕ) :
    (l.map fun e : String × DirEntry => e.2.surplus category).sum.numEntries = BitVec.ofNat 64
      (l.countP fun e => !e.2.existsFlag && e.2.entryMeta.category = category) := by
  induction l with
  | nil => rfl
  | cons e l ih =>
    rw [map_cons, sum_cons, CategoryStats.add_numEntries, ih, countP_cons,
      DirEntry.surplus]
    cases he : e.2.existsFlag with
    | true => simp
    | false =>
      by_cases hc : e.2.entryMeta.category = category
      · simp [hc, EntryMeta.stats, add_comm, BitVec.ofNat_add]
      · simp [hc]

/-- **When a rebuild changes nothing**: the header is balanced and every entry exists. -/
theorem statsOf_bucketRebuildIndex_iff (hs : Balanced s) (hname : s.index.get "" = none)
    (hlen : s.index.entries.length < 2 ^ 64) :
    (∀ category, (bucketRebuildIndex s).header.statsOf category = s.header.statsOf category) ↔
      ∀ name e, s.index.get name = some e → e.existsFlag = true := by
  have hdiff : ∀ category, (bucketRebuildIndex s).header.statsOf category
      = s.header.statsOf category + (s.index.entries.map fun e => e.2.surplus category).sum := by
    intro category
    rw [hs category, ← statsOf_checkIndex hname]
    rfl
  constructor
  · intro h name e hget
    by_contra hexists
    have hzero := h e.entryMeta.category
    rw [hdiff, add_eq_left] at hzero
    have hcount := numEntries_surplus s.index.entries e.entryMeta.category
    rw [hzero] at hcount
    -- at least the entry itself is counted in excess, and too few for the counter to wrap
    have hpos : 0 < s.index.entries.countP
        fun x => !x.2.existsFlag && x.2.entryMeta.category = e.entryMeta.category := by
      rw [countP_pos_iff]
      exact ⟨(name, e), (mem_entries_iff _ _ _).mpr hget, by simp [hexists]⟩
    have hle := countP_le_length (p := fun x : String × DirEntry =>
      !x.2.existsFlag && x.2.entryMeta.category = e.entryMeta.category) (l := s.index.entries)
    have hnat := congrArg BitVec.toNat hcount
    rw [BitVec.toNat_ofNat, Nat.mod_eq_of_lt (hle.trans_lt hlen)] at hnat
    have hnone : (0 : CategoryStats).numEntries.toNat = 0 := rfl
    omega
  · intro h category
    rw [hdiff, add_eq_left]
    refine sum_eq_zero ?_
    intro x hx
    obtain ⟨⟨name, e⟩, he, rfl⟩ := mem_map.mp hx
    have hexists := h name e ((mem_entries_iff _ _ _).mp he)
    simp [DirEntry.surplus, hexists]

/-! ## Runs -/

/-- Calls that keep the header balanced. -/
def Proper (s : Shard) : Call → Prop
  | .prepare _ _ => True
  | .complete op => op.Sound s
  | .suggest changes now => ((appliedChanges s changes now).map Suggestion.name).Nodup ∧
      ∀ c ∈ appliedChanges s changes now, c.Sound s.index

instance (s : Shard) (c : Call) : Decidable (Proper s c) := by
  cases c <;> unfold Proper <;> infer_instance

theorem balanced_step {c : Call} (hs : Balanced s) (hproper : Proper s c) (h : step s c = some t) :
    Balanced t := by
  rw [step] at h
  split at h
  · rename_i u hexec
    cases h
    cases c with
    | prepare op now => exact balanced_bucketPrepareOp hs hexec
    | complete op => exact balanced_bucketCompleteOp hs hproper hexec
    | suggest changes now =>
      cases hexec
      exact balanced_dirSuggestChanges hs hproper.1 hproper.2
  · cases h
    exact hs

/-- **Statistics equal a recount.** After any calls that are proper where they are made, the
statistics of every category are the sums over the entries that exist, and a rebuild leaves them
exactly when no entry is merely prepared or deleted with operations pending. -/
theorem stats_eq_recount {calls : List Call} {s : Shard}
    (hproper : Transition.Along step Proper calls {})
    (hrun : Transition.run step calls {} = some s) :
    (∀ category, s.header.statsOf category = recount s.index category) ∧
    (s.index.get "" = none → s.index.entries.length < 2 ^ 64 →
      ((∀ category, (bucketRebuildIndex s).header.statsOf category
          = s.header.statsOf category) ↔
        ∀ name e, s.index.get name = some e → e.existsFlag = true)) := by
  have hs : Balanced s :=
    Transition.invariant_of_along (fun _ _ _ hs hc hstep => balanced_step hs hc hstep) hproper
      hrun fun _ => rfl
  exact ⟨hs, statsOf_bucketRebuildIndex_iff hs⟩

/-- An upload of two parts: the parts' record is removed when the object is completed. -/
def sampleUpload : List Call :=
  [.prepare { op := .add, name := "part", tag := "t1" } 0,
    .complete { op := .add, name := "part", tag := "t1", entryMeta := ⟨3, 10, 10⟩ },
    .prepare { op := .add, name := "obj", tag := "t2" } 1,
    .complete { op := .add, name := "obj", tag := "t2", entryMeta := ⟨1, 5000, 5000⟩,
                removeObjs := ["part"] }]

theorem stats_eq_recount_upload :
    ∃ s, Transition.run step sampleUpload {} = some s ∧
      s.header.statsOf 1 = ⟨5000, 8192, 1, 5000⟩ ∧
      (∀ category, s.header.statsOf category = recount s.index category) ∧
      ∀ category, (bucketRebuildIndex s).header.statsOf category = s.header.statsOf category := by
  have hrun : Transition.run step sampleUpload {} = some
      ⟨OrdMap.empty.insert "obj" { existsFlag := true, entryMeta := ⟨1, 5000, 5000⟩ },
        { stats := (OrdMap.empty.insert 1 ⟨5000, 8192, 1, 5000⟩).insert 3 0, ver := 2 }⟩ := by
    decide
  have h := stats_eq_recount (by decide : Transition.Along step Proper sampleUpload {}) hrun
  refine ⟨_, hrun, by decide, h.1, (h.2 (by decide) (by decide)).mpr ?_⟩
  intro name e hget
  rw [get_insert] at hget
  split_ifs at hget
  · cases hget
    rfl
  · exact nomatch hget

/-- **A merely prepared object.** Its entry does not exist and was never counted. Removed along
with another object it is taken off nevertheless, and a rebuild counts it. -/
theorem prepared_entry_counted :
    (∃ s, Transition.run step
        [.complete { op := .add, name := "obj", entryMeta := ⟨0, 1, 1⟩ },
          .prepare { op := .add, name := "part", tag := "t" } 0,
          .complete { op := .add, name := "obj", entryMeta := ⟨0, 1, 1⟩,
                      removeObjs := ["part"] }] {} = some s ∧
      (s.header.statsOf 0).numEntries = 0 ∧ (recount s.index 0).numEntries = 1) ∧
    ∃ s, Transition.run step [.prepare { op := .add, name := "part", tag := "t" } 0] {} = some s ∧
      (s.header.statsOf 0).numEntries = 0 ∧
      ((bucketRebuildIndex s).header.statsOf 0).numEntries = 1 :=
  ⟨⟨_, rfl, by decide, by decide⟩, ⟨_, rfl, by decide, by decide⟩⟩

end Ceph.Cls.Rgw
