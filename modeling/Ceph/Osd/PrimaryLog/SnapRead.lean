import Ceph.Lib.Ensures
import Ceph.Lib.SortedScan
import Ceph.Lib.Transition
import Ceph.Osd.PrimaryLog.ObjectOps

set_option autoImplicit false

/-! # Reads of a snapshot

A snapshot of an object is what its head was when the snapshot was taken: after the last operation
with a snap context from before it (`past`). `make_writeable` keeps it in a clone before the head is
changed, and `find_object_context` looks for the clone.

The argument has two halves. A snapshot above the `seq` of the snapset is the head: nothing has
changed it since (`Kept.newer`). One that is not above is in the list of a clone with the right bytes,
or there was no object (`Kept.older`). A transaction moves the snapshots from the first half to the
second (`finishCtx_kept`).
-/

namespace Ceph.Osd.PrimaryLog

open OrdMap Option List Transition

/-! ## The past -/

/-- What the head was after the last operation whose snap context has a `seq` below the snapshot. -/
def past (history : List (ℕ × Option (List UInt8))) (s : ℕ) : Option (List UInt8) :=
  (history.find? fun e => e.1 < s).bind Prod.snd

theorem past_cons (q : ℕ) (b : Option (List UInt8)) (history : List (ℕ × Option (List UInt8)))
    (s : ℕ) : past ((q, b) :: history) s = if q < s then b else past history s := by
  rw [past, find?_cons]
  by_cases h : q < s
  · simp [h]
  · simp [h, past]

/-- What a client reads of the object that a snapshot is resolved to. -/
def Object.read (o : Object) : Found → Option (List UInt8)
  | .enoent => none
  | .head => o.contents
  | .clone c => (o.cloneObjs.get c).map CloneObject.bytes

/-- **The condition on the snap contexts**: `seq` does not decrease, and every snapshot of the pool up
to it that is not removed is listed. -/
def ListsSnaps (S : Set ℕ) (st : State) : Action → Prop
  | .start snapc =>
    (∀ e ∈ st.history, e.1 ≤ snapc.seq) ∧
      ∀ s ∈ S, s ≤ snapc.seq → s ∉ st.removed → s ∈ snapc.snaps
  | _ => True

instance (l : List ℕ) (st : State) : ∀ a, Decidable (ListsSnaps {s | s ∈ l} st a)
  | .start snapc =>
    inferInstanceAs (Decidable ((∀ e ∈ st.history, e.1 ≤ snapc.seq) ∧
      ∀ s ∈ l, s ≤ snapc.seq → s ∉ st.removed → s ∈ snapc.snaps))
  | .op _ _ | .finish | .removeSnap _ | .trim _ => inferInstanceAs (Decidable True)

/-! ## The shape of a snapset -/

/-- The clone `c` is there, for the snapshots `l`. -/
structure Object.HasClone (o : Object) (c : ℕ) (l : List ℕ) (k : CloneObject) : Prop where
  snaps : o.snapset.cloneSnaps.get c = some l
  obj : o.cloneObjs.get c = some k
  ne_nil : l ≠ []
  sorted : l.Pairwise (· > ·)
  le : ∀ t ∈ l, t ≤ c
  /-- The snapshots are newer than the clones before. -/
  above : ∀ c' ∈ o.snapset.clones, c' < c → ∀ t ∈ l, c' < t

/-- What holds of an object, whatever the snap contexts are. -/
structure Object.Shape (o : Object) : Prop where
  sorted : o.snapset.clones.Pairwise (· < ·)
  le_seq : ∀ c ∈ o.snapset.clones, c ≤ o.snapset.seq
  hasClone : ∀ c ∈ o.snapset.clones, ∃ l k, o.HasClone c l k
  head : o.snapset.clones ≠ [] → o.obs.existing = true
  seq_le : o.snapset.seq ≤ maxSnap
  noSsc : o.sscExists = false → o.snapset = {} ∧ o.obs.existing = false

variable {o o' : Object} {removed : OrdSet ℕ} {s : ℕ}

theorem Object.Shape.ne_noSnap (hshape : o.Shape) (hle : s ≤ o.snapset.seq) : s ≠ noSnap := by
  have hseq := hshape.seq_le
  unfold maxSnap at hseq
  unfold noSnap
  omega

section Find

variable (hshape : o.Shape) (hssc : o.sscExists = true) (hremoved : s ∉ removed)
  (hle : s ≤ o.snapset.seq)
include hshape hssc hremoved hle

/-- **A snapshot that a clone has is found there.** -/
theorem findObjectContext_of_mem (cached : Bool) {c : ℕ} {l : List ℕ} {k : CloneObject}
    (hc : c ∈ o.snapset.clones) (hclone : o.HasClone c l k) (hs : s ∈ l) :
    findObjectContext cached o removed s = some (.clone c) := by
  -- the clones before are older than all snapshots of this one
  have hfind : o.snapset.clones.find? (fun c => !decide (c < s)) = some c := by
    apply SortedScan.find?_eq_some hshape.sorted hc
    · simpa using hclone.le s hs
    · intro c' hc' hlt
      simpa using hclone.above c' hc' hlt s hs
  have hobj : c ∈ o.cloneObjs := by rw [mem_iff_isSome, hclone.obj]; rfl
  have hlast : l.getLast? = some (l.getLast hclone.ne_nil) :=
    getLast?_eq_some_getLast hclone.ne_nil
  have hfirst : l.getLast hclone.ne_nil ≤ s :=
    SortedScan.rel_getLast? (r := (· ≥ ·)) (hclone.sorted.imp fun h => h.le) hs hlast
  rw [findObjectContext, if_neg (hshape.ne_noSnap hle), if_neg hremoved, if_neg (by simp [hssc]),
    if_neg (not_lt.mpr hle), hfind]
  simp [hobj, hclone.snaps, hlast, hfirst]

/-- **A snapshot that is older than the snapshots of all clones from it on is not found.** -/
theorem findObjectContext_of_lt (cached : Bool) (hlt : ∀ c ∈ o.snapset.clones, s ≤ c →
      ∀ l, o.snapset.cloneSnaps.get c = some l → ∀ t ∈ l, s < t) :
    findObjectContext cached o removed s = some .enoent := by
  rw [findObjectContext, if_neg (hshape.ne_noSnap hle), if_neg hremoved, if_neg (by simp [hssc]),
    if_neg (not_lt.mpr hle)]
  cases hfind : o.snapset.clones.find? (fun c => !decide (c < s)) with
  | none => rfl
  | some c =>
    have hc : c ∈ o.snapset.clones := mem_of_find?_eq_some hfind
    have hsc : s ≤ c := by simpa using find?_some hfind
    obtain ⟨l, k, hclone⟩ := hshape.hasClone c hc
    have hobj : c ∈ o.cloneObjs := by rw [mem_iff_isSome, hclone.obj]; rfl
    have hlast : l.getLast? = some (l.getLast hclone.ne_nil) :=
      getLast?_eq_some_getLast hclone.ne_nil
    have hfirst : s < l.getLast hclone.ne_nil :=
      hlt c hc hsc l hclone.snaps _ (getLast_mem hclone.ne_nil)
    simp [hobj, hclone.snaps, hlast, hfirst]

end Find

/-! ## What is kept of the past -/

/-- **The past is kept**: in the head for the snapshots above `seq`, in the clones for the others. -/
structure Kept (S : Set ℕ) (removed : OrdSet ℕ) (history : List (ℕ × Option (List UInt8)))
    (o : Object) : Prop where
  newer : ∀ s ∈ S, s ∉ removed → o.snapset.seq < s → past history s = o.contents
  older : ∀ s ∈ S, s ∉ removed → s ≤ o.snapset.seq →
    (∃ c ∈ o.snapset.clones, ∃ l k, o.HasClone c l k ∧ s ∈ l ∧ past history s = some k.bytes) ∨
      (past history s = none ∧ ∀ c ∈ o.snapset.clones, s ≤ c →
        ∀ l, o.snapset.cloneSnaps.get c = some l → ∀ t ∈ l, s < t)

section Reads

variable {S : Set ℕ} {history : List (ℕ × Option (List UInt8))}

theorem contents_of_absent (h : o.obs.existing = false) : o.contents = none := by
  rw [Object.contents, h]
  rfl

/-- Without clones there was no object at a snapshot that is not above `seq`. -/
theorem Kept.eq_none (hkept : Kept S removed history o) (hclones : o.snapset.clones = [])
    (hs : s ∈ S) (hremoved : s ∉ removed) (hle : s ≤ o.snapset.seq) : past history s = none := by
  rcases hkept.older s hs hremoved hle with ⟨c, hc, -⟩ | ⟨hpast, -⟩
  · rw [hclones] at hc
    cases hc
  · exact hpast

/-- **A read of a snapshot gives the past.** -/
theorem read_of_kept (cached : Bool) (hshape : o.Shape) (hkept : Kept S removed history o)
    (hs : s ∈ S) (hremoved : s ∉ removed) :
    ∃ found, findObjectContext cached o removed s = some found ∧ o.read found = past history s ∧
      ((found = .enoent ∨ (found = .head ∧ o.contents = none)) ↔ past history s = none) := by
  by_cases hnosnap : s = noSnap
  · -- the head itself
    have hlt : o.snapset.seq < s := not_le.mp fun hle => hshape.ne_noSnap hle hnosnap
    have hpast := hkept.newer s hs hremoved hlt
    by_cases hfound : (cached || o.obs.existing) = true
    · refine ⟨.head, ?_, hpast.symm, by rw [hpast]; simp⟩
      rw [findObjectContext, if_pos hnosnap, if_pos hfound]
    · have hnone : o.contents = none := contents_of_absent (by simp_all)
      refine ⟨.enoent, ?_, by rw [hpast, hnone]; rfl, by rw [hpast, hnone]; simp⟩
      rw [findObjectContext, if_pos hnosnap, if_neg hfound]
  cases hssc : o.sscExists with
  | false =>
    obtain ⟨hsnapset, hexists⟩ := hshape.noSsc hssc
    have hpast : past history s = none := by
      by_cases hlt : o.snapset.seq < s
      · rw [hkept.newer s hs hremoved hlt, contents_of_absent hexists]
      · exact hkept.eq_none (by rw [hsnapset]) hs hremoved (not_lt.mp hlt)
    refine ⟨.enoent, ?_, hpast.symm, ?_⟩
    · rw [findObjectContext, if_neg hnosnap, if_neg hremoved, if_pos (by simp [hssc])]
    · rw [hpast]
      simp
  | true =>
    by_cases hlt : o.snapset.seq < s
    · have hpast := hkept.newer s hs hremoved hlt
      refine ⟨.head, ?_, hpast.symm, by rw [hpast]; simp⟩
      rw [findObjectContext, if_neg hnosnap, if_neg hremoved, if_neg (by simp [hssc]), if_pos hlt]
    · have hle : s ≤ o.snapset.seq := not_lt.mp hlt
      rcases hkept.older s hs hremoved hle with ⟨c, hc, l, k, hclone, hmem, hpast⟩ | ⟨hpast, hnone⟩
      · refine ⟨.clone c, findObjectContext_of_mem hshape hssc hremoved hle cached hc hclone hmem,
          ?_, ?_⟩
        · rw [Object.read, hclone.obj, hpast]
          rfl
        · rw [hpast]
          simp
      · refine ⟨.enoent, findObjectContext_of_lt hshape hssc hremoved hle cached hnone, hpast.symm,
          ?_⟩
        rw [hpast]
        simp

end Reads

/-! ## The operations do not lose an object -/

section Operations

variable {cfg : Config} {x : OpContext} {e : ExtentOp}

/-- The snap context is the same, and an object that is there stays. -/
structure Keeps (x x' : OpContext) : Prop where
  snapc : x'.snapc = x.snapc
  existing : x.newObs.existing = true → x'.newObs.existing = true

theorem Keeps.refl (x : OpContext) : Keeps x x := ⟨rfl, id⟩

theorem Keeps.trans {x y z : OpContext} (h₁ : Keeps x y) (h₂ : Keeps y z) : Keeps x z :=
  ⟨h₂.snapc.trans h₁.snapc, fun h => h₂.existing (h₁.existing h)⟩

theorem maybeCreateNewObject_keeps {ignoreTransaction : Bool} :
    Ensures (maybeCreateNewObject x ignoreTransaction) (Keeps x) := by
  unfold maybeCreateNewObject
  refine .ite (fun _ => .ite (fun _ => .none) fun _ => ?_) fun _ => ?_
  · exact .ite (fun _ => .some ⟨rfl, fun _ => rfl⟩) fun _ => .map fun t _ => ⟨rfl, fun _ => rfl⟩
  · exact .ite (fun _ => .some ⟨rfl, id⟩) fun _ => .some (.refl x)

theorem writeTruncate_keeps : Ensures (writeTruncate e x) (Keeps x) := by
  unfold writeTruncate
  refine .ite (fun _ => ?_) fun _ => .some (.refl x)
  exact .ite (fun _ => .map fun t _ => ⟨rfl, id⟩) fun _ => .some ⟨rfl, id⟩

theorem writeBuffer_keeps {offset : ℕ} {data : List UInt8} :
    Ensures (writeBuffer x offset data) (Keeps x) := by
  unfold writeBuffer
  refine .ite (fun _ => ?_) fun _ => .map fun t _ => ⟨rfl, id⟩
  exact .ite (fun _ => .map fun t _ => ⟨rfl, id⟩) fun _ => .map fun t _ => ⟨rfl, id⟩

theorem doWrite_keeps {indata : List UInt8} :
    Ensures (doWrite cfg e indata x) fun r => Keeps x r.ctx := by
  unfold doWrite
  refine .ite (fun _ => .some (.refl x)) fun _ => writeTruncate_keeps.bind fun x₁ hx₁ => ?_
  refine .ite (fun _ => .some hx₁) fun _ => maybeCreateNewObject_keeps.bind fun x₂ hx₂ => ?_
  refine writeBuffer_keeps.bind fun x₃ hx₃ => .some ?_
  exact ((hx₁.trans hx₂).trans hx₃).trans ⟨rfl, id⟩

theorem doWritefull_keeps {indata : List UInt8} :
    Ensures (doWritefull cfg e indata x) fun r => Keeps x r.ctx := by
  unfold doWritefull
  refine .ite (fun _ => .some (.refl x)) fun _ => .ite (fun _ => .some (.refl x)) fun _ => ?_
  refine maybeCreateNewObject_keeps.bind fun x₁ hx₁ => .bind (.eq _) fun t₁ _ => ?_
  exact .bind (.eq _) fun t₂ _ => .some (hx₁.trans ⟨rfl, id⟩)

theorem doTruncate_keeps : Ensures (doTruncate cfg e x) fun r => Keeps x r.ctx := by
  unfold doTruncate
  refine .ite (fun _ => .some (.refl x)) fun _ => .ite (fun _ => .some (.refl x)) fun _ => ?_
  refine .ite (fun _ => .none) fun _ => .ite (fun _ => .some (.refl x)) fun _ => ?_
  refine maybeCreateNewObject_keeps.bind fun x₁ hx₁ => .bind (.eq _) fun t _ => .some ?_
  exact ⟨hx₁.snapc, hx₁.existing⟩

theorem doZero_keeps : Ensures (doZero cfg e x) fun r => Keeps x r.ctx := by
  unfold doZero
  refine .ite (fun _ => .ite (fun _ => .some (.refl x)) fun _ => doTruncate_keeps) fun _ => ?_
  refine .ite (fun _ => .some (.refl x)) fun _ => .ite (fun _ => .none) fun _ => ?_
  exact .ite (fun _ => .bind (.eq _) fun t _ => .some ⟨rfl, id⟩) fun _ => .some (.refl x)

theorem doCreate_keeps {excl decodes : Bool} :
    Ensures (doCreate excl decodes x) fun r => Keeps x r.ctx := by
  unfold doCreate
  refine .ite (fun _ => .some (.refl x)) fun _ => .ite (fun _ => .some (.refl x)) fun _ => ?_
  refine maybeCreateNewObject_keeps.bind fun x₁ hx₁ => ?_
  exact .bind (Q := Keeps x) (.map fun t _ => hx₁.trans ⟨rfl, id⟩) fun x₂ hx₂ => .some hx₂

/-- Nothing of the past would be lost with the head: there is no clone, and none will be made. -/
def CanRemove (o : Object) (x : OpContext) : Prop :=
  o.snapset.clones = [] ∧ x.snapc.newerThan o.snapset.seq = false

/-- An operation keeps the snap context, and loses the object only if no snapshot needs it. -/
def KeepsOrRemoves (o : Object) (x x' : OpContext) : Prop :=
  x'.snapc = x.snapc ∧ (CanRemove o x ∨ Keeps x x')

theorem Keeps.keepsOrRemoves {x' : OpContext} (h : Keeps x x') : KeepsOrRemoves o x x' :=
  ⟨h.snapc, .inr h⟩

/-- **The head is removed only if no snapshot needs it.** -/
theorem deleteOid_keeps : Ensures (deleteOid o x) fun r => KeepsOrRemoves o x r.ctx := by
  unfold deleteOid
  refine .ite (fun _ => .some (Keeps.refl x).keepsOrRemoves) fun _ => .bind (.eq _) fun t _ => ?_
  refine .ite (fun _ => .bind (.eq _) fun t₂ _ => .some (Keeps.keepsOrRemoves ⟨rfl, id⟩)) ?_
  intro hwhiteout
  simp only [OpContext.willWhiteout, Bool.or_eq_true, not_or] at hwhiteout
  exact .some ⟨rfl, .inl ⟨by simpa using hwhiteout.1, by simpa using hwhiteout.2⟩⟩

theorem rollbackTo_keeps {snapid : ℕ} {watched : Bool} :
    Ensures (rollbackTo o removed snapid watched x) fun r => KeepsOrRemoves o x r.ctx := by
  unfold rollbackTo
  refine .bind (.eq _) fun found _ => ?_
  have hdeletes : Ensures (if watched = true then x.refuse .EBUSY
      else (deleteOid o x).map fun r => ⟨none, r.ctx⟩) fun r => KeepsOrRemoves o x r.ctx :=
    .ite (fun _ => .some (Keeps.refl x).keepsOrRemoves) fun _ => .map deleteOid_keeps
  cases found with
  | enoent => exact hdeletes
  | head => exact .ite (fun _ => hdeletes) fun _ => .some (Keeps.keepsOrRemoves ⟨rfl, id⟩)
  | clone c =>
    refine .bind (.eq _) fun k _ => .ite (fun _ => hdeletes) fun _ => .bind (.eq _) fun t₁ _ => ?_
    refine .bind (.eq _) fun t₂ _ => maybeCreateNewObject_keeps.bind fun x₃ hx₃ => .some ?_
    exact Keeps.keepsOrRemoves ⟨hx₃.snapc, hx₃.existing⟩

theorem doOsdOp_keeps {op : OsdOp} :
    Ensures (doOsdOp cfg o removed x op) fun r => KeepsOrRemoves o x r.ctx := by
  cases op with
  | write e indata => exact doWrite_keeps.imp fun _ => Keeps.keepsOrRemoves
  | writefull e indata => exact doWritefull_keeps.imp fun _ => Keeps.keepsOrRemoves
  | zero e => exact doZero_keeps.imp fun _ => Keeps.keepsOrRemoves
  | truncate e => exact doTruncate_keeps.imp fun _ => Keeps.keepsOrRemoves
  | trimtrunc e => exact doTruncate_keeps.imp fun _ => Keeps.keepsOrRemoves
  | create excl decodes => exact doCreate_keeps.imp fun _ => Keeps.keepsOrRemoves
  | delete => exact deleteOid_keeps
  | rollback snapid watched => exact rollbackTo_keeps

end Operations

/-! ## A transaction keeps the past -/

section Finish

variable {snapc : SnapContext}

theorem isValid_spec (h : snapc.isValid = true) :
    snapc.seq ≤ maxSnap ∧ (∀ t ∈ snapc.snaps, t ≤ snapc.seq) ∧ snapc.snaps.Pairwise (· > ·) := by
  rw [SnapContext.isValid, Bool.and_eq_true, decide_eq_true_eq] at h
  obtain ⟨hseq, h⟩ := h
  cases hsnaps : snapc.snaps with
  | nil => exact ⟨hseq, (fun t ht => absurd ht not_mem_nil), List.Pairwise.nil⟩
  | cons a l =>
    rw [hsnaps] at h
    simp only [Bool.and_eq_true, decide_eq_true_eq] at h
    obtain ⟨ha, hsorted⟩ := h
    refine ⟨hseq, ?_, hsorted⟩
    intro t ht
    rcases mem_cons.mp ht with rfl | ht
    · exact ha
    · exact le_trans ((pairwise_cons.mp hsorted).1 t ht).le ha

theorem mem_takeWhile (hsorted : snapc.snaps.Pairwise (· > ·)) {n t : ℕ} :
    t ∈ snapc.snaps.takeWhile (fun t => decide (t > n)) ↔ t ∈ snapc.snaps ∧ n < t := by
  rw [SortedScan.takeWhile_eq_filter, mem_filter, decide_eq_true_eq]
  refine hsorted.imp ?_
  intro a b hab hb
  rw [decide_eq_true_eq] at hb ⊢
  exact lt_trans hb hab

theorem newerThan_of_mem (hsorted : snapc.snaps.Pairwise (· > ·)) {n t : ℕ} (ht : t ∈ snapc.snaps)
    (hlt : n < t) : snapc.newerThan n = true := by
  rw [SnapContext.newerThan]
  cases hsnaps : snapc.snaps with
  | nil =>
    rw [hsnaps] at ht
    cases ht
  | cons a l =>
    rw [hsnaps] at ht hsorted
    rcases mem_cons.mp ht with rfl | ht
    · simpa using hlt
    · have ha := (pairwise_cons.mp hsorted).1 t ht
      simpa using lt_trans hlt ha

theorem exists_of_newerThan {n : ℕ} (h : snapc.newerThan n = true) : ∃ t ∈ snapc.snaps, n < t := by
  rw [SnapContext.newerThan] at h
  cases hsnaps : snapc.snaps with
  | nil =>
    rw [hsnaps] at h
    cases h
  | cons a l =>
    rw [hsnaps] at h
    exact ⟨a, mem_cons_self, by simpa using h⟩

theorem makeWriteable_seq (hle : o.snapset.seq ≤ snapc.seq) :
    (makeWriteable o snapc).1.seq = snapc.seq := by
  have hseq : (if snapc.seq > o.snapset.seq then snapc.seq else o.snapset.seq) = snapc.seq := by
    split
    · rfl
    · omega
  rw [makeWriteable]
  split
  · exact hseq
  · exact hseq

/-- The clones of the object after `make_writeable`. -/
structure Written (o : Object) (snapc : SnapContext) (o' : Object) : Prop where
  snapset : o'.snapset = (makeWriteable o snapc).1
  cloneObjs : o'.cloneObjs = (makeWriteable o snapc).2

theorem Written.mem_clones (hwritten : Written o snapc o') {c : ℕ} (hc : c ∈ o'.snapset.clones) :
    c ∈ o.snapset.clones ∨ (c = snapc.seq ∧ clones o snapc = true) := by
  rw [hwritten.snapset, makeWriteable] at hc
  by_cases hclones : clones o snapc = true
  · rw [if_pos hclones] at hc
    rcases mem_append.mp hc with hc | hc
    · exact .inl hc
    · exact .inr ⟨mem_singleton.mp hc, hclones⟩
  · rw [if_neg hclones] at hc
    exact .inl hc

section Writes

variable (hshape : o.Shape) (hvalid : snapc.isValid = true) (hwritten : Written o snapc o')
include hshape hvalid hwritten

theorem Written.hasClone {c : ℕ} {l : List ℕ} {k : CloneObject} (hc : c ∈ o.snapset.clones)
    (h : o.HasClone c l k) : c ∈ o'.snapset.clones ∧ o'.HasClone c l k := by
  have hsnapset := hwritten.snapset
  have hobjs := hwritten.cloneObjs
  rw [makeWriteable] at hsnapset hobjs
  by_cases hclones : clones o snapc = true
  · rw [if_pos hclones] at hsnapset hobjs
    rw [clones, Bool.and_eq_true] at hclones
    obtain ⟨t, ht, hlt⟩ := exists_of_newerThan hclones.2
    -- the new clone is above all others
    have hnew : c < snapc.seq :=
      lt_of_le_of_lt (hshape.le_seq c hc) (lt_of_lt_of_le hlt ((isValid_spec hvalid).2.1 t ht))
    refine ⟨?_, ?_, ?_, h.ne_nil, h.sorted, h.le, ?_⟩
    · rw [hsnapset]
      exact mem_append_left _ hc
    · rw [hsnapset, get_insert, if_neg hnew.ne]
      exact h.snaps
    · rw [hobjs, get_insert, if_neg hnew.ne]
      exact h.obj
    · intro c' hc' hlt'
      rw [hsnapset] at hc'
      rcases mem_append.mp hc' with hc' | hc'
      · exact h.above c' hc' hlt'
      · rw [mem_singleton] at hc'
        omega
  · rw [if_neg hclones] at hsnapset hobjs
    refine ⟨by rw [hsnapset]; exact hc, ?_, ?_, h.ne_nil, h.sorted, h.le, ?_⟩
    · rw [hsnapset]
      exact h.snaps
    · rw [hobjs]
      exact h.obj
    · rw [hsnapset]
      exact h.above

theorem Written.newClone (hclones : clones o snapc = true) :
    snapc.seq ∈ o'.snapset.clones ∧
      o'.HasClone snapc.seq (snapc.snaps.takeWhile fun t => decide (t > o.snapset.seq))
        ⟨o.obs.oi, o.stored.getD []⟩ := by
  obtain ⟨-, hle, hsorted⟩ := isValid_spec hvalid
  have hsnapset := hwritten.snapset
  have hobjs := hwritten.cloneObjs
  rw [makeWriteable, if_pos hclones] at hsnapset hobjs
  rw [clones, Bool.and_eq_true] at hclones
  obtain ⟨t, ht, hlt⟩ := exists_of_newerThan hclones.2
  refine ⟨?_, ?_, ?_, ?_, ?_, ?_, ?_⟩
  · rw [hsnapset]
    exact mem_append_right _ (mem_singleton_self _)
  · rw [hsnapset, get_insert, if_pos rfl]
  · rw [hobjs, get_insert, if_pos rfl]
  · exact ne_nil_of_mem ((mem_takeWhile hsorted).mpr ⟨ht, hlt⟩)
  · exact hsorted.sublist (takeWhile_sublist _)
  · intro t ht
    exact hle t ((mem_takeWhile hsorted).mp ht).1
  · intro c' hc' hlt' t ht
    rw [hsnapset] at hc'
    rcases mem_append.mp hc' with hc' | hc'
    · exact lt_of_le_of_lt (hshape.le_seq c' hc') ((mem_takeWhile hsorted).mp ht).2
    · rw [mem_singleton] at hc'
      omega

theorem Written.shape (hle : o.snapset.seq ≤ snapc.seq) (hexists : o'.obs.existing = true)
    (hssc : o'.sscExists = true) : o'.Shape := by
  have hseq : o'.snapset.seq = snapc.seq := by rw [hwritten.snapset, makeWriteable_seq hle]
  refine ⟨?_, ?_, ?_, fun _ => hexists, ?_, fun h => absurd h (by rw [hssc]; simp)⟩
  · rw [hwritten.snapset, makeWriteable]
    split
    · rename_i hclones
      rw [clones, Bool.and_eq_true] at hclones
      obtain ⟨t, ht, hlt⟩ := exists_of_newerThan hclones.2
      have htle := (isValid_spec hvalid).2.1 t ht
      refine pairwise_append.mpr ⟨hshape.sorted, pairwise_singleton _ _, ?_⟩
      intro c hc c' hc'
      rw [mem_singleton] at hc'
      have hcle := hshape.le_seq c hc
      omega
    · exact hshape.sorted
  · intro c hc
    rw [hseq]
    rcases hwritten.mem_clones hc with hc | ⟨hc, -⟩
    · exact le_trans (hshape.le_seq c hc) hle
    · exact hc.le
  · intro c hc
    rcases hwritten.mem_clones hc with hc | ⟨rfl, hclones⟩
    · obtain ⟨l, k, hclone⟩ := hshape.hasClone c hc
      exact ⟨l, k, (hwritten.hasClone hshape hvalid hc hclone).2⟩
    · exact ⟨_, _, (hwritten.newClone hshape hvalid hclones).2⟩
  · rw [hseq]
    exact (isValid_spec hvalid).1

/-- **A transaction moves the new snapshots from the head to a clone.** -/
theorem Written.kept {S : Set ℕ} {history : List (ℕ × Option (List UInt8))}
    (hkept : Kept S removed history o) (hle : o.snapset.seq ≤ snapc.seq)
    (hlists : ∀ s ∈ S, s ≤ snapc.seq → s ∉ removed → s ∈ snapc.snaps) :
    Kept S removed ((snapc.seq, o'.contents) :: history) o' := by
  have hsorted := (isValid_spec hvalid).2.2
  have hseq : o'.snapset.seq = snapc.seq := by rw [hwritten.snapset, makeWriteable_seq hle]
  constructor
  · intro s _ _ hlt
    rw [hseq] at hlt
    rw [past_cons, if_pos hlt]
  · intro s hs hremoved hsle
    rw [hseq] at hsle
    rw [past_cons, if_neg (not_lt.mpr hsle)]
    by_cases hold : s ≤ o.snapset.seq
    · -- the snapshot was in a clone, or there was no object
      rcases hkept.older s hs hremoved hold with ⟨c, hc, l, k, hclone, hmem, hpast⟩ | ⟨hpast, hnone⟩
      · obtain ⟨hc', hclone'⟩ := hwritten.hasClone hshape hvalid hc hclone
        exact .inl ⟨c, hc', l, k, hclone', hmem, hpast⟩
      · refine .inr ⟨hpast, ?_⟩
        intro c hc hsc l hl t ht
        rcases hwritten.mem_clones hc with hc | ⟨rfl, hclones⟩
        · obtain ⟨l₀, k₀, hclone⟩ := hshape.hasClone c hc
          have hl₀ := (hwritten.hasClone hshape hvalid hc hclone).2.snaps
          have heq : l₀ = l := Option.some.inj (hl₀.symm.trans hl)
          exact hnone c hc hsc l₀ hclone.snaps t (heq ▸ ht)
        · have hl₀ := (hwritten.newClone hshape hvalid hclones).2.snaps
          have heq := Option.some.inj (hl₀.symm.trans hl)
          exact lt_of_le_of_lt hold ((mem_takeWhile hsorted).mp (heq ▸ ht)).2
    · -- the snapshot was the head
      have hlt : o.snapset.seq < s := not_le.mp hold
      have hmem : s ∈ snapc.snaps := hlists s hs hsle hremoved
      have hpast := hkept.newer s hs hremoved hlt
      by_cases hvisible : (o.obs.existing && !o.obs.oi.whiteout) = true
      · have hclones : clones o snapc = true := by
          rw [clones, hvisible, newerThan_of_mem hsorted hmem hlt]
          rfl
        obtain ⟨hc, hclone⟩ := hwritten.newClone hshape hvalid hclones
        refine .inl ⟨_, hc, _, _, hclone, (mem_takeWhile hsorted).mpr ⟨hmem, hlt⟩, ?_⟩
        rw [hpast, Object.contents, if_pos hvisible]
      · refine .inr ⟨?_, ?_⟩
        · rw [hpast, Object.contents, if_neg hvisible]
        · intro c hc hsc
          rcases hwritten.mem_clones hc with hc | ⟨-, hclones⟩
          · have hcle := hshape.le_seq c hc
            omega
          · rw [clones, Bool.and_eq_true] at hclones
            exact absurd hclones.1 hvisible

end Writes

section Ends

variable {S : Set ℕ} {history : List (ℕ × Option (List UInt8))} {x : OpContext}

theorem Kept.same (hkept : Kept S removed history o) {q : ℕ} (hle : o.snapset.seq ≤ q) :
    Kept S removed ((q, o.contents) :: history) o := by
  constructor
  · intro s hs hremoved hlt
    rw [past_cons]
    split
    · rfl
    · exact hkept.newer s hs hremoved hlt
  · intro s hs hremoved hsle
    rw [past_cons, if_neg (not_lt.mpr (le_trans hsle hle))]
    exact hkept.older s hs hremoved hsle

theorem Kept.gone (hshape : o.Shape) (hvalid : x.snapc.isValid = true)
    (hkept : Kept S removed history o)
    (hlists : ∀ s ∈ S, s ≤ x.snapc.seq → s ∉ removed → s ∈ x.snapc.snaps)
    (hgone : o.obs.existing = false ∨ CanRemove o x) {stored : Option (List UInt8)}
    {objs : OrdMap ℕ CloneObject} :
    Kept S removed ((x.snapc.seq, none) :: history) ⟨{}, stored, false, {}, objs⟩ := by
  have hclones : o.snapset.clones = [] := by
    rcases hgone with hgone | hgone
    · by_contra hne
      rw [hshape.head hne] at hgone
      cases hgone
    · exact hgone.1
  have hpast : ∀ s ∈ S, s ∉ removed → past ((x.snapc.seq, none) :: history) s = none := by
    intro s hs hremoved
    rw [past_cons]
    split
    · rfl
    rename_i hsle
    by_cases hold : s ≤ o.snapset.seq
    · exact hkept.eq_none hclones hs hremoved hold
    · -- the snapshot is listed: then the head was not there
      have hlt : o.snapset.seq < s := not_le.mp hold
      rw [hkept.newer s hs hremoved hlt]
      rcases hgone with hgone | hgone
      · exact contents_of_absent hgone
      · have hmem := hlists s hs (not_lt.mp hsle) hremoved
        have hnewer := newerThan_of_mem (isValid_spec hvalid).2.2 hmem hlt
        rw [hgone.2] at hnewer
        cases hnewer
  constructor
  · intro s hs hremoved _
    exact hpast s hs hremoved
  · intro s hs hremoved _
    exact .inr ⟨hpast s hs hremoved, fun c hc => by cases hc⟩

/-- **The end of a transaction.** -/
theorem finishCtx_kept (hshape : o.Shape) (hvalid : x.snapc.isValid = true)
    (hkept : Kept S removed history o) (hle : o.snapset.seq ≤ x.snapc.seq)
    (hlists : ∀ s ∈ S, s ≤ x.snapc.seq → s ∉ removed → s ∈ x.snapc.snaps)
    (hgone : x.newObs.existing = false → o.obs.existing = false ∨ CanRemove o x) :
    Ensures (finishCtx o x) fun o' =>
      o'.Shape ∧ Kept S removed ((x.snapc.seq, o'.contents) :: history) o' ∧
        o'.snapset.seq ≤ x.snapc.seq := by
  unfold finishCtx
  refine .ite (fun _ => .some ⟨hshape, hkept.same hle, hle⟩) fun _ => ?_
  refine .ite (fun hexists => .map fun op _ => ?_) fun hexists => .some ⟨?_, ?_, Nat.zero_le _⟩
  · have hwritten : Written o x.snapc
        ⟨x.newObs, x.opT.generate o.cloneBytes o.stored, true, (makeWriteable o x.snapc).1,
          (makeWriteable o x.snapc).2⟩ := ⟨rfl, rfl⟩
    exact ⟨hwritten.shape hshape hvalid hle hexists rfl,
      hwritten.kept hshape hvalid hkept hle hlists, (makeWriteable_seq hle).le⟩
  · exact ⟨List.Pairwise.nil, fun c hc => absurd hc not_mem_nil,
      fun c hc => absurd hc not_mem_nil, fun hne => absurd rfl hne, Nat.zero_le _,
      fun _ => ⟨rfl, rfl⟩⟩
  · exact hkept.gone hshape hvalid hlists (hgone (by simpa using hexists))

end Ends

end Finish

/-! ## A trim keeps the past -/

section Trim

variable {S : Set ℕ} {history : List (ℕ × Option (List UInt8))} {coid : ℕ}

/-- The head is removed only if there is nothing to read. -/
theorem saveHead_kept (hshape : o.Shape) (hssc : o.sscExists = true)
    (hkept : Kept S removed history o) :
    (saveHead o).Shape ∧ Kept S removed history (saveHead o) ∧
      (saveHead o).snapset.seq = o.snapset.seq := by
  rw [saveHead]
  split
  · rename_i hwhiteout
    have hempty : o.snapset.clones = [] := by simpa using hwhiteout.1
    have hcontents : o.contents = none := by
      rw [Object.contents, hwhiteout.2, if_neg (by simp)]
    refine ⟨⟨hshape.sorted, hshape.le_seq, ?_, fun hne => absurd hempty hne, hshape.seq_le,
      fun h => absurd h (by simp [hssc])⟩, ⟨?_, ?_⟩, rfl⟩
    · intro c hc
      rw [hempty] at hc
      cases hc
    · intro s hs hremoved hlt
      rw [hkept.newer s hs hremoved hlt, hcontents]
      rfl
    · intro s hs hremoved hle
      refine .inr ⟨hkept.eq_none hempty hs hremoved hle, ?_⟩
      intro c hc
      rw [hempty] at hc
      cases hc
  · exact ⟨hshape, hkept, rfl⟩

/-- What a trim does to the clones: one of them loses removed snapshots, or is removed if it has no
others. -/
structure Trims (removed : OrdSet ℕ) (o o' : Object) : Prop where
  obs : o'.obs = o.obs
  stored : o'.stored = o.stored
  ssc : o'.sscExists = o.sscExists
  seq : o'.snapset.seq = o.snapset.seq
  sublist : o'.snapset.clones.Sublist o.snapset.clones
  clone : ∀ c ∈ o.snapset.clones, ∀ l k, o.HasClone c l k →
    (c ∈ o'.snapset.clones ∧ ∃ l', o'.HasClone c l' k ∧ (∀ t ∈ l', t ∈ l) ∧
        ∀ t ∈ l, t ∉ removed → t ∈ l') ∨
      (c ∉ o'.snapset.clones ∧ ∀ t ∈ l, t ∈ removed)

theorem Trims.shape (h : Trims removed o o') (hshape : o.Shape) (hssc : o.sscExists = true) :
    o'.Shape := by
  refine ⟨hshape.sorted.sublist h.sublist, ?_, ?_, ?_, ?_, ?_⟩
  · intro c hc
    rw [h.seq]
    exact hshape.le_seq c (h.sublist.subset hc)
  · intro c hc
    obtain ⟨l, k, hclone⟩ := hshape.hasClone c (h.sublist.subset hc)
    rcases h.clone c (h.sublist.subset hc) l k hclone with ⟨-, l', hclone', -⟩ | ⟨hnot, -⟩
    · exact ⟨l', k, hclone'⟩
    · exact absurd hc hnot
  · intro hne
    rw [h.obs]
    apply hshape.head
    intro hempty
    exact hne (eq_nil_of_subset_nil (hempty ▸ h.sublist.subset))
  · rw [h.seq]
    exact hshape.seq_le
  · intro hnot
    rw [h.ssc, hssc] at hnot
    cases hnot

theorem Trims.kept (h : Trims removed o o') (hshape : o.Shape) (hkept : Kept S removed history o) :
    Kept S removed history o' := by
  constructor
  · intro s hs hremoved hlt
    rw [h.seq] at hlt
    rw [hkept.newer s hs hremoved hlt, Object.contents, Object.contents, h.obs, h.stored]
  · intro s hs hremoved hle
    rw [h.seq] at hle
    rcases hkept.older s hs hremoved hle with ⟨c, hc, l, k, hclone, hmem, hpast⟩ | ⟨hpast, hnone⟩
    · -- the clone still has the snapshot
      rcases h.clone c hc l k hclone with ⟨hc', l', hclone', -, hstays⟩ | ⟨-, hall⟩
      · exact .inl ⟨c, hc', l', k, hclone', hstays s hmem hremoved, hpast⟩
      · exact absurd (hall s hmem) hremoved
    · refine .inr ⟨hpast, ?_⟩
      intro c hc' hsc l₁ hl₁ t ht
      have hc : c ∈ o.snapset.clones := h.sublist.subset hc'
      obtain ⟨l, k, hclone⟩ := hshape.hasClone c hc
      rcases h.clone c hc l k hclone with ⟨-, l', hclone', hsub, -⟩ | ⟨hnot, -⟩
      · have heq : l' = l₁ := Option.some.inj (hclone'.snaps.symm.trans hl₁)
        exact hnone c hc hsc l hclone.snaps t (hsub t (heq ▸ ht))
      · exact absurd hc' hnot

theorem mem_newSnaps {l : List ℕ} {t : ℕ} :
    t ∈ (OrdMap.insertAll (.empty : OrdSet ℕ) (l.filter (· ∉ removed))).keys ↔
      t ∈ l ∧ t ∉ removed := by
  rw [mem_keys_iff, mem_insertAll, mem_filter, decide_eq_true_eq]
  constructor
  · rintro (h | h)
    · exact absurd h (not_mem_empty t)
    · exact h
  · exact .inr

theorem trims_remove (hshape : o.Shape) {oldSnaps : List ℕ}
    (hold : o.snapset.cloneSnaps.get coid = some oldSnaps) (hall : ∀ t ∈ oldSnaps, t ∈ removed) :
    Trims removed o { o with
      snapset := ⟨o.snapset.seq, o.snapset.clones.erase coid, o.snapset.cloneSnaps.erase coid⟩
      cloneObjs := o.cloneObjs.erase coid } := by
  have hnodup : o.snapset.clones.Nodup := hshape.sorted.imp fun hlt => hlt.ne
  refine ⟨rfl, rfl, rfl, rfl, erase_sublist, ?_⟩
  intro c hc l k hclone
  by_cases hcoid : c = coid
  · right
    have hl : l = oldSnaps := Option.some.inj (hclone.snaps.symm.trans (hcoid ▸ hold))
    refine ⟨?_, fun t ht => hall t (hl ▸ ht)⟩
    rw [hcoid]
    exact hnodup.not_mem_erase
  · left
    refine ⟨(mem_erase_of_ne hcoid).mpr hc, l, ?_, fun t ht => ht, fun t ht _ => ht⟩
    refine ⟨?_, ?_, hclone.ne_nil, hclone.sorted, hclone.le, ?_⟩
    · rw [get_erase, if_neg hcoid]
      exact hclone.snaps
    · rw [get_erase, if_neg hcoid]
      exact hclone.obj
    · intro c' hc' hlt
      exact hclone.above c' (mem_of_mem_erase hc') hlt

theorem trims_update {oldSnaps newSnaps : List ℕ}
    (hold : o.snapset.cloneSnaps.get coid = some oldSnaps) (hne : newSnaps ≠ [])
    (hsorted : newSnaps.Pairwise (· > ·)) (hmem : ∀ t, t ∈ newSnaps ↔ t ∈ oldSnaps ∧ t ∉ removed) :
    Trims removed o { o with
      snapset.cloneSnaps := o.snapset.cloneSnaps.insert coid newSnaps } := by
  refine ⟨rfl, rfl, rfl, rfl, List.Sublist.refl _, ?_⟩
  intro c hc l k hclone
  left
  by_cases hcoid : c = coid
  · have hl : l = oldSnaps := Option.some.inj (hclone.snaps.symm.trans (hcoid ▸ hold))
    have hsub : ∀ t ∈ newSnaps, t ∈ l := fun t ht => hl ▸ ((hmem t).mp ht).1
    refine ⟨hc, newSnaps, ⟨?_, hclone.obj, hne, hsorted, ?_, ?_⟩, hsub, ?_⟩
    · rw [get_insert, if_pos hcoid]
    · intro t ht
      exact hclone.le t (hsub t ht)
    · intro c' hc' hlt t ht
      exact hclone.above c' hc' hlt t (hsub t ht)
    · intro t ht hnot
      exact (hmem t).mpr ⟨hl ▸ ht, hnot⟩
  · refine ⟨hc, l, ⟨?_, hclone.obj, hclone.ne_nil, hclone.sorted, hclone.le, hclone.above⟩,
      fun t ht => ht, fun t ht _ => ht⟩
    rw [get_insert, if_neg hcoid]
    exact hclone.snaps

theorem trimObject_eq_ok (hshape : o.Shape) (h : trimObject o removed coid = .ok o') :
    o.sscExists = true ∧ ∃ o₁, Trims removed o o₁ ∧ o' = saveHead o₁ := by
  rw [trimObject] at h
  split at h
  · cases h
  rename_i hthere
  have hssc : o.sscExists = true := by simpa using (not_or.mp hthere).2
  split at h
  · cases h
  rename_i oldSnaps hold
  split at h
  · cases h
  dsimp only at h
  split at h
  · split at h
    · cases h
    rename_i hempty _
    rw [Except.ok.injEq] at h
    refine ⟨hssc, _, trims_remove hshape hold ?_, h.symm⟩
    intro t ht
    by_contra hnot
    have hmem := mem_newSnaps.mpr ⟨ht, hnot⟩
    rw [isEmpty_iff.mp hempty] at hmem
    cases hmem
  · rename_i hne
    rw [Except.ok.injEq] at h
    refine ⟨hssc, _, trims_update hold ?_ ?_ ?_, h.symm⟩
    · simpa using hne
    · exact pairwise_reverse.mpr (pairwise_map.mpr (OrdMap.sorted _))
    · intro t
      rw [mem_reverse, mem_newSnaps]

/-- **A trim keeps the past.** -/
theorem trimObject_kept (hshape : o.Shape) (hkept : Kept S removed history o)
    (h : trimObject o removed coid = .ok o') :
    o'.Shape ∧ Kept S removed history o' ∧ o'.snapset.seq = o.snapset.seq := by
  obtain ⟨hssc, o₁, htrims, rfl⟩ := trimObject_eq_ok hshape h
  obtain ⟨hshape', hkept', hseq'⟩ :=
    saveHead_kept (htrims.shape hshape hssc) (htrims.ssc.trans hssc) (htrims.kept hshape hkept)
  exact ⟨hshape', hkept', hseq'.trans htrims.seq⟩

end Trim

/-! ## The runs -/

/-- What holds of the transaction that is prepared. -/
structure ContextOk (S : Set ℕ) (st : State) (x : OpContext) : Prop where
  valid : x.snapc.isValid = true
  recent : ∀ e ∈ st.history, e.1 ≤ x.snapc.seq
  lists : ∀ s ∈ S, s ≤ x.snapc.seq → s ∉ st.removed → s ∈ x.snapc.snaps
  gone : x.newObs.existing = false → st.obj.obs.existing = false ∨ CanRemove st.obj x

/-- What is kept along a run. -/
structure State.KeepsPast (S : Set ℕ) (st : State) : Prop where
  shape : st.obj.Shape
  kept : Kept S st.removed st.history st.obj
  seq : st.obj.snapset.seq = 0 ∨ ∃ e ∈ st.history, st.obj.snapset.seq ≤ e.1
  ctx : ∀ x, st.ctx = some x → ContextOk S st x

variable {S : Set ℕ}

theorem start_keepsPast : ({} : State).KeepsPast S := by
  refine ⟨⟨List.Pairwise.nil, ?_, ?_, fun hne => absurd rfl hne, Nat.zero_le _, fun _ => ⟨rfl, rfl⟩⟩,
    ⟨fun s _ _ _ => rfl, fun s _ _ _ => .inr ⟨rfl, ?_⟩⟩, .inl rfl, fun x hx => by cases hx⟩
  · exact fun c hc => absurd hc not_mem_nil
  · exact fun c hc => absurd hc not_mem_nil
  · exact fun c hc => absurd hc not_mem_nil

theorem Kept.mono {removed removed' : OrdSet ℕ} {history : List (ℕ × Option (List UInt8))}
    (hkept : Kept S removed history o) (hsub : ∀ s, s ∈ removed → s ∈ removed') :
    Kept S removed' history o :=
  ⟨fun s hs hnot => hkept.newer s hs fun h => hnot (hsub s h),
    fun s hs hnot => hkept.older s hs fun h => hnot (hsub s h)⟩

theorem State.KeepsPast.seq_le {st : State} (hst : st.KeepsPast S) {x : OpContext}
    (hx : ContextOk S st x) : st.obj.snapset.seq ≤ x.snapc.seq := by
  rcases hst.seq with hseq | ⟨e, he, hle⟩
  · rw [hseq]
    exact Nat.zero_le _
  · exact le_trans hle (hx.recent e he)

theorem doOsdOp_contextOk {cfg : Config} {st : State} {x : OpContext} {op : OsdOp}
    (hx : ContextOk S st x) :
    Ensures (doOsdOp cfg st.obj st.removed x op) fun r => ContextOk S st r.ctx := by
  intro r h
  obtain ⟨hsnapc, hkeeps⟩ := doOsdOp_keeps r h
  refine ⟨hsnapc ▸ hx.valid, hsnapc ▸ hx.recent, hsnapc ▸ hx.lists, ?_⟩
  intro hgone
  have hsame : CanRemove st.obj x → CanRemove st.obj r.ctx := by
    intro hremove
    rw [CanRemove, hsnapc]
    exact hremove
  rcases hkeeps with hremove | hkeeps
  · exact .inr (hsame hremove)
  · cases hexists : x.newObs.existing with
    | true =>
      rw [hkeeps.existing hexists] at hgone
      cases hgone
    | false => exact (hx.gone hexists).imp id hsame

theorem step_keepsPast {cfg : Config} {st : State} {a : Action} (hst : st.KeepsPast S)
    (hlists : ListsSnaps S st a) : Ensures (step cfg st a) (State.KeepsPast S) := by
  cases a with
  | start snapc =>
    simp only [step]
    split
    · exact .none
    · refine .ite (fun hvalid => .some ⟨hst.shape, hst.kept, hst.seq, ?_⟩) fun _ => .some hst
      rintro x ⟨⟩
      exact ⟨hvalid, hlists.1, hlists.2, .inl⟩
  | op op failok =>
    refine .bind (.eq _) fun x hctx => .map fun r hr => ?_
    have hx := hst.ctx x hctx
    dsimp only
    split
    · -- the transaction is given up
      have hle := hst.seq_le hx
      exact ⟨hst.shape, hst.kept.same hle, .inr ⟨_, mem_cons_self, hle⟩, fun x hx => by cases hx⟩
    · have hr' := doOsdOp_contextOk hx r hr
      refine ⟨hst.shape, hst.kept, hst.seq, ?_⟩
      rintro y ⟨⟩
      exact ⟨hr'.valid, hr'.recent, hr'.lists, hr'.gone⟩
  | finish =>
    refine .bind (.eq _) fun x hctx => .map fun o ho => ?_
    have hx := hst.ctx x hctx
    obtain ⟨hshape, hkept, hle⟩ :=
      finishCtx_kept hst.shape hx.valid hst.kept (hst.seq_le hx) hx.lists hx.gone o ho
    exact ⟨hshape, hkept, .inr ⟨_, mem_cons_self, hle⟩, fun x hx => by cases hx⟩
  | removeSnap snap =>
    simp only [step]
    split
    · exact .none
    · rename_i hctx
      refine .some ⟨hst.shape, hst.kept.mono fun s hs => (mem_insert ..).mpr (.inr hs), hst.seq, ?_⟩
      intro x hx
      rw [hctx] at hx
      cases hx
  | trim coid =>
    simp only [step]
    split
    · exact .none
    · rename_i hctx
      split
      · exact .some hst
      · rename_i o ho
        obtain ⟨hshape, hkept, hseq⟩ := trimObject_kept hst.shape hst.kept ho
        refine .some ⟨hshape, hkept, by rw [hseq]; exact hst.seq, fun x hx => ?_⟩
        rw [hctx] at hx
        cases hx

/-- **Snapshot reads return the past.** In every run whose snap contexts list the snapshots, a snapshot
that is not removed is resolved, whether the context of the head is cached or not, to an object with
the contents of the head after the last operation from before the snapshot; it is resolved to nothing,
or to a head that is not there, if and only if there was no object then. -/
theorem findObjectContext_reads_past (cfg : Config) (S : Set ℕ) (acts : List Action) (st : State)
    (hlists : Along (step cfg) (ListsSnaps S) acts {}) (hrun : run (step cfg) acts {} = some st)
    (cached : Bool) (s : ℕ) (hs : s ∈ S) (hremoved : s ∉ st.removed) :
    ∃ found, findObjectContext cached st.obj st.removed s = some found ∧
      st.obj.read found = past st.history s ∧
      ((found = .enoent ∨ (found = .head ∧ st.obj.contents = none)) ↔ past st.history s = none) := by
  have hst : st.KeepsPast S := invariant_of_along
    (fun _ _ st' hst hlists => step_keepsPast hst hlists st') hlists hrun start_keepsPast
  exact read_of_kept cached hst.shape hst.kept hs hremoved

/-- An object is written; it is changed after snapshot 1 and deleted after snapshot 3; snapshot 2 is
removed, and the clone of snapshots 2 and 3 trimmed. -/
def snapActs : List Action :=
  [.start ⟨0, []⟩, .op (.write ⟨0, 3, 0, 0⟩ [97, 98, 99]) false, .finish,
    .start ⟨1, [1]⟩, .op (.write ⟨0, 1, 0, 0⟩ [120]) false, .finish,
    .start ⟨3, [3, 2, 1]⟩, .op .delete false, .finish,
    .removeSnap 2, .trim 3]

theorem findObjectContext_reads_past_snapActs :
    ∃ st, run (step defaultConfig) snapActs {} = some st ∧
      (∃ found, findObjectContext false st.obj st.removed 3 = some found ∧
        st.obj.read found = past st.history 3 ∧
        ((found = .enoent ∨ (found = .head ∧ st.obj.contents = none)) ↔
          past st.history 3 = none)) ∧
      past st.history 3 = some [120, 98, 99] := by
  refine ⟨_, rfl, ?_, by decide +kernel⟩
  exact findObjectContext_reads_past defaultConfig {s | s ∈ [1, 2, 3]} snapActs _
    (by decide +kernel) rfl false 3 (by simp) (by decide +kernel)

end Ceph.Osd.PrimaryLog
