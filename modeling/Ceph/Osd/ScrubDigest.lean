import Ceph.Osd.ScrubTally
import Mathlib.Logic.Relation

set_option autoImplicit false

/-! # Recorded digests that a scrub rewrites

With repair, a recorded data digest is replaced by the computed one if the selected copy has no
other error and `digest_match` holds. The flag compares each copy only with the one that is
selected so far, and not at all if the copy has no readable object info or nothing is selected
yet. So the copies are unanimous exactly if those that no comparison links with the selected one
happen to have its digest (`rewritesUnanimously_iff`).
-/

namespace Ceph.Osd

open Option

variable (env : ScrubEnv) (obj : Soid) {σ : Type} [LinearOrder σ] (maps : OrdMap σ ScrubMap)

/-! ## The comparisons that are made -/

/-- The shard with which the digest of a copy is compared. -/
def Selection.comparesWith (s : Selection σ) (o : ScrubObject) : Option σ :=
  s.auth.bind fun a =>
    if a.oi.version ≠ .zero && a.object.digestPresent && o.digestPresent then some a.shard else none

/-- The comparison in the turn of a shard, if there is one. -/
def turnComparison (s : Selection σ) (l : σ) : Option (σ × σ) :=
  (record obj maps l).bind fun o =>
    (inspect env obj o).bind fun (_, info) => info.bind fun _ => (s.comparesWith o).map (·, l)

/-- The comparisons of digests in a scan of a list of shards. -/
def comparisons : Selection σ → List σ → List (σ × σ)
  | _, [] => []
  | s, l :: ls =>
    (turnComparison env obj maps s l).toList ++
      ((scanShard env obj maps s l).map (comparisons · ls)).getD []

/-- The comparisons of the scan that selects a copy. -/
def scanComparisons (primary : σ) : List (σ × σ) :=
  comparisons env obj maps ⟨none, true, .empty⟩ (scanOrder maps primary)

/-- The digest that a shard has computed. -/
def ownDigest (j : σ) : UInt32 := ((record obj maps j).map ScrubObject.digest).getD 0

/-- The shards of all comparisons have computed the same digest. -/
def allMatch (pairs : List (σ × σ)) : Bool :=
  pairs.all fun e => ownDigest obj maps e.1 = ownDigest obj maps e.2

/-- Two shards whose digests were compared, directly or through others. -/
def Tied (primary : σ) : σ → σ → Prop :=
  Relation.EqvGen fun j k => (j, k) ∈ scanComparisons env obj maps primary

variable {env obj maps} {s s' : Selection σ} {l : σ}

theorem ownDigest_of_record {j : σ} {o : ScrubObject} (h : record obj maps j = some o) :
    ownDigest obj maps j = o.digest := by
  rw [ownDigest, h]
  rfl

theorem eq_of_tied {primary : σ} (h : allMatch obj maps (scanComparisons env obj maps primary) = true)
    {j k : σ} (hjk : Tied env obj maps primary j k) :
    ownDigest obj maps j = ownDigest obj maps k := by
  induction hjk with
  | rel j k hmem => simpa using List.all_eq_true.mp h (j, k) hmem
  | refl j => rfl
  | symm j k _ ih => exact ih.symm
  | trans j k l _ _ ih ih' => exact ih.trans ih'

/-- The selected copy is the one of its shard. -/
def Selection.Held (obj : Soid) (maps : OrdMap σ ScrubMap) (s : Selection σ) : Prop :=
  ∀ a, s.auth = some a → record obj maps a.shard = some a.object

theorem Selection.Held.digestDiffers (h : s.Held obj maps) {o : ScrubObject}
    (ho : record obj maps l = some o) :
    (!s.digestDiffers o) = allMatch obj maps ((s.comparesWith o).map (·, l)).toList := by
  rw [Selection.digestDiffers, Selection.comparesWith]
  cases ha : s.auth with
  | none => rfl
  | some a =>
    have hversion : s.authVersion = a.oi.version := by rw [Selection.authVersion, ha]
    rw [bind_some, hversion]
    dsimp only
    split_ifs with hc
    · rw [hc]
      simp [allMatch, ownDigest_of_record (h a ha), ownDigest_of_record ho, decide_not]
    · rw [eq_false_of_ne_true hc]
      rfl

/-- **One turn of the scan** makes at most one comparison. -/
theorem Selection.Held.scanShard (h : s.Held obj maps)
    (hscan : scanShard env obj maps s l = some s') :
    s'.Held obj maps ∧ s'.digestMatch =
      (s.digestMatch && allMatch obj maps (turnComparison env obj maps s l).toList) := by
  unfold Osd.scanShard at hscan
  unfold turnComparison
  split_ifs at hscan
  cases ho : record obj maps l with
  | none =>
    rw [ho] at hscan
    cases hscan
    exact ⟨h, by simp [allMatch]⟩
  | some o =>
    rw [ho] at hscan
    obtain ⟨⟨errors, info⟩, hins, rfl⟩ := map_eq_some_iff.mp hscan
    rw [bind_some, hins, bind_some]
    cases info with
    | none => exact ⟨h, by simp [allMatch]⟩
    | some oi =>
      dsimp only
      rw [bind_some, ← h.digestDiffers ho]
      split_ifs
      · refine ⟨?_, rfl⟩
        rintro a ⟨⟩
        exact ho
      · exact ⟨h, rfl⟩

/-- **`digest_match` says that all comparisons of the scan succeeded.** -/
theorem Selection.Held.scan (h : s.Held obj maps) {ls : List σ}
    (hscan : ls.foldlM (Osd.scanShard env obj maps) s = some s') :
    s'.digestMatch = (s.digestMatch && allMatch obj maps (comparisons env obj maps s ls)) := by
  induction ls generalizing s with
  | nil =>
    cases hscan
    simp [comparisons, allMatch]
  | cons l ls ih =>
    rw [List.foldlM_cons] at hscan
    obtain ⟨s₁, hs₁, hrest⟩ := bind_eq_some_iff.mp hscan
    obtain ⟨hheld, hmatch⟩ := h.scanShard hs₁
    rw [ih hheld hrest, hmatch, comparisons, hs₁]
    simp [allMatch, Bool.and_assoc]

theorem digestMatch_eq {primary : σ} (h : selectAuthObject env obj maps primary = some s) :
    s.digestMatch = allMatch obj maps (scanComparisons env obj maps primary) := by
  have hstart : (⟨none, true, .empty⟩ : Selection σ).Held obj maps := fun a ha => nomatch ha
  exact hstart.scan h

/-! ## The digests that are rewritten -/

theorem digestErrors_eq_data_iff {oi : ObjectInfo} {o : ScrubObject} :
    digestErrors env oi o = {.dataDigestMismatchInfo} ↔
      dataDigestWrong env oi o = true ∧ omapDigestWrong env oi o = false := by
  unfold digestErrors
  cases dataDigestWrong env oi o <;> cases omapDigestWrong env oi o <;> decide

theorem fixes_iff (hpool : env.pool = .replicated) {s : Selection σ} {a : AuthCopy σ}
    (hsel : Selected env obj maps s a) :
    fixes env obj maps true s.digestMatch a = true ↔
      1 < turnShards obj maps a.shard ∧ s.digestMatch = true ∧
        (dataDigestWrong env a.oi a.object = true ∧ omapDigestWrong env a.oi a.object = false) ∧
          a.object.digestPresent = true := by
  rw [← digestErrors_eq_data_iff, ← copyErrors_of_inspect env obj hsel.clean]
  simp only [fixes, fixesDigest, hpool, decide_true, Bool.true_and, Bool.and_eq_true,
    decide_eq_true_eq, gt_iff_lt, and_assoc]

theorem dataDigestWrong_iff (hpool : env.pool = .replicated) {oi : ObjectInfo} {o : ScrubObject} :
    dataDigestWrong env oi o = true ↔
      o.digestPresent = true ∧ ∃ x, oi.dataDigest = some x ∧ x ≠ o.digest := by
  simp [dataDigestWrong, hpool, any_eq_true]

variable (env obj maps)

/-- Two shards hold the object. -/
def TwoCopies : Prop :=
  ∃ j k, j ≠ k ∧ (record obj maps j).isSome = true ∧ (record obj maps k).isSome = true

/-- **Scrub rewrites a recorded digest only from unanimous copies.** -/
def RewritesUnanimously (primary : σ) : Prop :=
  ∀ s a r, selectAuthObject env obj maps primary = some s → s.auth = some a →
    compareScrubmaps env obj maps primary true = some (.compared r) →
    r.missingDigest.isSome = true → a.object.digestPresent = true →
    (∃ x, a.oi.dataDigest = some x ∧ x ≠ a.object.digest) →
      TwoCopies obj maps ∧
        ∀ j o, record obj maps j = some o → o.digestPresent = true → o.digest = a.object.digest

/-- **The copies that were not compared.** If the recorded digest of the selected copy is wrong and
nothing else, then some comparison finds a difference, or two shards hold the object and every copy
that no comparison links with the selected one has the same digest. -/
def SkippedAgree (primary : σ) : Prop :=
  ∀ s a, selectAuthObject env obj maps primary = some s → s.auth = some a →
    a.object.digestPresent = true → (∃ x, a.oi.dataDigest = some x ∧ x ≠ a.object.digest) →
    omapDigestWrong env a.oi a.object = false → 1 < turnShards obj maps a.shard →
    allMatch obj maps (scanComparisons env obj maps primary) = true →
      TwoCopies obj maps ∧ ∀ j o, record obj maps j = some o → o.digestPresent = true →
        ¬Tied env obj maps primary a.shard j → o.digest = a.object.digest

variable {env obj maps}

/-- **Rewritten digests are those of all copies** exactly if the copies that the scan skips agree
with the selected one. -/
theorem rewritesUnanimously_iff (hpool : env.pool = .replicated) (primary : σ) :
    RewritesUnanimously env obj maps primary ↔ SkippedAgree env obj maps primary := by
  constructor
  · intro h s a hselect ha hpresent hrecorded homap hturn hall
    have hwrong := (dataDigestWrong_iff hpool).mpr ⟨hpresent, hrecorded⟩
    have hfix := (fixes_iff hpool (selected env obj _ hselect ha)).mpr
      ⟨hturn, (digestMatch_eq hselect).trans hall, ⟨hwrong, homap⟩, hpresent⟩
    obtain ⟨outcome, hrun, hout, hcompared⟩ := compareScrubmaps_spec true hselect ha
    obtain ⟨r, rfl⟩ := hcompared hfix
    obtain ⟨htwo, hsame⟩ := h s a r hselect ha hrun (((hout r rfl).digest hwrong).mpr hfix)
      hpresent hrecorded
    exact ⟨htwo, fun j o ho hopresent _ => hsame j o ho hopresent⟩
  · intro h s a r hselect ha hcompare hmissing hpresent hrecorded
    have hselected := selected env obj _ hselect ha
    obtain ⟨outcome, hrun, hout, -⟩ := compareScrubmaps_spec true hselect ha
    rw [hcompare, some_inj] at hrun
    have hwrong := (dataDigestWrong_iff hpool).mpr ⟨hpresent, hrecorded⟩
    have hfix := ((hout r hrun.symm).digest hwrong).mp hmissing
    obtain ⟨hturn, hmatch, ⟨-, homap⟩, -⟩ := (fixes_iff hpool hselected).mp hfix
    have hall := (digestMatch_eq hselect).symm.trans hmatch
    obtain ⟨htwo, hskipped⟩ := h s a hselect ha hpresent hrecorded homap hturn hall
    refine ⟨htwo, fun j o ho hopresent => ?_⟩
    by_cases htied : Tied env obj maps primary a.shard j
    · rw [← ownDigest_of_record ho, ← eq_of_tied hall htied, ownDigest_of_record hselected.object]
    · exact hskipped j o ho hopresent htied

/-! ## A skipped copy -/

/-- A copy of five bytes with a computed digest. -/
def digestCopy (attrs : OrdMap String Bytes) (digest : UInt32) : ScrubObject where
  attrs := attrs
  size := 5
  omapDigest := 0
  digest := digest
  digestPresent := true
  omapDigestPresent := false
  readError := false
  statError := false
  ecHashMismatch := false
  ecSizeMismatch := false

/-- A replicated pool where every object info has the data digest 7. -/
def digestEnv : ScrubEnv where
  pool := .replicated
  ondiskSize := id
  maxObjectSize := 10
  decodeInfo _ := some ⟨sampleClone, ⟨1, 1⟩, 5, some 7, none⟩
  decodeSnapset _ := true
  decodeHinfo _ := true
  oldEnough _ := false

/-- The primary has lost the object info and has the recorded digest; the replica has the info, but
its data are damaged. -/
def skippedCopy : OrdMap ℕ ScrubMap :=
  OrdMap.empty.insertPairs
    [(0, OrdMap.empty.insert sampleClone (digestCopy OrdMap.empty 7)),
      (1, OrdMap.empty.insert sampleClone (digestCopy (OrdMap.empty.insert oiAttr []) 9))]

/-- **The recorded digest is rewritten against a copy that has it**: the primary is skipped before
its digest is compared. -/
theorem compareScrubmaps_rewrites_minority :
    record sampleClone skippedCopy 0 = some (digestCopy OrdMap.empty 7) ∧
      ∃ s a r, selectAuthObject digestEnv sampleClone skippedCopy 0 = some s ∧ s.auth = some a ∧
        a.oi.dataDigest = some 7 ∧ a.object.digest = 9 ∧
        compareScrubmaps digestEnv sampleClone skippedCopy 0 true = some (.compared r) ∧
          r.missingDigest = some (some 9, none) :=
  ⟨rfl, _, _, _, rfl, rfl, rfl, rfl, rfl, rfl⟩

/-- The equivalence on these maps. -/
theorem rewritesUnanimously_iff_skippedCopy :
    digestEnv.pool = .replicated ∧ (RewritesUnanimously digestEnv sampleClone skippedCopy 0 ↔
      SkippedAgree digestEnv sampleClone skippedCopy 0) :=
  ⟨rfl, rewritesUnanimously_iff rfl 0⟩

end Ceph.Osd
