import Ceph.Osd.Scrub

set_option autoImplicit false

/-! # The comparison of two copies

A copy that was inspected is compared with the selected one. No assertion fails, the errors of the
shard are those of the inspection and those against the object info (`copyErrors`), and something is
found if the copies differ (`copyDiffers`) or the copy is the first that is too large.
-/

namespace Ceph.Osd

open Option Finset Comparison

variable (env : ScrubEnv) (obj : Soid)

/-! ## What the stages of a comparison add -/

/-- A stage of a comparison: whether it finds something, the errors of the shard it adds, and that
it does not touch the mark of objects that are too large. -/
structure Comparison.Adds (r r' : Comparison) (f : Bool) (errors : Finset ShardErr) : Prop where
  found : r'.found = (r.found || f)
  shardErrors : r'.shardErrors = r.shardErrors ∪ errors
  tooLarge : .sizeTooLarge ∈ r'.objErrors ↔ .sizeTooLarge ∈ r.objErrors

namespace Comparison.Adds

variable {r r' r'' : Comparison} {f f' : Bool} {errors errors' : Finset ShardErr}

theorem refl (r : Comparison) : r.Adds r false ∅ := ⟨by simp, by simp, Iff.rfl⟩

theorem trans (h : r.Adds r' f errors) (h' : r'.Adds r'' f' errors') :
    r.Adds r'' (f || f') (errors ∪ errors') :=
  ⟨by rw [h'.found, h.found, Bool.or_assoc],
    by rw [h'.shardErrors, h.shardErrors, union_assoc], h'.tooLarge.trans h.tooLarge⟩

theorem noteObj (r : Comparison) (c : Bool) {e : ObjErr} (he : e ≠ .sizeTooLarge) :
    r.Adds (r.noteObj c e) c ∅ := by
  cases c with
  | false => exact ⟨by simp [Comparison.noteObj], by simp [Comparison.noteObj], Iff.rfl⟩
  | true =>
    refine ⟨by simp [Comparison.noteObj], by simp [Comparison.noteObj], ?_⟩
    simp [Comparison.noteObj, he.symm]

theorem noteShard (r : Comparison) (c : Bool) (e : ShardErr) :
    r.Adds (r.noteShard c e) c (if c then {e} else ∅) := by
  cases c with
  | false => exact ⟨by simp [Comparison.noteShard], by simp [Comparison.noteShard], Iff.rfl⟩
  | true =>
    refine ⟨by simp [Comparison.noteShard], ?_, Iff.rfl⟩
    simp only [Comparison.noteShard, if_true, insert_eq, union_comm]

end Comparison.Adds

/-! ## What the stages find -/

def digestsDiffer (auth candidate : ScrubObject) : Bool :=
  (auth.digestPresent && candidate.digestPresent && auth.digest ≠ candidate.digest) ||
    (auth.omapDigestPresent && candidate.omapDigestPresent &&
      auth.omapDigest ≠ candidate.omapDigest)

/-- A recorded digest that is not the computed one. -/
def dataDigestWrong (authOi : ObjectInfo) (candidate : ScrubObject) : Bool :=
  env.pool = .replicated && candidate.digestPresent && authOi.dataDigest.any (· ≠ candidate.digest)

def omapDigestWrong (authOi : ObjectInfo) (candidate : ScrubObject) : Bool :=
  env.pool = .replicated && candidate.omapDigestPresent &&
    authOi.omapDigest.any (· ≠ candidate.omapDigest)

/-- The errors of the digests against the object info. -/
def digestErrors (authOi : ObjectInfo) (candidate : ScrubObject) : Finset ShardErr :=
  (if dataDigestWrong env authOi candidate then {.dataDigestMismatchInfo} else ∅) ∪
    (if omapDigestWrong env authOi candidate then {.omapDigestMismatchInfo} else ∅)

theorem compareDigests_adds (auth : ScrubObject) (authOi : ObjectInfo) (candidate : ScrubObject)
    (r : Comparison) :
    r.Adds (compareDigests env auth authOi candidate r)
      (digestsDiffer auth candidate || (dataDigestWrong env authOi candidate ||
        omapDigestWrong env authOi candidate)) (digestErrors env authOi candidate) := by
  have hobj := (Adds.noteObj r (auth.digestPresent && candidate.digestPresent &&
    auth.digest ≠ candidate.digest) (e := .dataDigestMismatch) (by decide)).trans
      (Adds.noteObj _ (auth.omapDigestPresent && candidate.omapDigestPresent &&
        auth.omapDigest ≠ candidate.omapDigest) (e := .omapDigestMismatch) (by decide))
  rw [union_empty] at hobj
  unfold compareDigests digestErrors dataDigestWrong omapDigestWrong
  by_cases hp : env.pool = .replicated
  · simp only [hp, if_true, decide_true, Bool.true_and]
    have hshard := hobj.trans ((Adds.noteShard _ (candidate.digestPresent &&
      authOi.dataDigest.any (· ≠ candidate.digest)) .dataDigestMismatchInfo).trans
        (Adds.noteShard _ (candidate.omapDigestPresent &&
          authOi.omapDigest.any (· ≠ candidate.omapDigest)) .omapDigestMismatchInfo))
    rw [empty_union] at hshard
    exact hshard
  · simp only [hp, if_false, decide_false, Bool.false_and, Bool.or_false, Bool.false_eq_true,
      union_empty]
    exact hobj

/-- An attribute of the system differs, unless the copy has no good one. -/
def attrDiffers (auth candidate : ScrubObject) (errors : Finset ShardErr) (name : String)
    (missing corrupted : ShardErr) : Bool :=
  !(missing ∈ errors || corrupted ∈ errors) && candidate.attrs.get name ≠ auth.attrs.get name

theorem compareAttr_adds (p : Prop) [Decidable p] {auth candidate : ScrubObject} (name : String)
    (missing corrupted : ShardErr) (e : ObjErr) {errors : Finset ShardErr} (he : e ≠ .sizeTooLarge)
    (r : Comparison) (hflags : ∀ x ∈ [missing, corrupted], (x ∈ r.shardErrors ↔ x ∈ errors))
    (hauth : p → (auth.attrs.get name).isSome)
    (hcand : p → missing ∉ errors → (candidate.attrs.get name).isSome) :
    ∃ r', (if p then r.compareAttr auth candidate name missing corrupted e else some r) = some r' ∧
      r.Adds r' (decide p && attrDiffers auth candidate errors name missing corrupted) ∅ := by
  by_cases hp : p
  · simp only [if_pos hp, decide_eq_true hp, Bool.true_and, Comparison.compareAttr, attrDiffers,
      hflags missing (by simp), hflags corrupted (by simp)]
    by_cases hflag : missing ∈ errors ∨ corrupted ∈ errors
    · refine ⟨r, if_pos hflag, ?_⟩
      have hbool : (decide (missing ∈ errors) || decide (corrupted ∈ errors)) = true := by
        simpa using hflag
      rw [hbool]
      exact Adds.refl r
    · rw [if_neg hflag]
      rw [not_or] at hflag
      obtain ⟨canBl, hcan⟩ := isSome_iff_exists.mp (hcand hp hflag.1)
      obtain ⟨authBl, hau⟩ := isSome_iff_exists.mp (hauth hp)
      refine ⟨_, by rw [hcan, hau], ?_⟩
      have hnote := Adds.noteObj r (canBl ≠ authBl) he
      simpa [hflag, hcan, hau] using hnote
  · exact ⟨r, if_neg hp, by simpa [hp] using Adds.refl r⟩

/-! ## What an inspection ensures -/

/-- What holds of a copy without a stat error that was inspected. -/
structure Inspected (o : ScrubObject) (errors : Finset ShardErr) (info : Option ObjectInfo) :
    Prop where
  noSnapdir : Soid.isSnapdir obj = false
  flags : flagErrors o ⊆ errors
  extra : extraErrors env obj o ⊆ errors
  infoThere : .infoMissing ∉ errors → (o.attrs.get oiAttr).isSome
  size : ∀ oi, info = some oi → .objSizeInfoMismatch ∉ errors → o.size = env.ondiskSize oi.size

theorem inspected {o : ScrubObject} {errors : Finset ShardErr} {info : Option ObjectInfo}
    (h : inspect env obj o = some (errors, info)) (hstat : o.statError = false) :
    Inspected env obj o errors info := by
  unfold inspect at h
  rw [hstat, if_neg (by simp)] at h
  by_cases hdir : Soid.isSnapdir obj = true
  · rw [if_pos hdir] at h
    cases h
  rw [if_neg hdir] at h
  have hdir := eq_false_of_ne_true hdir
  have hflags := fun e => subset_union_left.trans
    (subset_insert e (flagErrors o ∪ extraErrors env obj o))
  have hextra := fun e => subset_union_right.trans
    (subset_insert e (flagErrors o ∪ extraErrors env obj o))
  cases hget : o.attrs.get oiAttr with
  | none =>
    simp only [hget, Option.some.injEq, Prod.mk.injEq] at h
    obtain ⟨rfl, rfl⟩ := h
    exact ⟨hdir, hflags _, hextra _, fun hno => absurd (mem_insert_self _ _) hno, by simp⟩
  | some bl =>
    simp only [hget] at h
    cases hdec : env.decodeInfo bl with
    | none =>
      simp only [hdec, Option.some.injEq, Prod.mk.injEq] at h
      obtain ⟨rfl, rfl⟩ := h
      exact ⟨hdir, hflags _, hextra _, by simp [hget], by simp⟩
    | some oi =>
      simp only [hdec] at h
      split at h
      · cases h
      · simp only [Option.some.injEq, Prod.mk.injEq] at h
        obtain ⟨rfl, rfl⟩ := h
        split_ifs with hsize
        · exact ⟨hdir, hflags _, hextra _, by simp [hget],
            fun _ _ hno => absurd (mem_insert_self _ _) hno⟩
        · refine ⟨hdir, subset_union_left, subset_union_right, by simp [hget], ?_⟩
          intro oi' hoi' _
          cases hoi'
          exact not_not.mp hsize

theorem isSome_of_attrErrors {attrs : OrdMap String Bytes} {name : String} (decodes : Bytes → Bool)
    (missing corrupted : ShardErr) (h : missing ∉ attrErrors attrs name decodes missing corrupted) :
    (attrs.get name).isSome := by
  unfold attrErrors at h
  cases hget : attrs.get name with
  | none => simp [hget] at h
  | some bl => rfl

section Inspected

variable {env obj} {o : ScrubObject} {errors : Finset ShardErr} {info : Option ObjectInfo}

theorem Inspected.snapset (h : Inspected env obj o errors info) (hsnap : Soid.hasSnapset obj = true)
    (hno : .snapsetMissing ∉ errors) : (o.attrs.get ssAttr).isSome := by
  have hhead : Soid.isHead obj = true := by
    simpa [Soid.hasSnapset, h.noSnapdir] using hsnap
  apply isSome_of_attrErrors env.decodeSnapset .snapsetMissing .snapsetCorrupted
  intro hmem
  apply hno
  apply h.extra
  rw [extraErrors, if_pos hhead]
  exact mem_union_left _ hmem

theorem Inspected.hinfo (h : Inspected env obj o errors info) (hpool : env.pool = .erasure)
    (hno : .hinfoMissing ∉ errors) : (o.attrs.get hinfoKey).isSome := by
  apply isSome_of_attrErrors env.decodeHinfo .hinfoMissing .hinfoCorrupted
  intro hmem
  apply hno
  apply h.extra
  rw [extraErrors, if_pos hpool]
  exact mem_union_right _ hmem

end Inspected

theorem statError_of_inspect {o : ScrubObject} {info : Option ObjectInfo}
    (h : inspect env obj o = some (∅, info)) : o.statError = false := by
  by_contra hstat
  rw [inspect, if_pos (by simpa using hstat), Option.some.injEq, Prod.mk.injEq] at h
  exact insert_ne_empty _ _ h.1

theorem readError_of_inspect {o : ScrubObject} {info : Option ObjectInfo}
    (h : inspect env obj o = some (∅, info)) : o.readError = false := by
  by_contra hread
  have hflags := (inspected env obj h (statError_of_inspect env obj h)).flags
  rw [flagErrors, if_pos (by simpa using hread)] at hflags
  simpa using hflags (mem_union_left _
    (mem_union_left _ (mem_singleton_self _)))

/-! ## The attributes and the sizes -/

def systemDiffers (auth candidate : ScrubObject) (errors : Finset ShardErr) : Bool :=
  attrDiffers auth candidate errors oiAttr .infoMissing .infoCorrupted ||
    ((Soid.hasSnapset obj &&
        attrDiffers auth candidate errors ssAttr .snapsetMissing .snapsetCorrupted) ||
      (env.pool = .erasure &&
        attrDiffers auth candidate errors hinfoKey .hinfoMissing .hinfoCorrupted))

theorem compareSystemAttrs_adds {auth candidate : ScrubObject} {errors E : Finset ShardErr}
    {info authInfo : Option ObjectInfo} (hauth : Inspected env obj auth ∅ authInfo)
    (hcand : Inspected env obj candidate errors info) (r : Comparison)
    (hr : r.shardErrors = errors ∪ E)
    (hE : E ⊆ {.dataDigestMismatchInfo, .omapDigestMismatchInfo}) :
    ∃ r', compareSystemAttrs env obj auth candidate r = some r' ∧
      r.Adds r' (systemDiffers env obj auth candidate errors) ∅ := by
  -- the digests do not decide which attributes are compared
  have hflags : ∀ {r' f}, r.Adds r' f ∅ → ∀ l : List ShardErr,
      (∀ e ∈ l, e ∉ ({.dataDigestMismatchInfo, .omapDigestMismatchInfo} : Finset ShardErr)) →
      ∀ e ∈ l, (e ∈ r'.shardErrors ↔ e ∈ errors) := by
    intro r' f hadds l hl e he
    rw [hadds.shardErrors, hr, union_empty, mem_union]
    exact or_iff_left fun h => hl e he (hE h)
  obtain ⟨r₁, hr₁, hadds₁⟩ := compareAttr_adds True oiAttr .infoMissing .infoCorrupted
    .objectInfoInconsistency (by decide) r (hflags (Adds.refl r) _ (by decide))
    (fun _ => hauth.infoThere (by simp)) fun _ => hcand.infoThere
  obtain ⟨r₂, hr₂, hadds₂⟩ := compareAttr_adds (Soid.hasSnapset obj) ssAttr
    .snapsetMissing .snapsetCorrupted .snapsetInconsistency (by decide) r₁
    (hflags hadds₁ _ (by decide)) (fun hp => hauth.snapset hp (by simp)) hcand.snapset
  have hadds₁₂ := hadds₁.trans hadds₂
  rw [empty_union] at hadds₁₂
  obtain ⟨r₃, hr₃, hadds₃⟩ := compareAttr_adds (env.pool = .erasure) hinfoKey
    .hinfoMissing .hinfoCorrupted .hinfoInconsistency (by decide) r₂
    (hflags hadds₁₂ _ (by decide)) (fun hp => hauth.hinfo hp (by simp)) hcand.hinfo
  rw [if_pos trivial] at hr₁
  refine ⟨r₃, by rw [compareSystemAttrs, hr₁, bind_some, hr₂, bind_some, hr₃], ?_⟩
  have hadds := hadds₁₂.trans hadds₃
  rw [empty_union, Bool.or_assoc] at hadds
  simpa only [systemDiffers, Bool.decide_eq_true, decide_true, Bool.true_and] using hadds

def sizesDiffer (auth : ScrubObject) (authOi : ObjectInfo) (candidate : ScrubObject) : Bool :=
  env.ondiskSize authOi.size ≠ candidate.size || auth.size ≠ candidate.size

/-- The errors of the size against the object info. -/
def sizeErrors (authOi : ObjectInfo) (candidate : ScrubObject) : Finset ShardErr :=
  if env.ondiskSize authOi.size ≠ candidate.size then {.sizeMismatchInfo} else ∅

/-- The sizes are like the other stages, but for the mark of objects that are too large. -/
theorem compareSizes_spec (auth : ScrubObject) (authOi : ObjectInfo) (candidate : ScrubObject)
    (r : Comparison) :
    (compareSizes env auth authOi candidate r).found = (r.found ||
        (sizesDiffer env auth authOi candidate ||
          (candidate.size > env.maxObjectSize && .sizeTooLarge ∉ r.objErrors))) ∧
      (compareSizes env auth authOi candidate r).shardErrors =
        r.shardErrors ∪ sizeErrors env authOi candidate ∧
      (.sizeTooLarge ∈ (compareSizes env auth authOi candidate r).objErrors ↔
        .sizeTooLarge ∈ r.objErrors ∨ candidate.size > env.maxObjectSize) := by
  have hadds := (Adds.noteShard r (env.ondiskSize authOi.size ≠ candidate.size)
    .sizeMismatchInfo).trans
      (Adds.noteObj _ (auth.size ≠ candidate.size) (e := .sizeMismatch) (by decide))
  unfold compareSizes
  dsimp only
  generalize hr' : Comparison.noteObj _ _ .sizeMismatch = r' at hadds ⊢
  have hlarge : decide (.sizeTooLarge ∉ r'.objErrors) = decide (.sizeTooLarge ∉ r.objErrors) := by
    rw [decide_eq_decide, hadds.tooLarge]
  rw [hlarge]
  have hfound := hadds.found
  have herrors : r'.shardErrors = r.shardErrors ∪ sizeErrors env authOi candidate := by
    rw [hadds.shardErrors, union_empty, sizeErrors]
    simp only [decide_eq_true_eq]
  by_cases hc : (decide (candidate.size > env.maxObjectSize) &&
      decide (.sizeTooLarge ∉ r.objErrors)) = true
  · rw [hc]
    refine ⟨by simp [Comparison.noteObj], herrors, ?_⟩
    have hsize : candidate.size > env.maxObjectSize := by
      simpa using (Bool.and_eq_true_iff.mp hc).1
    simp [Comparison.noteObj, hsize]
  · rw [eq_false_of_ne_true hc]
    refine ⟨by rw [Bool.or_false]; exact hfound, herrors, ?_⟩
    show .sizeTooLarge ∈ r'.objErrors ↔ _
    rw [hadds.tooLarge]
    refine ⟨.inl, fun h => h.elim id fun hsize => ?_⟩
    by_contra hno
    exact hc (by simp [hsize, hno])

def userAttrsDiffer (auth candidate : ScrubObject) : Bool :=
  auth.attrs.entries.any (fun i => isUserAttr i.1 && candidate.attrs.get i.1 ≠ some i.2) ||
    candidate.attrs.entries.any (fun i => isUserAttr i.1 && (auth.attrs.get i.1).isNone)

theorem Comparison.Adds.foldl {α : Type} {g : Comparison → α → Comparison} {f : α → Bool}
    (h : ∀ (r : Comparison) (a : α), r.Adds (g r a) (f a) ∅) (l : List α) (r : Comparison) :
    r.Adds (l.foldl g r) (l.any f) ∅ := by
  induction l generalizing r with
  | nil => exact Adds.refl r
  | cons a l ih =>
    have hadds := (h r a).trans (ih (g r a))
    rw [List.foldl_cons, List.any_cons]
    exact hadds

theorem compareUserAttrs_adds (auth candidate : ScrubObject) (r : Comparison) :
    r.Adds (compareUserAttrs auth candidate r) (userAttrsDiffer auth candidate) ∅ := by
  rw [userAttrsDiffer, compareUserAttrs, ← empty_union ∅]
  refine (Adds.foldl ?_ auth.attrs.entries r).trans
    (Adds.foldl ?_ candidate.attrs.entries _)
  · intro r i
    split_ifs with huser
    · rw [huser]
      cases hget : candidate.attrs.get i.1 with
      | none => simpa using Adds.noteObj r true (e := .attrNameMismatch) (by decide)
      | some v =>
        simpa using Adds.noteObj r (v ≠ i.2) (e := .attrValueMismatch) (by decide)
    · rw [eq_false_of_ne_true huser]
      exact Adds.refl r
  · intro r i
    exact Adds.noteObj r _ (e := .attrNameMismatch) (by decide)

theorem userAttrsDiffer_eq_false_iff (auth candidate : ScrubObject) :
    userAttrsDiffer auth candidate = false ↔
      ∀ name, isUserAttr name = true → candidate.attrs.get name = auth.attrs.get name := by
  simp only [userAttrsDiffer, Bool.or_eq_false_iff, List.any_eq_false, Bool.and_eq_true,
    decide_eq_true_eq, not_and, not_not, isNone_iff_eq_none]
  constructor
  · rintro ⟨hauth, hcand⟩ name huser
    cases hget : auth.attrs.get name with
    | some v => exact hauth (name, v) ((OrdMap.mem_entries_iff _ _ _).mpr hget) huser
    | none =>
      cases hget' : candidate.attrs.get name with
      | none => rfl
      | some v =>
        exact absurd hget (hcand (name, v) ((OrdMap.mem_entries_iff _ _ _).mpr hget') huser)
  · intro h
    refine ⟨fun i hi huser => ?_, fun i hi huser => ?_⟩
    · rw [h i.1 huser]
      exact (OrdMap.mem_entries_iff _ _ _).mp hi
    · rw [← h i.1 huser, (OrdMap.mem_entries_iff _ i.1 i.2).mp hi]
      simp

/-! ## The comparison as a whole -/

/-- The errors that the inspection of a copy finds. -/
def inspectErrors (o : ScrubObject) : Finset ShardErr :=
  ((inspect env obj o).map Prod.fst).getD ∅

/-- **The errors of a copy**: those of its inspection and those against the object info. -/
def copyErrors (authOi : ObjectInfo) (o : ScrubObject) : Finset ShardErr :=
  inspectErrors env obj o ∪
    (digestErrors env authOi o ∪ if o.statError then ∅ else sizeErrors env authOi o)

theorem digestsWrong_of_copyErrors {authOi : ObjectInfo} {o : ScrubObject}
    (h : copyErrors env obj authOi o = ∅) :
    dataDigestWrong env authOi o = false ∧ omapDigestWrong env authOi o = false := by
  rw [copyErrors, union_eq_empty, union_eq_empty, digestErrors,
    union_eq_empty] at h
  obtain ⟨_, ⟨hdata, homap⟩, _⟩ := h
  refine ⟨?_, ?_⟩
  · by_contra hwrong
    rw [if_pos (by simpa using hwrong)] at hdata
    exact singleton_ne_empty _ hdata
  · by_contra hwrong
    rw [if_pos (by simpa using hwrong)] at homap
    exact singleton_ne_empty _ homap

/-- Of a copy that was found without errors, only the digests can be wrong. -/
theorem copyErrors_of_inspect {oi : ObjectInfo} {o : ScrubObject}
    (h : inspect env obj o = some (∅, some oi)) :
    copyErrors env obj oi o = digestErrors env oi o := by
  have hstat := statError_of_inspect env obj h
  have hsize := (inspected env obj h hstat).size oi rfl (by simp)
  rw [copyErrors, inspectErrors, h, hstat, sizeErrors, hsize]
  simp

/-- **A copy differs** from the selected one or from the object info. -/
def copyDiffers (auth : ScrubObject) (authOi : ObjectInfo) (o : ScrubObject) : Bool :=
  (digestsDiffer auth o || (dataDigestWrong env authOi o || omapDigestWrong env authOi o)) ||
    (!o.statError && (systemDiffers env obj auth o (inspectErrors env obj o) ||
      (sizesDiffer env auth authOi o || userAttrsDiffer auth o)))

def tooLarge (o : ScrubObject) : Bool := !o.statError && o.size > env.maxObjectSize

/-- What a comparison returns. -/
structure Compared (auth : ScrubObject) (authOi : ObjectInfo) (o : ScrubObject)
    (objErrors : Finset ObjErr) (c : Comparison) : Prop where
  shardErrors : c.shardErrors = copyErrors env obj authOi o
  found : c.found = (copyDiffers env obj auth authOi o ||
    (tooLarge env o && .sizeTooLarge ∉ objErrors))
  large : .sizeTooLarge ∈ c.objErrors ↔ .sizeTooLarge ∈ objErrors ∨ tooLarge env o = true

/-- **No assertion fails in a comparison**, and this is what it returns. -/
theorem compareScrubObjects_spec {auth o : ScrubObject} (authOi : ObjectInfo)
    {errors : Finset ShardErr} {info authInfo : Option ObjectInfo}
    (hauth : inspect env obj auth = some (∅, authInfo))
    (ho : inspect env obj o = some (errors, info)) (objErrors : Finset ObjErr) :
    ∃ c, compareScrubObjects env obj auth authOi o errors objErrors = some c ∧
      Compared env obj auth authOi o objErrors c := by
  have herrors : inspectErrors env obj o = errors := by rw [inspectErrors, ho]; rfl
  have hdigests := compareDigests_adds env auth authOi o ⟨false, errors, objErrors⟩
  unfold compareScrubObjects
  generalize compareDigests env auth authOi o ⟨false, errors, objErrors⟩ = r at hdigests ⊢
  cases hstat : o.statError with
  | true =>
    refine ⟨r, if_pos rfl, ?_, ?_, ?_⟩
    · rw [hdigests.shardErrors, copyErrors, herrors, hstat, if_pos rfl, union_empty]
    · rw [hdigests.found, copyDiffers, tooLarge, hstat]
      simp
    · rw [hdigests.tooLarge, tooLarge, hstat]
      simp
  | false =>
    have hsub : digestErrors env authOi o ⊆
        {.dataDigestMismatchInfo, .omapDigestMismatchInfo} := by
      unfold digestErrors
      apply union_subset
      · split <;> simp
      · split <;> simp
    obtain ⟨r₁, hr₁, hsystem⟩ := compareSystemAttrs_adds env obj
      (inspected env obj hauth (statError_of_inspect env obj hauth))
      (inspected env obj ho hstat) r hdigests.shardErrors hsub
    obtain ⟨hfound, hshard, hlarge⟩ := compareSizes_spec env auth authOi o r₁
    have huser := compareUserAttrs_adds auth o (compareSizes env auth authOi o r₁)
    refine ⟨_, by rw [if_neg (by simp), hr₁, map_some], ?_, ?_, ?_⟩
    · rw [huser.shardErrors, hshard, hsystem.shardErrors, hdigests.shardErrors, copyErrors,
        herrors, hstat, if_neg (by simp), union_empty, union_empty,
        union_assoc]
    · have hmark : decide (.sizeTooLarge ∉ r₁.objErrors) =
          decide (.sizeTooLarge ∉ objErrors) := by
        rw [decide_eq_decide, hsystem.tooLarge, hdigests.tooLarge]
      rw [huser.found, hfound, hsystem.found, hdigests.found, hmark, copyDiffers, tooLarge,
        herrors, hstat]
      simp only [Bool.false_or, Bool.not_false, Bool.true_and, Bool.or_assoc, Bool.or_left_comm,
        Bool.or_comm]
    · rw [huser.tooLarge, hlarge, hsystem.tooLarge, hdigests.tooLarge, tooLarge, hstat]
      simp

end Ceph.Osd
