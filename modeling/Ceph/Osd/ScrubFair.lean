import Ceph.Osd.ScrubTally

set_option autoImplicit false

/-! # What a scrub says of the copies

Every shard misses the object, is inconsistent or has a good copy; good copies have no errors and
agree. Shards with the same record are not always treated alike: only the first copy that is too
large is counted, and if no copy is good, one is taken. `TwinsAlike` says when this makes no
difference.
-/

namespace Ceph.Osd

open Option

variable (env : ScrubEnv) (obj : Soid) {σ : Type}

/-! ## Copies that agree -/

/-- Two copies agree. -/
structure Agree (o o' : ScrubObject) : Prop where
  size : o.size = o'.size
  userAttrs : ∀ name, isUserAttr name = true → o.attrs.get name = o'.attrs.get name
  info : o.attrs.get oiAttr = o'.attrs.get oiAttr
  digest : o.digestPresent = true → o'.digestPresent = true → o.digest = o'.digest
  omapDigest : o.omapDigestPresent = true → o'.omapDigestPresent = true →
    o.omapDigest = o'.omapDigest

theorem Agree.refl (o : ScrubObject) : Agree o o :=
  ⟨rfl, fun _ _ => rfl, rfl, fun _ _ => rfl, fun _ _ => rfl⟩

/-- A copy without errors that does not differ from the selected one. -/
def Clean (a : AuthCopy σ) (o : ScrubObject) : Prop :=
  copyErrors env obj a.oi o = ∅ ∧ copyDiffers env obj a.object a.oi o = false

section Clean

variable {env obj} {a : AuthCopy σ} {o o' : ScrubObject}

theorem noErrors_of_copyErrors {authOi : ObjectInfo} {info : Option ObjectInfo}
    (hins : inspect env obj o = some (inspectErrors env obj o, info))
    (h : copyErrors env obj authOi o = ∅) :
    inspectErrors env obj o = ∅ ∧ o.statError = false ∧ o.readError = false := by
  rw [copyErrors, Finset.union_eq_empty] at h
  rw [h.1] at hins
  exact ⟨h.1, statError_of_inspect env obj hins, readError_of_inspect env obj hins⟩

theorem Clean.agree {info : Option ObjectInfo}
    (hins : inspect env obj o = some (inspectErrors env obj o, info)) (h : Clean env obj a o) :
    Agree o a.object := by
  obtain ⟨herrors, hdiffers⟩ := h
  obtain ⟨hnone, hstat, -⟩ := noErrors_of_copyErrors hins herrors
  simp only [copyDiffers, Bool.or_eq_false_iff, hstat, Bool.not_false, Bool.true_and, systemDiffers,
    sizesDiffer, digestsDiffer, hnone, attrDiffers, Finset.notMem_empty, decide_false, Bool.or_self,
    decide_eq_false_iff_not, ne_eq, not_not] at hdiffers
  obtain ⟨⟨⟨hdata, homap⟩, -⟩, ⟨hinfo, -⟩, ⟨-, hsize⟩, huser⟩ := hdiffers
  refine ⟨hsize.symm, (userAttrsDiffer_eq_false_iff _ _).mp huser, hinfo, ?_, ?_⟩
  · intro ho ha
    exact Eq.symm (by simpa [ho, ha] using hdata)
  · intro ho ha
    exact Eq.symm (by simpa [ho, ha] using homap)

/-- Two copies that are like the selected one agree, if digests are there on all or on none. -/
theorem Agree.trans_symm {b : ScrubObject} (h : Agree o b) (h' : Agree o' b)
    (hdata : o.digestPresent = b.digestPresent)
    (homap : o.omapDigestPresent = b.omapDigestPresent) : Agree o o' := by
  refine ⟨h.size.trans h'.size.symm, ?_, h.info.trans h'.info.symm, ?_, ?_⟩
  · intro name huser
    rw [h.userAttrs name huser, h'.userAttrs name huser]
  · intro ho ho'
    rw [h.digest ho (hdata ▸ ho), h'.digest ho' (hdata ▸ ho)]
  · intro ho ho'
    rw [h.omapDigest ho (homap ▸ ho), h'.omapDigest ho' (homap ▸ ho)]

end Clean

/-! ## Shards with the same record -/

variable [LinearOrder σ] (maps : OrdMap σ ScrubMap)

/-- No other shard has the same record. -/
def Alone (j : σ) : Prop := ∀ k ∈ maps, record obj maps k = record obj maps j → k = j

/-- **When shards with the same record are treated alike**: the first copy that is too large has no
twin if it is clean otherwise, and if no copy is good, the one that is taken has no twin. -/
structure TwinsAlike (fix : Bool) (a : AuthCopy σ) : Prop where
  large : ∀ j o, firstLarge env obj maps = some j → record obj maps j = some o →
    Clean env obj a o → Alone obj maps j
  fallback : (∀ j ∈ maps, shardClass env obj maps fix a j ≠ .good) →
    ∀ j, picked env obj maps fix a = some j → Alone obj maps j

section Twins

variable {env obj maps} {fix : Bool} {a : AuthCopy σ} {j k : σ} {o : ScrubObject} {s : Selection σ}
  (hsel : Selected env obj maps s a)
  (hfix : fix = true → copyErrors env obj a.oi a.object = {.dataDigestMismatchInfo})

include hsel hfix

/-- The good copies are the clean ones, but for the first that is too large. The digest is only
fixed on a copy that differs. -/
theorem shardClass_eq_good_iff (ho : record obj maps j = some o) :
    shardClass env obj maps fix a j = .good ↔
      Clean env obj a o ∧ firstLarge env obj maps ≠ some j := by
  have hclass : shardClass env obj maps fix a j = .good ↔ finalErrors env obj fix a j o = ∅ ∧
      copyDiffers env obj a.object a.oi o = false ∧ firstLarge env obj maps ≠ some j := by
    simp only [shardClass, ho]
    by_cases herr : finalErrors env obj fix a j o = ∅
    · simp [herr]
    · simp [herr]
  rw [hclass, Clean, and_assoc]
  by_cases hauth : fix = true ∧ j = a.shard
  · obtain ⟨hf, rfl⟩ := hauth
    rw [hsel.object, some_inj] at ho
    subst ho
    have hmem : ShardErr.dataDigestMismatchInfo ∈ digestErrors env a.oi a.object := by
      rw [← copyErrors_of_inspect env obj hsel.clean, hfix hf]
      exact Finset.mem_singleton_self _
    have hdiffers : copyDiffers env obj a.object a.oi a.object = true := by
      by_contra hno
      rw [Bool.not_eq_true, copyDiffers, Bool.or_eq_false_iff, Bool.or_eq_false_iff,
        Bool.or_eq_false_iff] at hno
      simp [digestErrors, hno.1.2] at hmem
    simp [hdiffers]
  · rw [finalErrors, if_neg hauth]

/-- **Twins are chosen alike** exactly under `TwinsAlike`. -/
theorem chosen_alike_iff :
    (∀ j ∈ maps, ∀ k ∈ maps, record obj maps j = record obj maps k →
      (Chosen env obj maps fix a j → Chosen env obj maps fix a k)) ↔
      TwinsAlike env obj maps fix a := by
  constructor
  · intro halike
    constructor
    · intro j o hj ho hclean k hk hkj
      by_contra hne
      -- the twin is good, since the one that is too large comes first
      have hlarge : firstLarge env obj maps ≠ some k := by
        rw [hj, Ne, some_inj]
        exact fun h => hne h.symm
      have hkgood := (shardClass_eq_good_iff hsel hfix (hkj.trans ho)).mpr ⟨hclean, hlarge⟩
      have hjbad : shardClass env obj maps fix a j ≠ .good := fun h =>
        ((shardClass_eq_good_iff hsel hfix ho).mp h).2 hj
      obtain ⟨_, hjgood | ⟨hnone, _⟩⟩ :=
        halike k hk j (mem_of_record obj maps ho) hkj ⟨hk, .inl hkgood⟩
      · exact hjbad hjgood
      · exact hnone k hk hkgood
    · intro hnone j hj k hk hkj
      have hjmem := ((mem_suspects env obj maps fix a).mp
        (mem_suspects_of_picked env obj maps fix a hj)).1
      obtain ⟨_, hkgood | ⟨_, hkp⟩⟩ := halike j hjmem k hk hkj.symm ⟨hjmem, .inr ⟨hnone, hj⟩⟩
      · exact absurd hkgood (hnone k hk)
      · rw [hj, some_inj] at hkp
        exact hkp.symm
  · rintro htwins j hj k hk hjk ⟨_, hjgood | ⟨hnone, hjp⟩⟩
    · cases ho : record obj maps j with
      | none => simp [shardClass, ho] at hjgood
      | some o =>
        obtain ⟨hclean, hjlarge⟩ := (shardClass_eq_good_iff hsel hfix ho).mp hjgood
        by_cases hlarge : firstLarge env obj maps = some k
        · have hkj := htwins.large k o hlarge (hjk ▸ ho) hclean j hj hjk
          exact absurd (hkj ▸ hlarge) hjlarge
        · refine ⟨hk, .inl ?_⟩
          exact (shardClass_eq_good_iff hsel hfix (hjk ▸ ho)).mpr ⟨hclean, hlarge⟩
    · have hkj := htwins.fallback hnone j hjp k hk hjk.symm
      rw [hkj]
      exact ⟨hj, .inr ⟨hnone, hjp⟩⟩

end Twins

/-! ## The result -/

/-- The digests are there on all shards without a read or stat error, or on none of them. -/
def Uniform (present : ScrubObject → Bool) : Prop :=
  ∃ b, ∀ j o, record obj maps j = some o → o.readError = false → o.statError = false →
    present o = b

/-- The shards are classified, and fairly. -/
structure FairlyClassified (r : ScrubResult σ) : Prop where
  partition : ∀ j ∈ maps, (j ∈ r.missing ∧ j ∉ r.inconsistent ∧ j ∉ r.authList) ∨
    (j ∉ r.missing ∧ j ∈ r.inconsistent ∧ j ∉ r.authList) ∨
      (j ∉ r.missing ∧ j ∉ r.inconsistent ∧ j ∈ r.authList)
  nonempty : r.authList ≠ []
  noErrors : ∀ j ∈ r.authList, errorsOf r.shardMap j = ∅
  agree : ∀ j ∈ r.authList, ∀ k ∈ r.authList, ∀ o o', record obj maps j = some o →
    record obj maps k = some o' → Agree o o'
  alike : ∀ j ∈ maps, ∀ k ∈ maps, record obj maps j = record obj maps k →
    ((j ∈ r.missing ↔ k ∈ r.missing) ∧ (j ∈ r.inconsistent ↔ k ∈ r.inconsistent) ∧
      (j ∈ r.authList ↔ k ∈ r.authList))
  identical : (∀ j k o o', record obj maps j = some o → record obj maps k = some o' → o = o') →
    ∀ j ∈ maps, j ∉ r.inconsistent

section Result

variable {env obj maps} {fix : Bool} {a : AuthCopy σ} {r : ScrubResult σ} {s : Selection σ}

theorem shardClass_eq_missing_iff {j : σ} :
    shardClass env obj maps fix a j = .missing ↔ record obj maps j = none := by
  unfold shardClass
  cases record obj maps j with
  | none => simp
  | some o =>
    simp only [reduceCtorEq, iff_false]
    split
    · simp
    · split <;> simp

theorem finalErrors_of_chosen {j : σ} {o : ScrubObject} (h : Chosen env obj maps fix a j)
    (ho : record obj maps j = some o) : finalErrors env obj fix a j o = ∅ := by
  by_contra herr
  have hclass : shardClass env obj maps fix a j = .inconsistent := by
    simp [shardClass, ho, herr]
  rcases Chosen.class_eq env obj maps fix a h with hgood | hobj
  · rw [hclass] at hgood
    cases hgood
  · rw [hclass] at hobj
    cases hobj

theorem Chosen.agree (hsel : Selected env obj maps s a)
    (hfix : fix = true → copyErrors env obj a.oi a.object = {.dataDigestMismatchInfo})
    (hdata : Uniform obj maps ScrubObject.digestPresent)
    (homap : Uniform obj maps ScrubObject.omapDigestPresent) {j k : σ} {o o' : ScrubObject}
    (hj : Chosen env obj maps fix a j) (hk : Chosen env obj maps fix a k)
    (ho : record obj maps j = some o) (ho' : record obj maps k = some o') : Agree o o' := by
  obtain ⟨hjmem, hjgood | ⟨hnone, hjp⟩⟩ := hj
  · obtain ⟨hkmem, hkgood | ⟨hnone, hkp⟩⟩ := hk
    · obtain ⟨info, hins⟩ := hsel.inspects j o ho
      obtain ⟨info', hins'⟩ := hsel.inspects k o' ho'
      have hclean := ((shardClass_eq_good_iff hsel hfix ho).mp hjgood).1
      have hclean' := ((shardClass_eq_good_iff hsel hfix ho').mp hkgood).1
      -- the selected copy has no read or stat error either
      obtain ⟨-, hstat, hread⟩ := noErrors_of_copyErrors hins hclean.1
      have hauth := statError_of_inspect env obj hsel.clean
      have hauthread := readError_of_inspect env obj hsel.clean
      obtain ⟨b, hb⟩ := hdata
      obtain ⟨c, hc⟩ := homap
      exact (hclean.agree hins).trans_symm (hclean'.agree hins')
        ((hb j o ho hread hstat).trans (hb a.shard a.object hsel.object hauthread hauth).symm)
        ((hc j o ho hread hstat).trans (hc a.shard a.object hsel.object hauthread hauth).symm)
    · exact absurd hjgood (hnone j hjmem)
  · obtain ⟨hkmem, hkgood | ⟨-, hkp⟩⟩ := hk
    · exact absurd hkgood (hnone k hkmem)
    · rw [hjp, some_inj] at hkp
      rw [← hkp, ho, some_inj] at ho'
      rw [ho']
      exact Agree.refl o'

theorem Outcome.fairlyClassified_iff (hr : Outcome env obj maps fix a r)
    (hsel : Selected env obj maps s a)
    (hfix : fix = true → copyErrors env obj a.oi a.object = {.dataDigestMismatchInfo})
    (hdata : Uniform obj maps ScrubObject.digestPresent)
    (homap : Uniform obj maps ScrubObject.omapDigestPresent) :
    FairlyClassified obj maps r ↔ TwinsAlike env obj maps fix a := by
  rw [← chosen_alike_iff hsel hfix]
  constructor
  · intro hfair j hj k hk hjk hchosen
    rw [← hr.authList] at hchosen ⊢
    exact (hfair.alike j hj k hk hjk).2.2.mp hchosen
  · intro halike
    have hboth : ∀ j ∈ maps, ∀ k ∈ maps, record obj maps j = record obj maps k →
        (Chosen env obj maps fix a j ↔ Chosen env obj maps fix a k) :=
      fun j hj k hk hjk => ⟨halike j hj k hk hjk, halike k hk j hj hjk.symm⟩
    have hheld : ∀ j, Chosen env obj maps fix a j →
        shardClass env obj maps fix a j ≠ .missing := by
      intro j hj hmissing
      rcases Chosen.class_eq env obj maps fix a hj with h | h <;> rw [hmissing] at h <;> cases h
    refine ⟨?_, hr.nonempty, ?_, ?_, ?_, ?_⟩
    · intro j hj
      rw [hr.missing, hr.inconsistent, hr.authList]
      by_cases hmissing : shardClass env obj maps fix a j = .missing
      · left
        exact ⟨⟨hj, hmissing⟩, fun h => h.2.1 hmissing, fun h => hheld j h hmissing⟩
      · right
        by_cases hchosen : Chosen env obj maps fix a j
        · exact .inr ⟨fun h => hmissing h.2, fun h => h.2.2 hchosen, hchosen⟩
        · exact .inl ⟨fun h => hmissing h.2, ⟨hj, hmissing, hchosen⟩, hchosen⟩
    · intro j hj
      rw [hr.authList] at hj
      cases ho : record obj maps j with
      | none => exact absurd (shardClass_eq_missing_iff.mpr ho) (hheld j hj)
      | some o => rw [hr.errors j o ho, finalErrors_of_chosen hj ho]
    · intro j hj k hk o o' ho ho'
      rw [hr.authList] at hj hk
      exact Chosen.agree hsel hfix hdata homap hj hk ho ho'
    · intro j hj k hk hjk
      rw [hr.missing, hr.missing, hr.inconsistent, hr.inconsistent, hr.authList, hr.authList,
        hboth j hj k hk hjk, Ne, Ne, shardClass_eq_missing_iff, shardClass_eq_missing_iff, hjk]
      simp [hj, hk]
    · -- one copy is good, and the others are like it
      intro hsame j hj hinc
      rw [hr.inconsistent] at hinc
      obtain ⟨k, hk⟩ := List.exists_mem_of_ne_nil _ hr.nonempty
      rw [hr.authList] at hk
      rw [Ne, shardClass_eq_missing_iff] at hinc
      obtain ⟨o, ho⟩ := ne_none_iff_exists'.mp hinc.2.1
      have hkheld := hheld k hk
      rw [Ne, shardClass_eq_missing_iff] at hkheld
      obtain ⟨o', ho'⟩ := ne_none_iff_exists'.mp hkheld
      have hrec : record obj maps k = record obj maps j := by
        rw [ho, ho', hsame k j o' o ho' ho]
      exact hinc.2.2 ((hboth k hk.1 j hj hrec).mp hk)

end Result

/-- **Scrub classifies every copy.** If a copy is selected, no assertion fails. Unless the scrub
gives up on the object, the shards are classified fairly exactly if shards with the same record
are not told apart by the limit for the size or by the copy that is taken when none is good. -/
theorem compareScrubmaps_fair_iff {primary : σ} {repair : Bool} {s : Selection σ} {a : AuthCopy σ}
    (hsel : selectAuthObject env obj maps primary = some s) (ha : s.auth = some a)
    (hdata : Uniform obj maps ScrubObject.digestPresent)
    (homap : Uniform obj maps ScrubObject.omapDigestPresent) :
    ∃ outcome, compareScrubmaps env obj maps primary repair = some outcome ∧
      ∀ r, outcome = .compared r → (FairlyClassified obj maps r ↔
        TwinsAlike env obj maps (fixes env obj maps repair s.digestMatch a) a) := by
  obtain ⟨outcome, hrun, hout, -⟩ := compareScrubmaps_spec repair hsel ha
  refine ⟨outcome, hrun, fun r hr => ?_⟩
  apply (hout r hr).fairlyClassified_iff (selected env obj maps hsel ha) _ hdata homap
  intro hfix
  simp only [fixes, fixesDigest, Bool.and_eq_true, decide_eq_true_eq] at hfix
  exact hfix.1.2

/-! ## Two identical copies above the limit -/

/-- A pool with a limit of four bytes, where every object info is that of the clone. -/
def sampleEnv : ScrubEnv where
  pool := .replicated
  ondiskSize := id
  maxObjectSize := 4
  decodeInfo _ := some ⟨sampleClone, ⟨1, 1⟩, 5, none, none⟩
  decodeSnapset _ := true
  decodeHinfo _ := true
  oldEnough _ := false

/-- A copy of five bytes without digests. -/
def largeCopy : ScrubObject where
  attrs := OrdMap.empty.insert oiAttr []
  size := 5
  omapDigest := 0
  digest := 0
  digestPresent := false
  omapDigestPresent := false
  readError := false
  statError := false
  ecHashMismatch := false
  ecSizeMismatch := false

/-- The maps of shards that all hold the same copy. -/
def sameCopies (o : ScrubObject) (shards : List ℕ) : OrdMap ℕ ScrubMap :=
  OrdMap.empty.insertPairs (shards.map fun j => (j, OrdMap.empty.insert sampleClone o))

/-- **Two shards with the same record**, without any error of their own: the first one is
inconsistent, the second one is good. -/
theorem compareScrubmaps_splits_twins :
    record sampleClone (sameCopies largeCopy [0, 1]) 0 =
        record sampleClone (sameCopies largeCopy [0, 1]) 1 ∧
      ∃ r, compareScrubmaps sampleEnv sampleClone (sameCopies largeCopy [0, 1]) 0 false =
          some (.compared r) ∧
        0 ∈ r.inconsistent ∧ 1 ∉ r.inconsistent ∧ r.authList = [1] ∧
          errorsOf r.shardMap 0 = ∅ ∧ errorsOf r.shardMap 1 = ∅ := by
  refine ⟨rfl, _, rfl, ?_⟩
  decide +kernel

theorem eq_of_record_sameCopies {o o' : ScrubObject} {shards : List ℕ} {j : ℕ}
    (h : record sampleClone (sameCopies o shards) j = some o') : o' = o := by
  obtain ⟨m, hm, ho'⟩ := bind_eq_some_iff.mp h
  rcases OrdMap.mem_or_of_get_insertPairs hm with hmem | hempty
  · obtain ⟨_, _, heq⟩ := List.mem_map.mp hmem
    cases heq
    rw [OrdMap.get_insert, if_pos rfl, some_inj] at ho'
    exact ho'.symm
  · rw [OrdMap.get_empty] at hempty
    cases hempty

theorem uniform_sameCopies (o : ScrubObject) (shards : List ℕ) (present : ScrubObject → Bool) :
    Uniform sampleClone (sameCopies o shards) present :=
  ⟨present o, fun _ _ h _ _ => by rw [eq_of_record_sameCopies h]⟩

/-- The same two copies under a higher limit. -/
theorem compareScrubmaps_fair_iff_two :
    ∃ s a, selectAuthObject { sampleEnv with maxObjectSize := 10 } sampleClone
          (sameCopies largeCopy [0, 1]) 0 = some s ∧ s.auth = some a ∧
      ∃ outcome, compareScrubmaps { sampleEnv with maxObjectSize := 10 } sampleClone
          (sameCopies largeCopy [0, 1]) 0 true = some outcome ∧
        ∀ r, outcome = .compared r → (FairlyClassified sampleClone (sameCopies largeCopy [0, 1]) r ↔
          TwinsAlike { sampleEnv with maxObjectSize := 10 } sampleClone
            (sameCopies largeCopy [0, 1]) (fixes { sampleEnv with maxObjectSize := 10 } sampleClone
              (sameCopies largeCopy [0, 1]) true s.digestMatch a) a) :=
  ⟨_, _, rfl, rfl, compareScrubmaps_fair_iff _ _ _ rfl rfl (uniform_sameCopies _ _ _)
    (uniform_sameCopies _ _ _)⟩

end Ceph.Osd
