import Ceph.Osd.OSDCap

set_option autoImplicit false

/-! # The meaning of a capability

`OSDCap.Permits` says what a capability permits with no order and no state: a flattened grant that
applies to the request, and for each class call a flattened grant that applies and authorises the
call. `is_capable` decides it. The marks of the class calls only come from grants that apply, and
the last grant that applies sees the marks of all.
-/

namespace Ceph.Osd

open List

/-! ## The declarative meaning -/

/-- A namespace matches a pattern if it is the pattern, or continues what the pattern has before a
final `*`. -/
def NspacePattern (nspace ns : String) : Prop :=
  nspace = ns ∨ ∃ pre, nspace.toList = pre ++ ['*'] ∧ pre <+: ns.toList

def OSDCapPoolNamespace.Matches (m : OSDCapPoolNamespace) (pn ns : String) : Prop :=
  (m.poolName = "" ∨ m.poolName = pn) ∧ ∀ nspace, m.nspace = some nspace → NspacePattern nspace ns

/-- The tag: the pool has the application, with an entry for the key and the value. `*` stands for
any key or value; `*=*` asks for no entry. -/
def OSDCapPoolTag.Matches (m : OSDCapPoolTag) (appMap : AppMap) : Prop :=
  m.application = "" ∨ ∃ kvMap, appMap.get m.application = some kvMap ∧
    ((m.key = "*" ∧ m.value = "*") ∨
      ∃ k v, kvMap.get k = some v ∧ (m.key = "*" ∨ m.key = k) ∧ (m.value = "*" ∨ m.value = v))

def OSDCapMatch.Matches (m : OSDCapMatch) (r : CapRequest) : Prop :=
  m.poolNamespace.Matches r.poolName r.ns ∧ m.poolTag.Matches r.applicationMetadata ∧
    m.objectPrefix.toList <+: r.object.toList

/-- The bits for the requested reads and writes. -/
def OSDCapSpec.Covers (s : OSDCapSpec) (r : CapRequest) : Prop :=
  (r.opMayRead = true → s.allow &&& osdCapR ≠ 0) ∧ (r.opMayWrite = true → s.allow &&& osdCapW ≠ 0)

/-- A class call is authorised by name, or is on the whitelist and covered by the bits for
classes. -/
def OSDCapSpec.Authorises (s : OSDCapSpec) (c : ClassInfo) : Prop :=
  (s.className ≠ "" ∧ c.className = s.className ∧
      (s.methodName = "" ∨ c.methodName = s.methodName)) ∨
    (c.whitelisted = true ∧ (c.read = true → s.allow &&& osdCapClsR ≠ 0) ∧
      (c.write = true → s.allow &&& osdCapClsW ≠ 0))

/-- **A flattened grant applies**: the networks in front of it contain the address, it matches,
and it covers the reads and writes. -/
def FlatGrant.Applies (f : FlatGrant) (r : CapRequest) (addr : EntityAddr) : Prop :=
  (∀ n ∈ f.networks, n.network ≠ "" → n.Contains addr) ∧ f.capMatch.Matches r ∧ f.spec.Covers r

def OSDCap.Permits (caps : OSDCap) (r : CapRequest) (addr : EntityAddr) : Prop :=
  ∃ g ∈ caps.flattened, g.Applies r addr ∧
    (g.spec.allow = osdCapAny ∨
      ∀ c ∈ r.classes, ∃ f ∈ caps.flattened, f.Applies r addr ∧ f.spec.Authorises c)

/-! ## The tests decide their meaning -/

theorem startsWith_iff (s pre : List Char) : startsWith s pre = true ↔ pre <+: s := by
  rw [startsWith, isPrefixOf_iff_prefix]

theorem nspaceMatch_iff (nspace ns : String) :
    nspaceMatch nspace ns = true ↔ NspacePattern nspace ns := by
  have hpat : (nspace ≠ "" ∧ nspace.toList.getLast? = some '*' ∧
      nspace.toList.dropLast <+: ns.toList) ↔
      ∃ pre, nspace.toList = pre ++ ['*'] ∧ pre <+: ns.toList := by
    constructor
    · rintro ⟨-, hlast, hpre⟩
      exact ⟨nspace.toList.dropLast, (dropLast_append_getLast? _ hlast).symm, hpre⟩
    · rintro ⟨pre, heq, hpre⟩
      refine ⟨?_, by rw [heq, getLast?_concat], by rw [heq, dropLast_concat]; exact hpre⟩
      rintro rfl
      simp at heq
  simp only [nspaceMatch, NspacePattern, Bool.or_eq_true, Bool.and_eq_true, decide_eq_true_eq,
    startsWith_iff, ← hpat, and_assoc]
  exact or_comm

theorem OSDCapPoolNamespace.isMatch_iff (m : OSDCapPoolNamespace) (pn ns : String) :
    m.isMatch pn ns = true ↔ m.Matches pn ns := by
  unfold OSDCapPoolNamespace.isMatch OSDCapPoolNamespace.Matches
  by_cases hp : m.poolName ≠ "" ∧ m.poolName ≠ pn
  · simp [hp]
  · have hp' : m.poolName = "" ∨ m.poolName = pn := by tauto
    rw [if_neg hp]
    cases hns : m.nspace with
    | none => simp [hp']
    | some nspace => simp [hp', nspaceMatch_iff]

theorem OSDCapPoolTag.isMatch_iff (m : OSDCapPoolTag) (appMap : AppMap) :
    m.isMatch appMap = true ↔ m.Matches appMap := by
  unfold OSDCapPoolTag.isMatch OSDCapPoolTag.Matches
  by_cases ha : m.application = ""
  · simp [ha]
  · cases hkv : appMap.get m.application with
    | none => simp [ha]
    | some kvMap =>
      simp only [ha, if_false, false_or, Option.some.injEq, exists_eq_left']
      by_cases hk : m.key = "*"
      · by_cases hv : m.value = "*"
        · simp [hk, hv]
        · -- the loop over the entries
          simp only [hk, hv, true_and, and_false, if_false, if_true, false_or, true_or,
            any_eq_true, decide_eq_true_eq]
          constructor
          · rintro ⟨⟨k, v⟩, hmem, hval⟩
            exact ⟨k, v, (OrdMap.mem_entries_iff kvMap k v).mp hmem, hval.symm⟩
          · rintro ⟨k, v, hget, hval⟩
            exact ⟨(k, v), (OrdMap.mem_entries_iff kvMap k v).mpr hget, hval.symm⟩
      · simp only [hk, false_and, if_false, false_or]
        cases hget : kvMap.get m.key with
        | none =>
          simp only [Bool.false_eq_true, false_iff]
          rintro ⟨k, v, hkv', rfl, -⟩
          rw [hget] at hkv'
          cases hkv'
        | some v =>
          simp only [Bool.or_eq_true, decide_eq_true_eq]
          constructor
          · intro h
            exact ⟨m.key, v, hget, rfl, h.imp_right Eq.symm⟩
          · rintro ⟨k, v', hget', rfl, h⟩
            rw [hget, Option.some.injEq] at hget'
            subst hget'
            exact h.imp_right Eq.symm

theorem OSDCapMatch.isMatch_iff (m : OSDCapMatch) (r : CapRequest) :
    m.isMatch r.poolName r.ns r.applicationMetadata r.object = true ↔ m.Matches r := by
  unfold OSDCapMatch.isMatch OSDCapMatch.Matches
  rw [← OSDCapPoolNamespace.isMatch_iff, ← OSDCapPoolTag.isMatch_iff, ← startsWith_iff]
  have hempty : m.objectPrefix = "" → startsWith r.object.toList m.objectPrefix.toList = true := by
    intro h
    simp [h, startsWith]
  by_cases hp : m.objectPrefix = "" <;>
    cases m.poolNamespace.isMatch r.poolName r.ns <;>
    cases m.poolTag.isMatch r.applicationMetadata <;>
    simp_all

open OSDCapSpec

theorem OSDCapSpec.classAllowed_iff (s : OSDCapSpec) (c : ClassInfo) :
    s.classAllowed c = true ↔ s.Authorises c := by
  unfold classAllowed Authorises
  by_cases hname : s.className ≠ "" ∧ c.className = s.className ∧
      (s.methodName = "" ∨ c.methodName = s.methodName)
  · simp [hname]
  · rw [if_neg hname]
    cases c.whitelisted <;> cases c.read <;> cases c.write <;> simp [hname]

/-! ## The walk over the grants is the walk over the flattened grants -/

mutual

theorem networks_subset_of_mem_flatten {f : FlatGrant} (networks : List CapNetwork) :
    ∀ g : OSDCapGrant, f ∈ g.flatten networks → g.network :: networks ⊆ f.networks
  | .mk m s profile network profileGrants, hf => by
      rw [OSDCapGrant.flatten] at hf
      split at hf
      · exact networks_subset_of_mem_flattenAll (network :: networks) profileGrants hf
      · rw [mem_singleton.mp hf]
        exact List.Subset.refl _

theorem networks_subset_of_mem_flattenAll {f : FlatGrant} (networks : List CapNetwork) :
    ∀ gs : List OSDCapGrant, f ∈ flattenAll networks gs → networks ⊆ f.networks
  | [], hf => by cases hf
  | g :: gs, hf => by
      rcases mem_append.mp hf with hf | hf
      · exact List.Subset.trans (subset_cons_self _ _)
          (networks_subset_of_mem_flatten networks g hf)
      · exact networks_subset_of_mem_flattenAll networks gs hf

end

mutual

theorem anyFlatCapable_flatten (r : CapRequest) (addr : EntityAddr) (networks : List CapNetwork)
    (hn : networks.any (·.excludes addr) = false) :
    ∀ (g : OSDCapGrant) (classAllowed : List Bool),
      anyFlatCapable r addr (g.flatten networks) classAllowed = g.isCapable r addr classAllowed
  | .mk m s profile network profileGrants, classAllowed => by
      rw [OSDCapGrant.isCapable]
      by_cases hex : network.excludes addr = true
      · rw [if_pos hex]
        apply anyFlatCapable_of_excludes
        intro f hf
        have hsub := networks_subset_of_mem_flatten networks _ hf
        exact any_eq_true.mpr ⟨network, hsub mem_cons_self, hex⟩
      · have hn' : (network :: networks).any (·.excludes addr) = false := by
          simp [any_cons, hn, hex]
        rw [if_neg hex, OSDCapGrant.flatten]
        split
        · exact anyFlatCapable_flattenAll r addr (network :: networks) hn' profileGrants
            classAllowed
        · rw [anyFlatCapable_singleton, FlatGrant.isCapable, hn', if_neg Bool.false_ne_true]

theorem anyFlatCapable_flattenAll (r : CapRequest) (addr : EntityAddr) (networks : List CapNetwork)
    (hn : networks.any (·.excludes addr) = false) :
    ∀ (gs : List OSDCapGrant) (classAllowed : List Bool),
      anyFlatCapable r addr (flattenAll networks gs) classAllowed =
        anyCapable r addr gs classAllowed
  | [], classAllowed => rfl
  | g :: gs, classAllowed => by
      rw [flattenAll, anyFlatCapable_append,
        anyFlatCapable_flatten r addr networks hn g classAllowed, anyCapable]
      dsimp only
      split
      · rfl
      · exact anyFlatCapable_flattenAll r addr networks hn gs _

end

theorem OSDCap.isCapable_eq_flat (caps : OSDCap) (r : CapRequest) (addr : EntityAddr) :
    caps.isCapable r addr =
      (anyFlatCapable r addr caps.flattened (List.replicate r.classes.length false)).1 := by
  rw [OSDCap.isCapable, OSDCap.flattened, anyFlatCapable_flattenAll r addr [] rfl]

/-! ## The marks of the class calls -/

theorem OSDCapSpec.not_covers_iff (s : OSDCapSpec) (r : CapRequest) :
    ((r.opMayRead = true ∧ s.allow &&& osdCapR = 0) ∨
      (r.opMayWrite = true ∧ s.allow &&& osdCapW = 0)) ↔ ¬ s.Covers r := by
  unfold Covers
  tauto

theorem any_excludes_iff (networks : List CapNetwork) (addr : EntityAddr) :
    networks.any (·.excludes addr) = true ↔ ¬ ∀ n ∈ networks, n.network ≠ "" → n.Contains addr := by
  simp only [← CapNetwork.excludes_eq_false_iff, any_eq_true, not_forall, Bool.not_eq_false,
    exists_prop]

variable {r : CapRequest} {addr : EntityAddr} {f : FlatGrant}

theorem FlatGrant.isCapable_of_not_applies (h : ¬ f.Applies r addr) (classAllowed : List Bool) :
    f.isCapable r addr classAllowed = (false, classAllowed) := by
  unfold FlatGrant.isCapable plainCapable
  by_cases hn : f.networks.any (·.excludes addr) = true
  · rw [if_pos hn]
  · rw [if_neg hn]
    rw [any_excludes_iff, not_not] at hn
    by_cases hm : f.capMatch.Matches r
    · have hc : ¬ f.spec.Covers r := fun hc => h ⟨hn, hm, hc⟩
      rw [if_pos ((OSDCapMatch.isMatch_iff _ r).mpr hm),
        if_pos ((not_covers_iff _ r).mpr hc)]
    · rw [if_neg fun hm' => hm ((OSDCapMatch.isMatch_iff _ r).mp hm')]

/-- The marks after a grant that applies. -/
def OSDCapSpec.mark (s : OSDCapSpec) (classes : List ClassInfo) (classAllowed : List Bool) :
    List Bool :=
  classes.zipWith (fun c a => s.classAllowed c || a) classAllowed

theorem FlatGrant.isCapable_of_applies (h : f.Applies r addr) (classAllowed : List Bool) :
    f.isCapable r addr classAllowed =
      if r.classes = [] ∨ f.spec.allow = osdCapAny then (true, classAllowed)
      else
        ((f.spec.mark r.classes classAllowed).all id, f.spec.mark r.classes classAllowed) := by
  obtain ⟨hn, hm, hc⟩ := h
  unfold FlatGrant.isCapable plainCapable
  rw [if_neg fun hex => (any_excludes_iff _ _).mp hex hn,
    if_pos ((OSDCapMatch.isMatch_iff _ r).mpr hm),
    if_neg fun hun => (not_covers_iff _ r).mp hun hc]
  by_cases hcl : r.classes = []
  · simp [hcl]
  · by_cases ha : f.spec.allow = osdCapAny
    · simp [hcl, allowAll, ha]
    · simp [hcl, allowAll, ha, mark]

theorem OSDCapSpec.zip_mark (s : OSDCapSpec) (classes : List ClassInfo) (classAllowed : List Bool) :
    classes.zip (s.mark classes classAllowed) =
      (classes.zip classAllowed).map fun p => (p.1, s.classAllowed p.1 || p.2) := by
  induction classes generalizing classAllowed with
  | nil => rfl
  | cons c cs ih =>
    cases classAllowed with
    | nil => rfl
    | cons a as => exact congrArg _ (ih as)

theorem OSDCapSpec.all_mark (s : OSDCapSpec) (classes : List ClassInfo) (classAllowed : List Bool) :
    (s.mark classes classAllowed).all id = true ↔
      ∀ p ∈ classes.zip classAllowed, p.2 = true ∨ s.Authorises p.1 := by
  rw [mark, ← map_uncurry_zip_eq_zipWith, all_map, all_eq_true]
  refine forall₂_congr fun p _ => ?_
  rw [← classAllowed_iff, or_comm]
  exact Iff.of_eq (Bool.or_eq_true _ _)

/-- What the grants of a list decide together, with the marks that were there before: the class
calls that are not marked are authorised by grants of the list. -/
def Settles (r : CapRequest) (addr : EntityAddr) (fs : List FlatGrant) (classAllowed : List Bool) :
    Prop :=
  ∃ g ∈ fs, g.Applies r addr ∧ (g.spec.allow = osdCapAny ∨
    ∀ p ∈ r.classes.zip classAllowed, p.2 = true ∨
      ∃ f ∈ fs, f.Applies r addr ∧ f.spec.Authorises p.1)

theorem settles_cons_of_not_applies (h : ¬ f.Applies r addr) (fs : List FlatGrant)
    (classAllowed : List Bool) :
    Settles r addr (f :: fs) classAllowed ↔ Settles r addr fs classAllowed := by
  have hex : ∀ Q : FlatGrant → Prop, (∃ g ∈ f :: fs, g.Applies r addr ∧ Q g) ↔
      ∃ g ∈ fs, g.Applies r addr ∧ Q g := by
    intro Q
    simp [h]
  unfold Settles
  simp only [hex]

/-- **The step**: behind a grant that applies, either it is decided, or the rest decides with the
marks of the grant. -/
theorem settles_cons_of_applies (h : f.Applies r addr) (fs : List FlatGrant)
    (classAllowed : List Bool) :
    Settles r addr (f :: fs) classAllowed ↔
      (f.spec.allow = osdCapAny ∨
          ∀ p ∈ r.classes.zip classAllowed, p.2 = true ∨ f.spec.Authorises p.1) ∨
        Settles r addr fs (f.spec.mark r.classes classAllowed) := by
  -- the calls that the rest has to authorise
  have hrest : (∀ p ∈ r.classes.zip classAllowed, p.2 = true ∨
        ∃ f' ∈ f :: fs, f'.Applies r addr ∧ f'.spec.Authorises p.1) ↔
      ∀ p ∈ r.classes.zip (f.spec.mark r.classes classAllowed), p.2 = true ∨
        ∃ f' ∈ fs, f'.Applies r addr ∧ f'.spec.Authorises p.1 := by
    rw [zip_mark, forall_mem_map]
    refine forall₂_congr fun p _ => ?_
    simp only [exists_mem_cons_iff, h, true_and, Bool.or_eq_true, classAllowed_iff]
    tauto
  constructor
  · rintro ⟨g, hg, happ, hall | hall⟩
    · rcases mem_cons.mp hg with rfl | hg
      · exact .inl (.inl hall)
      · exact .inr ⟨g, hg, happ, .inl hall⟩
    · by_cases hf : ∀ p ∈ r.classes.zip classAllowed, p.2 = true ∨ f.spec.Authorises p.1
      · exact .inl (.inr hf)
      · -- some call is left, so a grant of the rest applies
        right
        push Not at hf
        obtain ⟨p, hp, hmark, hauth⟩ := hf
        obtain ⟨f', hf', happ', hauth'⟩ := (hall p hp).resolve_left hmark
        rcases mem_cons.mp hf' with rfl | hf'
        · exact absurd hauth' hauth
        · exact ⟨f', hf', happ', .inr (hrest.mp hall)⟩
  · rintro ((hall | hall) | ⟨g, hg, happ, hall | hall⟩)
    · exact ⟨f, mem_cons_self, h, .inl hall⟩
    · exact ⟨f, mem_cons_self, h,
        .inr fun p hp => (hall p hp).imp_right fun ha => ⟨f, mem_cons_self, h, ha⟩⟩
    · exact ⟨g, mem_cons_of_mem f hg, happ, .inl hall⟩
    · exact ⟨g, mem_cons_of_mem f hg, happ, .inr (hrest.mpr hall)⟩

/-- **The run** over the flattened grants, from any marks. -/
theorem anyFlatCapable_iff (r : CapRequest) (addr : EntityAddr) (fs : List FlatGrant)
    (classAllowed : List Bool) :
    (anyFlatCapable r addr fs classAllowed).1 = true ↔ Settles r addr fs classAllowed := by
  induction fs generalizing classAllowed with
  | nil => simp [anyFlatCapable, Settles]
  | cons f fs ih =>
    by_cases h : f.Applies r addr
    · rw [settles_cons_of_applies h, anyFlatCapable, FlatGrant.isCapable_of_applies h]
      by_cases hnow : r.classes = [] ∨ f.spec.allow = osdCapAny
      · have hdone : f.spec.allow = osdCapAny ∨
            ∀ p ∈ r.classes.zip classAllowed, p.2 = true ∨ f.spec.Authorises p.1 := by
          rcases hnow with hnil | hall
          · exact .inr (by simp [hnil])
          · exact .inl hall
        simp only [if_pos hnow, if_true, hdone, true_or]
      · rw [not_or] at hnow
        rw [if_neg (not_or.mpr hnow), ← all_mark]
        by_cases hall : (f.spec.mark r.classes classAllowed).all id = true
        · simp only [hall, if_true, or_true, true_or]
        · simp only [hall, hnow.2, or_self, false_or, Bool.false_eq_true, if_false, ih]
    · rw [settles_cons_of_not_applies h, ← ih, anyFlatCapable,
        FlatGrant.isCapable_of_not_applies h]
      rfl

/-! ## `is_capable` decides the meaning -/

theorem settles_start_iff (r : CapRequest) (addr : EntityAddr) (caps : OSDCap) :
    Settles r addr caps.flattened (List.replicate r.classes.length false) ↔
      caps.Permits r addr := by
  have hzip : r.classes.zip (List.replicate r.classes.length false) =
      r.classes.map fun c => (c, false) := by
    rw [← map_const', ← zip_map', map_id']
  unfold Settles OSDCap.Permits
  simp only [hzip, forall_mem_map, Bool.false_eq_true, false_or]

theorem OSDCap.isCapable_iff_permits (caps : OSDCap) (r : CapRequest) (addr : EntityAddr) :
    caps.isCapable r addr = true ↔ caps.Permits r addr := by
  rw [caps.isCapable_eq_flat, anyFlatCapable_iff, settles_start_iff]

theorem OSDCap.flattened_subset {caps caps' : OSDCap} (h : caps.grants ⊆ caps'.grants) :
    caps.flattened ⊆ caps'.flattened := by
  intro f hf
  rw [OSDCap.flattened, flattenAll_eq_flatMap, mem_flatMap] at hf ⊢
  obtain ⟨g, hg, hf⟩ := hf
  exact ⟨g, h hg, hf⟩

theorem OSDCap.Permits.mono {caps caps' : OSDCap} (h : caps.grants ⊆ caps'.grants)
    (hp : caps.Permits r addr) : caps'.Permits r addr := by
  have hsub := OSDCap.flattened_subset h
  obtain ⟨g, hg, happ, hall⟩ := hp
  refine ⟨g, hsub hg, happ, hall.imp_right fun hcls c hc => ?_⟩
  obtain ⟨f, hf, hauth⟩ := hcls c hc
  exact ⟨f, hsub hf, hauth⟩

/-- **`is_capable` is the declarative meaning** of the grants: some flattened grant applies and is
`allow *`, or the class calls are each authorised by a flattened grant that applies. So the order
of the grants does not matter, and more grants permit no less. -/
theorem OSDCap.isCapable_decides (caps : OSDCap) (r : CapRequest) (addr : EntityAddr) :
    (caps.isCapable r addr = true ↔
        ∃ g ∈ caps.flattened, g.Applies r addr ∧
          (g.spec.allow = osdCapAny ∨
            ∀ c ∈ r.classes, ∃ f ∈ caps.flattened, f.Applies r addr ∧ f.spec.Authorises c)) ∧
      (∀ caps' : OSDCap, caps'.grants.Perm caps.grants →
        caps'.isCapable r addr = caps.isCapable r addr) ∧
      (∀ caps' : OSDCap, caps.grants ⊆ caps'.grants → caps.isCapable r addr = true →
        caps'.isCapable r addr = true) := by
  have hmono : ∀ caps caps' : OSDCap, caps.grants ⊆ caps'.grants →
      caps.isCapable r addr = true → caps'.isCapable r addr = true := by
    intro caps caps' h hc
    rw [OSDCap.isCapable_iff_permits] at hc ⊢
    exact hc.mono h
  refine ⟨caps.isCapable_iff_permits r addr, fun caps' hperm => ?_, hmono caps⟩
  rw [Bool.eq_iff_iff]
  exact ⟨hmono caps' caps hperm.subset, hmono caps caps' hperm.symm.subset⟩

/-- Two class calls that are authorised by two grants, asked in either order. -/
theorem OSDCap.isCapable_decides_two :
    let lock : OSDCapGrant := .plain {} { className := "lock" }
    let list : OSDCapGrant := .plain {} { className := "rbd", methodName := "metadata_list" }
    let calls : List ClassInfo :=
      [⟨"lock", "get_info", true, false, false⟩, ⟨"rbd", "metadata_list", true, false, false⟩]
    let r : CapRequest := ⟨"rbd", "", .empty, "rbd_header.1", false, false, calls⟩
    (OSDCap.mk [lock]).isCapable r (.inet 0) = false ∧
      (OSDCap.mk [lock, list]).isCapable r (.inet 0) = true ∧
      (OSDCap.mk [list, lock]).isCapable r (.inet 0) = true := by
  intro lock list calls r
  have hboth : (OSDCap.mk [lock, list]).isCapable r (.inet 0) = true := by decide +kernel
  refine ⟨by decide +kernel, hboth, ?_⟩
  rw [(OSDCap.isCapable_decides (OSDCap.mk [lock, list]) r (.inet 0)).2.1 _ (List.Perm.swap _ _ _)]
  exact hboth

end Ceph.Osd
