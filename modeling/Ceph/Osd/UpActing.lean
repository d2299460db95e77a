import Ceph.Osd.OSDMap

set_option autoImplicit false

/-! # Up and acting sets are sound

The five transformations from the raw OSDs of a placement group to its up and acting sets (the
existence filter, the two remappings, the liveness filter, the choice of a primary by affinity and
the temporary overrides) neither repeat an OSD nor let one through that is down, and the primary
of the up set is a member of it.

The pipeline exists twice. `pg_to_raw_up`, which is documented to leave out the temporary
overrides and nothing else, picks the primary from the raw OSDs where `_pg_to_up_acting_osds`
picks it from those that are up. `SamePrimary` says when this makes no difference.
-/

namespace Ceph.Osd

open List

namespace OSDMap

variable {m : OSDMap} {pool : PgPool}

/-! ## OSDs that are up -/

theorem isUp_none : m.isUp Crush.itemNone = false := by
  have hlen := m.maxOsd_le
  have hnone : m.osd? Crush.itemNone = none := by
    rw [osd?, if_pos (by decide), getElem?_eq_none]
    exact hlen
  rw [isUp, exists_, hnone]
  rfl

theorem isUp_iff (o : ℤ) : (m.exists_ o && !m.isDown o) = m.isUp o := by
  cases hup : m.isUp o with
  | false => simp [isDown, hup]
  | true =>
    have hex : m.exists_ o = true := by
      rw [isUp, Bool.and_eq_true] at hup
      exact hup.1
    simp [isDown, hup, hex]

variable {osds : List ℤ} {pg : Pg} {o : ℤ}

theorem ne_none_of_isUp (h : m.isUp o = true) : o ≠ Crush.itemNone := by
  rintro rfl
  rw [isUp_none] at h
  exact Bool.false_ne_true h

theorem ne_neg_one_of_isUp (h : m.isUp o = true) : o ≠ -1 := by
  rintro rfl
  exact Bool.false_ne_true h

theorem rawToUpOsds_eq (raw : List ℤ) : m.rawToUpOsds pool raw =
    if pool.canShiftOsds then raw.filter m.isUp
    else raw.map fun o => if m.isUp o then o else Crush.itemNone := by
  simp only [rawToUpOsds, isUp_iff]

theorem tempOsds_eq (pg : Pg) : m.tempOsds pool pg =
    ((m.pgTemp (pool.rawPgToPg pg)).map (m.rawToUpOsds pool)).getD [] := by
  rw [tempOsds]
  cases m.pgTemp (pool.rawPgToPg pg) with
  | none => rfl
  | some osds =>
    simp only [Option.map_some, Option.getD_some, rawToUpOsds]
    induction osds with
    | nil => simp
    | cons o osds ih =>
      rw [flatMap_cons, ih]
      cases hex : m.exists_ o <;> cases hdown : m.isDown o <;>
        cases hshift : pool.canShiftOsds <;> simp [hex, hdown]

/-- An entry of an up or acting vector of a pool: an OSD that is up, or no OSD where the pool
cannot shift. -/
def Entry (m : OSDMap) (pool : PgPool) (o : ℤ) : Prop :=
  m.isUp o = true ∨ o = Crush.itemNone ∧ pool.canShiftOsds = false

theorem entry_of_mem_rawToUpOsds {raw : List ℤ} (h : o ∈ m.rawToUpOsds pool raw) :
    m.Entry pool o := by
  rw [rawToUpOsds_eq] at h
  split_ifs at h with hshift
  · exact .inl (mem_filter.mp h).2
  · obtain ⟨o', -, rfl⟩ := mem_map.mp h
    by_cases hup : m.isUp o' = true
    · rw [if_pos hup]
      exact .inl hup
    · rw [if_neg hup]
      exact .inr ⟨rfl, by simpa using hshift⟩

theorem Entry.isUp_iff (h : m.Entry pool o) : m.isUp o = true ↔ o ≠ Crush.itemNone := by
  refine ⟨ne_none_of_isUp, fun hne => ?_⟩
  rcases h with hup | ⟨hnone, -⟩
  · exact hup
  · exact absurd hnone hne

/-! ## No OSD twice -/

/-- No OSD occurs twice; `CRUSH_ITEM_NONE` may. -/
def Distinct (osds : List ℤ) : Prop := osds.Pairwise fun a b => a = b → a = Crush.itemNone

instance (osds : List ℤ) : Decidable (Distinct osds) :=
  inferInstanceAs (Decidable (List.Pairwise _ osds))

theorem Distinct.perm {l l' : List ℤ} (h : Distinct l) (hp : l'.Perm l) : Distinct l' := by
  refine (hp.pairwise_iff ?_).mpr h
  intro a b hab heq
  rw [heq]
  exact hab heq.symm

section

variable (h : Distinct osds)

include h

theorem Distinct.filter (p : ℤ → Bool) : Distinct (osds.filter p) := List.Pairwise.filter p h

theorem Distinct.blank (p : ℤ → Bool) :
    Distinct (osds.map fun o => if p o then o else Crush.itemNone) := by
  rw [Distinct, pairwise_map]
  refine List.Pairwise.imp ?_ h
  intro a b hab heq
  by_cases ha : p a = true
  · by_cases hb : p b = true
    · rw [if_pos ha, if_pos hb] at heq
      rw [if_pos ha]
      exact hab heq
    · rw [heq, if_neg hb]
  · rw [if_neg ha]

theorem Distinct.replace {a b : ℤ} (hb : b ∉ osds) : Distinct (osds.replace a b) := by
  by_cases ha : a ∈ osds
  · obtain ⟨l₁, l₂, rfl, hfirst⟩ := eq_append_cons_of_mem ha
    have hsub : l₁ ++ l₂ <+ l₁ ++ a :: l₂ := (sublist_cons_self a l₂).append_left l₁
    rw [replace_append_right hfirst, replace_cons_self]
    refine Distinct.perm (pairwise_cons.mpr ⟨fun o ho heq => ?_, h.sublist hsub⟩) perm_middle
    exact absurd (hsub.subset (heq ▸ ho)) hb
  · rwa [replace_of_not_mem ha]

theorem Distinct.removeNonexistentOsds : Distinct (m.removeNonexistentOsds pool osds) := by
  rw [OSDMap.removeNonexistentOsds]
  split
  · exact h.filter _
  · exact h.blank _

theorem Distinct.rawToUpOsds : Distinct (m.rawToUpOsds pool osds) := by
  rw [rawToUpOsds_eq]
  split
  · exact h.filter _
  · exact h.blank _

theorem Distinct.applyUpmapItem (r : ℤ × ℤ) : Distinct (m.applyUpmapItem osds r) := by
  rw [OSDMap.applyUpmapItem]
  split
  · exact h
  · rename_i hmem
    split
    · exact h
    · exact h.replace hmem

theorem Distinct.applyUpmapItems (pg : Pg) : Distinct (m.applyUpmapItems pg osds) := by
  rw [OSDMap.applyUpmapItems]
  split
  · rename_i items hitems
    clear hitems
    induction items generalizing osds with
    | nil => exact h
    | cons r items ih => exact ih (h.applyUpmapItem r)
  · exact h

/-- **The remappings repeat no OSD.** -/
theorem Distinct.applyUpmap
    (hupmap : ∀ u, m.pgUpmap.get (pool.rawPgToPg pg) = some u → Distinct u) :
    Distinct (m.applyUpmap pool pg osds) := by
  rw [OSDMap.applyUpmap]
  split
  · rename_i u hu
    split
    · exact h
    · exact (hupmap u hu).applyUpmapItems _
  · exact h.applyUpmapItems _

end

/-! ## The primary -/

/-- Among OSDs that are up, or absent, the primary is the first one that is up. -/
theorem pickPrimary_rawToUpOsds (raw : List ℤ) :
    pickPrimary (m.rawToUpOsds pool raw) = (raw.find? m.isUp).getD (-1) := by
  rw [pickPrimary, rawToUpOsds_eq]
  congr 1
  induction raw with
  | nil => split <;> rfl
  | cons o raw ih =>
    by_cases hup : m.isUp o = true
    · have hne := ne_none_of_isUp hup
      split <;> simp [hup, hne]
    · split at ih
      · next hshift => simpa [hup, hshift] using ih
      · next hshift => simpa [hup, hshift] using ih

/-- The primary picked from the raw OSDs is the one picked from those that are up if it is up
itself, or if nothing is. -/
theorem pickPrimary_eq_iff (pool : PgPool) (raw : List ℤ) :
    pickPrimary raw = pickPrimary (m.rawToUpOsds pool raw) ↔
      m.isUp (pickPrimary raw) = true ∨ pickPrimary raw = -1 ∧ ∀ o ∈ raw, m.isUp o = false := by
  rw [pickPrimary_rawToUpOsds]
  constructor
  · intro heq
    cases hfind : raw.find? m.isUp with
    | none =>
      rw [hfind] at heq
      refine .inr ⟨heq, fun o ho => ?_⟩
      simpa using find?_eq_none.mp hfind o ho
    | some o =>
      rw [hfind] at heq
      rw [heq]
      exact .inl (find?_some hfind)
  · rintro (hup | ⟨hprimary, hdown⟩)
    · -- what comes before the first OSD is not up
      induction raw with
      | nil => exact absurd rfl (ne_neg_one_of_isUp hup)
      | cons o raw ih =>
        by_cases ho : o = Crush.itemNone
        · have hpick : pickPrimary (o :: raw) = pickPrimary raw := by simp [pickPrimary, ho]
          have hfind : (o :: raw).find? m.isUp = raw.find? m.isUp := by simp [ho, isUp_none]
          rw [hpick] at hup ⊢
          rw [hfind]
          exact ih hup
        · have hpick : pickPrimary (o :: raw) = o := by simp [pickPrimary, ho]
          rw [hpick] at hup ⊢
          simp [hup]
    · have hfind : raw.find? m.isUp = none :=
        find?_eq_none.mpr fun o ho => by rw [hdown o ho]; simp
      rw [hprimary, hfind]
      rfl

/-- The position chosen by affinity is that of an OSD, and there is one if there is an OSD. -/
theorem primaryPos_spec (seed : UInt32) (osds : List ℤ) (i : ℕ) (pos : Option ℕ) :
    (∀ k, m.primaryPos seed osds i pos = some k →
      pos = some k ∨ i ≤ k ∧ ∃ o, osds[k - i]? = some o ∧ o ≠ Crush.itemNone) ∧
    (m.primaryPos seed osds i pos = none → pos = none ∧ ∀ o ∈ osds, o = Crush.itemNone) := by
  induction osds generalizing i pos with
  | nil => exact ⟨fun k hk => .inl hk, fun hk => ⟨hk, by simp⟩⟩
  | cons o osds ih =>
    have hshift : ∀ k, i + 1 ≤ k ∧ (∃ o', osds[k - (i + 1)]? = some o' ∧ o' ≠ Crush.itemNone) →
        i ≤ k ∧ ∃ o', (o :: osds)[k - i]? = some o' ∧ o' ≠ Crush.itemNone := by
      rintro k ⟨hle, o', hget, hne⟩
      refine ⟨by omega, o', ?_, hne⟩
      rw [show k - i = (k - (i + 1)) + 1 by omega, getElem?_cons_succ]
      exact hget
    rw [primaryPos]
    by_cases hnone : o = Crush.itemNone
    · rw [if_pos hnone]
      obtain ⟨hsome, hall⟩ := ih (i + 1) pos
      exact ⟨fun k hk => (hsome k hk).imp_right (hshift k),
        fun hk => ⟨(hall hk).1, forall_mem_cons.mpr ⟨hnone, (hall hk).2⟩⟩⟩
    · rw [if_neg hnone]
      have hself : ∃ o', (o :: osds)[i - i]? = some o' ∧ o' ≠ Crush.itemNone :=
        ⟨o, by simp, hnone⟩
      split
      · -- refused, but noted
        obtain ⟨hsome, hall⟩ := ih (i + 1) (pos.or (some i))
        refine ⟨fun k hk => ?_, fun hk => ?_⟩
        · rcases hsome k hk with hpos | hlater
          · cases pos with
            | none =>
              obtain rfl : i = k := by simpa using hpos
              exact .inr ⟨le_rfl, hself⟩
            | some k' => exact .inl hpos
          · exact .inr (hshift k hlater)
        · have hnoted := (hall hk).1
          cases pos <;> simp at hnoted
      · refine ⟨fun k hk => ?_, fun hk => ?_⟩
        · obtain rfl : i = k := by simpa using hk
          exact .inr ⟨le_rfl, hself⟩
        · simp at hk

/-- **`_apply_primary_affinity`** without affinities to respect. -/
theorem applyPrimaryAffinity_of_not_any {seed : UInt32} (h : m.anyAffinity osds = false)
    (primary : ℤ) : m.applyPrimaryAffinity seed pool osds primary = (osds, primary) := by
  rw [applyPrimaryAffinity, h]
  rfl

/-- **`_apply_primary_affinity`**: the primary is one of the OSDs, whatever it was before. It is
moved to the front if the pool shifts. -/
theorem applyPrimaryAffinity_of_any (pool : PgPool) (seed : UInt32)
    (h : m.anyAffinity osds = true) :
    ∃ osds' o, (∀ primary, m.applyPrimaryAffinity seed pool osds primary = (osds', o)) ∧
      o ∈ osds ∧ o ≠ Crush.itemNone ∧ osds'.Perm osds ∧
      (pool.canShiftOsds = false → osds' = osds) := by
  obtain ⟨hsome, hnone⟩ := m.primaryPos_spec seed osds 0 none
  cases hpos : m.primaryPos seed osds 0 none with
  | none =>
    obtain ⟨o, ho, hne⟩ := any_eq_true.mp (Bool.and_eq_true_iff.mp h).2
    have := (hnone hpos).2 o ho
    simp [this] at hne
  | some pos =>
    obtain ⟨-, o, hget, hne⟩ := (hsome pos hpos).resolve_left (by simp)
    rw [Nat.sub_zero] at hget
    obtain ⟨hlt, hgo⟩ := List.getElem?_eq_some_iff.mp hget
    refine ⟨if pool.canShiftOsds && 0 < pos then moveToFront osds pos o else osds, o,
      fun primary => ?_, List.mem_of_getElem? hget, hne, ?_, ?_⟩
    · rw [applyPrimaryAffinity, if_pos h]
      simp only [hpos, hget]
    · split
      · rw [moveToFront, ← hgo]
        exact getElem_cons_eraseIdx_perm hlt
      · exact List.Perm.refl _
    · intro hshift
      rw [hshift]
      rfl

/-! ## Both copies of the pipeline -/

def upmapped (m : OSDMap) (pool : PgPool) (pg : Pg) : List ℤ :=
  m.applyUpmap pool pg (m.pgToRawOsds pool pg)

/-- The up vector and its primary, as `_pg_to_up_acting_osds` computes them. -/
def upOf (m : OSDMap) (pool : PgPool) (pg : Pg) : List ℤ × ℤ :=
  m.applyPrimaryAffinity (m.rawPgToPps pool pg) pool (m.rawToUpOsds pool (m.upmapped pool pg))
    (pickPrimary (m.rawToUpOsds pool (m.upmapped pool pg)))

/-- The up vector is a reordering of the upmapped OSDs that are up, and is not reordered in a pool
that cannot shift. -/
theorem upOf_perm (pg : Pg) :
    (m.upOf pool pg).1.Perm (m.rawToUpOsds pool (m.upmapped pool pg)) ∧
      (pool.canShiftOsds = false →
        (m.upOf pool pg).1 = m.rawToUpOsds pool (m.upmapped pool pg)) := by
  cases hany : m.anyAffinity (m.rawToUpOsds pool (m.upmapped pool pg)) with
  | false =>
    rw [upOf, applyPrimaryAffinity_of_not_any hany]
    exact ⟨List.Perm.refl _, fun _ => rfl⟩
  | true =>
    obtain ⟨osds', o, heq, -, -, hperm, hstay⟩ :=
      applyPrimaryAffinity_of_any pool (m.rawPgToPps pool pg) hany
    rw [upOf, heq]
    exact ⟨hperm, hstay⟩

theorem upOf_entry (h : o ∈ (m.upOf pool pg).1) : m.Entry pool o :=
  entry_of_mem_rawToUpOsds ((upOf_perm pg).1.mem_iff.mp h)

theorem upOf_cases (m : OSDMap) (pool : PgPool) (pg : Pg) :
    (m.upOf pool pg).2 = -1 ∧ (∀ o ∈ (m.upOf pool pg).1, m.isUp o = false) ∨
      m.isUp (m.upOf pool pg).2 = true ∧ (m.upOf pool pg).2 ∈ (m.upOf pool pg).1 := by
  cases hany : m.anyAffinity (m.rawToUpOsds pool (m.upmapped pool pg)) with
  | true =>
    obtain ⟨osds', o, heq, hmem, hne, hperm, -⟩ :=
      applyPrimaryAffinity_of_any pool (m.rawPgToPps pool pg) hany
    rw [upOf, heq]
    exact .inr ⟨(entry_of_mem_rawToUpOsds hmem).isUp_iff.mpr hne, hperm.mem_iff.mpr hmem⟩
  | false =>
    rw [upOf, applyPrimaryAffinity_of_not_any hany, pickPrimary]
    cases hfind : (m.rawToUpOsds pool (m.upmapped pool pg)).find? fun o => o ≠ Crush.itemNone with
    | some o =>
      have hmem := mem_of_find?_eq_some hfind
      have hne : o ≠ Crush.itemNone := by simpa using find?_some hfind
      exact .inr ⟨(entry_of_mem_rawToUpOsds hmem).isUp_iff.mpr hne, hmem⟩
    | none =>
      refine .inl ⟨rfl, fun o ho => ?_⟩
      have hnone : o = Crush.itemNone := by simpa using find?_eq_none.mp hfind o ho
      rw [hnone, isUp_none]

/-- **The primary of the up vector** is one of its OSDs, if it has any that is up. -/
theorem upOf_primary (pg : Pg) :
    ((m.upOf pool pg).2 = -1 ↔ ∀ o ∈ (m.upOf pool pg).1, m.isUp o = false) ∧
      ((m.upOf pool pg).2 ≠ -1 → (m.upOf pool pg).2 ∈ (m.upOf pool pg).1) := by
  rcases m.upOf_cases pool pg with ⟨hminus, hall⟩ | ⟨hup, hmem⟩
  · exact ⟨⟨fun _ => hall, fun _ => hminus⟩, fun h => absurd hminus h⟩
  · refine ⟨⟨fun h => absurd h (ne_neg_one_of_isUp hup), fun h => ?_⟩, fun _ => hmem⟩
    rw [h _ hmem] at hup
    exact absurd hup Bool.false_ne_true

/-- **When `pg_to_raw_up` names the same primary**: the first upmapped OSD is up, or no upmapped
OSD is and there is no first one, or an affinity decides. -/
def SamePrimary (m : OSDMap) (pool : PgPool) (pg : Pg) : Prop :=
  m.isUp (pickPrimary (m.upmapped pool pg)) = true ∨
    (pickPrimary (m.upmapped pool pg) = -1 ∧ ∀ o ∈ m.upmapped pool pg, m.isUp o = false) ∨
    m.anyAffinity (m.rawToUpOsds pool (m.upmapped pool pg)) = true

instance (pg : Pg) : Decidable (m.SamePrimary pool pg) :=
  inferInstanceAs (Decidable (_ ∨ _ ∧ _ ∨ _))

theorem pgToRawUp_eq (hpool : m.pools pg.pool = some pool) :
    m.pgToRawUp pg = m.applyPrimaryAffinity (m.rawPgToPps pool pg) pool
      (m.rawToUpOsds pool (m.upmapped pool pg)) (pickPrimary (m.upmapped pool pg)) := by
  rw [pgToRawUp, hpool]
  rfl

theorem pgToRawUp_eq_iff (hpool : m.pools pg.pool = some pool) :
    m.pgToRawUp pg = m.upOf pool pg ↔ m.SamePrimary pool pg := by
  rw [pgToRawUp_eq hpool, SamePrimary, ← or_assoc, ← pickPrimary_eq_iff pool]
  cases hany : m.anyAffinity (m.rawToUpOsds pool (m.upmapped pool pg)) with
  | false =>
    rw [upOf, applyPrimaryAffinity_of_not_any hany, applyPrimaryAffinity_of_not_any hany]
    simp
  | true =>
    obtain ⟨osds', o, heq, -⟩ :=
      applyPrimaryAffinity_of_any pool (m.rawPgToPps pool pg) hany
    rw [upOf, heq, heq]
    simp

/-! ## Soundness -/

/-- **Up and acting sets are sound.** -/
structure Sound (m : OSDMap) (pool : PgPool) (pg : Pg) (r : UpActing) : Prop where
  up_distinct : Distinct r.up
  acting_distinct : Distinct r.acting
  up_entry : ∀ o ∈ r.up, m.Entry pool o
  acting_entry : ∀ o ∈ r.acting, m.Entry pool o
  /-- In a pool that cannot shift, every position holds the upmapped OSD or none. -/
  up_position : pool.canShiftOsds = false → r.up.length = (m.upmapped pool pg).length ∧
    ∀ i : ℕ, r.up[i]? = (m.upmapped pool pg)[i]? ∨ r.up[i]? = some Crush.itemNone
  up_primary_none : r.upPrimary = -1 ↔ ∀ o ∈ r.up, m.isUp o = false
  up_primary_mem : r.upPrimary ≠ -1 → r.upPrimary ∈ r.up
  raw_up : m.pgToRawUp pg = (r.up, r.upPrimary)

/-- What `_pg_to_up_acting_osds` returns: the acting set is that of `pg_temp`, as far as it is up,
or the up set. -/
theorem pgToUpActingOsds_spec {b : Bool} (hpool : m.pools pg.pool = some pool)
    (hb : b = true ∨ pg.seed < pool.pgNum) :
    (m.pgToUpActingOsds pg b).up = (m.upOf pool pg).1 ∧
      (m.pgToUpActingOsds pg b).upPrimary = (m.upOf pool pg).2 ∧
      ((m.pgToUpActingOsds pg b).acting = (m.upOf pool pg).1 ∨
        (m.pgToUpActingOsds pg b).acting = m.tempOsds pool pg) := by
  have hrange : ¬ (!b && decide (pg.seed ≥ pool.pgNum)) = true := by
    rcases hb with rfl | hlt
    · simp
    · simpa using fun _ => hlt
  rw [pgToUpActingOsds, hpool]
  dsimp only
  rw [if_neg hrange]
  split
  · exact ⟨rfl, rfl, .inl rfl⟩
  · exact ⟨rfl, rfl, .inr rfl⟩

/-- **Up and acting sets are sound, except that `pg_to_raw_up` may name another primary**: they
are sound if and only if the primary is the same. -/
theorem up_acting_sound_iff (m : OSDMap) (pool : PgPool) (pg : Pg) (b : Bool)
    (hpool : m.pools pg.pool = some pool) (hb : b = true ∨ pg.seed < pool.pgNum)
    (hcrush : Distinct (m.crushOsds pool pg))
    (htemp : ∀ osds, m.pgTemp (pool.rawPgToPg pg) = some osds → Distinct osds)
    (hupmap : ∀ osds, m.pgUpmap.get (pool.rawPgToPg pg) = some osds → Distinct osds) :
    m.Sound pool pg (m.pgToUpActingOsds pg b) ↔ m.SamePrimary pool pg := by
  obtain ⟨hup, hprimary, hacting⟩ := pgToUpActingOsds_spec (b := b) hpool hb
  have hupmapped : Distinct (m.upmapped pool pg) :=
    hcrush.removeNonexistentOsds.applyUpmap hupmap
  have hdistinct : Distinct (m.upOf pool pg).1 := hupmapped.rawToUpOsds.perm (upOf_perm pg).1
  have hactingSound : Distinct (m.pgToUpActingOsds pg b).acting ∧
      ∀ o ∈ (m.pgToUpActingOsds pg b).acting, m.Entry pool o := by
    rcases hacting with heq | heq
    · rw [heq]
      exact ⟨hdistinct, fun o ho => upOf_entry ho⟩
    · rw [heq, tempOsds_eq]
      cases h : m.pgTemp (pool.rawPgToPg pg) with
      | none => exact ⟨List.Pairwise.nil, by simp⟩
      | some osds => exact ⟨(htemp osds h).rawToUpOsds, fun o ho => entry_of_mem_rawToUpOsds ho⟩
  rw [← pgToRawUp_eq_iff hpool]
  constructor
  · intro h
    rw [h.raw_up, hup, hprimary]
  · intro h
    refine ⟨?_, ?_, ?_, ?_, ?_, ?_, ?_, ?_⟩
    · rw [hup]
      exact hdistinct
    · exact hactingSound.1
    · rw [hup]
      exact fun o ho => upOf_entry ho
    · exact hactingSound.2
    · intro hshift
      rw [hup, (upOf_perm pg).2 hshift, rawToUpOsds_eq, hshift]
      refine ⟨by simp, fun i => ?_⟩
      rw [if_neg Bool.false_ne_true, getElem?_map]
      cases (m.upmapped pool pg)[i]? with
      | none => exact .inl rfl
      | some o =>
        by_cases ho : m.isUp o = true
        · exact .inl (by simp [ho])
        · exact .inr (by simp [ho])
    · rw [hup, hprimary]
      exact (upOf_primary pg).1
    · rw [hup, hprimary]
      exact (upOf_primary pg).2
    · rw [h, hup, hprimary]

/-! ## Two OSDs -/

/-- A pool of one group with two replicas, which CRUSH places on `0` and `1`; `0` is up if the
argument says so. -/
def twoOsds (up : Bool) : OSDMap where
  osds := [⟨true, up, 0x10000, 0x10000⟩, ⟨true, true, 0x10000, 0x10000⟩]
  maxOsd_le := by simp
  hasPrimaryAffinity := false
  pools := fun _ => some ⟨.replicated, 2, 0, true, 1, 1, 1⟩
  crush :=
    { hash := fun _ _ => 0
      findRule := fun _ _ _ => some 0
      doRule := fun _ _ _ _ _ => [0, 1]
      verifyUpmap := fun _ _ _ => true
      ruleWeightOsdMap := fun _ => some [(0, 1), (1, 1)] }
  pgUpmap := OrdMap.empty
  pgUpmapItems := OrdMap.empty
  pgTemp := fun _ => none
  primaryTemp := fun _ => none

theorem up_acting_sound_two_osds :
    (twoOsds true).Sound ⟨.replicated, 2, 0, true, 1, 1, 1⟩ ⟨1, 0⟩
      ((twoOsds true).pgToUpActingOsds ⟨1, 0⟩ true) :=
  (up_acting_sound_iff (twoOsds true) ⟨.replicated, 2, 0, true, 1, 1, 1⟩ ⟨1, 0⟩ true rfl
    (.inl rfl) (by decide +kernel) (by intro osds h; exact absurd h (by simp [twoOsds]))
    (by intro osds h; exact absurd h (by simp [twoOsds]))).mpr (by decide +kernel)

/-- **The OSD that is down is named primary by `pg_to_raw_up`.** -/
theorem raw_up_primary_down :
    (twoOsds false).pgToUpActingOsds ⟨1, 0⟩ true = ⟨[1], 1, [1], 1⟩ ∧
      (twoOsds false).pgToRawUp ⟨1, 0⟩ = ([1], 0) ∧ (twoOsds false).isUp 0 = false ∧
      ¬ (twoOsds false).Sound ⟨.replicated, 2, 0, true, 1, 1, 1⟩ ⟨1, 0⟩
        ((twoOsds false).pgToUpActingOsds ⟨1, 0⟩ true) := by
  refine ⟨by decide +kernel, by decide +kernel, by decide +kernel, fun h => ?_⟩
  exact absurd h.raw_up (by decide +kernel)

end OSDMap

end Ceph.Osd
