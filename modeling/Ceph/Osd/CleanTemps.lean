import Ceph.Osd.UpActing

set_option autoImplicit false

/-! # Removing temporary mappings that are not needed

`OSDMap::clean_temps` goes over the temporary mappings that a map will have after an incremental, and
changes the incremental such that some of them are gone. It drops a `pg_temp` that is the up set, and
a `primary_temp` that names the primary of `pg_to_raw_up`. Other tests drop what is down as a whole,
too long or of no pool.

Two things are not looked at. The first OSD of a `pg_temp` is the primary, but the primary of an up
set that cannot be reordered is the one that affinity chooses. And the primary without `primary_temp`
is the first OSD of `pg_temp` if there is one (`clean_temps_iff`).
-/

namespace Ceph.Osd

open Option List

/-! ## The model -/

/-- The part of `OSDMap::Incremental` that `clean_temps` changes. -/
structure TempInc where
  newPgTemp : Pg → Option (List ℤ)
  newPrimaryTemp : Pg → Option ℤ

namespace OSDMap

variable {m : OSDMap} {pool : PgPool} {pg : Pg}

/-- What `apply_incremental` does to the temporary mappings. No OSDs and the primary -1 erase. -/
def applyTemps (m : OSDMap) (inc : TempInc) : OSDMap :=
  { m with
    pgTemp := fun pg => (inc.newPgTemp pg).elim (m.pgTemp pg) fun osds =>
      if osds = [] then none else some osds
    primaryTemp := fun pg => (inc.newPrimaryTemp pg).elim (m.primaryTemp pg) fun o =>
      if o = -1 then none else some o }

def pgToActingOsds (m : OSDMap) (pg : Pg) : List ℤ × ℤ :=
  ((m.pgToUpActingOsds pg true).acting, (m.pgToUpActingOsds pg true).actingPrimary)

/-- The first loop of `clean_temps`, which goes over `pg_temp` of the next map. A turn changes the
entry of its group only. -/
def cleanPgTemp (old next : OSDMap) (inc : TempInc) (pg : Pg) : Option (List ℤ) :=
  match next.pgTemp pg with
  | none => inc.newPgTemp pg
  | some osds =>
    match next.pools pg.pool with
    | none => some []
    | some pool =>
      if osds.all next.isDown then some []
      else if (next.pgToRawUp pg).1 = osds ∨ pool.size < osds.length then
        if (old.pgTemp pg).isSome then some [] else none
      else inc.newPgTemp pg

/-- The second loop, over `primary_temp` of the next map. -/
def cleanPrimaryTemp (old next : OSDMap) (inc : TempInc) (pg : Pg) : Option ℤ :=
  match next.primaryTemp pg with
  | none => inc.newPrimaryTemp pg
  | some o =>
    if next.isDown o then some (-1)
    else if (next.pgToActingOsds pg).2 = (next.pgToRawUp pg).2 then
      if (old.primaryTemp pg).isSome then some (-1) else none
    else inc.newPrimaryTemp pg

def cleanTemps (old next : OSDMap) (inc : TempInc) : TempInc :=
  ⟨cleanPgTemp old next inc, cleanPrimaryTemp old next inc⟩

/-- The `pg_temp` of the group is dropped because it is the up set. -/
def DropsMatching (next : OSDMap) (pg : Pg) : Prop :=
  ∃ osds, next.pgTemp pg = some osds ∧ ¬ osds.all next.isDown ∧ (next.pgToRawUp pg).1 = osds

/-- The `primary_temp` of the group is dropped because it is the primary anyway. -/
def DropsRedundant (next : OSDMap) (pg : Pg) : Prop :=
  ∃ o, next.primaryTemp pg = some o ∧ next.isDown o = false ∧
    (next.pgToActingOsds pg).2 = (next.pgToRawUp pg).2

/-- The `pg_temp` is dropped because all of it is down, or because it is too long. -/
def Unusable (next : OSDMap) (pool : PgPool) (osds : List ℤ) : Prop :=
  osds.all next.isDown = true ∨ pool.size < osds.length

instance (next : OSDMap) (pool : PgPool) (osds : List ℤ) : Decidable (next.Unusable pool osds) :=
  inferInstanceAs (Decidable (_ ∨ _))

/-- **When nothing changes.** -/
structure Harmless (next : OSDMap) (pool : PgPool) (pg : Pg) : Prop where
  /-- Without a `primary_temp` the up primary has to be the first OSD of the up set. -/
  first : next.DropsMatching pg → next.primaryTemp pg = none →
    (next.upOf pool pg).2 = pickPrimary (next.upOf pool pg).1
  /-- A `primary_temp` beside it is up. -/
  up : next.DropsMatching pg → ∀ o, next.primaryTemp pg = some o → next.isUp o = true
  /-- If only the `primary_temp` is dropped, a `pg_temp` that is kept has it as the first OSD. -/
  kept : ¬ next.DropsMatching pg → ∀ osds, next.pgTemp pg = some osds →
    ¬ next.Unusable pool osds →
      some (pickPrimary (next.rawToUpOsds pool osds)) = next.primaryTemp pg
  /-- And one that is dropped for another reason is empty or the up set, as far as it is up. -/
  other : ¬ next.DropsMatching pg → ∀ osds, next.pgTemp pg = some osds →
    next.Unusable pool osds →
      next.rawToUpOsds pool osds = [] ∨ next.rawToUpOsds pool osds = (next.upOf pool pg).1

/-! ## The acting set -/

def actingWith (m : OSDMap) (pool : PgPool) (pg : Pg) (temp : Option (List ℤ))
    (primary : Option ℤ) : List ℤ × ℤ :=
  let osds := (temp.map (m.rawToUpOsds pool)).getD []
  if osds = [] then ((m.upOf pool pg).1,
    if primary.getD (-1) = -1 then (m.upOf pool pg).2 else primary.getD (-1))
  else (osds, primary.getD (pickPrimary osds))

theorem pgToActingOsds_eq (hpool : m.pools pg.pool = some pool) (hpg : pool.rawPgToPg pg = pg) :
    m.pgToActingOsds pg = m.actingWith pool pg (m.pgTemp pg) (m.primaryTemp pg) := by
  have htemp : m.tempOsds pool pg = ((m.pgTemp pg).map (m.rawToUpOsds pool)).getD [] := by
    rw [tempOsds_eq, hpg]
  rw [pgToActingOsds, pgToUpActingOsds, hpool]
  dsimp only
  rw [if_neg (by simp), getTempOsds, htemp, hpg, actingWith]
  cases ((m.pgTemp pg).map (m.rawToUpOsds pool)).getD [] with
  | nil => rfl
  | cons o osds => rfl

theorem actingWith_nil {temp : Option (List ℤ)}
    (htemp : (temp.map (m.rawToUpOsds pool)).getD [] = []) :
    m.actingWith pool pg temp none = m.upOf pool pg ∧ ∀ o, m.isUp o = true →
      m.actingWith pool pg temp (some o) = ((m.upOf pool pg).1, o) := by
  constructor
  · rw [actingWith, htemp]
    rfl
  · intro o ho
    rw [actingWith, htemp, if_pos rfl, getD_some, if_neg (ne_neg_one_of_isUp ho)]

theorem actingWith_of_ne_nil {temp : Option (List ℤ)} (osds : List ℤ)
    (htemp : (temp.map (m.rawToUpOsds pool)).getD [] = osds) (hne : osds ≠ [])
    (primary : Option ℤ) :
    m.actingWith pool pg temp primary = (osds, primary.getD (pickPrimary osds)) := by
  rw [actingWith, htemp]
  exact if_neg hne

theorem primaryPos_applyTemps (inc : TempInc) (seed : UInt32) (osds : List ℤ) (i : ℕ)
    (pos : Option ℕ) :
    (m.applyTemps inc).primaryPos seed osds i pos = m.primaryPos seed osds i pos := by
  induction osds generalizing i pos with
  | nil => rfl
  | cons o osds ih =>
    rw [primaryPos, primaryPos, ih, ih]
    rfl

theorem upOf_applyTemps (m : OSDMap) (inc : TempInc) (pool : PgPool) (pg : Pg) :
    (m.applyTemps inc).upOf pool pg = m.upOf pool pg := by
  rw [upOf, upOf, applyPrimaryAffinity, applyPrimaryAffinity, primaryPos_applyTemps]
  rfl

theorem pgToRawUp_fst (hpool : m.pools pg.pool = some pool) :
    (m.pgToRawUp pg).1 = (m.upOf pool pg).1 := by
  rw [pgToRawUp_eq hpool, upOf]
  cases hany : m.anyAffinity (m.rawToUpOsds pool (m.upmapped pool pg)) with
  | false => rw [applyPrimaryAffinity_of_not_any hany, applyPrimaryAffinity_of_not_any hany]
  | true =>
    obtain ⟨osds', o, heq, -⟩ := applyPrimaryAffinity_of_any pool (m.rawPgToPps pool pg) hany
    rw [heq, heq]

theorem upOf_snd_of_isUp (hpool : m.pools pg.pool = some pool)
    (hup : m.isUp (m.pgToRawUp pg).2 = true) : (m.upOf pool pg).2 = (m.pgToRawUp pg).2 := by
  have hsame : m.SamePrimary pool pg := by
    cases hany : m.anyAffinity (m.rawToUpOsds pool (m.upmapped pool pg)) with
    | true => exact .inr (.inr hany)
    | false =>
      rw [pgToRawUp_eq hpool, applyPrimaryAffinity_of_not_any hany] at hup
      exact .inl hup
  rw [(pgToRawUp_eq_iff hpool).mpr hsame]

theorem rawToUpOsds_of_entry {osds : List ℤ} (h : ∀ o ∈ osds, m.Entry pool o) :
    m.rawToUpOsds pool osds = osds := by
  rw [rawToUpOsds_eq]
  split
  · rename_i hshift
    refine filter_eq_self.mpr fun o ho => ?_
    rcases h o ho with hup | ⟨-, hnot⟩
    · exact hup
    · rw [hshift] at hnot
      cases hnot
  · conv_rhs => rw [← map_id osds]
    refine map_congr_left fun o ho => ?_
    rcases h o ho with hup | ⟨hnone, -⟩
    · exact if_pos hup
    · rw [hnone, ite_id]
      rfl

theorem exists_isUp {osds : List ℤ} (h : ¬ osds.all m.isDown = true) :
    ∃ o ∈ osds, m.isUp o = true := by
  by_contra hall
  push Not at hall
  refine h (all_eq_true.mpr fun o ho => ?_)
  simpa [isDown] using hall o ho

/-- A `pg_temp` that is the up set is up, and an OSD of it is the up primary. -/
theorem DropsMatching.temp (h : m.DropsMatching pg) (hpool : m.pools pg.pool = some pool) :
    ((m.pgTemp pg).map (m.rawToUpOsds pool)).getD [] = (m.upOf pool pg).1 ∧
      (m.upOf pool pg).1 ≠ [] ∧ m.isUp (m.upOf pool pg).2 = true := by
  obtain ⟨osds, htemp, hdown, heq⟩ := h
  rw [pgToRawUp_fst hpool] at heq
  obtain ⟨o, ho, hup⟩ := exists_isUp hdown
  refine ⟨?_, ?_, ?_⟩
  · rw [htemp, map_some, getD_some, ← heq]
    exact rawToUpOsds_of_entry fun o ho => upOf_entry ho
  · rw [heq]
    exact ne_nil_of_mem ho
  · rcases m.upOf_cases pool pg with ⟨-, hall⟩ | ⟨hprimary, -⟩
    · have := hall o (heq ▸ ho)
      rw [hup] at this
      cases this
    · exact hprimary

/-! ## What is dropped -/

/-- What is left of the `pg_temp` of a group. -/
def keptTemp (next : OSDMap) (pool : PgPool) (pg : Pg) : Option (List ℤ) :=
  (next.pgTemp pg).bind fun osds =>
    if next.Unusable pool osds ∨ (next.pgToRawUp pg).1 = osds then none else some osds

/-- What is left of its `primary_temp`. -/
def keptPrimary (next : OSDMap) (pg : Pg) : Option ℤ :=
  (next.primaryTemp pg).bind fun o =>
    if next.isDown o = true ∨ (next.pgToActingOsds pg).2 = (next.pgToRawUp pg).2 then none
    else some o

theorem elim_erase {α : Type} [DecidableEq α] (x : Option α) (a : α) :
    (if x.isSome then some a else none).elim x (fun b => if b = a then none else some b) =
      none := by
  cases x <;> simp

theorem cleaned_pgTemp (inc : TempInc) (hpool : m.pools pg.pool = some pool) :
    (m.applyTemps (cleanTemps m (m.applyTemps inc) inc)).pgTemp pg =
      (m.applyTemps inc).keptTemp pool pg := by
  show (cleanPgTemp m (m.applyTemps inc) inc pg).elim _ _ = _
  rw [cleanPgTemp, keptTemp]
  cases htemp : (m.applyTemps inc).pgTemp pg with
  | none => exact htemp
  | some osds =>
    rw [show (m.applyTemps inc).pools pg.pool = some pool from hpool, bind_some]
    dsimp only
    by_cases hdown : osds.all (m.applyTemps inc).isDown = true
    · have hunusable : (m.applyTemps inc).Unusable pool osds := .inl hdown
      rw [if_pos hdown, if_pos (.inl hunusable)]
      rfl
    · rw [if_neg hdown]
      by_cases hdrop : ((m.applyTemps inc).pgToRawUp pg).1 = osds ∨ pool.size < osds.length
      · have hcond : (m.applyTemps inc).Unusable pool osds ∨
            ((m.applyTemps inc).pgToRawUp pg).1 = osds :=
          hdrop.elim .inr fun h => .inl (.inr h)
        rw [if_pos hdrop, if_pos hcond, elim_erase]
      · rw [if_neg hdrop, if_neg]
        · exact htemp
        · rintro ((h | h) | h)
          · exact hdown h
          · exact hdrop (.inr h)
          · exact hdrop (.inl h)

theorem cleaned_primaryTemp (m : OSDMap) (inc : TempInc) (pg : Pg) :
    (m.applyTemps (cleanTemps m (m.applyTemps inc) inc)).primaryTemp pg =
      (m.applyTemps inc).keptPrimary pg := by
  show (cleanPrimaryTemp m (m.applyTemps inc) inc pg).elim _ _ = _
  rw [cleanPrimaryTemp, keptPrimary]
  cases htemp : (m.applyTemps inc).primaryTemp pg with
  | none => exact htemp
  | some o =>
    rw [bind_some]
    dsimp only
    by_cases hdown : (m.applyTemps inc).isDown o = true
    · rw [if_pos hdown, if_pos (.inl hdown)]
      rfl
    · rw [if_neg hdown]
      by_cases hsame : ((m.applyTemps inc).pgToActingOsds pg).2 = ((m.applyTemps inc).pgToRawUp pg).2
      · rw [if_pos hsame, if_pos (Or.inr hsame), elim_erase]
      · rw [if_neg hsame, if_neg (not_or.mpr ⟨hdown, hsame⟩)]
        exact htemp

theorem rawToUpOsds_ne_nil {osds : List ℤ} (h : ¬ osds.all m.isDown = true) :
    m.rawToUpOsds pool osds ≠ [] := by
  obtain ⟨o, ho, hup⟩ := exists_isUp h
  refine ne_nil_of_mem (a := o) ?_
  rw [rawToUpOsds_eq]
  split
  · exact mem_filter.mpr ⟨ho, hup⟩
  · exact mem_map.mpr ⟨o, ho, if_pos hup⟩

section Cases

variable (hpool : m.pools pg.pool = some pool) (hpg : pool.rawPgToPg pg = pg)

include hpool hpg

/-- The primary that is dropped as redundant is the up primary. -/
theorem upOf_snd_of_redundant {o : ℤ} (hprimary : m.primaryTemp pg = some o)
    (hup : m.isUp o = true) (hsame : (m.pgToActingOsds pg).2 = (m.pgToRawUp pg).2) :
    (m.upOf pool pg).2 = o := by
  have hraw : (m.pgToRawUp pg).2 = o := by
    rw [← hsame, pgToActingOsds_eq hpool hpg, hprimary]
    by_cases htemp : ((m.pgTemp pg).map (m.rawToUpOsds pool)).getD [] = []
    · rw [(actingWith_nil htemp).2 o hup]
    · rw [actingWith_of_ne_nil _ rfl htemp]
      rfl
  rw [upOf_snd_of_isUp hpool (by rwa [hraw]), hraw]

/-- The `pg_temp` is dropped because it is the up set. -/
theorem matching_iff (hmatch : m.DropsMatching pg) :
    m.actingWith pool pg (m.keptTemp pool pg) (m.keptPrimary pg) =
      m.actingWith pool pg (m.pgTemp pg) (m.primaryTemp pg) ↔ m.Harmless pool pg := by
  obtain ⟨htemp, hne, hup⟩ := hmatch.temp hpool
  have hkept : ((m.keptTemp pool pg).map (m.rawToUpOsds pool)).getD [] = [] := by
    obtain ⟨osds, hsome, -, heq⟩ := hmatch
    rw [keptTemp, hsome, bind_some, if_pos (.inr heq)]
    rfl
  rw [actingWith_of_ne_nil _ htemp hne]
  cases hprimary : m.primaryTemp pg with
  | none =>
    rw [keptPrimary, hprimary, bind_none, (actingWith_nil hkept).1, getD_none,
      Prod.ext_iff, eq_self, true_and]
    refine ⟨fun h => ⟨fun _ _ => h, ?_, absurd hmatch, absurd hmatch⟩,
      fun h => h.first hmatch hprimary⟩
    intro _ o ho
    rw [hprimary] at ho
    cases ho
  | some o =>
    rw [keptPrimary, hprimary, bind_some, getD_some]
    by_cases hdown : m.isDown o = true
    · -- a primary that is down is not the up primary
      rw [if_pos (.inl hdown), (actingWith_nil hkept).1]
      refine iff_of_false (fun h => ?_) fun h => ?_
      · rw [isDown, ← show (m.upOf pool pg).2 = o from congrArg Prod.snd h, hup] at hdown
        cases hdown
      · rw [isDown, h.up hmatch o hprimary] at hdown
        cases hdown
    · have hupo : m.isUp o = true := by simpa [isDown] using hdown
      refine iff_of_true ?_ ⟨fun _ h => ?_, fun _ o' ho' => ?_, absurd hmatch, absurd hmatch⟩
      · by_cases hsame : (m.pgToActingOsds pg).2 = (m.pgToRawUp pg).2
        · rw [if_pos (.inr hsame), (actingWith_nil hkept).1,
            ← upOf_snd_of_redundant hpool hpg hprimary hupo hsame]
        · rw [if_neg (not_or.mpr ⟨hdown, hsame⟩), (actingWith_nil hkept).2 o hupo]
      · rw [hprimary] at h
        cases h
      · rw [hprimary] at ho'
        cases ho'
        exact hupo

/-- Only the `primary_temp` is dropped as redundant. -/
theorem redundant_iff (hmatch : ¬ m.DropsMatching pg) (hdrop : m.DropsRedundant pg) :
    m.actingWith pool pg (m.keptTemp pool pg) (m.keptPrimary pg) =
      m.actingWith pool pg (m.pgTemp pg) (m.primaryTemp pg) ↔ m.Harmless pool pg := by
  obtain ⟨o, hprimary, hdown, hsame⟩ := hdrop
  have hup : m.isUp o = true := by simpa [isDown] using hdown
  have hupOf : m.upOf pool pg = ((m.upOf pool pg).1, o) := by
    rw [← upOf_snd_of_redundant hpool hpg hprimary hup hsame]
  rw [keptPrimary, hprimary, bind_some, if_pos (.inr hsame)]
  cases htemp : m.pgTemp pg with
  | none =>
    have hkept : ((m.keptTemp pool pg).map (m.rawToUpOsds pool)).getD [] = [] := by
      rw [keptTemp, htemp]
      rfl
    rw [(actingWith_nil hkept).1, (actingWith_nil rfl).2 o hup]
    refine iff_of_true hupOf ⟨fun h => absurd h hmatch, fun h => absurd h hmatch, ?_, ?_⟩
    all_goals
      intro _ osds hosds
      rw [htemp] at hosds
      cases hosds
  | some osds =>
    have hthis : ∀ {P : List ℤ → Prop}, (∀ osds', m.pgTemp pg = some osds' → P osds') ↔ P osds :=
      ⟨fun h => h osds htemp, fun h osds' hosds => some_inj.mp (htemp.symm.trans hosds) ▸ h⟩
    by_cases hunusable : m.Unusable pool osds
    · have hkept : ((m.keptTemp pool pg).map (m.rawToUpOsds pool)).getD [] = [] := by
        rw [keptTemp, htemp, bind_some, if_pos (.inl hunusable)]
        rfl
      have hharmless : m.Harmless pool pg ↔ m.rawToUpOsds pool osds = [] ∨
          m.rawToUpOsds pool osds = (m.upOf pool pg).1 :=
        ⟨fun h => h.other hmatch osds htemp hunusable, fun h =>
          ⟨fun h' => absurd h' hmatch, fun h' => absurd h' hmatch,
            fun _ => hthis.mpr fun h' => absurd hunusable h', fun _ => hthis.mpr fun _ => h⟩⟩
      rw [hharmless, (actingWith_nil hkept).1, hupOf]
      by_cases hnil : m.rawToUpOsds pool osds = []
      · rw [(actingWith_nil (by rw [map_some, getD_some, hnil])).2 o hup]
        exact iff_of_true rfl (.inl hnil)
      · rw [actingWith_of_ne_nil (m.rawToUpOsds pool osds) rfl hnil, Prod.mk.injEq]
        exact ⟨fun h => .inr h.1.symm, fun h => ⟨(h.resolve_left hnil).symm, rfl⟩⟩
    · have hdown' : ¬ osds.all m.isDown = true := fun h => hunusable (.inl h)
      have hkept : m.keptTemp pool pg = some osds := by
        rw [keptTemp, htemp, bind_some, if_neg]
        rintro (h | h)
        · exact hunusable h
        · exact hmatch ⟨osds, htemp, hdown', h⟩
      have hharmless : m.Harmless pool pg ↔ pickPrimary (m.rawToUpOsds pool osds) = o := by
        refine ⟨fun h => ?_, fun h => ⟨fun h' => absurd h' hmatch, fun h' => absurd h' hmatch,
          fun _ => hthis.mpr fun _ => ?_, fun _ => hthis.mpr fun h' => absurd h' hunusable⟩⟩
        · have := h.kept hmatch osds htemp hunusable
          rw [hprimary] at this
          exact some_inj.mp this
        · rw [hprimary, h]
      have hne : m.rawToUpOsds pool osds ≠ [] := rawToUpOsds_ne_nil hdown'
      rw [hharmless, hkept, actingWith_of_ne_nil (m.rawToUpOsds pool osds) rfl hne,
        actingWith_of_ne_nil (m.rawToUpOsds pool osds) rfl hne, Prod.mk.injEq]
      exact and_iff_right rfl

end Cases

/-- **Dropping temporary mappings changes nothing** exactly if they are harmless. `m` is the old map
with all that the incremental changes beside them. -/
theorem clean_temps_iff (m : OSDMap) (inc : TempInc) (pool : PgPool) (pg : Pg)
    (hpool : m.pools pg.pool = some pool) (hpg : pool.rawPgToPg pg = pg)
    (hdrop : (m.applyTemps inc).DropsMatching pg ∨ (m.applyTemps inc).DropsRedundant pg) :
    (m.applyTemps (cleanTemps m (m.applyTemps inc) inc)).pgToActingOsds pg =
        (m.applyTemps inc).pgToActingOsds pg ↔ (m.applyTemps inc).Harmless pool pg := by
  have hnext : ∀ inc, (m.applyTemps inc).pools pg.pool = some pool := fun _ => hpool
  -- the two maps differ in the temporary mappings only
  have hcleaned : (m.applyTemps (cleanTemps m (m.applyTemps inc) inc)).pgToActingOsds pg =
      (m.applyTemps inc).actingWith pool pg ((m.applyTemps inc).keptTemp pool pg)
        ((m.applyTemps inc).keptPrimary pg) := by
    rw [pgToActingOsds_eq (hnext _) hpg, cleaned_pgTemp inc hpool, cleaned_primaryTemp,
      actingWith, actingWith, upOf_applyTemps, upOf_applyTemps]
    rfl
  rw [hcleaned, pgToActingOsds_eq (hnext inc) hpg]
  by_cases hmatch : (m.applyTemps inc).DropsMatching pg
  · exact matching_iff (hnext inc) hpg hmatch
  · exact redundant_iff (hnext inc) hpg hmatch (hdrop.resolve_left hmatch)

/-! ## Two OSDs -/

/-- The pool of `twoOsds`, with `temp` and `primary` for its group. -/
def withTemps (temp : List ℤ) (primary : Option ℤ) : OSDMap :=
  { twoOsds true with pgTemp := fun _ => some temp, primaryTemp := fun _ => primary }

/-- The same for an erasure-coded pool, where OSD 0 should not be a primary. -/
def withAffinity (temp : List ℤ) : OSDMap :=
  { withTemps temp none with
    osds := [⟨true, true, 0x10000, 0⟩, ⟨true, true, 0x10000, 0x10000⟩]
    maxOsd_le := by simp
    hasPrimaryAffinity := true
    pools := fun _ => some ⟨.erasure, 2, 0, true, 1, 1, 1⟩ }

/-- Nothing is new. -/
def noTemps : TempInc := ⟨fun _ => none, fun _ => none⟩

/-- A `pg_temp` that is the up set of a replicated pool. -/
theorem clean_temps_two_osds :
    (withTemps [0, 1] none).DropsMatching ⟨1, 0⟩ ∧
      ((withTemps [0, 1] none).applyTemps (cleanTemps (withTemps [0, 1] none)
        ((withTemps [0, 1] none).applyTemps noTemps) noTemps)).pgToActingOsds ⟨1, 0⟩ =
          ((withTemps [0, 1] none).applyTemps noTemps).pgToActingOsds ⟨1, 0⟩ := by
  have hdrop : (withTemps [0, 1] none).DropsMatching ⟨1, 0⟩ :=
    ⟨[0, 1], rfl, by decide +kernel, by decide +kernel⟩
  refine ⟨hdrop, (clean_temps_iff (withTemps [0, 1] none) noTemps ⟨.replicated, 2, 0, true, 1, 1, 1⟩
    ⟨1, 0⟩ rfl (by decide +kernel) (.inl hdrop)).mpr ⟨?_, ?_, absurd hdrop, absurd hdrop⟩⟩
  · intro _ _
    decide +kernel
  · intro _ o ho
    cases ho

/-- **The acting primary changes**: OSD 0 is the primary of the up set, and `pg_temp` has OSD 1 only;
and in the erasure-coded pool `pg_temp` is the up set, but its first OSD is not the up primary. -/
theorem clean_temps_change_primary :
    ((withTemps [1] (some 0)).DropsRedundant ⟨1, 0⟩ ∧
      (withTemps [1] (some 0)).pgToActingOsds ⟨1, 0⟩ = ([1], 0) ∧
      ((withTemps [1] (some 0)).applyTemps (cleanTemps (withTemps [1] (some 0))
        (withTemps [1] (some 0)) noTemps)).pgToActingOsds ⟨1, 0⟩ = ([1], 1)) ∧
    (withAffinity [0, 1]).DropsMatching ⟨1, 0⟩ ∧
      (withAffinity [0, 1]).pgToActingOsds ⟨1, 0⟩ = ([0, 1], 0) ∧
      ((withAffinity [0, 1]).applyTemps (cleanTemps (withAffinity [0, 1])
        (withAffinity [0, 1]) noTemps)).pgToActingOsds ⟨1, 0⟩ = ([0, 1], 1) := by
  refine ⟨⟨⟨0, rfl, by decide +kernel, by decide +kernel⟩, by decide +kernel, by decide +kernel⟩,
    ⟨[0, 1], rfl, by decide +kernel, by decide +kernel⟩, by decide +kernel, by decide +kernel⟩

end OSDMap

end Ceph.Osd
