import Ceph.Osd.OSDMap
import Ceph.Osd.PgSplit

set_option autoImplicit false

/-! # Cleaning up remappings

`OSDMap::clean_pg_upmaps` drops the entries of `pg_upmap` and `pg_upmap_items` that are not valid
any more, those of groups that are going to be merged, and those that are not necessary: an explicit
mapping that CRUSH gives anyway, and pairs whose source CRUSH does not use. What is necessary is
judged by the raw OSDs, one entry at a time, while the entries work on each other's results: a pair
may take from where an earlier pair, or the explicit mapping, has put an OSD. Then a valid mapping
may change (`chained_pair_is_dropped`). It does not if the entries are `Independent`.
-/

namespace Ceph.Osd

open OrdMap List

/-! ## The check -/

/-- `pg_t::get_parent`, of a group that has one. -/
def Pg.parent (pg : Pg) : Pg := { pg with seed := pg.seed &&& splitMask (cbits pg.seed - 1) }

def PgPool.isPendingMerge (pool : PgPool) (pg : Pg) : Bool :=
  if pool.pgNumPending ≥ pool.pgNum then false
  else if pg.seed ≥ pool.pgNumPending && pg.seed < pool.pgNum then true
  else
    (List.range' pool.pgNumPending.toNat (pool.pgNum.toNat - pool.pgNumPending.toNat)).any
      fun ps => Pg.parent ⟨pg.pool, UInt32.ofNat ps⟩ = pg

/-- The group is going to be merged: it goes away, or takes another one in. -/
def PgPool.Merges (pool : PgPool) (pg : Pg) : Prop :=
  pg.seed ≥ pool.pgNumPending ∨ pool.isPendingMerge pg = true

instance PgPool.decidableMerges (pool : PgPool) (pg : Pg) : Decidable (pool.Merges pg) :=
  inferInstanceAs (Decidable (_ ∨ _))

namespace OSDMap

/-- `to_cancel` and `to_remap`. -/
structure Checked where
  toCancel : List Pg
  toRemap : OrdMap Pg (List (ℤ × ℤ))
  deriving DecidableEq

/-- The group's entries are to be cancelled. -/
def Checked.cancel (s : Checked) (pg : Pg) : Checked := { s with toCancel := s.toCancel ++ [pg] }

variable (m : OSDMap)

/-- The loop of `check_pg_upmaps` over the upmapped OSDs: are they all in the weight map of the
rule, with a weight? Nothing if `get_weight` fails its assertion. -/
def haveWeights (weightMap : List (ℤ × ℚ)) : List ℤ → Option Bool
  | [] => some true
  | o :: up =>
    match weightMap.lookup o with
    | none => some false
    | some weight =>
      match m.osd? o with
      | none => none
      | some info =>
        if (info.weight.toNat : ℚ) * weight = 0 then some false else haveWeights weightMap up

/-- A pair that `check_pg_upmaps` keeps: its source is a raw OSD, and its target is not out. -/
def keepsItem (raw : List ℤ) (r : ℤ × ℤ) : Bool := r.1 ∈ raw && !m.isMarkedOut r.2

/-- The end of `check_pg_upmaps` for one group: okay, upmap is valid; is it still necessary? -/
def checkNecessary (s : Checked) (pg : Pg) (raw : List ℤ) : Checked :=
  if m.pgUpmap.get pg = some raw then s.cancel pg
  else
    match m.pgUpmapItems.get pg with
    | none => s
    | some items =>
      let newmap := items.filter (m.keepsItem raw)
      if newmap = [] then s.cancel pg
      else if newmap ≠ items then { s with toRemap := s.toRemap.insertNew pg newmap }
      else s

/-- `OSDMap::check_pg_upmaps`, for one group. -/
def checkPgUpmap (s : Checked) (pg : Pg) : Option Checked :=
  match m.pools pg.pool with
  | none => some (s.cancel pg)
  | some pool =>
    if pg.seed ≥ pool.pgNumPending then some (s.cancel pg)
    else if pool.isPendingMerge pg then some (s.cancel pg)
    else
      let (raw, up) := m.pgToRawUpmap pg
      -- a group that does not exist has no rule
      if ¬ (pg.seed < pool.pgNum && m.crush.verifyUpmap pool.crushRule pool.size up) then
        some (s.cancel pg)
      else
        match m.crush.ruleWeightOsdMap pool.crushRule with
        | none => some s
        | some weightMap =>
          (m.haveWeights weightMap up).map fun ok =>
            let s := if ok then s else s.cancel pg
            if s.toCancel.getLast? = some pg then s else m.checkNecessary s pg raw

def getUpmapPgs : List Pg := m.pgUpmap.keys ++ m.pgUpmapItems.keys

/-! ## The incremental -/

/-- `OSDMap::Incremental`, the part about remappings that `clean_pg_upmaps` fills. -/
structure UpmapIncremental where
  newPgUpmapItems : OrdMap Pg (List (ℤ × ℤ))
  oldPgUpmap : List Pg
  oldPgUpmapItems : List Pg
  deriving DecidableEq

/-- `OSDMap::clean_pg_upmaps`, on an empty incremental. -/
def cleanPgUpmaps : Option UpmapIncremental :=
  (m.getUpmapPgs.foldlM m.checkPgUpmap ⟨[], OrdMap.empty⟩).map fun s =>
    { newPgUpmapItems := s.toRemap
      oldPgUpmap := s.toCancel.filter fun pg => pg ∈ m.pgUpmap
      oldPgUpmapItems := s.toCancel.filter fun pg => pg ∈ m.pgUpmapItems }

/-- `OSDMap::apply_incremental`, the part about remappings. -/
def applyIncremental (inc : UpmapIncremental) : OSDMap :=
  { m with
    pgUpmap := m.pgUpmap.filter fun pg _ => pg ∉ inc.oldPgUpmap
    pgUpmapItems :=
      (m.pgUpmapItems.update inc.newPgUpmapItems).filter fun pg _ => pg ∉ inc.oldPgUpmapItems }

variable {m} {pool : PgPool} {pg : Pg}

/-! ## What the check concludes about a valid group -/

/-- The group's upmapped OSDs pass `verify_upmap`, and are in the rule's weight map with a weight.
-/
structure Valid (m : OSDMap) (pool : PgPool) (pg : Pg) : Prop where
  exists_ : pg.seed < pool.pgNum
  verified : m.crush.verifyUpmap pool.crushRule pool.size (m.pgToRawUpmap pg).2 = true
  weights : ∃ weightMap, m.crush.ruleWeightOsdMap pool.crushRule = some weightMap ∧
    m.haveWeights weightMap (m.pgToRawUpmap pg).2 = some true

/-- The pairs that the check keeps for a group. -/
def keptItems (m : OSDMap) (pg : Pg) (items : List (ℤ × ℤ)) : List (ℤ × ℤ) :=
  items.filter (m.keepsItem (m.pgToRawUpmap pg).1)

/-- All entries of a valid group are cancelled: it goes away or takes another one in, the explicit
mapping is what CRUSH gives, or no pair is kept. -/
def DropsAll (m : OSDMap) (pool : PgPool) (pg : Pg) : Prop :=
  pool.Merges pg ∨ m.pgUpmap.get pg = some (m.pgToRawUpmap pg).1 ∨
    (m.pgUpmapItems.get pg).map (m.keptItems pg) = some []

instance decidableDropsAll (m : OSDMap) (pool : PgPool) (pg : Pg) :
    Decidable (m.DropsAll pool pg) :=
  inferInstanceAs (Decidable (_ ∨ _ ∨ _))

/-- What the check has written down about the group is right. -/
structure Right (m : OSDMap) (pool : PgPool) (pg : Pg) (s : Checked) : Prop where
  cancel : pg ∈ s.toCancel → m.DropsAll pool pg
  remap : ∀ newmap, s.toRemap.get pg = some newmap →
    (m.pgUpmapItems.get pg).map (m.keptItems pg) = some newmap

/-- The check has written down all there is to say about the group. -/
structure Settled (m : OSDMap) (pool : PgPool) (pg : Pg) (s : Checked) : Prop where
  cancel : m.DropsAll pool pg → pg ∈ s.toCancel
  remap : ¬ m.DropsAll pool pg → ∀ items, m.pgUpmapItems.get pg = some items →
    m.keptItems pg items ≠ items → s.toRemap.get pg = some (m.keptItems pg items)

/-- The check of one group may cancel it, or remap it, or do nothing, and does not touch what is
written down about other groups. -/
inductive Step (q : Pg) (s : Checked) : Checked → Prop
  | cancel : Step q s (s.cancel q)
  | remap (newmap : List (ℤ × ℤ)) :
      Step q s { s with toRemap := s.toRemap.insertNew q newmap }
  | keep : Step q s s

theorem step_checkNecessary (s : Checked) (q : Pg) (raw : List ℤ) :
    Step q s (m.checkNecessary s q raw) := by
  rw [checkNecessary]
  split
  · exact Step.cancel
  · split
    · exact Step.keep
    · rename_i items _
      dsimp only
      split
      · exact Step.cancel
      · split
        · exact Step.remap _
        · exact Step.keep

variable {s s' : Checked} {items : List (ℤ × ℤ)} {q : Pg} {inc : UpmapIncremental}

theorem step_checkPgUpmap (h : m.checkPgUpmap s q = some s') : Step q s s' := by
  rw [checkPgUpmap] at h
  split at h
  · cases h
    exact Step.cancel
  dsimp only at h
  split_ifs at h
  · cases h
    exact Step.cancel
  · cases h
    exact Step.cancel
  · split at h
    · cases h
      exact Step.keep
    obtain ⟨ok, -, rfl⟩ := Option.map_eq_some_iff.mp h
    cases ok with
    | true =>
      rw [if_pos rfl]
      split
      · exact Step.keep
      · exact step_checkNecessary s q _
    | false =>
      -- the weights have cancelled the group: it is at the end of the list
      have hlast : (s.cancel q).toCancel.getLast? = some q := by simp [Checked.cancel]
      rw [if_neg Bool.false_ne_true, if_pos hlast]
      exact Step.cancel
  · cases h
    exact Step.cancel

theorem Step.mem_toCancel (h : Step q s s') (hq : q ≠ pg) : pg ∈ s'.toCancel ↔ pg ∈ s.toCancel := by
  cases h with
  | cancel => simp [Checked.cancel, hq.symm]
  | remap newmap => exact Iff.rfl
  | keep => exact Iff.rfl

theorem Step.get_toRemap (h : Step q s s') (hq : q ≠ pg) :
    s'.toRemap.get pg = s.toRemap.get pg := by
  cases h with
  | cancel => rfl
  | remap newmap =>
    show (s.toRemap.insertNew q newmap).get pg = s.toRemap.get pg
    rw [OrdMap.insertNew]
    split
    · rfl
    · rw [get_insert, if_neg hq.symm]
  | keep => rfl

/-! ### The group itself -/

theorem Right.cancel_self (h : m.Right pool pg s) (hdrop : m.DropsAll pool pg) :
    m.Right pool pg (s.cancel pg) ∧ m.Settled pool pg (s.cancel pg) := by
  refine ⟨⟨fun _ => hdrop, h.remap⟩, ⟨fun _ => ?_, fun hkeep => absurd hdrop hkeep⟩⟩
  exact mem_append_right _ (mem_singleton_self pg)

/-- A valid group that stays: whether its entries are necessary is found out by the last test. -/
theorem Right.checkNecessary_self (h : m.Right pool pg s) (hmerge : ¬ pool.Merges pg) :
    m.Right pool pg (m.checkNecessary s pg (m.pgToRawUpmap pg).1) ∧
      m.Settled pool pg (m.checkNecessary s pg (m.pgToRawUpmap pg).1) := by
  rw [checkNecessary]
  split
  · next hraw => exact h.cancel_self (.inr (.inl hraw))
  · rename_i hraw
    split
    · rename_i hitems
      have hkeep : ¬ m.DropsAll pool pg := by simp [DropsAll, hmerge, hraw, hitems]
      exact ⟨h, ⟨fun hdrop => absurd hdrop hkeep, fun _ items hi => by simp [hitems] at hi⟩⟩
    · rename_i items hitems
      dsimp only
      split
      · rename_i hnil
        refine h.cancel_self (.inr (.inr ?_))
        rw [hitems, Option.map_some, keptItems, hnil]
      · rename_i hnil
        have hkeep : ¬ m.DropsAll pool pg := by
          simpa [DropsAll, hmerge, hraw, hitems, keptItems] using hnil
        have hmap : (m.pgUpmapItems.get pg).map (m.keptItems pg) = some (m.keptItems pg items) := by
          rw [hitems]
          rfl
        split
        · -- a pair is dropped: what is kept is written down, if it is not already
          have hget : (s.toRemap.insertNew pg (m.keptItems pg items)).get pg =
              some (m.keptItems pg items) := by
            rw [OrdMap.insertNew]
            split
            · rename_i hmem
              obtain ⟨newmap, hnew⟩ := Option.isSome_iff_exists.mp hmem
              rw [hnew, ← h.remap newmap hnew, hmap]
            · rw [get_insert, if_pos rfl]
          refine ⟨⟨h.cancel, fun newmap hnew => ?_⟩,
            ⟨fun hdrop => absurd hdrop hkeep, fun _ items' hi _ => ?_⟩⟩
          · rw [hmap, ← hget]
            exact hnew
          · obtain rfl : items = items' := Option.some_inj.mp (hitems.symm.trans hi)
            exact hget
        · rename_i hsame
          refine ⟨h, ⟨fun hdrop => absurd hdrop hkeep, fun _ items' hi hne => ?_⟩⟩
          obtain rfl : items = items' := Option.some_inj.mp (hitems.symm.trans hi)
          exact absurd (not_not.mp hsame) hne

/-- **The step for the group itself** writes down all there is to say about it. -/
theorem Right.checkPgUpmap_self (h : m.Right pool pg s) (hpool : m.pools pg.pool = some pool)
    (hvalid : m.Valid pool pg) (hstep : m.checkPgUpmap s pg = some s') :
    m.Right pool pg s' ∧ m.Settled pool pg s' := by
  obtain ⟨weightMap, hmap, hweights⟩ := hvalid.weights
  have hverified : (decide (pg.seed < pool.pgNum) &&
      m.crush.verifyUpmap pool.crushRule pool.size (m.pgToRawUpmap pg).2) = true := by
    rw [hvalid.verified, decide_eq_true hvalid.exists_]
    rfl
  rw [OSDMap.checkPgUpmap, hpool] at hstep
  dsimp only at hstep
  split at hstep
  · next hseed => exact Option.some_inj.mp hstep ▸ h.cancel_self (.inl (.inl hseed))
  · rename_i hseed
    split at hstep
    · next hmerge => exact Option.some_inj.mp hstep ▸ h.cancel_self (.inl (.inr hmerge))
    · rename_i hmerge
      simp only [hmap, hweights, Option.map_some, if_true, Option.some_inj] at hstep
      subst hstep
      split
      · rename_i hlast
        have hmem : pg ∈ s.toCancel := mem_of_getLast? hlast
        exact ⟨h, ⟨fun _ => hmem, fun hkeep => absurd (h.cancel hmem) hkeep⟩⟩
      · exact h.checkNecessary_self (not_or.mpr ⟨hseed, hmerge⟩)

/-! ### All groups -/

theorem Right.step (h : m.Right pool pg s) (hstep : Step q s s') (hq : q ≠ pg) :
    m.Right pool pg s' where
  cancel := fun hmem => h.cancel ((hstep.mem_toCancel hq).mp hmem)
  remap := fun newmap hnew => h.remap newmap (hstep.get_toRemap hq ▸ hnew)

theorem Settled.step (h : m.Settled pool pg s) (hstep : Step q s s') (hq : q ≠ pg) :
    m.Settled pool pg s' where
  cancel := fun hdrop => (hstep.mem_toCancel hq).mpr (h.cancel hdrop)
  remap := fun hkeep items hi hne => (hstep.get_toRemap hq).trans (h.remap hkeep items hi hne)

/-- **The whole check**: what it writes down is right, and complete for the groups it is given. -/
theorem Right.foldlM {pgs : List Pg} (h : m.Right pool pg s) (hpool : m.pools pg.pool = some pool)
    (hvalid : m.Valid pool pg) (hcheck : pgs.foldlM m.checkPgUpmap s = some s') :
    m.Right pool pg s' ∧ (m.Settled pool pg s ∨ pg ∈ pgs → m.Settled pool pg s') := by
  induction pgs generalizing s with
  | nil =>
    obtain rfl : s = s' := by simpa using hcheck
    exact ⟨h, fun hs => hs.resolve_right not_mem_nil⟩
  | cons q pgs ih =>
    obtain ⟨s₁, hstep, hrest⟩ := Option.bind_eq_some_iff.mp hcheck
    by_cases hq : q = pg
    · subst hq
      obtain ⟨hright, hsettled⟩ := h.checkPgUpmap_self hpool hvalid hstep
      obtain ⟨hright', hsettled'⟩ := ih hright hrest
      exact ⟨hright', fun _ => hsettled' (.inl hsettled)⟩
    · have hother := step_checkPgUpmap hstep
      obtain ⟨hright', hsettled'⟩ := ih (h.step hother hq) hrest
      refine ⟨hright', fun hs => hsettled' ?_⟩
      rcases hs with hs | hs
      · exact .inl (hs.step hother hq)
      · exact .inr ((mem_cons.mp hs).resolve_left fun he => hq he.symm)

/-! ## The mapping after the cleaning -/

theorem get_filter_cancelled {β : Type} {entries entries' : OrdMap Pg β} {cancelled : List Pg}
    (h : pg ∈ entries' → pg ∈ entries) :
    (entries'.filter fun q _ => q ∉ cancelled.filter fun q => q ∈ entries).get pg =
      if pg ∈ cancelled then none else entries'.get pg := by
  rw [get_filter]
  cases hget : entries'.get pg with
  | none => simp
  | some v =>
    have hmem : pg ∈ entries := h (by rw [mem_iff_isSome, hget]; rfl)
    by_cases hcancel : pg ∈ cancelled <;> simp [hmem, hcancel]

/-- **What is left of the entries of a valid group.** -/
theorem get_applyIncremental (hinc : m.cleanPgUpmaps = some inc)
    (hpool : m.pools pg.pool = some pool) (hvalid : m.Valid pool pg) :
    (m.applyIncremental inc).pgUpmap.get pg =
        (if m.DropsAll pool pg then none else m.pgUpmap.get pg) ∧
      (m.applyIncremental inc).pgUpmapItems.get pg =
        (if m.DropsAll pool pg then none else (m.pgUpmapItems.get pg).map (m.keptItems pg)) := by
  obtain ⟨s, hcheck, rfl⟩ := Option.map_eq_some_iff.mp hinc
  have hempty : m.Right pool pg ⟨[], OrdMap.empty⟩ :=
    ⟨fun h => absurd h not_mem_nil, fun newmap h => by simp at h⟩
  obtain ⟨hright, hsettled⟩ := hempty.foldlM hpool hvalid hcheck
  -- only groups that have pairs are remapped
  have hnone : m.pgUpmapItems.get pg = none → s.toRemap.get pg = none := by
    intro hitems
    cases hnew : s.toRemap.get pg with
    | none => rfl
    | some newmap =>
      have := hright.remap newmap hnew
      simp [hitems] at this
  have hremap : pg ∈ m.pgUpmapItems.update s.toRemap → pg ∈ m.pgUpmapItems := by
    rw [mem_iff_isSome, mem_iff_isSome, get_update]
    cases hitems : m.pgUpmapItems.get pg with
    | none =>
      rw [hnone hitems]
      exact id
    | some items => exact fun _ => rfl
  simp only [applyIncremental, get_filter_cancelled id, get_filter_cancelled hremap,
    get_update]
  by_cases hgroup : pg ∈ m.getUpmapPgs
  · have hsettled := hsettled (.inr hgroup)
    by_cases hdrop : m.DropsAll pool pg
    · simp only [hsettled.cancel hdrop, hdrop, if_true, and_self]
    · have hcancel : pg ∉ s.toCancel := fun hmem => hdrop (hright.cancel hmem)
      simp only [hcancel, hdrop, if_false, true_and]
      cases hitems : m.pgUpmapItems.get pg with
      | none =>
        rw [hnone hitems]
        rfl
      | some items =>
        by_cases hsame : m.keptItems pg items = items
        · cases hnew : s.toRemap.get pg with
          | none => simp [hsame]
          | some newmap =>
            rw [← hitems, hright.remap newmap hnew]
            rfl
        · rw [hsettled.remap hdrop items hitems hsame]
          rfl
  · rw [getUpmapPgs, mem_append, mem_keys_iff, mem_keys_iff, not_or] at hgroup
    have hupmap : m.pgUpmap.get pg = none := Option.not_isSome_iff_eq_none.mp hgroup.1
    have hitems : m.pgUpmapItems.get pg = none := Option.not_isSome_iff_eq_none.mp hgroup.2
    simp [hupmap, hitems, hnone hitems]

/-- The targets of the group's entries are not marked out. -/
structure TargetsIn (m : OSDMap) (pg : Pg) : Prop where
  upmap : ∀ osds, m.pgUpmap.get pg = some osds → ∀ o ∈ osds, m.isMarkedOut o = false
  items : ∀ items, m.pgUpmapItems.get pg = some items → ∀ r ∈ items, m.isMarkedOut r.2 = false

/-- Pairs of a group, in turn, from its explicit mapping or the raw OSDs. -/
def replay (m : OSDMap) (pg : Pg) (items : List (ℤ × ℤ)) : List ℤ :=
  items.foldl m.applyUpmapItem ((m.pgUpmap.get pg).getD (m.pgToRawUpmap pg).1)

/-- The upmapped OSDs are a replay of the group's pairs, if its targets are in. -/
theorem TargetsIn.applyUpmap (h : m.TargetsIn pg) (hpg : pool.rawPgToPg pg = pg) :
    m.applyUpmap pool pg (m.pgToRawUpmap pg).1 = m.replay pg ((m.pgUpmapItems.get pg).getD []) := by
  have hitems : ∀ raw, m.applyUpmapItems pg raw =
      ((m.pgUpmapItems.get pg).getD []).foldl m.applyUpmapItem raw := by
    intro raw
    rw [applyUpmapItems]
    cases m.pgUpmapItems.get pg <;> rfl
  rw [OSDMap.applyUpmap, hpg, replay]
  cases hupmap : m.pgUpmap.get pg with
  | none => exact hitems _
  | some osds =>
    have hany : osds.any m.isMarkedOut = false := by
      rw [any_eq_false]
      intro o ho
      rw [h.upmap osds hupmap o ho]
      exact Bool.false_ne_true
    simp only [hany, Bool.false_eq_true, if_false, Option.getD_some]
    exact hitems osds

/-- **The mapping after the cleaning**: the raw OSDs, or a replay of the pairs that are kept. -/
theorem pgToRawUpmap_applyIncremental (hinc : m.cleanPgUpmaps = some inc)
    (hpool : m.pools pg.pool = some pool) (hpg : pool.rawPgToPg pg = pg) (hvalid : m.Valid pool pg)
    (htargets : m.TargetsIn pg) :
    (m.applyIncremental inc).pgToRawUpmap pg = ((m.pgToRawUpmap pg).1,
      if m.DropsAll pool pg then (m.pgToRawUpmap pg).1
      else m.replay pg (m.keptItems pg ((m.pgUpmapItems.get pg).getD []))) := by
  obtain ⟨hupmap, hitems⟩ := get_applyIncremental hinc hpool hvalid
  have hraw : ((m.applyIncremental inc).pgToRawUpmap pg).1 = (m.pgToRawUpmap pg).1 := by
    rw [pgToRawUpmap, pgToRawUpmap, hpool, show (m.applyIncremental inc).pools = m.pools from rfl,
      hpool]
    rfl
  have htargets' : (m.applyIncremental inc).TargetsIn pg := by
    refine ⟨fun osds ho => ?_, fun newmap hn => ?_⟩
    · rw [hupmap] at ho
      split at ho
      · simp at ho
      · exact htargets.upmap osds ho
    · rw [hitems] at hn
      split at hn
      · simp at hn
      · obtain ⟨items, hi, rfl⟩ := Option.map_eq_some_iff.mp hn
        exact fun r hr => htargets.items items hi r (mem_filter.mp hr).1
  have hup : ((m.applyIncremental inc).pgToRawUpmap pg).2 =
      (m.applyIncremental inc).applyUpmap pool pg
        ((m.applyIncremental inc).pgToRawUpmap pg).1 := by
    rw [pgToRawUpmap, show (m.applyIncremental inc).pools = m.pools from rfl, hpool]
  refine Prod.ext hraw ?_
  rw [hup, htargets'.applyUpmap hpg, hitems, replay, hupmap, hraw]
  show List.foldl m.applyUpmapItem _ _ = _
  split
  · rfl
  · rw [replay]
    cases m.pgUpmapItems.get pg <;> rfl

/-! ## When a valid mapping stays -/

/-- **No pair takes from where an earlier one has put an OSD**: a pair whose source is not a raw OSD
does not find it when its turn comes, or its target is there already. -/
def Unchained (m : OSDMap) (raw : List ℤ) : List ℤ → List (ℤ × ℤ) → Prop
  | _, [] => True
  | cur, r :: items =>
    (r.1 ∉ raw → r.1 ∈ cur → r.2 ∈ cur) ∧ Unchained m raw (m.applyUpmapItem cur r) items

/-- The entries of a group are **independent**: each of them that the raw OSDs show to be of no use is
of no use after the others either. -/
structure Independent (m : OSDMap) (pg : Pg) (raw : List ℤ) : Prop where
  /-- An explicit mapping that CRUSH gives anyway comes without pairs that change it. -/
  redundant : m.pgUpmap.get pg = some raw → ∀ items, m.pgUpmapItems.get pg = some items →
    ∀ r ∈ items, r.1 ∈ raw → r.2 ∈ raw
  /-- Another explicit mapping comes without pairs, or with one that CRUSH has a source for. -/
  explicit : ∀ osds, m.pgUpmap.get pg = some osds → osds ≠ raw →
    ∀ items, m.pgUpmapItems.get pg = some items → ∃ r ∈ items, r.1 ∈ raw
  unchained : ∀ items, m.pgUpmapItems.get pg = some items →
    m.Unchained raw ((m.pgUpmap.get pg).getD raw) items

/-- A pair does nothing if its target is there, or its source is not. -/
theorem applyUpmapItem_eq_self (m : OSDMap) {cur : List ℤ} {r : ℤ × ℤ}
    (hin : m.isMarkedOut r.2 = false) (h : r.1 ∈ cur → r.2 ∈ cur) :
    m.applyUpmapItem cur r = cur := by
  rw [applyUpmapItem, hin, if_neg Bool.false_ne_true]
  split
  · rfl
  · next htarget => exact replace_of_not_mem fun hsource => htarget (h hsource)

/-- Without the pairs whose source is not a raw OSD, the result is the same. -/
theorem Unchained.foldl_filter {raw cur : List ℤ} (h : m.Unchained raw cur items)
    (hout : ∀ r ∈ items, m.isMarkedOut r.2 = false) :
    items.foldl m.applyUpmapItem cur =
      (items.filter (m.keepsItem raw)).foldl m.applyUpmapItem cur := by
  induction items generalizing cur with
  | nil => rfl
  | cons r items ih =>
    obtain ⟨hr, hitems⟩ := h
    have ih := ih hitems fun r' hr' => hout r' (mem_cons_of_mem _ hr')
    have hin : m.isMarkedOut r.2 = false := hout r mem_cons_self
    rw [foldl_cons, ih]
    by_cases hraw : r.1 ∈ raw
    · have hkeep : m.keepsItem raw r = true := by simp [keepsItem, hraw, hin]
      rw [filter_cons_of_pos hkeep, foldl_cons]
    · have hdrop : ¬ m.keepsItem raw r = true := by simp [keepsItem, hraw]
      rw [filter_cons_of_neg hdrop, m.applyUpmapItem_eq_self hin (hr hraw)]

/-- Pairs whose targets are there already change nothing. -/
theorem foldl_applyUpmapItem_eq_self {cur : List ℤ}
    (h : ∀ r ∈ items, r.1 ∈ cur → r.2 ∈ cur) (hout : ∀ r ∈ items, m.isMarkedOut r.2 = false) :
    items.foldl m.applyUpmapItem cur = cur := by
  induction items with
  | nil => rfl
  | cons r items ih =>
    rw [foldl_cons, m.applyUpmapItem_eq_self (hout r mem_cons_self) (h r mem_cons_self)]
    exact ih (fun r' hr' => h r' (mem_cons_of_mem _ hr')) fun r' hr' => hout r' (mem_cons_of_mem _ hr')

/-- The entries of a group that stays give the raw OSDs if they are all dropped. -/
theorem Independent.replay_of_dropsAll (h : m.Independent pg (m.pgToRawUpmap pg).1)
    (htargets : m.TargetsIn pg) (hmerge : ¬ pool.Merges pg) (hdrop : m.DropsAll pool pg) :
    m.replay pg ((m.pgUpmapItems.get pg).getD []) = (m.pgToRawUpmap pg).1 := by
  by_cases hraw : m.pgUpmap.get pg = some (m.pgToRawUpmap pg).1
  · cases hitems : m.pgUpmapItems.get pg with
    | none => simp [replay, hraw]
    | some items =>
      rw [replay, hraw]
      exact foldl_applyUpmapItem_eq_self (h.redundant hraw items hitems)
        (htargets.items items hitems)
  · obtain ⟨items, hitems, hnil⟩ :=
      Option.map_eq_some_iff.mp ((hdrop.resolve_left hmerge).resolve_left hraw)
    have hkept : items.filter (m.keepsItem (m.pgToRawUpmap pg).1) = [] := hnil
    -- no pair has a raw source, so there is no explicit mapping
    have hnone : m.pgUpmap.get pg = none := by
      cases hupmap : m.pgUpmap.get pg with
      | none => rfl
      | some osds =>
        obtain ⟨r, hr, hsource⟩ :=
          h.explicit osds hupmap (fun heq => hraw (heq ▸ hupmap)) items hitems
        have hkeep : m.keepsItem (m.pgToRawUpmap pg).1 r = true := by
          simp [keepsItem, hsource, htargets.items items hitems r hr]
        exact absurd hkeep (filter_eq_nil_iff.mp hkept r hr)
    have hunchained := h.unchained items hitems
    rw [hnone, Option.getD_none] at hunchained
    rw [hitems, Option.getD_some, replay, hnone, Option.getD_none,
      hunchained.foldl_filter (htargets.items items hitems), hkept, foldl_nil]

/-- **Cleaning up a valid mapping**: a group that is going to be merged loses its entries and goes
back to the raw OSDs, and the mapping of any other group does not change if its entries are
independent. -/
theorem clean_keeps_valid_mapping (m : OSDMap) (pool : PgPool) (pg : Pg)
    (inc : UpmapIncremental) (hinc : m.cleanPgUpmaps = some inc)
    (hpool : m.pools pg.pool = some pool) (hpg : pool.rawPgToPg pg = pg)
    (hvalid : m.Valid pool pg) (htargets : m.TargetsIn pg) :
    (pool.Merges pg → (m.applyIncremental inc).pgUpmap.get pg = none ∧
        (m.applyIncremental inc).pgUpmapItems.get pg = none ∧
        (m.applyIncremental inc).pgToRawUpmap pg =
          ((m.pgToRawUpmap pg).1, (m.pgToRawUpmap pg).1)) ∧
      (¬ pool.Merges pg → m.Independent pg (m.pgToRawUpmap pg).1 →
        (m.applyIncremental inc).pgToRawUpmap pg = m.pgToRawUpmap pg) := by
  rw [pgToRawUpmap_applyIncremental hinc hpool hpg hvalid htargets]
  refine ⟨fun hmerge => ?_, fun hmerge hind => ?_⟩
  · have hdrop : m.DropsAll pool pg := .inl hmerge
    obtain ⟨hupmap, hitems⟩ := get_applyIncremental hinc hpool hvalid
    rw [hupmap, hitems, if_pos hdrop, if_pos hdrop, if_pos hdrop]
    exact ⟨rfl, rfl, rfl⟩
  have hbefore : m.pgToRawUpmap pg =
      ((m.pgToRawUpmap pg).1, m.replay pg ((m.pgUpmapItems.get pg).getD [])) := by
    rw [← htargets.applyUpmap hpg, pgToRawUpmap, hpool]
  conv_rhs => rw [hbefore]
  refine Prod.ext rfl ?_
  show (if m.DropsAll pool pg then _ else _) = _
  split
  · next hdrop => exact (hind.replay_of_dropsAll htargets hmerge hdrop).symm
  · cases hitems : m.pgUpmapItems.get pg with
    | none => rfl
    | some items =>
      exact ((hind.unchained items hitems).foldl_filter (htargets.items items hitems)).symm

/-! ## Four OSDs -/

/-- A pool with two replicas, of `pgNum` groups of which one is to stay. -/
def replicatedPool (pgNum : UInt32) : PgPool := ⟨.replicated, 2, 0, true, pgNum, pgNum, 1⟩

/-- A pool that CRUSH places on `0` and `1`, among four OSDs that are up and in; the pairs of its first
group are given. -/
def fourOsds (pgNum : UInt32) (items : List (ℤ × ℤ)) : OSDMap where
  osds := List.replicate 4 ⟨true, true, 0x10000, 0x10000⟩
  maxOsd_le := by simp
  hasPrimaryAffinity := false
  pools := fun _ => some (replicatedPool pgNum)
  crush :=
    { hash := fun _ _ => 0
      findRule := fun _ _ _ => some 0
      doRule := fun _ _ _ _ _ => [0, 1]
      verifyUpmap := fun _ _ _ => true
      ruleWeightOsdMap := fun _ => some [(0, 1), (1, 1), (2, 1), (3, 1)] }
  pgUpmap := OrdMap.empty
  pgUpmapItems := OrdMap.empty.insert ⟨1, 0⟩ items
  pgTemp := fun _ => none
  primaryTemp := fun _ => none

theorem fourOsds_valid {pgNum : UInt32} (hpos : 0 < pgNum)
    (h : (fourOsds pgNum items).haveWeights [(0, 1), (1, 1), (2, 1), (3, 1)]
      ((fourOsds pgNum items).pgToRawUpmap ⟨1, 0⟩).2 = some true) :
    (fourOsds pgNum items).Valid (replicatedPool pgNum) ⟨1, 0⟩ where
  exists_ := hpos
  verified := rfl
  weights := ⟨_, rfl, h⟩

theorem fourOsds_targetsIn {pgNum : UInt32}
    (h : ∀ r ∈ items, (fourOsds pgNum items).isMarkedOut r.2 = false) :
    (fourOsds pgNum items).TargetsIn ⟨1, 0⟩ where
  upmap := fun osds ho => by simp [fourOsds] at ho
  items := fun items' hi => by
    obtain rfl : items = items' := by simpa [fourOsds, get_insert] using hi
    exact h

/-- A pair whose source CRUSH does not use is dropped, and the mapping stays. -/
theorem clean_keeps_idle_pair :
    ∃ inc, (fourOsds 1 [(0, 2), (3, 1)]).cleanPgUpmaps = some inc ∧
      (fourOsds 1 [(0, 2), (3, 1)]).pgToRawUpmap ⟨1, 0⟩ = ([0, 1], [2, 1]) ∧
      ((fourOsds 1 [(0, 2), (3, 1)]).applyIncremental inc).pgUpmapItems.get ⟨1, 0⟩ =
        some [(0, 2)] ∧
      ((fourOsds 1 [(0, 2), (3, 1)]).applyIncremental inc).pgToRawUpmap ⟨1, 0⟩ =
        (fourOsds 1 [(0, 2), (3, 1)]).pgToRawUpmap ⟨1, 0⟩ := by
  refine ⟨⟨OrdMap.empty.insert ⟨1, 0⟩ [(0, 2)], [], []⟩, by decide +kernel, by decide +kernel,
    by decide +kernel, ?_⟩
  apply (clean_keeps_valid_mapping (fourOsds 1 [(0, 2), (3, 1)]) (replicatedPool 1) ⟨1, 0⟩ _
    (by decide +kernel) rfl (by decide +kernel) (fourOsds_valid (by decide) (by decide +kernel))
    (fourOsds_targetsIn (by decide +kernel))).2 (by decide +kernel)
  refine ⟨fun h => by simp [fourOsds] at h, fun osds h => by simp [fourOsds] at h,
    fun items hi => ?_⟩
  obtain rfl : [(0, 2), (3, 1)] = items := by simpa [fourOsds, get_insert] using hi
  exact ⟨by decide +kernel, by decide +kernel, trivial⟩

/-- **A group that is going to be merged** loses its pair, which is valid and in effect: it moves from
OSD `2` back to OSD `0`. -/
theorem merging_group_is_cleaned :
    ∃ inc, (fourOsds 2 [(0, 2)]).cleanPgUpmaps = some inc ∧
      (fourOsds 2 [(0, 2)]).Valid (replicatedPool 2) ⟨1, 0⟩ ∧
      (fourOsds 2 [(0, 2)]).TargetsIn ⟨1, 0⟩ ∧
      (fourOsds 2 [(0, 2)]).pgToRawUpmap ⟨1, 0⟩ = ([0, 1], [2, 1]) ∧
      ((fourOsds 2 [(0, 2)]).applyIncremental inc).pgToRawUpmap ⟨1, 0⟩ = ([0, 1], [0, 1]) :=
  ⟨⟨OrdMap.empty, [], [⟨1, 0⟩]⟩, by decide +kernel, fourOsds_valid (by decide) (by decide +kernel),
    fourOsds_targetsIn (by decide +kernel), by decide +kernel, by decide +kernel⟩

/-- **A pair that is chained to another one is dropped, though it is in effect**: the group moves
from OSD `3` to OSD `2`. -/
theorem chained_pair_is_dropped :
    ∃ inc, (fourOsds 1 [(0, 2), (2, 3)]).cleanPgUpmaps = some inc ∧
      (fourOsds 1 [(0, 2), (2, 3)]).Valid (replicatedPool 1) ⟨1, 0⟩ ∧
      (fourOsds 1 [(0, 2), (2, 3)]).TargetsIn ⟨1, 0⟩ ∧
      (fourOsds 1 [(0, 2), (2, 3)]).pgToRawUpmap ⟨1, 0⟩ = ([0, 1], [3, 1]) ∧
      ((fourOsds 1 [(0, 2), (2, 3)]).applyIncremental inc).pgToRawUpmap ⟨1, 0⟩ =
        ([0, 1], [2, 1]) :=
  ⟨⟨OrdMap.empty.insert ⟨1, 0⟩ [(0, 2)], [], []⟩, by decide +kernel,
    fourOsds_valid (by decide) (by decide +kernel), fourOsds_targetsIn (by decide +kernel),
    by decide +kernel, by decide +kernel⟩

end OSDMap

end Ceph.Osd
