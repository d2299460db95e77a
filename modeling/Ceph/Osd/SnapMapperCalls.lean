import Ceph.Osd.SnapMapperTrim
import Ceph.Lib.Transition

set_option autoImplicit false

/-! # The index of snapshots over whole runs

Calls of `add_oid`, `update_snaps` and `remove_oid` change the entry and the keys of one object
(`SnapMapper.Reindexed`). All along a run of them the index is exact, and the objects of a snapshot
are found when it is trimmed, exactly if no `add_oid` of the run names two snapshots with the same
low 32 bits, or one with those of the snapshot that is trimmed (`SnapMapper.snap_index_iff`).
-/

namespace Ceph.Osd

open List OrdMap Option

namespace SnapMapper

variable {m : SnapMapper} {store : SnapStore}

/-! ## One call -/

/-- What a call leaves: the entry of the object with the given snapshots, or none, the keys of the
object in some form, and everything else as it was. -/
structure Reindexed (m : SnapMapper) (store store' : SnapStore) (oid : Soid)
    (snaps : OrdSet UInt64) : Prop where
  frame : ∀ key, key ≠ m.toObjectKey oid → (∀ s, key ≠ m.toRawKey s oid) →
    store'.get key = store.get key
  entry : store'.get (m.toObjectKey oid) =
    if snaps = .empty then none else some (.objectSnaps oid snaps)
  keys : ∀ s v, store'.get (m.toRawKey s oid) = some v →
    ∃ s', v = .mapping s' oid ∧ m.toRawKey s oid = m.toRawKey s' oid

namespace Reindexed

variable {store' : SnapStore} {oid : Soid} {snaps : OrdSet UInt64}

variable (h : Reindexed m store store' oid snaps)

include h

theorem trans {store'' : SnapStore} {snaps' : OrdSet UInt64} (h' : Reindexed m store' store'' oid snaps') :
    Reindexed m store store'' oid snaps' :=
  ⟨fun key hkey hkeys => (h'.frame key hkey hkeys).trans (h.frame key hkey hkeys), h'.entry,
    h'.keys⟩

theorem snapsOf_self : m.snapsOf store' oid = snaps := by
  rw [snapsOf, h.entry]
  split_ifs with hempty
  · exact hempty.symm
  · rfl

theorem snapsOf_of_ne (hin : m.InPg oid) {oid' : Soid}
    (hin' : m.InPg oid') (hne : oid' ≠ oid) : m.snapsOf store' oid' = m.snapsOf store oid' := by
  rw [snapsOf, snapsOf, h.frame (m.toObjectKey oid')]
  · exact fun heq => hne ((toObjectKey_eq_iff hin' hin).mp heq)
  · exact fun s heq => toRawKey_ne_toObjectKey s oid oid' heq.symm

/-- **The keys still belong to what is stored under them.** -/
theorem formed (hin : m.InPg oid) (hformed : Formed m store) : Formed m store' := by
  refine ⟨fun key s hoid hget => ?_, fun key oid' snaps' hget => ?_⟩
  · by_cases hobject : key = m.toObjectKey oid
    · rw [hobject, h.entry] at hget
      split_ifs at hget
      exact nomatch hget
    · by_cases hkey : ∃ t, key = m.toRawKey t oid
      · obtain ⟨t, rfl⟩ := hkey
        obtain ⟨s', heq, hraw⟩ := h.keys t _ hget
        obtain ⟨rfl, rfl⟩ := SnapValue.mapping.inj heq
        exact ⟨hraw, hin⟩
      · rw [h.frame key hobject (not_exists.mp hkey)] at hget
        exact hformed.mapping _ _ _ hget
  · by_cases hobject : key = m.toObjectKey oid
    · rw [hobject, h.entry] at hget
      split_ifs at hget with hempty
      obtain ⟨rfl, rfl⟩ := SnapValue.objectSnaps.inj (Option.some.inj hget)
      exact ⟨hobject, hin, hempty⟩
    · by_cases hkey : ∃ t, key = m.toRawKey t oid
      · obtain ⟨t, rfl⟩ := hkey
        obtain ⟨s', heq, -⟩ := h.keys t _ hget
        exact nomatch heq
      · rw [h.frame key hobject (not_exists.mp hkey)] at hget
        exact hformed.object _ _ _ hget

/-- **When the index is exact after a call**: the keys of the object are those of its snapshots. -/
theorem exact_iff (hin : m.InPg oid) (hexact : Exact m store) :
    Exact m store' ↔
      (∀ s ∈ snaps, store'.get (m.toRawKey s oid) = some (.mapping s oid)) ∧
        ∀ s, m.toRawKey s oid ∈ store' → ∃ s' ∈ snaps, m.toRawKey s oid = m.toRawKey s' oid := by
  constructor
  · intro hexact'
    refine ⟨fun s hs => ?_, fun s hs => ?_⟩
    · exact hexact'.mapped oid hin s (h.snapsOf_self.symm ▸ hs)
    · obtain ⟨oid', hin', s', hs', heq⟩ := hexact'.only _ hs (isMapping_toRawKey s oid)
      obtain ⟨-, rfl⟩ := (toRawKey_eq_iff hin hin' s s').mp heq
      exact ⟨s', h.snapsOf_self ▸ hs', heq⟩
  · rintro ⟨hmapped, honly⟩
    refine ⟨fun oid' hin' s hs => ?_, fun key hkey hmapping => ?_⟩
    · by_cases hne : oid' = oid
      · subst hne
        exact hmapped s (h.snapsOf_self ▸ hs)
      · rw [h.snapsOf_of_ne hin hin' hne] at hs
        rw [h.frame]
        · exact hexact.mapped oid' hin' s hs
        · exact toRawKey_ne_toObjectKey s oid' oid
        · exact fun t heq => hne ((toRawKey_eq_iff hin' hin s t).mp heq).2
    · by_cases hown : ∃ t, key = m.toRawKey t oid
      · obtain ⟨t, rfl⟩ := hown
        obtain ⟨s', hs', heq⟩ := honly t hkey
        exact ⟨oid, hin, s', h.snapsOf_self.symm ▸ hs', heq⟩
      · have hobject : key ≠ m.toObjectKey oid := by
          rintro rfl
          exact Bool.false_ne_true hmapping
        have hold : key ∈ store := by
          rw [mem_iff_isSome, ← h.frame key hobject (not_exists.mp hown),
            ← mem_iff_isSome]
          exact hkey
        obtain ⟨oid', hin', s', hs', rfl⟩ := hexact.only key hold hmapping
        have hne : oid' ≠ oid := by
          rintro rfl
          exact hown ⟨s', rfl⟩
        exact ⟨oid', hin', s', h.snapsOf_of_ne hin hin' hne ▸ hs', rfl⟩

/-- **When no other snapshot is in the way after a call.** -/
theorem clear_iff (hin : m.InPg oid) {snap : UInt64} (hclear : Clear m store snap) :
    Clear m store' snap ↔ ∀ s ∈ snaps, s.toUInt32 = snap.toUInt32 → s = snap := by
  constructor
  · intro hclear' s hs
    exact hclear' oid hin s (h.snapsOf_self.symm ▸ hs)
  · intro hall oid' hin' s hs
    by_cases hne : oid' = oid
    · subst hne
      exact hall s (h.snapsOf_self ▸ hs)
    · exact hclear oid' hin' s (h.snapsOf_of_ne hin hin' hne ▸ hs)

end Reindexed

/-! ## Keys are removed -/

section Remove

variable {oid : Soid} (hformed : Formed m store) (hin : m.InPg oid)

include hformed hin

theorem getSnaps_cases :
    (store.get (m.toObjectKey oid) = none ∧ m.getSnaps store oid = some none) ∨
      ∃ snaps, store.get (m.toObjectKey oid) = some (.objectSnaps oid snaps) ∧
        m.getSnaps store oid = some (some snaps) := by
  cases hget : store.get (m.toObjectKey oid) with
  | none =>
    refine .inl ⟨rfl, ?_⟩
    rw [getSnaps, if_pos hin.check, hget]
  | some v =>
    cases v with
    | mapping s hoid =>
      exact absurd (hformed.mapping _ _ _ hget).1.symm (toRawKey_ne_toObjectKey s hoid oid)
    | objectSnaps oid' snaps =>
      obtain ⟨hkey, hin', hne⟩ := hformed.object _ _ _ hget
      obtain rfl := (toObjectKey_eq_iff hin hin').mp hkey
      refine .inr ⟨snaps, rfl, ?_⟩
      rw [getSnaps, if_pos hin.check, hget]
      exact if_neg fun h => hne h.1

theorem mapping_of_get {s : UInt64} {v : SnapValue} (hget : store.get (m.toRawKey s oid) = some v) :
    ∃ s', v = .mapping s' oid ∧ m.toRawKey s oid = m.toRawKey s' oid := by
  cases v with
  | mapping s' hoid =>
    obtain ⟨hkey, hin'⟩ := hformed.mapping _ _ _ hget
    obtain ⟨-, rfl⟩ := (toRawKey_eq_iff hin hin' s s').mp hkey
    exact ⟨s', rfl, hkey⟩
  | objectSnaps oid' snaps =>
    exact absurd (hformed.object _ _ _ hget).1 (toRawKey_ne_toObjectKey s oid oid')

variable {store₁ : SnapStore} {snaps : OrdSet UInt64}
  (hframe : ∀ key, key ≠ m.toObjectKey oid → store₁.get key = store.get key)
  (hentry : store₁.get (m.toObjectKey oid) =
    if snaps = .empty then none else some (.objectSnaps oid snaps))

include hframe hentry

omit hformed hin hentry in
theorem get_removeKeys (l : List UInt64) (s : UInt64) :
    (m.removeKeys store₁ oid l).get (m.toRawKey s oid) =
      if ∃ t ∈ l, m.toRawKey t oid = m.toRawKey s oid then none
      else store.get (m.toRawKey s oid) := by
  rw [removeKeys, get_foldl_erase, hframe _ (toRawKey_ne_toObjectKey s oid oid)]
  split_ifs <;> rfl

theorem reindexed_removeKeys (l : List UInt64) :
    Reindexed m store (m.removeKeys store₁ oid l) oid snaps := by
  refine ⟨fun key hobject hkeys => ?_, ?_, fun s v hget => ?_⟩
  · rw [removeKeys, get_foldl_erase, if_neg, hframe key hobject]
    rintro ⟨t, -, heq⟩
    exact hkeys t heq.symm
  · rw [removeKeys, get_foldl_erase, if_neg, hentry]
    rintro ⟨t, -, heq⟩
    exact toRawKey_ne_toObjectKey t oid oid heq
  · rw [get_removeKeys hframe] at hget
    split_ifs at hget
    exact mapping_of_get hformed hin hget

/-- **If the keys of the snapshots that go are removed, the index stays exact.** -/
theorem exact_removeKeys (hexact : Exact m store) {l : List UInt64}
    (hsub : ∀ s ∈ snaps, s ∈ m.snapsOf store oid)
    (hl : ∀ t, t ∈ l ↔ t ∈ m.snapsOf store oid ∧ t ∉ snaps) :
    Exact m (m.removeKeys store₁ oid l) := by
  refine ((reindexed_removeKeys hformed hin hframe hentry l).exact_iff hin hexact).mpr
    ⟨fun s hs => ?_, fun s hs => ?_⟩
  · have hmapped := hexact.mapped oid hin s (hsub s hs)
    rw [get_removeKeys hframe, if_neg, hmapped]
    -- a snapshot with the same key would have its own mapping there
    rintro ⟨t, ht, heq⟩
    obtain ⟨hold, hgone⟩ := (hl t).mp ht
    have hmapped' := hexact.mapped oid hin t hold
    rw [heq, hmapped, Option.some.injEq, SnapValue.mapping.injEq] at hmapped'
    exact hgone (hmapped'.1 ▸ hs)
  · rw [mem_iff_isSome, get_removeKeys hframe] at hs
    split_ifs at hs with hgone
    · exact nomatch hs
    · obtain ⟨oid', hin', s', hs', heq⟩ := hexact.only _ hs (isMapping_toRawKey s oid)
      obtain ⟨-, rfl⟩ := (toRawKey_eq_iff hin hin' s s').mp heq
      refine ⟨s', ?_, heq⟩
      by_contra hnot
      exact hgone ⟨s', (hl s').mpr ⟨hs', hnot⟩, heq.symm⟩

end Remove

/-- **`remove_oid`.** -/
theorem removeOid_spec {oid : Soid} (hformed : Formed m store) (hin : m.InPg oid) :
    ∃ r store', m.removeOid store oid = some (r, store') ∧
      Reindexed m store store' oid .empty ∧ (Exact m store → Exact m store') := by
  rcases getSnaps_cases hformed hin with ⟨hget, hsnaps⟩ | ⟨snaps, hget, hsnaps⟩
  · -- nothing is removed
    have hentry : store.get (m.toObjectKey oid) = if (.empty : OrdSet UInt64) = .empty then none
        else some (.objectSnaps oid .empty) := by
      rw [if_pos rfl, hget]
    refine ⟨enoent, store, ?_, reindexed_removeKeys hformed hin (fun _ _ => rfl) hentry [], ?_⟩
    · rw [removeOid, hsnaps]
      rfl
    · exact id
  · have hframe : ∀ key, key ≠ m.toObjectKey oid →
        (store.erase (m.toObjectKey oid)).get key = store.get key := by
      intro key hne
      rw [get_erase, if_neg hne]
    have hentry : (store.erase (m.toObjectKey oid)).get (m.toObjectKey oid) =
        if (.empty : OrdSet UInt64) = .empty then none else some (.objectSnaps oid .empty) := by
      rw [if_pos rfl, get_erase, if_pos rfl]
    refine ⟨0, _, by rw [removeOid, hsnaps]; rfl,
      reindexed_removeKeys hformed hin hframe hentry snaps.keys, fun hexact =>
        exact_removeKeys hformed hin hframe hentry hexact (fun s hs => ?_) fun t => ?_⟩
    · exact absurd hs (not_mem_empty s)
    · rw [snapsOf_of_get hget, mem_keys_iff, and_iff_left (not_mem_empty t)]

/-- **`update_snaps`** with a set that is not empty. -/
theorem updateSnaps_spec {oid : Soid} (hformed : Formed m store) (hin : m.InPg oid)
    {newSnaps : OrdSet UInt64} (hne : newSnaps ≠ .empty) {oldSnapsCheck : Option (OrdSet UInt64)}
    (hcheck : ∀ old ∈ oldSnapsCheck, old = m.snapsOf store oid) :
    ∃ store', m.updateSnaps store oid newSnaps oldSnapsCheck = some (0, store') ∧
      Reindexed m store store' oid newSnaps ∧
      (Exact m store → (∀ s ∈ newSnaps, s ∈ m.snapsOf store oid) → Exact m store') := by
  have hframe : ∀ key, key ≠ m.toObjectKey oid →
      (store.insert (m.toObjectKey oid) (.objectSnaps oid newSnaps)).get key = store.get key := by
    intro key hkey
    rw [get_insert, if_neg hkey]
  have hentry : (store.insert (m.toObjectKey oid) (.objectSnaps oid newSnaps)).get
      (m.toObjectKey oid) = if newSnaps = .empty then none
        else some (.objectSnaps oid newSnaps) := by
    rw [if_neg hne, get_insert, if_pos rfl]
  obtain ⟨out, hout, hsnaps⟩ : ∃ out, m.getSnaps store oid = some out ∧
      out.getD .empty = m.snapsOf store oid := by
    rcases getSnaps_cases hformed hin with ⟨hget, hsnaps⟩ | ⟨snaps, hget, hsnaps⟩
    · refine ⟨none, hsnaps, ?_⟩
      rw [snapsOf, hget]
      rfl
    · exact ⟨some snaps, hsnaps, (snapsOf_of_get hget).symm⟩
  have hpass : ¬ oldSnapsCheck.any (fun old => decide (m.snapsOf store oid ≠ old)) = true := by
    cases oldSnapsCheck with
    | none => exact Bool.false_ne_true
    | some old => simp [← hcheck old rfl]
  refine ⟨_, ?_, reindexed_removeKeys hformed hin hframe hentry
    ((m.snapsOf store oid).keys.filter fun snap => decide (snap ∉ newSnaps)), fun hexact hsub =>
    exact_removeKeys hformed hin hframe hentry hexact hsub fun t => ?_⟩
  · rw [updateSnaps, if_neg hne, hout, bind_some]
    simp only [hsnaps, if_neg hpass]
  · rw [mem_filter, mem_keys_iff, decide_eq_true_eq]

/-! ## Keys are added -/

/-- No two snapshots of the set have the same low bits. -/
def Distinct (snaps : OrdSet UInt64) : Prop :=
  ∀ s ∈ snaps.keys, ∀ s' ∈ snaps.keys, s.toUInt32 = s'.toUInt32 → s = s'

-- the instances go through the list: all numbers of 64 bits would be decided one by one
instance (snaps : OrdSet UInt64) : Decidable (Distinct snaps) :=
  @List.decidableBAll _ _ (fun _ => List.decidableBAll _ _) _

theorem get_keysToAdd (m : SnapMapper) (oid : Soid) (snaps : OrdSet UInt64) (key : Bytes) :
    (m.keysToAdd oid snaps).get key =
      (snaps.keys.find? fun s => decide (m.toRawKey s oid = key)).map fun s => .mapping s oid := by
  rw [keysToAdd, get_foldl_insertNew (fun s => m.toRawKey s oid), get_empty,
    none_or]
  congr!

/-- **Every snapshot gets its key** exactly if no two of them have the same low bits. -/
theorem keysToAdd_iff {oid : Soid} (hin : m.InPg oid) (snaps : OrdSet UInt64) :
    (∀ s ∈ snaps, (m.keysToAdd oid snaps).get (m.toRawKey s oid) = some (.mapping s oid)) ↔
      Distinct snaps := by
  simp only [get_keysToAdd]
  constructor
  · intro hall s hs s' hs' hlow
    have hkey : m.toRawKey s oid = m.toRawKey s' oid :=
      (toRawKey_eq_iff hin hin s s').mpr ⟨hlow, rfl⟩
    have hfirst := hall s ((mem_keys_iff snaps s).mp hs)
    rw [hkey, hall s' ((mem_keys_iff snaps s').mp hs'), Option.some.injEq,
      SnapValue.mapping.injEq] at hfirst
    exact hfirst.1.symm
  · intro hdistinct s hs
    have hs' := (mem_keys_iff snaps s).mpr hs
    obtain ⟨t, ht⟩ : ∃ t, snaps.keys.find?
        (fun t => decide (m.toRawKey t oid = m.toRawKey s oid)) = some t := by
      rw [← isSome_iff_exists, find?_isSome]
      exact ⟨s, hs', decide_eq_true rfl⟩
    have hkey : m.toRawKey t oid = m.toRawKey s oid := by simpa using find?_some ht
    have heq : t = s := hdistinct t (mem_of_find?_eq_some ht) s hs'
      ((toRawKey_eq_iff hin hin t s).mp hkey).1
    rw [ht, heq]
    rfl

/-- **The keys are set** for an object that has none. -/
theorem addKeys_spec {oid : Soid} (hin : m.InPg oid) {snaps : OrdSet UInt64} (hne : snaps ≠ .empty)
    (hkeys : ∀ s v, store.get (m.toRawKey s oid) = some v →
      ∃ s', v = .mapping s' oid ∧ m.toRawKey s oid = m.toRawKey s' oid) :
    Reindexed m store ((store.insert (m.toObjectKey oid) (.objectSnaps oid snaps)).update
        (m.keysToAdd oid snaps)) oid snaps ∧
      (Exact m store → m.snapsOf store oid = .empty →
        (Exact m ((store.insert (m.toObjectKey oid) (.objectSnaps oid snaps)).update
          (m.keysToAdd oid snaps)) ↔ Distinct snaps)) := by
  set store' := (store.insert (m.toObjectKey oid) (.objectSnaps oid snaps)).update
    (m.keysToAdd oid snaps) with hstore'
  have hother : ∀ key, (∀ s, key ≠ m.toRawKey s oid) → (m.keysToAdd oid snaps).get key = none := by
    intro key hkey
    rw [get_keysToAdd, map_eq_none_iff, find?_eq_none]
    intro s _ heq
    exact hkey s (of_decide_eq_true heq).symm
  have hraw : ∀ s, store'.get (m.toRawKey s oid) =
      ((m.keysToAdd oid snaps).get (m.toRawKey s oid)).or (store.get (m.toRawKey s oid)) := by
    intro s
    rw [hstore', get_update, get_insert, if_neg (toRawKey_ne_toObjectKey s oid oid)]
  have hadded : ∀ s v, (m.keysToAdd oid snaps).get (m.toRawKey s oid) = some v →
      ∃ s' ∈ snaps, v = .mapping s' oid ∧ m.toRawKey s oid = m.toRawKey s' oid := by
    intro s v hv
    rw [get_keysToAdd, map_eq_some_iff] at hv
    obtain ⟨s', hfind, rfl⟩ := hv
    have hkey : m.toRawKey s' oid = m.toRawKey s oid := by simpa using find?_some hfind
    exact ⟨s', (mem_keys_iff snaps s').mp (mem_of_find?_eq_some hfind), rfl, hkey.symm⟩
  have hreindexed : Reindexed m store store' oid snaps := by
    refine ⟨fun key hobject hkey => ?_, ?_, fun s v hget => ?_⟩
    · rw [hstore', get_update, hother key hkey, none_or, get_insert,
        if_neg hobject]
    · rw [hstore', get_update, hother _ fun s heq =>
          toRawKey_ne_toObjectKey s oid oid heq.symm, none_or, get_insert, if_pos rfl,
        if_neg hne]
    · rw [hraw] at hget
      rcases or_eq_some_iff.mp hget with hget | ⟨-, hget⟩
      · obtain ⟨s', -, hv⟩ := hadded s v hget
        exact ⟨s', hv⟩
      · exact hkeys s v hget
  refine ⟨hreindexed, fun hexact hempty => ?_⟩
  -- before the call there is no key of the object
  have hnone : ∀ s, store.get (m.toRawKey s oid) = none := by
    intro s
    by_contra hsome
    have hmem : m.toRawKey s oid ∈ store := isSome_iff_ne_none.mpr hsome
    obtain ⟨oid', hin', s', hs', heq⟩ := hexact.only _ hmem (isMapping_toRawKey s oid)
    obtain ⟨-, rfl⟩ := (toRawKey_eq_iff hin hin' s s').mp heq
    rw [hempty] at hs'
    exact not_mem_empty s' hs'
  rw [hreindexed.exact_iff hin hexact, ← keysToAdd_iff hin]
  simp only [hraw, hnone, or_none]
  refine and_iff_left fun s hs => ?_
  rw [mem_iff_isSome, hraw, hnone, or_none] at hs
  obtain ⟨v, hv⟩ := isSome_iff_exists.mp hs
  obtain ⟨s', hs', -, heq⟩ := hadded s v hv
  exact ⟨s', hs', heq⟩

/-- **`add_oid`.** -/
theorem addOid_spec {oid : Soid} (hformed : Formed m store) (hin : m.InPg oid)
    {snaps : OrdSet UInt64} (hne : snaps ≠ .empty)
    (hdebug : m.debugVerifySnaps = true → m.snapsOf store oid = .empty) :
    ∃ store', m.addOid store oid snaps = some store' ∧ Reindexed m store store' oid snaps ∧
      (Exact m store → (Exact m store' ↔ Distinct snaps)) := by
  obtain ⟨r, store₁, hremove, hreindexed, hexact₁⟩ := removeOid_spec hformed hin
  obtain ⟨hreindexed', hexact'⟩ := addKeys_spec hin hne hreindexed.keys
  refine ⟨_, ?_, hreindexed.trans hreindexed', fun hexact =>
    hexact' (hexact₁ hexact) hreindexed.snapsOf_self⟩
  rw [addOid, if_neg hne]
  rcases getSnaps_cases hformed hin with ⟨hget, hsnaps⟩ | ⟨old, hget, hsnaps⟩
  · have heq : store₁ = store := by
      rw [removeOid, hsnaps] at hremove
      exact (Prod.mk.inj (Option.some.inj hremove)).2.symm
    rw [hsnaps, heq]
    rfl
  · have hoff : ¬ m.debugVerifySnaps = true := by
      intro hon
      refine (hformed.object _ _ _ hget).2.2 ?_
      rw [← snapsOf_of_get hget]
      exact hdebug hon
    rw [hsnaps]
    simp only [bind_eq_bind, bind_some, if_neg hoff, hremove, map_some]
    rfl

end SnapMapper

/-! ## Runs -/

/-- A call. -/
inductive SnapOp where
  | addOid (oid : Soid) (snaps : OrdSet UInt64)
  | updateSnaps (oid : Soid) (newSnaps : OrdSet UInt64) (oldSnapsCheck : Option (OrdSet UInt64))
  | removeOid (oid : Soid)

namespace SnapOp

def oid : SnapOp → Soid
  | .addOid oid _ | .updateSnaps oid _ _ | .removeOid oid => oid

/-- The snapshots the object is left with. -/
def snaps : SnapOp → OrdSet UInt64
  | .addOid _ snaps => snaps
  | .updateSnaps _ newSnaps _ => newSnaps
  | .removeOid _ => .empty

/-- The snapshots that are added differ in their low 32 bits, from each other and from the one that
is trimmed. -/
def Fits (snap : UInt64) : SnapOp → Prop
  | .addOid _ snaps =>
    SnapMapper.Distinct snaps ∧ ∀ s ∈ snaps.keys, s.toUInt32 = snap.toUInt32 → s = snap
  | .updateSnaps _ _ _ | .removeOid _ => True

instance (snap : UInt64) (op : SnapOp) : Decidable (op.Fits snap) :=
  match op with
  | .addOid _ _ => @instDecidableAnd _ _ _ (List.decidableBAll _ _)
  | .updateSnaps _ _ _ | .removeOid _ => inferInstanceAs (Decidable True)

end SnapOp

namespace SnapMapper

/-- What a call does to the keys; nothing where an assertion fails. -/
def apply (m : SnapMapper) (store : SnapStore) : SnapOp → Option SnapStore
  | .addOid oid snaps => m.addOid store oid snaps
  | .updateSnaps oid newSnaps oldSnapsCheck =>
    (m.updateSnaps store oid newSnaps oldSnapsCheck).map Prod.snd
  | .removeOid oid => (m.removeOid store oid).map Prod.snd

/-- The calls that are made: on objects of the placement group, with some snapshots for a new
object, and with a subset of its snapshots for one that is updated. Where the snapshots are
verified, the caller knows them. -/
def Legal (m : SnapMapper) (store : SnapStore) (op : SnapOp) : Prop :=
  m.InPg op.oid ∧ match op with
    | .addOid oid snaps =>
      snaps ≠ .empty ∧ (m.debugVerifySnaps = true → m.snapsOf store oid = .empty)
    | .updateSnaps oid newSnaps oldSnapsCheck =>
      (∀ s ∈ newSnaps.keys, s ∈ m.snapsOf store oid) ∧
        (newSnaps ≠ .empty → ∀ old ∈ oldSnapsCheck, old = m.snapsOf store oid)
    | .removeOid _ => True

instance (m : SnapMapper) (store : SnapStore) (op : SnapOp) : Decidable (m.Legal store op) :=
  match op with
  | .addOid _ _ | .removeOid _ => inferInstanceAs (Decidable (_ ∧ _))
  | .updateSnaps _ _ _ =>
    @instDecidableAnd _ _ _ (@instDecidableAnd _ _ (List.decidableBAll _ _) inferInstance)

/-- A legal call. -/
def step (m : SnapMapper) (store : SnapStore) (op : SnapOp) : Option SnapStore :=
  if m.Legal store op then m.apply store op else none

variable {m : SnapMapper} {store : SnapStore}

/-- **One call**: it goes through, and what was right before is right after it exactly if the call
fits. -/
theorem apply_spec (hformed : Formed m store) {op : SnapOp} (hlegal : m.Legal store op)
    (snap : UInt64) :
    ∃ store', m.apply store op = some store' ∧ Reindexed m store store' op.oid op.snaps ∧
      (Exact m store → Clear m store snap →
        (Exact m store' ∧ Clear m store' snap ↔ op.Fits snap)) := by
  obtain ⟨hin, hargs⟩ := hlegal
  cases op with
  | addOid oid snaps =>
    obtain ⟨hne, hdebug⟩ := hargs
    obtain ⟨store', hadd, hreindexed, hexact'⟩ := addOid_spec hformed hin hne hdebug
    refine ⟨store', hadd, hreindexed, fun hexact hclear => ?_⟩
    rw [hexact' hexact, hreindexed.clear_iff hin hclear]
    simp only [SnapOp.Fits, mem_keys_iff]
  | updateSnaps oid newSnaps oldSnapsCheck =>
    obtain ⟨hsub, hcheck⟩ := hargs
    have hsub' : ∀ s ∈ newSnaps, s ∈ m.snapsOf store oid := fun s hs =>
      hsub s ((mem_keys_iff newSnaps s).mpr hs)
    obtain ⟨store', r, hupdate, hreindexed, hexact'⟩ : ∃ store' r,
        m.updateSnaps store oid newSnaps oldSnapsCheck = some (r, store') ∧
          Reindexed m store store' oid newSnaps ∧ (Exact m store → Exact m store') := by
      by_cases hempty : newSnaps = .empty
      · obtain ⟨r, store', hremove, hreindexed, hexact'⟩ := removeOid_spec hformed hin
        refine ⟨store', r, ?_, ?_, hexact'⟩
        · rw [updateSnaps, if_pos hempty]
          exact hremove
        · rw [hempty]
          exact hreindexed
      · obtain ⟨store', hupdate, hreindexed, hexact'⟩ :=
          updateSnaps_spec hformed hin hempty (hcheck hempty)
        exact ⟨store', 0, hupdate, hreindexed, fun hexact => hexact' hexact hsub'⟩
    refine ⟨store', by rw [apply, hupdate]; rfl, hreindexed, fun hexact hclear =>
      iff_of_true ⟨hexact' hexact, (hreindexed.clear_iff hin hclear).mpr fun s hs => ?_⟩ trivial⟩
    exact hclear oid hin s (hsub' s hs)
  | removeOid oid =>
    have hin' : m.InPg oid := hin
    obtain ⟨r, store', hremove, hreindexed, hexact'⟩ := removeOid_spec hformed hin'
    refine ⟨store', by rw [apply, hremove]; rfl, hreindexed, fun hexact hclear =>
      iff_of_true ⟨hexact' hexact, (hreindexed.clear_iff hin hclear).mpr fun s hs => ?_⟩ trivial⟩
    exact absurd hs (not_mem_empty s)

theorem step_spec (hformed : Formed m store) {op : SnapOp} {store' : SnapStore}
    (hstep : m.step store op = some store') (snap : UInt64) :
    Formed m store' ∧ (Exact m store → Clear m store snap →
      (Exact m store' ∧ Clear m store' snap ↔ op.Fits snap)) := by
  unfold step at hstep
  split_ifs at hstep with hlegal
  obtain ⟨store'', happly, hreindexed, hiff⟩ := apply_spec hformed hlegal snap
  obtain rfl := Option.some.inj (hstep.symm.trans happly)
  exact ⟨hreindexed.formed hlegal.1 hformed, hiff⟩

theorem formed_empty (m : SnapMapper) : Formed m .empty :=
  ⟨fun _ _ _ h => (nomatch h), fun _ _ _ h => (nomatch h)⟩

theorem exact_empty (m : SnapMapper) : Exact m .empty :=
  ⟨fun _ _ s hs => absurd hs (not_mem_empty s),
    fun key hkey => absurd hkey (not_mem_empty key)⟩

theorem clear_empty (m : SnapMapper) (snap : UInt64) : Clear m .empty snap :=
  fun _ _ s hs => absurd hs (not_mem_empty s)

/-- **The index of snapshots.** A run of legal calls goes through. All along it the index is exact
and the objects of the snapshot are found, exactly if every call of the run fits. -/
theorem snap_index_iff (m : SnapMapper) (snap : UInt64) (ops : List SnapOp)
    (hlegal : Transition.Along m.step m.Legal ops .empty) :
    (∃ store, Transition.run m.step ops .empty = some store) ∧
      ((∀ done, done <+: ops → ∀ store, Transition.run m.step done .empty = some store →
          Exact m store ∧ ∀ max, 1 ≤ max → Trims m store snap max) ↔
        ∀ op ∈ ops, op.Fits snap) := by
  have hprogress : ∀ store op, Formed m store → m.Legal store op →
      ∃ store', m.step store op = some store' ∧ Formed m store' := by
    intro store op hformed hop
    obtain ⟨store', happly, hreindexed, -⟩ := apply_spec hformed hop snap
    exact ⟨store', by rw [step, if_pos hop, happly], hreindexed.formed hop.1 hformed⟩
  obtain ⟨store, hrun, -⟩ := Transition.run_of_along hprogress hlegal (formed_empty m)
  refine ⟨⟨store, hrun⟩, ?_⟩
  have hinv : ∀ store op store', Formed m store → m.step store op = some store' →
      Formed m store' := fun _ _ _ hformed hstep => (step_spec hformed hstep snap).1
  have hkeeps : ∀ store op store', Formed m store → Exact m store ∧ Clear m store snap →
      m.step store op = some store' → (Exact m store' ∧ Clear m store' snap ↔ op.Fits snap) :=
    fun _ _ _ hformed h hstep => (step_spec hformed hstep snap).2 h.1 h.2
  rw [← Transition.throughout_iff_forall hinv hkeeps hrun (formed_empty m)
    ⟨exact_empty m, clear_empty m snap⟩]
  -- in each state that is reached, the objects are found if no other snapshot is in the way
  refine forall₂_congr fun done _ => forall₂_congr fun store hdone =>
    and_congr_right fun hexact => ?_
  exact trims_iff (Transition.invariant_of_run hinv hdone (formed_empty m)) hexact snap

/-- A placement group of pool 1: the hashes that end in `101`. -/
def samplePg : SnapMapper :=
  { maskBits := 3, maskBits_lt := by decide, matchValue := 5, pool := 1, shard := -1
    debugVerifySnaps := false }

/-- A clone in the placement group. -/
def sampleClone (c : UInt8) (hash : UInt32) : Soid :=
  ⟨Hobject.mk' [c] [] 4 hash 1 [], Hobject.canonical_mk' .., fun h => nomatch h⟩

def snapSet (l : List UInt64) : OrdSet UInt64 := OrdMap.empty.insertAll l

/-- Two clones are added, one of them loses a snapshot, and the other one is removed. -/
theorem snap_index_two_clones :
    let ops : List SnapOp := [.addOid (sampleClone 0x61 5) (snapSet [1, 2]),
      .addOid (sampleClone 0x62 13) (snapSet [2]),
      .updateSnaps (sampleClone 0x61 5) (snapSet [2]) (some (snapSet [1, 2])),
      .removeOid (sampleClone 0x62 13)]
    Transition.Along samplePg.step samplePg.Legal ops .empty ∧
      ∀ done, done <+: ops → ∀ store, Transition.run samplePg.step done .empty = some store →
        Exact samplePg store ∧ ∀ max, 1 ≤ max → Trims samplePg store 2 max :=
  ⟨by decide +kernel, (snap_index_iff samplePg 2 _ (by decide +kernel)).2.mpr (by decide +kernel)⟩

/-- The objects that have the snapshot, and what `get_next_objects_to_trim` makes of them, after a
run. -/
def trimAfter (ops : List SnapOp) (snap : UInt64) : Option (List Soid × Option (ℤ × List Soid)) :=
  (Transition.run samplePg.step ops .empty).map fun store =>
    (objectsOf store snap, samplePg.getNextObjectsToTrim store snap 1)

/-- The keys of the snapshots 1 and 2³² + 1 are the same. If an object has both, only the first one
gets a key, and trimming the second one aborts. It aborts even if no object has the second snapshot.
When the second snapshot is taken from an object that has both, the key of the first one goes, and
the object is not found. -/
theorem snap_index_collides :
    samplePg.toRawKey 0x100000001 (sampleClone 0x61 5) =
        samplePg.toRawKey 1 (sampleClone 0x61 5) ∧
      trimAfter [.addOid (sampleClone 0x61 5) (snapSet [1, 0x100000001])] 0x100000001 =
        some ([sampleClone 0x61 5], none) ∧
      trimAfter [.addOid (sampleClone 0x61 5) (snapSet [1])] 0x100000001 = some ([], none) ∧
      trimAfter [.addOid (sampleClone 0x61 5) (snapSet [1, 0x100000001]),
          .updateSnaps (sampleClone 0x61 5) (snapSet [1]) none] 1 =
        some ([sampleClone 0x61 5], some (enoent, [])) := by
  refine ⟨?_, ?_, ?_, ?_⟩ <;> decide +kernel

end SnapMapper

end Ceph.Osd
