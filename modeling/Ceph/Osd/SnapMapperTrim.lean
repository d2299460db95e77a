import Ceph.Osd.SnapMapper

set_option autoImplicit false

/-! # The objects to trim

The two families of keys of the index are in step if there is a `MAP_` key for each snapshot in the
`OBJ_` entry of an object, and no other (`SnapMapper.Exact`). `get_next_objects_to_trim` walks the
`MAP_` keys of a snapshot under the prefixes of the placement group. If the index is exact, it finds
the objects of the snapshot, unless another snapshot with the same low 32 bits is in the way
(`SnapMapper.trims_iff`).
-/

namespace Ceph.Osd.SnapMapper

open OrdMap List PrefixScan Hobject

variable {m : SnapMapper} {store : SnapStore}

/-! ## What the index says -/

/-- The snapshots in the `OBJ_` entry of an object. -/
def snapsOf (m : SnapMapper) (store : SnapStore) (oid : Soid) : OrdSet UInt64 :=
  match store.get (m.toObjectKey oid) with
  | some (.objectSnaps _ snaps) => snaps
  | _ => .empty

/-- Every key belongs to what is stored under it. -/
structure Formed (m : SnapMapper) (store : SnapStore) : Prop where
  mapping : ∀ key snap hoid, store.get key = some (.mapping snap hoid) →
    key = m.toRawKey snap hoid ∧ m.InPg hoid
  object : ∀ key oid snaps, store.get key = some (.objectSnaps oid snaps) →
    key = m.toObjectKey oid ∧ m.InPg oid ∧ snaps ≠ .empty

/-- **The index is exact**: there is a `MAP_` key for each snapshot in the `OBJ_` entry of an
object, with the two as its value, and there are no others. -/
structure Exact (m : SnapMapper) (store : SnapStore) : Prop where
  mapped : ∀ oid, m.InPg oid → ∀ snap ∈ m.snapsOf store oid,
    store.get (m.toRawKey snap oid) = some (.mapping snap oid)
  only : ∀ key ∈ store, isMapping key = true →
    ∃ oid, m.InPg oid ∧ ∃ snap ∈ m.snapsOf store oid, key = m.toRawKey snap oid

/-- The objects that have the snapshot, by their `OBJ_` entries. -/
def objectsOf (store : SnapStore) (snap : UInt64) : List Soid :=
  store.entries.filterMap fun e =>
    match e.2 with
    | .objectSnaps oid snaps => if snap ∈ snaps then some oid else none
    | .mapping _ _ => none

/-- **The objects to trim are found**: as many as there are, up to `max`, and each once. -/
def Trims (m : SnapMapper) (store : SnapStore) (snap : UInt64) (max : ℕ) : Prop :=
  ∃ r out, m.getNextObjectsToTrim store snap max = some (r, out) ∧
    out.Nodup ∧ (∀ hoid ∈ out, hoid ∈ objectsOf store snap) ∧
    out.length = min max (objectsOf store snap).length ∧
    r = if (objectsOf store snap).length = 0 then enoent else 0

/-- No other snapshot in the index has the same low bits. -/
def Clear (m : SnapMapper) (store : SnapStore) (snap : UInt64) : Prop :=
  ∀ oid, m.InPg oid → ∀ s ∈ m.snapsOf store oid, s.toUInt32 = snap.toUInt32 → s = snap

variable {oid : Soid} {α β : Type} {snap : UInt64} {f : α → Option β}

theorem snapsOf_of_get {oid' : Soid} {snaps : OrdSet UInt64}
    (h : store.get (m.toObjectKey oid) = some (.objectSnaps oid' snaps)) :
    m.snapsOf store oid = snaps := by
  rw [snapsOf, h]

theorem Formed.get_of_mem_snapsOf (h : Formed m store) (hoid : m.InPg oid)
    (hsnap : snap ∈ m.snapsOf store oid) :
    store.get (m.toObjectKey oid) = some (.objectSnaps oid (m.snapsOf store oid)) := by
  unfold snapsOf at hsnap ⊢
  cases hget : store.get (m.toObjectKey oid) with
  | none =>
    rw [hget] at hsnap
    exact absurd hsnap (not_mem_empty snap)
  | some v =>
    cases v with
    | mapping s hoid' =>
      rw [hget] at hsnap
      exact absurd hsnap (not_mem_empty snap)
    | objectSnaps oid' snaps =>
      obtain ⟨hkey, hoid', -⟩ := h.object _ _ _ hget
      rw [(toObjectKey_eq_iff hoid hoid').mp hkey]

/-- An entry that lists an object of the snapshot. -/
theorem Formed.of_listed (h : Formed m store) {e : Bytes × SnapValue} (he : e ∈ store.entries)
    (hoid : (match e.2 with
      | .objectSnaps oid snaps => if snap ∈ snaps then some oid else none
      | .mapping _ _ => none) = some oid) :
    e.1 = m.toObjectKey oid ∧ m.InPg oid ∧ snap ∈ m.snapsOf store oid := by
  obtain ⟨key, v⟩ := e
  rw [mem_entries_iff] at he
  cases v with
  | mapping s hoid' => cases hoid
  | objectSnaps oid' snaps =>
    dsimp only at hoid
    split_ifs at hoid with hsnap
    cases hoid
    obtain ⟨rfl, hin, -⟩ := h.object _ _ _ he
    rw [snapsOf_of_get he]
    exact ⟨rfl, hin, hsnap⟩

theorem Formed.mem_objectsOf (h : Formed m store) :
    oid ∈ objectsOf store snap ↔ m.InPg oid ∧ snap ∈ m.snapsOf store oid := by
  rw [objectsOf, mem_filterMap]
  constructor
  · rintro ⟨e, he, hoid⟩
    exact (h.of_listed he hoid).2
  · rintro ⟨hin, hsnap⟩
    refine ⟨(m.toObjectKey oid, .objectSnaps oid (m.snapsOf store oid)), ?_, if_pos hsnap⟩
    rw [mem_entries_iff]
    exact h.get_of_mem_snapsOf hin hsnap

theorem Formed.nodup_objectsOf (h : Formed m store) (snap : UInt64) :
    (objectsOf store snap).Nodup := by
  rw [List.Nodup, objectsOf, pairwise_filterMap]
  refine store.sorted.imp_of_mem fun {e e'} he he' hlt oid hoid oid' hoid' heq => ?_
  rw [(h.of_listed he hoid).1, (h.of_listed he' hoid').1, heq] at hlt
  exact lt_irrefl _ hlt

/-! ## The scan -/

/-- **One prefix**: the scan decodes the entries it meets, and if it ends because there is no next
key, then nothing is left under later prefixes. -/
theorem scanPrefix_eq (m : SnapMapper) (store : SnapStore) (snap : UInt64) {p : Bytes} (room : ℕ)
    {pos : Bytes} (hp : p <+: pos) (out : List Soid) :
    ∃ ended, m.scanPrefix store snap p room pos out =
        (((within store p pos).take room).mapM (m.decodeNext snap)).map
          (fun found => (ended, out ++ found)) ∧
      (ended = true → ∀ p' : Bytes, p'.length = p.length → p < p' → within store p' p' = []) := by
  induction room generalizing pos out with
  | zero =>
    refine ⟨false, ?_, fun h => (nomatch h)⟩
    simp [scanPrefix]
  | succ room ih =>
    rw [scanPrefix]
    cases hnext : next store pos with
    | none =>
      refine ⟨true, ?_, fun _ p' hlen hlt =>
        within_eq_nil_of_next_eq_none hp hnext hlen hlt⟩
      simp [within_of_next_eq_none hnext]
    | some e =>
      dsimp only
      by_cases hstarts : p <+: e.1
      · rw [if_pos hstarts, within_of_prefix hnext hstarts, take_succ_cons,
          mapM_cons]
        cases hdecode : m.decodeNext snap e with
        | none => exact ⟨false, rfl, fun h => (nomatch h)⟩
        | some hoid =>
          obtain ⟨ended, heq, hended⟩ := ih hstarts (out ++ [hoid])
          refine ⟨ended, ?_, hended⟩
          rw [Option.bind_some, heq]
          cases ((within store p e.1).take room).mapM (m.decodeNext snap) with
          | none => rfl
          | some found => simp
      · refine ⟨false, ?_, fun h => (nomatch h)⟩
        rw [if_neg hstarts, within_of_not_prefix hp hnext hstarts]
        simp

theorem length_of_mapM_eq_some {l : List α} {l' : List β} (h : l.mapM f = some l') :
    l'.length = l.length := by
  induction l generalizing l' with
  | nil =>
    obtain rfl : [] = l' := by simpa using h
    rfl
  | cons a l ih =>
    rw [mapM_cons] at h
    simp only [Option.bind_eq_bind, Option.bind_eq_some_iff, Option.pure_def,
      Option.some.injEq] at h
    obtain ⟨b, -, bs, hbs, rfl⟩ := h
    rw [length_cons, length_cons, ih hbs]

/-- The entries under the prefixes, one prefix after the other. -/
def under (store : SnapStore) (ps : List Bytes) : List (Bytes × SnapValue) :=
  ps.flatMap fun p => within store p p

/-- **All prefixes**: the scan decodes the entries under them until there is no more room. -/
theorem scanPrefixes_eq (m : SnapMapper) (store : SnapStore) (snap : UInt64) (max : ℕ)
    {ps : List Bytes} (hsorted : ps.Pairwise (· < ·)) {n : ℕ} (hlen : ∀ p ∈ ps, p.length = n)
    (out : List Soid) :
    m.scanPrefixes store snap max ps out =
      (((under store ps).take (max - out.length)).mapM (m.decodeNext snap)).map
        (fun found => out ++ found) := by
  induction ps generalizing out with
  | nil => simp [scanPrefixes, under]
  | cons p ps ih =>
    obtain ⟨hhead, htail⟩ := pairwise_cons.mp hsorted
    obtain ⟨hp, hps⟩ := forall_mem_cons.mp hlen
    rw [scanPrefixes]
    by_cases hroom : out.length < max
    · obtain ⟨ended, heq, hended⟩ :=
        scanPrefix_eq m store snap (max - out.length) (prefix_refl p) out
      have hunder : under store (p :: ps) = within store p p ++ under store ps := rfl
      rw [if_pos hroom, heq, hunder, take_append, mapM_append]
      cases hfound : ((within store p p).take (max - out.length)).mapM (m.decodeNext snap) with
      | none => rfl
      | some found =>
        have hlength := length_of_mapM_eq_some hfound
        rw [length_take] at hlength
        rw [Option.map_some, Option.bind_some]
        cases ended with
        | true =>
          have hnil : under store ps = [] := by
            rw [under, flatMap_eq_nil_iff]
            intro p' hp'
            exact hended rfl p' ((hps p' hp').trans hp.symm) (hhead p' hp')
          simp [hnil]
        | false =>
          have hrest : max - (out ++ found).length =
              max - out.length - (within store p p).length := by
            rw [length_append]
            omega
          rw [if_neg Bool.false_ne_true, ih htail hps, hrest]
          cases ((under store ps).take
              (max - out.length - (within store p p).length)).mapM (m.decodeNext snap) with
          | none => rfl
          | some rest => simp
    · rw [if_neg hroom, Nat.sub_eq_zero_of_le (not_lt.mp hroom)]
      simp

def snapPrefixes (m : SnapMapper) (snap : UInt64) : List Bytes :=
  m.prefixes.keys.map fun p => getPrefix snap ++ p

theorem length_of_mem_snapPrefixes {p : Bytes} (hp : p ∈ m.snapPrefixes snap) :
    p.length = 21 + (m.shardPrefix.length + (17 + nibbleBits m.maskBits / 4)) := by
  obtain ⟨q, hq, rfl⟩ := mem_map.mp hp
  rw [length_append, length_getPrefix,
    length_of_mem_prefixes ((mem_keys_iff m.prefixes q).mp hq)]

theorem sorted_snapPrefixes (m : SnapMapper) (snap : UInt64) :
    (m.snapPrefixes snap).Pairwise (· < ·) := by
  rw [snapPrefixes, pairwise_map, OrdMap.keys, pairwise_map]
  refine m.prefixes.sorted.imp fun hlt => ?_
  rw [LexCode.append_lt_append_left_iff]
  exact hlt

/-- **What `get_next_objects_to_trim` returns**: the first entries under the prefixes, decoded. -/
theorem getNextObjectsToTrim_eq (m : SnapMapper) (store : SnapStore) (snap : UInt64) (max : ℕ) :
    m.getNextObjectsToTrim store snap max =
      (((under store (m.snapPrefixes snap)).take max).mapM (m.decodeNext snap)).map
        fun out => (if out = [] then enoent else 0, out) := by
  rw [getNextObjectsToTrim, ← snapPrefixes, scanPrefixes_eq m store snap max
    (m.sorted_snapPrefixes snap) (fun p hp => length_of_mem_snapPrefixes hp)]
  simp

/-! ## What is under the prefixes of a snapshot -/

theorem lt_length_toStr (h : Hobject) : 25 < h.toStr.length := by
  simp [toStr]
  omega

/-- **The entries under the prefixes of a snapshot** are those of the snapshots with the same low
bits. -/
theorem mem_under_iff (hformed : Formed m store) (hexact : Exact m store) (snap : UInt64)
    (e : Bytes × SnapValue) :
    e ∈ under store (m.snapPrefixes snap) ↔
      ∃ oid, m.InPg oid ∧ ∃ s ∈ m.snapsOf store oid, s.toUInt32 = snap.toUInt32 ∧
        e = (m.toRawKey s oid, .mapping s oid) := by
  rw [under, mem_flatMap]
  constructor
  · rintro ⟨p, hp, he⟩
    obtain ⟨q, -, rfl⟩ := mem_map.mp hp
    obtain ⟨hmem, hstarts, -⟩ := mem_within_self.mp he
    obtain ⟨key, v⟩ := e
    rw [mem_entries_iff] at hmem
    cases v with
    | objectSnaps oid snaps =>
      rw [(hformed.object _ _ _ hmem).1] at hstarts
      exact absurd hstarts (not_getPrefix_append_isPrefix snap oid q)
    | mapping s oid =>
      obtain ⟨rfl, hin⟩ := hformed.mapping _ _ _ hmem
      have hlow := ((getPrefix_append_prefix_iff snap s oid q).mp hstarts).1
      have hkey : m.toRawKey s oid ∈ store := by
        rw [mem_iff_isSome, hmem]
        rfl
      -- the entry is the one that the index has for some object and snapshot
      obtain ⟨oid', hin', s', hs', heq⟩ := hexact.only _ hkey (isMapping_toRawKey s oid)
      have hmapped := hexact.mapped oid' hin' s' hs'
      rw [← heq, hmem, Option.some.injEq, SnapValue.mapping.injEq] at hmapped
      obtain ⟨rfl, rfl⟩ := hmapped
      exact ⟨oid, hin, s, hs', hlow.symm, rfl⟩
  · rintro ⟨oid, hin, s, hs, hlow, rfl⟩
    obtain ⟨q, hq, hstarts⟩ := exists_mem_prefixes hin
    refine ⟨getPrefix snap ++ q, mem_map_of_mem ((mem_keys_iff _ _).mpr hq),
      mem_within_self.mpr ⟨?_, ?_, ?_⟩⟩
    · rw [mem_entries_iff]
      exact hexact.mapped oid hin s hs
    · exact (getPrefix_append_prefix_iff snap s oid q).mpr ⟨hlow.symm, hstarts⟩
    · intro heq
      have hlength := congrArg List.length heq
      have hstr := lt_length_toStr oid.val
      have hnibbles : nibbleBits m.maskBits / 4 ≤ 8 := by
        have := m.maskBits_lt
        unfold nibbleBits
        omega
      simp only [toRawKey, length_append, length_getPrefix, length_of_mem_prefixes hq]
        at hlength
      omega

theorem nodup_under (m : SnapMapper) (store : SnapStore) (snap : UInt64) :
    (under store (m.snapPrefixes snap)).Nodup := by
  rw [under, nodup_flatMap]
  refine ⟨fun p _ => nodup_within store p p, ?_⟩
  refine (m.sorted_snapPrefixes snap).imp_of_mem fun {p p'} hp hp' hlt e he he' => ?_
  have hlen : p.length = p'.length :=
    (length_of_mem_snapPrefixes hp).trans (length_of_mem_snapPrefixes hp').symm
  have hself := lt_of_isPrefix hlen hlt (mem_within_self.mp he).2.1 (mem_within_self.mp he').2.1
  exact lt_irrefl _ hself

/-! ## Trimming -/

def entryObject (e : Bytes × SnapValue) : Soid :=
  match e.2 with
  | .mapping _ hoid => hoid
  | .objectSnaps oid _ => oid

theorem mapM_eq_some_map {g : α → β} {l : List α} (h : ∀ a ∈ l, f a = some (g a)) :
    l.mapM f = some (l.map g) := by
  induction l with
  | nil => rfl
  | cons a l ih =>
    obtain ⟨ha, hl⟩ := forall_mem_cons.mp h
    rw [mapM_cons, ha, ih hl]
    rfl

theorem isSome_of_mapM_eq_some {l : List α} {l' : List β} (h : l.mapM f = some l') :
    ∀ a ∈ l, (f a).isSome := by
  induction l generalizing l' with
  | nil => simp
  | cons a l ih =>
    rw [mapM_cons] at h
    simp only [Option.bind_eq_bind, Option.bind_eq_some_iff] at h
    obtain ⟨b, hb, bs, hbs, -⟩ := h
    refine forall_mem_cons.mpr ⟨?_, ih hbs⟩
    rw [hb]
    rfl

theorem decodeNext_mapping (hin : m.InPg oid) (snap s : UInt64) :
    m.decodeNext snap (m.toRawKey s oid, .mapping s oid) = if s = snap then some oid else none := by
  rw [decodeNext, if_pos (isMapping_toRawKey s oid)]
  simp only [hin.check, and_true]

/-- The objects under the prefixes are those that have the snapshot, if no other one is in the
way. -/
theorem perm_objectsOf (hformed : Formed m store) (hexact : Exact m store)
    (hclear : Clear m store snap) :
    ((under store (m.snapPrefixes snap)).map entryObject).Perm (objectsOf store snap) := by
  have hnodup : ((under store (m.snapPrefixes snap)).map entryObject).Nodup := by
    refine (nodup_under m store snap).map_on fun e he e' he' heq => ?_
    obtain ⟨oid, hin, s, hs, hlow, rfl⟩ := (mem_under_iff hformed hexact snap e).mp he
    obtain ⟨oid', hin', s', hs', hlow', rfl⟩ := (mem_under_iff hformed hexact snap e').mp he'
    obtain rfl : oid = oid' := heq
    rw [hclear oid hin s hs hlow, hclear oid hin s' hs' hlow']
  refine (perm_ext_iff_of_nodup hnodup (hformed.nodup_objectsOf snap)).mpr fun oid => ?_
  rw [mem_map, hformed.mem_objectsOf]
  constructor
  · rintro ⟨e, he, rfl⟩
    obtain ⟨oid, hin, s, hs, hlow, rfl⟩ := (mem_under_iff hformed hexact snap e).mp he
    rw [← hclear oid hin s hs hlow]
    exact ⟨hin, hs⟩
  · rintro ⟨hin, hs⟩
    exact ⟨(m.toRawKey snap oid, .mapping snap oid),
      (mem_under_iff hformed hexact snap _).mpr ⟨oid, hin, snap, hs, rfl, rfl⟩, rfl⟩

/-- **Trimming finds the objects of a snapshot** exactly if no other snapshot in the index has the
same low bits. -/
theorem trims_iff (hformed : Formed m store) (hexact : Exact m store) (snap : UInt64) :
    (∀ max, 1 ≤ max → Trims m store snap max) ↔ Clear m store snap := by
  constructor
  · intro htrims oid hin s hs hlow
    by_contra hne
    -- a call with enough room comes to the entry of the other snapshot
    obtain ⟨r, out, hget, -⟩ := htrims ((under store (m.snapPrefixes snap)).length + 1) (by omega)
    rw [getNextObjectsToTrim_eq, take_of_length_le (by omega)] at hget
    obtain ⟨found, hfound, -⟩ := Option.map_eq_some_iff.mp hget
    have hsome := isSome_of_mapM_eq_some hfound (m.toRawKey s oid, .mapping s oid)
      ((mem_under_iff hformed hexact snap _).mpr ⟨oid, hin, s, hs, hlow, rfl⟩)
    rw [decodeNext_mapping hin, if_neg hne] at hsome
    exact nomatch hsome
  · intro hclear max hmax
    have hperm := perm_objectsOf hformed hexact hclear
    have hdecode : ((under store (m.snapPrefixes snap)).take max).mapM (m.decodeNext snap) =
        some (((under store (m.snapPrefixes snap)).map entryObject).take max) := by
      rw [← map_take]
      refine mapM_eq_some_map fun e he => ?_
      obtain ⟨oid, hin, s, hs, hlow, rfl⟩ :=
        (mem_under_iff hformed hexact snap e).mp (mem_of_mem_take he)
      rw [decodeNext_mapping hin, if_pos (hclear oid hin s hs hlow)]
      rfl
    refine ⟨_, _, by rw [getNextObjectsToTrim_eq, hdecode, Option.map_some], ?_, ?_, ?_, ?_⟩
    · exact (hperm.nodup_iff.mpr (hformed.nodup_objectsOf snap)).sublist (take_sublist _ _)
    · intro hoid hmem
      exact hperm.mem_iff.mp (mem_of_mem_take hmem)
    · rw [length_take, hperm.length_eq]
    · have hempty : ((under store (m.snapPrefixes snap)).map entryObject).take max = [] ↔
          (objectsOf store snap).length = 0 := by
        rw [← length_eq_zero_iff, length_take, hperm.length_eq]
        omega
      simp only [hempty]

end Ceph.Osd.SnapMapper
