import Ceph.Lib.OrdMap

set_option autoImplicit false

/-! # Reverse indexes

A map from objects to items may be kept together with a map that finds an object by a key of its
item. The second map is the inverse of the first (`OrdMap.Inverse`) only if no two items share a
key. Writing an item into both maps overwrites the key of the new item and leaves the key of the
old one alone, so the maps stay inverse to each other only if that key was dropped before, or is
written over in the same go (`inverse_overlay_iff`).
-/

namespace OrdMap

variable {α β κ : Type} [LinearOrder α] [LinearOrder κ] {key : β → κ} {m m' : OrdMap α β}
  {r : OrdMap κ α}

/-- **`r` is the inverse of `m`**: it holds one entry for each object of `m`, under the key of its
item, and nothing else. -/
def Inverse (key : β → κ) (m : OrdMap α β) (r : OrdMap κ α) : Prop :=
  ∀ k a, r.get k = some a ↔ ∃ b, m.get a = some b ∧ key b = k

/-- No two objects have items with the same key. -/
def Distinct (key : β → κ) (m : OrdMap α β) : Prop :=
  ∀ a a' b b', m.get a = some b → m.get a' = some b' → key b = key b' → a = a'

/-- The entries of the inverse of a map. -/
def flipped (key : β → κ) (m : OrdMap α β) : List (κ × α) :=
  m.entries.map fun e => (key e.2, e.1)

theorem inverse_empty (key : β → κ) : Inverse key (empty : OrdMap α β) (empty : OrdMap κ α) := by
  intro k a
  constructor
  · intro h
    exact nomatch h
  · rintro ⟨b, h, -⟩
    exact nomatch h

theorem Inverse.get_key (h : Inverse key m r) {a : α} {b : β} (ha : m.get a = some b) :
    r.get (key b) = some a := (h (key b) a).mpr ⟨b, ha, rfl⟩

theorem Inverse.distinct (h : Inverse key m r) : Distinct key m := by
  intro a a' b b' ha ha' hkey
  have hfirst := h.get_key ha
  rw [hkey, h.get_key ha'] at hfirst
  exact (Option.some.inj hfirst).symm

omit [LinearOrder κ] in
theorem mem_flipped {k : κ} {a : α} :
    (k, a) ∈ flipped key m ↔ ∃ b, m.get a = some b ∧ key b = k := by
  rw [flipped, List.mem_map]
  constructor
  · rintro ⟨⟨a', b⟩, hmem, heq⟩
    obtain ⟨hk, ha⟩ := Prod.mk.inj heq
    subst ha
    exact ⟨b, (mem_entries_iff m a' b).mp hmem, hk⟩
  · rintro ⟨b, hget, rfl⟩
    exact ⟨(a, b), (mem_entries_iff m a b).mpr hget, rfl⟩

/-- **Writing items into a map and their keys into its index.** The map holds the items of `new`
and other items that were indexed before. The index is then the inverse if no key is shared and
nothing stale is left: what was indexed under a key that is not written over is still right. -/
theorem inverse_overlay_iff {new : OrdMap α β}
    (hnew : ∀ a b, new.get a = some b → m'.get a = some b)
    (hold : ∀ a b, m'.get a = some b → new.get a = some b ∨ r.get (key b) = some a) :
    Inverse key m' (r.insertPairs (flipped key new)) ↔
      Distinct key m' ∧ ∀ k a, r.get k = some a →
        (∃ a', (k, a') ∈ flipped key new) ∨ ∃ b, m'.get a = some b ∧ key b = k := by
  have hnot : ∀ k, (¬ ∃ a', (k, a') ∈ flipped key new) →
      (r.insertPairs (flipped key new)).get k = r.get k := by
    intro k hk
    refine get_insertPairs_of_forall_ne r ?_
    rintro ⟨k', a'⟩ hmem rfl
    exact hk ⟨a', hmem⟩
  have hwritten : Distinct key m' → ∀ k a, (k, a) ∈ flipped key new →
      (r.insertPairs (flipped key new)).get k = some a := by
    intro hdistinct k a hmem
    refine get_insertPairs_of_mem r hmem ?_
    rintro ⟨k', a'⟩ hmem' rfl
    obtain ⟨b, hb, hkey⟩ := mem_flipped.mp hmem
    obtain ⟨b', hb', hkey'⟩ := mem_flipped.mp hmem'
    exact hdistinct a' a b' b (hnew a' b' hb') (hnew a b hb) (hkey'.trans hkey.symm)
  constructor
  · intro h
    refine ⟨h.distinct, fun k a hget => ?_⟩
    by_cases hk : ∃ a', (k, a') ∈ flipped key new
    · exact .inl hk
    · rw [← hnot k hk] at hget
      exact .inr ((h k a).mp hget)
  · rintro ⟨hdistinct, hstale⟩ k a
    constructor
    · intro hget
      by_cases hk : ∃ a', (k, a') ∈ flipped key new
      · obtain ⟨a', hmem⟩ := hk
        rw [hwritten hdistinct k a' hmem] at hget
        obtain ⟨b, hb, hkey⟩ := mem_flipped.mp hmem
        exact ⟨b, hnew a b (Option.some.inj hget ▸ hb), hkey⟩
      · have hbefore : r.get k = some a := (hnot k hk).symm.trans hget
        exact (hstale k a hbefore).resolve_left hk
    · rintro ⟨b, hb, rfl⟩
      by_cases hk : ∃ a', (key b, a') ∈ flipped key new
      · obtain ⟨a', hmem⟩ := hk
        obtain ⟨b', hb', hkey⟩ := mem_flipped.mp hmem
        rw [hwritten hdistinct (key b) a' hmem,
          hdistinct a' a b' b (hnew a' b' hb') hb hkey]
      · rw [hnot (key b) hk]
        refine (hold a b hb).resolve_left fun hmem => hk ⟨a, mem_flipped.mpr ⟨b, hmem, rfl⟩⟩

/-- **Removing an object and its key.** -/
theorem Inverse.erase (h : Inverse key m r) {a : α} {b : β} (ha : m.get a = some b) :
    Inverse key (m.erase a) (r.erase (key b)) := by
  intro k a'
  rw [get_erase, get_erase]
  by_cases hk : k = key b
  · rw [if_pos hk]
    constructor
    · intro hnone
      exact nomatch hnone
    · rintro ⟨b', hb', hkey⟩
      split_ifs at hb' with heq
      exact absurd (h.distinct a' a b' b hb' ha (hkey.trans hk)) heq
  · rw [if_neg hk, h k a']
    by_cases heq : a' = a
    · rw [if_pos heq]
      constructor
      · rintro ⟨b', hb', hkey⟩
        rw [heq, ha, Option.some.injEq] at hb'
        exact absurd (hb' ▸ hkey).symm hk
      · rintro ⟨b', hnone, -⟩
        exact nomatch hnone
    · rw [if_neg heq]

theorem Inverse.insert_of_key_eq (h : Inverse key m r) {a : α} {b b' : β} (ha : m.get a = some b)
    (hkey : key b' = key b) : Inverse key (m.insert a b') r := by
  intro k a'
  rw [h k a', get_insert]
  by_cases heq : a' = a
  · rw [if_pos heq, heq, ha]
    simp [hkey]
  · rw [if_neg heq]

/-- **Writing the items of one map over those of another**, keys included. An object that was there
before has its key written over exactly when it gets a new item itself. -/
theorem Inverse.update_iff (h : Inverse key m r) (new : OrdMap α β) :
    Inverse key (m.update new) (r.insertPairs (flipped key new)) ↔
      Distinct key new ∧ ∀ a b, m.get a = some b →
        ((∃ a' b', new.get a' = some b' ∧ key b' = key b) ↔ a ∈ new) := by
  have hnew : ∀ a b, new.get a = some b → (m.update new).get a = some b := by
    intro a b hb
    rw [get_update, hb]
    rfl
  have hget : ∀ a b, (m.update new).get a = some b →
      new.get a = some b ∨ new.get a = none ∧ m.get a = some b := by
    intro a b hb
    rw [get_update] at hb
    cases hn : new.get a with
    | none => exact .inr ⟨rfl, by rwa [hn] at hb⟩
    | some b' => exact .inl (by rwa [hn] at hb)
  rw [inverse_overlay_iff hnew fun a b hb => (hget a b hb).imp_right fun hm => h.get_key hm.2]
  constructor
  · rintro ⟨hdistinct, hstale⟩
    refine ⟨fun a a' b b' hb hb' => hdistinct a a' b b' (hnew a b hb) (hnew a' b' hb'), ?_⟩
    intro a b hb
    constructor
    · -- an old object that keeps its item does not share its key with a new one
      rintro ⟨a', b', hb', hkey⟩
      by_contra hnot
      rw [mem_iff_isSome, Bool.not_eq_true, Option.isSome_eq_false_iff, Option.isNone_iff_eq_none]
        at hnot
      have hkept : (m.update new).get a = some b := by rw [get_update, hnot, hb]; rfl
      rw [hdistinct a' a b' b (hnew a' b' hb') hkept hkey, hnot] at hb'
      exact nomatch hb'
    · intro hmem
      obtain ⟨b', hb'⟩ := Option.isSome_iff_exists.mp ((mem_iff_isSome new a).mp hmem)
      rcases hstale (key b) a (h.get_key hb) with ⟨a', ha'⟩ | ⟨b'', hb'', hkey⟩
      · obtain ⟨b'', hb'', hkey⟩ := mem_flipped.mp ha'
        exact ⟨a', b'', hb'', hkey⟩
      · rw [hnew a b' hb', Option.some.injEq] at hb''
        exact ⟨a, b', hb', hb'' ▸ hkey⟩
  · rintro ⟨hdistinct, hfree⟩
    have hapart : ∀ a a' b b', new.get a = some b → new.get a' = none → m.get a' = some b' →
        key b ≠ key b' := by
      intro a a' b b' hb hnone hb' hkey
      have hmem := (hfree a' b' hb').mp ⟨a, b, hb, hkey⟩
      rw [mem_iff_isSome, hnone] at hmem
      exact nomatch hmem
    constructor
    · intro a a' b b' hb hb' hkey
      rcases hget a b hb with hn | ⟨hn, hm⟩
      · rcases hget a' b' hb' with hn' | ⟨hn', hm'⟩
        · exact hdistinct a a' b b' hn hn' hkey
        · exact absurd hkey (hapart a a' b b' hn hn' hm')
      · rcases hget a' b' hb' with hn' | ⟨hn', hm'⟩
        · exact absurd hkey.symm (hapart a' a b' b hn' hn hm)
        · exact h.distinct a a' b b' hm hm' hkey
    · intro k a hk
      obtain ⟨b, hb, hkey⟩ := (h k a).mp hk
      cases hn : new.get a with
      | none => exact .inr ⟨b, by rw [get_update, hn, hb]; rfl, hkey⟩
      | some b' =>
        obtain ⟨a', b'', hb'', hkey'⟩ := (hfree a b hb).mpr (by rw [mem_iff_isSome, hn]; rfl)
        exact .inl ⟨a', mem_flipped.mpr ⟨b'', hb'', hkey'.trans hkey⟩⟩

end OrdMap
