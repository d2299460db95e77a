import Mathlib.Order.Defs.LinearOrder
import Mathlib.Data.List.Pairwise
import Mathlib.Tactic

set_option autoImplicit false

/-! # Ordered maps

A finite map kept as a list of pairs in strictly increasing order of the keys: the iteration
order of a search tree, with nothing of its balancing. A key occurs once, the first entry has
the least key, and two maps with the same lookups are equal (`OrdMap.ext_get`).

Every operation is described by what it does to lookups (`get_insert`, `get_erase`,
`get_filter`); a development that uses the map reasons one key at a time.
-/

/-- A map with its entries in strictly increasing order of the keys. -/
structure OrdMap (α β : Type) [LinearOrder α] where
  entries : List (α × β)
  sorted : entries.Pairwise (fun a b => a.1 < b.1)

namespace OrdMap

open List

variable {α β : Type} [LinearOrder α]

instance [DecidableEq β] : DecidableEq (OrdMap α β) := fun m n =>
  decidable_of_iff (m.entries = n.entries) (by cases m; cases n; simp)

def empty : OrdMap α β := ⟨[], List.Pairwise.nil⟩

instance : Inhabited (OrdMap α β) := ⟨empty⟩

/-- The value in the first pair of a list with the given key. -/
def lookup (k : α) : List (α × β) → Option β
  | [] => none
  | e :: l => if e.1 = k then some e.2 else lookup k l

def get (m : OrdMap α β) (k : α) : Option β := lookup k m.entries

@[simp] theorem get_empty (k : α) : (empty : OrdMap α β).get k = none := rfl

/-! ## Entries and lookups -/

variable {l : List (α × β)} {m : OrdMap α β} {γ : Type} {k : α} {v : β}

theorem lookup_eq_none (h : ∀ e ∈ l, e.1 ≠ k) : lookup k l = none := by
  induction l with
  | nil => rfl
  | cons e l ih =>
    rw [lookup, if_neg (h e (by simp))]
    exact ih (fun e' he' => h e' (by simp [he']))

/-- In a sorted list the pair found under a key is the only one with that key. -/
theorem mem_iff_lookup (hl : l.Pairwise (fun a b => a.1 < b.1)) (k : α) (v : β) :
    (k, v) ∈ l ↔ lookup k l = some v := by
  induction l with
  | nil => simp [lookup]
  | cons e l ih =>
    obtain ⟨hhead, htail⟩ := pairwise_cons.mp hl
    rw [List.mem_cons, ih htail, lookup]
    by_cases hk : e.1 = k
    · have hnone : lookup k l = none :=
        lookup_eq_none (fun e' he' => by
          rw [← hk]
          exact (hhead e' he').ne')
      rw [if_pos hk, hnone]
      constructor
      · rintro (h | h)
        · rw [← h]
        · simp at h
      · intro h
        refine .inl (Prod.ext hk.symm ?_)
        simpa using h.symm
    · rw [if_neg hk]
      constructor
      · rintro (h | h)
        · exact absurd (by rw [← h]) hk
        · exact h
      · exact .inr

theorem mem_entries_iff (m : OrdMap α β) (k : α) (v : β) : (k, v) ∈ m.entries ↔ m.get k = some v :=
  mem_iff_lookup m.sorted k v

theorem entries_ne_nil (h : m.get k = some v) : m.entries ≠ [] :=
  ne_nil_of_mem ((mem_entries_iff m k v).mpr h)

theorem nodup_entries (m : OrdMap α β) : m.entries.Nodup :=
  m.sorted.imp fun hab heq => absurd (congrArg Prod.fst heq) hab.ne

/-- **Maps with the same lookups are equal.** -/
theorem ext_get {n : OrdMap α β} (h : ∀ k, m.get k = n.get k) : m = n := by
  -- two sorted lists with the same members are equal
  have hperm : m.entries.Perm n.entries := by
    refine (perm_ext_iff_of_nodup m.nodup_entries n.nodup_entries).mpr ?_
    rintro ⟨k, v⟩
    rw [mem_entries_iff, mem_entries_iff, h]
  have heq : m.entries = n.entries :=
    hperm.eq_of_pairwise (fun a b _ _ hab hba => absurd hab hba.not_gt) m.sorted n.sorted
  exact (OrdMap.mk.injEq ..).mpr heq

/-! ## Changing a map -/

/-- Insertion into a sorted list, replacing the pair with the same key. -/
def insertEntry (k : α) (v : β) : List (α × β) → List (α × β)
  | [] => [(k, v)]
  | e :: l =>
    if k < e.1 then (k, v) :: e :: l
    else if k = e.1 then (k, v) :: l
    else e :: insertEntry k v l

theorem mem_insertEntry {e : α × β} (h : e ∈ insertEntry k v l) : e = (k, v) ∨ e ∈ l := by
  induction l with
  | nil => simpa [insertEntry] using h
  | cons e' l ih =>
    rw [insertEntry] at h
    split_ifs at h with h1 h2
    · simpa using h
    · rcases List.mem_cons.mp h with rfl | h
      · exact .inl rfl
      · exact .inr (mem_cons_of_mem _ h)
    · rcases List.mem_cons.mp h with rfl | h
      · exact .inr (mem_cons_self)
      · rcases ih h with h | h
        · exact .inl h
        · exact .inr (mem_cons_of_mem _ h)

theorem sorted_insertEntry (k : α) (v : β) (hl : l.Pairwise (fun a b => a.1 < b.1)) :
    (insertEntry k v l).Pairwise (fun a b => a.1 < b.1) := by
  induction l with
  | nil => simp [insertEntry]
  | cons e l ih =>
    obtain ⟨hhead, htail⟩ := pairwise_cons.mp hl
    rw [insertEntry]
    split_ifs with h1 h2
    · refine pairwise_cons.mpr ⟨?_, hl⟩
      intro e' he'
      rcases List.mem_cons.mp he' with rfl | he'
      · exact h1
      · exact h1.trans (hhead e' he')
    · refine pairwise_cons.mpr ⟨?_, htail⟩
      intro e' he'
      show k < e'.1
      rw [h2]
      exact hhead e' he'
    · have hlt : e.1 < k := lt_of_le_of_ne (not_lt.mp h1) (Ne.symm h2)
      refine pairwise_cons.mpr ⟨?_, ih htail⟩
      intro e' he'
      rcases mem_insertEntry he' with rfl | he'
      · exact hlt
      · exact hhead e' he'

/-- `m[k] = v`. -/
def insert (m : OrdMap α β) (k : α) (v : β) : OrdMap α β :=
  ⟨insertEntry k v m.entries, sorted_insertEntry k v m.sorted⟩

theorem lookup_insertEntry (k k' : α) (v : β) (l : List (α × β)) :
    lookup k' (insertEntry k v l) = if k' = k then some v else lookup k' l := by
  induction l with
  | nil =>
    by_cases h : k' = k
    · simp [insertEntry, lookup, h]
    · simp [insertEntry, lookup, h, Ne.symm h]
  | cons e l ih =>
    rw [insertEntry]
    split_ifs with h1 h2 h3 h4 h5 <;> simp_all [lookup, eq_comm]

/-- **Lookups after an insertion.** -/
theorem get_insert (m : OrdMap α β) (k k' : α) (v : β) :
    (m.insert k v).get k' = if k' = k then some v else m.get k' :=
  lookup_insertEntry k k' v m.entries

def filter (m : OrdMap α β) (p : α → β → Bool) : OrdMap α β :=
  ⟨m.entries.filter (fun e => p e.1 e.2), m.sorted.filter _⟩

/-- **Lookups after filtering.** -/
theorem get_filter (m : OrdMap α β) (p : α → β → Bool) (k : α) :
    (m.filter p).get k = (m.get k).filter (p k) := by
  ext v
  rw [← mem_entries_iff, filter, mem_filter, mem_entries_iff, Option.filter_eq_some_iff]

def mapVal {γ : Type} (m : OrdMap α β) (f : α → β → γ) : OrdMap α γ :=
  ⟨m.entries.map fun e => (e.1, f e.1 e.2), pairwise_map.mpr m.sorted⟩

theorem get_mapVal (m : OrdMap α β) (f : α → β → γ) (k : α) :
    (m.mapVal f).get k = (m.get k).map (f k) := by
  ext w
  simp only [← mem_entries_iff, mapVal, mem_map, Option.map_eq_some_iff]
  constructor
  · rintro ⟨⟨k', v⟩, hmem, heq⟩
    cases heq
    exact ⟨v, hmem, rfl⟩
  · rintro ⟨v, hmem, rfl⟩
    exact ⟨(k, v), hmem, rfl⟩

def erase (m : OrdMap α β) (k : α) : OrdMap α β := m.filter (fun k' _ => k' ≠ k)

/-- **Lookups after an erasure.** -/
theorem get_erase (m : OrdMap α β) (k k' : α) :
    (m.erase k).get k' = if k' = k then none else m.get k' := by
  rw [erase, get_filter]
  by_cases h : k' = k
  · simp [h]
  · rw [if_neg h]
    cases m.get k' with
    | none => rfl
    | some v => simp [h]

/-- **Lookups after a list of erasures.** -/
theorem get_foldl_erase (f : γ → α) (l : List γ) (m : OrdMap α β) (k : α) :
    (l.foldl (fun m c => m.erase (f c)) m).get k = if ∃ c ∈ l, f c = k then none else m.get k := by
  induction l generalizing m with
  | nil => simp
  | cons c l ih =>
    rw [foldl_cons, ih, get_erase]
    by_cases hc : f c = k
    · simp [hc]
    · simp [hc, Ne.symm hc]

/-! Where a place in the entries is known, the entries after a change are too. -/

/-- Below the entry of a key are the smaller keys, after it the greater ones. -/
theorem lt_of_entries_eq {e : α × β} {r : List (α × β)} (h : m.entries = l ++ e :: r) :
    (∀ e' ∈ l, e'.1 < e.1) ∧ ∀ e' ∈ r, e.1 < e'.1 := by
  have hsorted := m.sorted
  rw [h, pairwise_append, pairwise_cons] at hsorted
  exact ⟨fun e' he' => hsorted.2.2 e' he' e (by simp), hsorted.2.1.1⟩

theorem nodup_cons_erase (m : OrdMap α β) (k : α) (v : β) :
    ((k, v) :: (m.erase k).entries).Nodup := by
  refine nodup_cons.mpr ⟨?_, nodup_entries _⟩
  rw [mem_entries_iff, get_erase, if_pos rfl]
  exact fun h => nomatch h

theorem entries_perm_of_get (h : m.get k = some v) :
    m.entries.Perm ((k, v) :: (m.erase k).entries) := by
  refine (perm_ext_iff_of_nodup m.nodup_entries (m.nodup_cons_erase k v)).mpr ?_
  rintro ⟨k', v'⟩
  rw [List.mem_cons, mem_entries_iff, mem_entries_iff, get_erase, Prod.mk.injEq]
  split_ifs with hk
  · rw [hk, h]
    simp [eq_comm]
  · simp [hk]

theorem erase_of_get_eq_none (h : m.get k = none) : m.erase k = m := by
  apply ext_get
  intro k'
  rw [get_erase]
  split
  · next hk => rw [hk, h]
  · rfl

theorem entries_insert_perm (m : OrdMap α β) (k : α) (v : β) :
    (m.insert k v).entries.Perm ((k, v) :: (m.erase k).entries) := by
  have hget : (m.insert k v).get k = some v := by rw [get_insert, if_pos rfl]
  have herase : (m.insert k v).erase k = m.erase k := by
    apply ext_get
    intro k'
    rw [get_erase, get_erase]
    split
    · rfl
    · next hk => rw [get_insert, if_neg hk]
  rw [← herase]
  exact entries_perm_of_get hget

/-- Insert every pair of a list, later ones over earlier ones. -/
def insertPairs (m : OrdMap α β) (l : List (α × β)) : OrdMap α β :=
  l.foldl (fun n e => n.insert e.1 e.2) m

/-- **Lookups after inserting pairs with different keys.** -/
theorem get_insertPairs (m : OrdMap α β) (hl : l.Pairwise (fun a b => a.1 ≠ b.1)) (k : α) :
    (m.insertPairs l).get k = (lookup k l).or (m.get k) := by
  induction l generalizing m with
  | nil => rfl
  | cons e l ih =>
    obtain ⟨hhead, htail⟩ := pairwise_cons.mp hl
    show ((m.insert e.1 e.2).insertPairs l).get k = _
    rw [ih _ htail, get_insert, lookup]
    by_cases hk : e.1 = k
    · have hnone : lookup k l = none := lookup_eq_none fun e' he' h' =>
        hhead e' he' (hk.trans h'.symm)
      rw [if_pos hk, if_pos hk.symm, hnone]
      rfl
    · rw [if_neg hk, if_neg (Ne.symm hk)]

/-- A key that no pair has keeps its value, whatever order the pairs come in. -/
theorem get_insertPairs_of_forall_ne (m : OrdMap α β) (h : ∀ e ∈ l, e.1 ≠ k) :
    (m.insertPairs l).get k = m.get k := by
  induction l generalizing m with
  | nil => rfl
  | cons e l ih =>
    show ((m.insert e.1 e.2).insertPairs l).get k = _
    rw [ih _ fun e' he' => h e' (mem_cons_of_mem _ he'), get_insert,
      if_neg (Ne.symm (h e mem_cons_self))]

theorem get_insertPairs_of_mem (m : OrdMap α β) (hmem : (k, v) ∈ l)
    (hval : ∀ e ∈ l, e.1 = k → e.2 = v) : (m.insertPairs l).get k = some v := by
  induction l generalizing m with
  | nil => simp at hmem
  | cons e l ih =>
    show ((m.insert e.1 e.2).insertPairs l).get k = _
    have hval' : ∀ e' ∈ l, e'.1 = k → e'.2 = v := fun e' he' =>
      hval e' (mem_cons_of_mem _ he')
    by_cases hlater : (k, v) ∈ l
    · exact ih _ hlater hval'
    · have heq : e = (k, v) := ((List.mem_cons.mp hmem).resolve_right hlater).symm
      have hfree : ∀ e' ∈ l, e'.1 ≠ k := fun e' he' hk =>
        hlater (by rwa [← Prod.ext (x := e') (y := (k, v)) hk (hval' e' he' hk)])
      rw [get_insertPairs_of_forall_ne _ hfree, heq, get_insert, if_pos rfl]

theorem mem_or_of_get_insertPairs (h : (m.insertPairs l).get k = some v) :
    (k, v) ∈ l ∨ m.get k = some v := by
  induction l generalizing m with
  | nil => exact .inr h
  | cons e l ih =>
    rcases ih (show ((m.insert e.1 e.2).insertPairs l).get k = some v from h) with hmem | hget
    · exact .inl (mem_cons_of_mem _ hmem)
    · rw [get_insert] at hget
      split_ifs at hget with hk
      · refine .inl (List.mem_cons.mpr (.inl ?_))
        rw [hk, ← Option.some.inj hget]
      · exact .inr hget

/-- The entries of another map are put over those of this one. -/
def update (m n : OrdMap α β) : OrdMap α β := m.insertPairs n.entries

/-- **Lookups after an update.** -/
theorem get_update (m n : OrdMap α β) (k : α) : (m.update n).get k = (n.get k).or (m.get k) :=
  m.get_insertPairs (n.sorted.imp fun h => h.ne) k

/-! ## Keys -/

/-- The keys in increasing order. -/
def keys (m : OrdMap α β) : List α := m.entries.map Prod.fst

instance : Membership α (OrdMap α β) := ⟨fun m k => (m.get k).isSome⟩

instance (m : OrdMap α β) (k : α) : Decidable (k ∈ m) :=
  inferInstanceAs (Decidable ((m.get k).isSome = true))

theorem mem_iff_isSome (m : OrdMap α β) (k : α) : k ∈ m ↔ (m.get k).isSome := Iff.rfl

theorem mem_keys_iff (m : OrdMap α β) (k : α) : k ∈ m.keys ↔ k ∈ m := by
  rw [mem_iff_isSome, Option.isSome_iff_exists, keys, mem_map]
  constructor
  · rintro ⟨⟨k', v⟩, hmem, rfl⟩
    exact ⟨v, (m.mem_entries_iff k' v).mp hmem⟩
  · rintro ⟨v, hv⟩
    exact ⟨(k, v), (m.mem_entries_iff k v).mpr hv, rfl⟩

theorem not_mem_empty (k : α) : k ∉ (empty : OrdMap α β) := by
  rw [mem_iff_isSome, get_empty]
  simp

theorem not_mem_of_entries_eq_nil (h : m.entries = []) (k : α) : k ∉ m := by
  rw [← mem_keys_iff, keys, h]
  simp

theorem mem_insert (m : OrdMap α β) (k k' : α) (v : β) : k' ∈ m.insert k v ↔ k' = k ∨ k' ∈ m := by
  rw [mem_iff_isSome, get_insert, mem_iff_isSome]
  by_cases h : k' = k
  · simp [h]
  · simp [h]

theorem nodup_keys (m : OrdMap α β) : m.keys.Nodup :=
  pairwise_map.mpr (m.sorted.imp fun hab => hab.ne)

theorem length_entries_eq {n : OrdMap α γ} (h : ∀ k, k ∈ m ↔ k ∈ n) :
    m.entries.length = n.entries.length := by
  have hperm : m.keys.Perm n.keys := by
    refine (perm_ext_iff_of_nodup m.nodup_keys n.nodup_keys).mpr fun k => ?_
    rw [mem_keys_iff, mem_keys_iff, h]
  simpa [keys] using hperm.length_eq

/-- Insertion that keeps the value of a key already present. -/
def insertNew (m : OrdMap α β) (k : α) (v : β) : OrdMap α β :=
  if k ∈ m then m else m.insert k v

theorem mem_insertNew (m : OrdMap α β) (k k' : α) (v : β) :
    k' ∈ m.insertNew k v ↔ k' = k ∨ k' ∈ m := by
  unfold insertNew
  split_ifs with h
  · exact ⟨.inr, fun hk => hk.elim (fun he => he ▸ h) id⟩
  · rw [mem_insert]

theorem get_insertNew (m : OrdMap α β) (k k' : α) (v : β) :
    (m.insertNew k v).get k' = (m.get k').or (if k' = k then some v else none) := by
  unfold insertNew
  by_cases h : k ∈ m
  · rw [if_pos h]
    by_cases hk : k' = k
    · obtain ⟨w, hw⟩ := Option.isSome_iff_exists.mp ((mem_iff_isSome m k).mp h)
      rw [hk, hw, Option.some_or]
    · rw [if_neg hk, Option.or_none]
  · rw [if_neg h, get_insert]
    by_cases hk : k' = k
    · have hnone : m.get k = none := by simpa [mem_iff_isSome] using h
      rw [if_pos hk, if_pos hk, hk, hnone, Option.none_or]
    · rw [if_neg hk, if_neg hk, Option.or_none]

/-- **Lookups after a list of insertions that keep what is there**: the first one counts. -/
theorem get_foldl_insertNew (f : γ → α) (g : γ → β) (l : List γ) (m : OrdMap α β) (k : α) :
    (l.foldl (fun m c => m.insertNew (f c) (g c)) m).get k =
      (m.get k).or ((l.find? fun c => decide (f c = k)).map g) := by
  induction l generalizing m with
  | nil => simp
  | cons c l ih =>
    rw [foldl_cons, ih, get_insertNew, Option.or_assoc, find?_cons]
    by_cases hc : f c = k
    · simp [hc]
    · simp [hc, Ne.symm hc]

end OrdMap

/-! ## Sets -/

/-- A set with its elements in increasing order: the keys of a map without values. -/
abbrev OrdSet (α : Type) [LinearOrder α] := OrdMap α Unit

namespace OrdMap

variable {α : Type} [LinearOrder α]

theorem ext_mem {s t : OrdSet α} (h : ∀ k, k ∈ s ↔ k ∈ t) : s = t := by
  refine OrdMap.ext_get fun k => ?_
  ext ⟨⟩
  simpa [OrdMap.mem_iff_isSome, Option.isSome_iff_exists, Unique.exists_iff] using h k

def insertAll (s : OrdSet α) (l : List α) : OrdSet α := l.foldl (fun t k => t.insert k ()) s

theorem mem_insertAll (s : OrdSet α) (l : List α) (k : α) : k ∈ s.insertAll l ↔ k ∈ s ∨ k ∈ l := by
  induction l generalizing s with
  | nil => simp [insertAll]
  | cons a l ih =>
    show k ∈ (s.insert a ()).insertAll l ↔ _
    rw [ih, OrdMap.mem_insert, List.mem_cons]
    tauto

end OrdMap
