import Ceph.BlueStore.CollectionList

set_option autoImplicit false

/-! # When a list of a collection is complete

The pages of `_collection_list` are pages of one list: the temporary objects of the group in the
order of their keys, then the others (`listAll`). A page begins where its cursor stands in the
list, with one exception: the object `get_min_hobj` stands for the beginning. So the list is read
to its end unless another object comes before that one, and it is complete unless an object has
the hash that the ranges leave out.
-/

namespace Ceph.BlueStore

open OrdMap List LexCode Osd

/-! ## The whole list -/

variable {a b cursor o start x : Ghobject} {it : List Bytes} {l pre suf : List Ghobject}

section

variable {db : ObjectKeys} {c : Collection} {pgid : Pg} {shard : Int8}

/-- The object has a key in the store. -/
def StoredIn (db : ObjectKeys) (o : Ghobject) : Prop :=
  ∃ key, getObjectKey o = some key ∧ key ∈ db.keys

theorem storedIn_iff (o : Ghobject) : StoredIn db o ↔ o.Regular ∧ objectKey o ∈ db.keys.keys := by
  rw [mem_keys_iff]
  constructor
  · rintro ⟨key, hkey, hmem⟩
    obtain ⟨hreg, rfl⟩ := getObjectKey_eq_some_iff.mp hkey
    exact ⟨hreg, hmem⟩
  · rintro ⟨hreg, hmem⟩
    exact ⟨_, getObjectKey_eq_some hreg, hmem⟩

/-- The key of the object is in one of the two ranges of the collection. -/
def InTempRange (c : Collection) (o : Ghobject) : Prop :=
  (getCollKeyRange c.cid c.bits).tempStart ≤ objectKey o ∧
    objectKey o < (getCollKeyRange c.cid c.bits).tempEnd

@[inherit_doc InTempRange]
def InMainRange (c : Collection) (o : Ghobject) : Prop :=
  (getCollKeyRange c.cid c.bits).start ≤ objectKey o ∧
    objectKey o < (getCollKeyRange c.cid c.bits).stop

theorem mem_objectsBelow {pend : Bytes} (hit : it.Sublist db.keys.keys) : o ∈ objectsBelow pend it ↔
      o.Regular ∧ objectKey o ∈ it ∧ objectKey o < pend := by
  rw [objectsBelow, mem_filterMap]
  constructor
  · rintro ⟨k, hk, hok⟩
    obtain ⟨hk, hlt⟩ := mem_filter.mp hk
    obtain ⟨hreg, rfl⟩ := (db.objectOf_eq_some_iff (hit.subset hk)).mp hok
    exact ⟨hreg, hk, of_decide_eq_true hlt⟩
  · rintro ⟨hreg, hk, hlt⟩
    exact ⟨objectKey o, mem_filter.mpr ⟨hk, decide_eq_true hlt⟩, objectOf_objectKey hreg⟩

theorem objectsBelow_sorted {pend : Bytes} (hit : it.Sublist db.keys.keys) :
    (objectsBelow pend it).Pairwise fun a b => objectKey a < objectKey b := by
  have hsub : (it.filter fun k => k < pend).Sublist db.keys.keys := filter_sublist.trans hit
  refine pairwise_filterMap.mpr ((db.sorted.sublist hsub).imp_of_mem ?_)
  intro k k' hk hk' hlt o ho o' ho'
  obtain ⟨-, rfl⟩ := (db.objectOf_eq_some_iff (hsub.subset hk)).mp ho
  obtain ⟨-, rfl⟩ := (db.objectOf_eq_some_iff (hsub.subset hk')).mp ho'
  exact hlt

theorem objectKey_ne_bound (o : Ghobject) (shard : Int8) (pool : UInt64) (v : UInt32) :
    keyEncodeShard shard ++ keyEncodeU64 pool ++ keyEncodeU32 v ≠ objectKey o := by
  intro heq
  have hlen := congrArg List.length heq
  simp only [objectKey, appendEscaped, keyEncodeShard, keyEncodeU64, keyEncodeU32,
    length_append, bigEndian_length, length_singleton] at hlen
  omega

/-- Before the first object of the group. -/
def listAll (db : ObjectKeys) (c : Collection) : List Ghobject :=
  listFrom db c true (db.upperBound (getCollKeyRange c.cid c.bits).tempStart)

theorem mem_upperBound {k lo : Bytes} : k ∈ db.upperBound lo ↔ k ∈ db.keys.keys ∧ lo < k := by
  rw [db.upperBound_eq, mem_filter, decide_eq_true_eq]

theorem upperBound_sublist (lo : Bytes) : (db.upperBound lo).Sublist db.keys.keys :=
  dropWhile_sublist _

theorem lowerBound_sublist (lo : Bytes) : (db.lowerBound lo).Sublist db.keys.keys :=
  dropWhile_sublist _

theorem listAll_eq : listAll db c =
    objectsBelow (getCollKeyRange c.cid c.bits).tempEnd
        (db.upperBound (getCollKeyRange c.cid c.bits).tempStart) ++
      objectsBelow (getCollKeyRange c.cid c.bits).stop
        (db.upperBound (getCollKeyRange c.cid c.bits).start) := by
  rw [listAll, listFrom, if_pos rfl]

/-- No object has the key where a range starts. -/
theorem mem_range_iff {lo hi : Bytes} (hne : lo ≠ objectKey o) :
    o ∈ objectsBelow hi (db.upperBound lo) ↔
      StoredIn db o ∧ lo ≤ objectKey o ∧ objectKey o < hi := by
  rw [mem_objectsBelow (upperBound_sublist _), mem_upperBound, storedIn_iff, lt_iff_le_and_ne]
  tauto

/-- One object is listed before another: temporary objects first, then by key. -/
def ListedBefore (a b : Ghobject) : Prop :=
  (a.hobj.isTemp = true ∧ b.hobj.isTemp = false) ∨
    (a.hobj.isTemp = b.hobj.isTemp ∧ objectKey a < objectKey b)

theorem ListedBefore.asymm (h : ListedBefore a b) : ¬ ListedBefore b a := by
  rcases h with ⟨ha, hb⟩ | ⟨heq, hlt⟩
  · rintro (⟨hb', -⟩ | ⟨heq', -⟩)
    · simp [hb] at hb'
    · simp [ha, hb] at heq'
  · rintro (⟨hb, ha⟩ | ⟨-, hlt'⟩)
    · simp [ha, hb] at heq
    · exact lt_asymm hlt hlt'

theorem ListedBefore.ne (h : ListedBefore a b) : a ≠ b := by
  rintro rfl
  exact h.asymm h

/-! ## Where a page goes on -/

theorem objectsBelow_lowerBound {lo pend : Bytes}
    (heq : objectsBelow pend (db.upperBound lo) = pre ++ x :: suf) :
    objectsBelow pend (db.lowerBound (objectKey x)) = x :: suf := by
  have hx : x ∈ objectsBelow pend (db.upperBound lo) := by
    rw [heq]
    exact mem_append_right _ mem_cons_self
  obtain ⟨-, hmem, -⟩ := (mem_objectsBelow (upperBound_sublist lo)).mp hx
  have hlo : lo < objectKey x := (mem_upperBound.mp hmem).2
  -- both are filters of the keys, and the keys from the one of `x` on are among those above `lo`
  have hfilter : (db.lowerBound (objectKey x)).filter (fun k => k < pend) =
      ((db.upperBound lo).filter fun k => k < pend).filter fun k => objectKey x ≤ k := by
    rw [db.lowerBound_eq, db.upperBound_eq, filter_filter, filter_filter,
      filter_filter]
    refine filter_congr fun k _ => ?_
    by_cases hk : objectKey x ≤ k
    · simp [hk, hlo.trans_le hk]
    · simp [hk]
  have hobjects : objectsBelow pend (db.lowerBound (objectKey x)) =
      (objectsBelow pend (db.upperBound lo)).filter fun o => objectKey x ≤ objectKey o := by
    rw [objectsBelow, hfilter, objectsBelow, filterMap_filter, filter_filterMap]
    refine filterMap_congr fun k hk => ?_
    have hk : k ∈ db.keys.keys := (upperBound_sublist lo).subset (mem_of_mem_filter hk)
    cases hok : objectOf k with
    | none => simp
    | some o =>
      obtain ⟨-, rfl⟩ := (db.objectOf_eq_some_iff hk).mp hok
      by_cases hle : objectKey x ≤ objectKey o <;> simp [hle, Option.filter]
  have hsorted : (pre ++ x :: suf).Pairwise fun a b => objectKey a < objectKey b :=
    heq ▸ objectsBelow_sorted (upperBound_sublist lo)
  obtain ⟨-, hxsuf, hpre⟩ := pairwise_append.mp hsorted
  have hsuf := (pairwise_cons.mp hxsuf).1
  have hnone : pre.filter (fun o => objectKey x ≤ objectKey o) = [] := by
    refine filter_eq_nil_iff.mpr fun o ho => ?_
    simpa using hpre o ho x mem_cons_self
  have hall : (x :: suf).filter (fun o => objectKey x ≤ objectKey o) = x :: suf := by
    refine filter_eq_self.mpr fun o ho => ?_
    rcases mem_cons.mp ho with rfl | ho
    · simp
    · simpa using (hsuf o ho).le
  rw [hobjects, heq, filter_append, hnone, hall, nil_append]

theorem append_eq_append_cons {α : Type} {l r pre suf : List α} {x : α}
    (heq : l ++ r = pre ++ x :: suf) :
    (∃ mid, r = mid ++ x :: suf) ∨ ∃ mid, l = pre ++ x :: mid ∧ suf = mid ++ r := by
  rcases append_eq_append_iff.mp heq with ⟨mid, -, hr⟩ | ⟨mid, hl, hr⟩
  · exact .inl ⟨mid, hr⟩
  · cases mid with
    | nil => exact .inl ⟨[], hr.symm⟩
    | cons y mid =>
      obtain ⟨rfl, rfl⟩ := List.cons.inj hr
      exact .inr ⟨mid, hl, rfl⟩

theorem listStart_bound {temp : Bool} (hstart : listStart db c start = .ok (temp, it)) :
    it.Sublist db.keys.keys ∧ ∀ k ∈ it, (if temp then (getCollKeyRange c.cid c.bits).tempStart
      else (getCollKeyRange c.cid c.bits).start) ≤ k := by
  have hlower : ∀ {lo key : Bytes}, lo ≤ key → ∀ k ∈ db.lowerBound key, lo ≤ k := by
    intro lo key hle k hk
    rw [db.lowerBound_eq] at hk
    exact hle.trans (of_decide_eq_true (mem_filter.mp hk).2)
  rw [listStart] at hstart
  by_cases hfirst : start = Ghobject.default ∨ start.hobj = Hobject.default ∨
      start = c.cid.getMinHobj
  · rw [if_pos hfirst] at hstart
    cases hstart
    exact ⟨upperBound_sublist _, fun k hk => (mem_upperBound.mp hk).2.le⟩
  · rw [if_neg hfirst] at hstart
    cases hkey : getObjectKey start with
    | none => simp [hkey] at hstart
    | some key =>
      simp only [hkey] at hstart
      split_ifs at hstart with htemp hin hin
      · cases hstart
        exact ⟨lowerBound_sublist _, hlower hin.1⟩
      · cases hstart
        exact ⟨lowerBound_sublist _, hlower hin.1⟩

/-! ## Listing everything -/

/-- Every way to list the collection page by page comes to an end, and lists every object of the
group that is stored once, and nothing else. -/
def ListsExactly (db : ObjectKeys) (c : Collection) (pgid : Pg) (shard : Int8)
    (start : Ghobject) : Prop :=
  ∀ sizes : ℕ → ℕ, (∀ k, 0 < sizes k) → ∃ k l, listPages db c start sizes k =
    some (l, Ghobject.getMax) ∧ l.Nodup ∧ ∀ o, o ∈ l ↔ StoredIn db o ∧ Holds c pgid shard o

/-- What the store must not hold: an object of the group with the hash `0xffffffff`; and the
object `get_min_hobj`, unless it is the first of the group. -/
structure Listable (db : ObjectKeys) (c : Collection) (pgid : Pg) (shard : Int8) : Prop where
  hash : ∀ o, StoredIn db o → Holds c pgid shard o → o.hobj.hash ≠ 0xffffffff
  first : StoredIn db c.cid.getMinHobj → Holds c pgid shard c.cid.getMinHobj →
    ∀ o, StoredIn db o → Holds c pgid shard o → ¬ ListedBefore o c.cid.getMinHobj

/-- A cursor and what is left to list. -/
def Stands (db : ObjectKeys) (c : Collection) (start : Ghobject) (cursor : Ghobject)
    (l : List Ghobject) : Prop :=
  (cursor = start ∧ l = listAll db c) ∨ (cursor = Ghobject.getMax ∧ l = []) ∨
    ∃ pre suf, listAll db c = pre ++ l ∧ l = cursor :: suf ∧ cursor ≠ c.cid.getMinHobj

theorem page_stands (hfirst : ∀ pre suf, listAll db c = pre ++ c.cid.getMinHobj :: suf → pre = [])
    (hl : listAll db c = pre ++ l) {max : ℕ} (hmax : 0 < max) :
    Stands db c start (page max l).2 (l.drop max) := by
  cases hdrop : l.drop max with
  | nil => exact .inr (.inl ⟨by simp [page, hdrop], rfl⟩)
  | cons x suf =>
    have hsplit : listAll db c = (pre ++ l.take max) ++ x :: suf := by
      rw [hl, append_assoc, ← hdrop, take_append_drop]
    refine .inr (.inr ⟨pre ++ l.take max, suf, hsplit, by simp [page, hdrop], ?_⟩)
    simp only [page, hdrop, head?_cons, Option.getD_some]
    rintro rfl
    -- something was listed before this object
    have hnil := (append_eq_nil_iff.mp (hfirst _ _ hsplit)).2
    rcases take_eq_nil_iff.mp hnil with h0 | h0
    · omega
    · simp [h0] at hdrop

theorem Stands.exists_split (hs : Stands db c start cursor l) : ∃ pre, listAll db c = pre ++ l := by
  rcases hs with ⟨-, rfl⟩ | ⟨-, rfl⟩ | ⟨pre, suf, hpre, -, -⟩
  · exact ⟨[], rfl⟩
  · exact ⟨_, (append_nil _).symm⟩
  · exact ⟨pre, hpre⟩

/-! ## The objects of a group -/

section Group

variable (h : IsPg c pgid shard)

include h

theorem inTempRange_iff (o : Ghobject) :
    InTempRange c o ↔ o.shardId = shard ∧ o.hobj.pool = Hobject.getTempPool pgid.pool.toInt64 ∧
      o.hobj.hash.toNat % 2 ^ c.bits = pgid.seed.toNat ∧ o.hobj.hash ≠ 0xffffffff := by
  rw [InTempRange, h.cid, ← toInt64_neg_two_sub]
  exact bounds_iff h (-2 - pgid.pool) o

theorem inMainRange_iff (o : Ghobject) :
    InMainRange c o ↔ o.shardId = shard ∧ o.hobj.pool = pgid.pool.toInt64 ∧
      o.hobj.hash.toNat % 2 ^ c.bits = pgid.seed.toNat ∧ o.hobj.hash ≠ 0xffffffff := by
  rw [InMainRange, h.cid]
  exact bounds_iff h pgid.pool o

/-- **The ranges hold the objects of the group, but for those with the last hash.** -/
theorem inRange_iff_holds (o : Ghobject) :
    InTempRange c o ∨ InMainRange c o ↔ Holds c pgid shard o ∧ o.hobj.hash ≠ 0xffffffff := by
  rw [inTempRange_iff h, inMainRange_iff h]
  constructor
  · rintro (⟨hshard, hpool, hhash, hlast⟩ | ⟨hshard, hpool, hhash, hlast⟩)
    · exact ⟨⟨hshard, (getLogicalPool_eq_iff h.pool _).mpr (.inr hpool), hhash⟩, hlast⟩
    · exact ⟨⟨hshard, (getLogicalPool_eq_iff h.pool _).mpr (.inl hpool), hhash⟩, hlast⟩
  · rintro ⟨⟨hshard, hpool, hhash⟩, hlast⟩
    rcases (getLogicalPool_eq_iff h.pool _).mp hpool with hpool | hpool
    · exact .inr ⟨hshard, hpool, hhash, hlast⟩
    · exact .inl ⟨hshard, hpool, hhash, hlast⟩

theorem isTemp_of_inTempRange (ho : InTempRange c o) : o.hobj.isTemp = true :=
  isTemp_of_tempPool h.pool ((inTempRange_iff h o).mp ho).2.1

theorem isTemp_of_inMainRange (ho : InMainRange c o) : o.hobj.isTemp = false :=
  isTemp_of_pool h.pool ((inMainRange_iff h o).mp ho).2.1

theorem mem_temps_iff :
    o ∈ objectsBelow (getCollKeyRange c.cid c.bits).tempEnd
        (db.upperBound (getCollKeyRange c.cid c.bits).tempStart) ↔
      StoredIn db o ∧ InTempRange c o :=
  mem_range_iff (by rw [h.cid]; exact objectKey_ne_bound o _ _ _)

theorem mem_mains_iff :
    o ∈ objectsBelow (getCollKeyRange c.cid c.bits).stop
        (db.upperBound (getCollKeyRange c.cid c.bits).start) ↔ StoredIn db o ∧ InMainRange c o :=
  mem_range_iff (by rw [h.cid]; exact objectKey_ne_bound o _ _ _)

theorem mem_listAll_iff :
    o ∈ listAll db c ↔ StoredIn db o ∧ Holds c pgid shard o ∧ o.hobj.hash ≠ 0xffffffff := by
  rw [listAll_eq, mem_append, mem_temps_iff h, mem_mains_iff h, ← and_or_left,
    inRange_iff_holds h]

theorem listAll_sorted : (listAll db c).Pairwise ListedBefore := by
  have htemps : ∀ o ∈ objectsBelow _ (db.upperBound _), o.hobj.isTemp = true := fun o ho =>
    isTemp_of_inTempRange h ((mem_temps_iff h).mp ho).2
  have hmains : ∀ o ∈ objectsBelow _ (db.upperBound _), o.hobj.isTemp = false := fun o ho =>
    isTemp_of_inMainRange h ((mem_mains_iff h).mp ho).2
  have hrange : ∀ {lo hi t}, (∀ o ∈ objectsBelow hi (db.upperBound lo), o.hobj.isTemp = t) →
      (objectsBelow hi (db.upperBound lo)).Pairwise ListedBefore := fun ht =>
    (objectsBelow_sorted (upperBound_sublist _)).imp_of_mem fun ha hb hlt =>
      .inr ⟨(ht _ ha).trans (ht _ hb).symm, hlt⟩
  rw [listAll_eq]
  exact pairwise_append.mpr ⟨hrange htemps, hrange hmains, fun a ha b hb =>
    .inl ⟨htemps a ha, hmains b hb⟩⟩

/-- An object of the group is not the default object, whose pool is no temporary one. -/
theorem hobj_ne_default (ho : o ∈ listAll db c) : o.hobj ≠ Hobject.default := by
  intro heq
  have hmin : o.hobj.pool.toInt = -2 ^ 63 := by rw [heq]; decide
  have hp := toInt_pool h.pool
  have hlt := h.pool
  rcases (getLogicalPool_eq_iff h.pool _).mp ((mem_listAll_iff h).mp ho).2.1.pool with heq' | heq'
  · rw [heq'] at hmin
    omega
  · rw [heq', toInt_getTempPool (by omega) (by omega)] at hmin
    omega

/-- **What a page from an object on holds.** -/
theorem listPage_of_split (hsplit : listAll db c = pre ++ x :: suf)
    (hx : x ≠ c.cid.getMinHobj) (max : ℕ) : listPage db c x max = some (page max (x :: suf)) := by
  have hmem : x ∈ listAll db c := by
    rw [hsplit]
    exact mem_append_right _ mem_cons_self
  have hne := hobj_ne_default h hmem
  obtain ⟨hreg, -⟩ := (storedIn_iff x).mp ((mem_listAll_iff h).mp hmem).1
  have hfirst : ¬ (x = Ghobject.default ∨ x.hobj = Hobject.default ∨ x = c.cid.getMinHobj) := by
    rintro (rfl | heq | heq)
    · exact hne rfl
    · exact hne heq
    · exact hx heq
  have hpage : ∀ temp, listStart db c x = .ok (temp, db.lowerBound (objectKey x)) →
      listFrom db c temp (db.lowerBound (objectKey x)) = x :: suf →
      listPage db c x max = some (page max (x :: suf)) := by
    intro temp hstart hfrom
    rw [listPage, collectionList_eq h.exist hreg.notMax hreg.hobjNotMax hstart
      (lowerBound_sublist _), hfrom]
    rfl
  rcases append_eq_append_cons hsplit with ⟨mid, hmains⟩ | ⟨mid, htemps, hsuf⟩
  · have hmain := ((mem_mains_iff h).mp (hmains ▸ mem_append_right _ mem_cons_self)).2
    refine hpage false ?_ ?_
    · rw [listStart, if_neg hfirst, getObjectKey_eq_some hreg]
      simp only
      rw [isTemp_of_inMainRange h hmain, if_neg (by simp)]
      exact if_pos hmain
    · rw [listFrom, if_neg (by simp)]
      exact objectsBelow_lowerBound hmains
  · have htemp := ((mem_temps_iff h).mp (htemps ▸ mem_append_right _ mem_cons_self)).2
    refine hpage true ?_ ?_
    · rw [listStart, if_neg hfirst, getObjectKey_eq_some hreg]
      simp only
      rw [isTemp_of_inTempRange h htemp, if_pos rfl]
      exact if_pos htemp
    · rw [listFrom, if_pos rfl, objectsBelow_lowerBound htemps, hsuf]
      rfl

theorem listPage_of_max (hmax : start.max = true ∨ start.hobj.max = true)
    (max : ℕ) : listPage db c start max = some ([], Ghobject.getMax) := by
  rw [listPage, collectionList, if_neg (by simp [h.exist]), if_pos hmax]
  rfl

/-- Wherever a page begins, it holds nothing but objects of the group. -/
theorem mem_of_listPage {next : Ghobject} {max : ℕ} {ls : List Ghobject}
    (hpage : listPage db c start max = some (ls, next)) (ho : o ∈ ls) :
    InTempRange c o ∨ InMainRange c o := by
  by_cases hmax : start.max = true ∨ start.hobj.max = true
  · rw [listPage_of_max h hmax, Option.some_inj, Prod.mk.injEq] at hpage
    simp [← hpage.1] at ho
  · rw [listPage] at hpage
    simp only [not_or, Bool.not_eq_true] at hmax
    cases hstart : listStart db c start with
    | error e =>
      rw [collectionList, if_neg (by simp [h.exist]), if_neg (by simp [hmax]), hstart] at hpage
      simp [bind, Except.bind, Except.toOption] at hpage
    | ok r =>
      obtain ⟨temp, it⟩ := r
      obtain ⟨hit, hlo⟩ := listStart_bound hstart
      rw [collectionList_eq h.exist hmax.1 hmax.2 hstart hit] at hpage
      simp only [Except.toOption, Option.some_inj] at hpage
      have ho : o ∈ listFrom db c temp it := by
        rw [← show (page max (listFrom db c temp it)).1 = ls by rw [hpage]] at ho
        exact mem_of_mem_take ho
      cases temp with
      | false =>
        rw [listFrom, if_neg (by simp), mem_objectsBelow hit] at ho
        exact .inr ⟨hlo _ ho.2.1, ho.2.2⟩
      | true =>
        rw [listFrom, if_pos rfl, mem_append] at ho
        rcases ho with ho | ho
        · rw [mem_objectsBelow hit] at ho
          exact .inl ⟨hlo _ ho.2.1, ho.2.2⟩
        · exact .inr ((mem_mains_iff h).mp ho).2

variable (hstart : start = Ghobject.default ∨ start = c.cid.getMinHobj)

include hstart

theorem listStart_of_first (db : ObjectKeys) :
    listStart db c start = .ok (true, db.upperBound (getCollKeyRange c.cid c.bits).tempStart) ∧
      start.max = false ∧ start.hobj.max = false := by
  refine ⟨?_, ?_⟩
  · rw [listStart, if_pos (by tauto)]
  · rcases hstart with rfl | rfl
    · exact ⟨rfl, rfl⟩
    · rw [h.cid]
      exact ⟨rfl, rfl⟩

theorem listPage_of_first (max : ℕ) : listPage db c start max = some (page max (listAll db c)) := by
  obtain ⟨heq, hmax, hmax'⟩ := listStart_of_first h hstart db
  rw [listPage, collectionList_eq h.exist hmax hmax' heq (upperBound_sublist _)]
  rfl

/-- **Every cursor goes on where it stands.** -/
theorem listPage_of_stands (hs : Stands db c start cursor l)
    (max : ℕ) : listPage db c cursor max = some (page max l) := by
  rcases hs with ⟨rfl, rfl⟩ | ⟨rfl, rfl⟩ | ⟨pre, suf, hpre, rfl, hne⟩
  · exact listPage_of_first h hstart max
  · rw [listPage_of_max h (.inl rfl)]
    simp [page]
  · exact listPage_of_split h hpre hne max

/-- **The list is complete and exact**, whatever the sizes of the pages. -/
theorem listsExactly_of_listable (hl : Listable db c pgid shard) :
    ListsExactly db c pgid shard start := by
  have hfirst : ∀ pre suf, listAll db c = pre ++ c.cid.getMinHobj :: suf → pre = [] := by
    intro pre suf hsplit
    have hmem : ∀ o ∈ pre ++ c.cid.getMinHobj :: suf,
        StoredIn db o ∧ Holds c pgid shard o := by
      intro o ho
      rw [← hsplit, mem_listAll_iff h] at ho
      exact ⟨ho.1, ho.2.1⟩
    obtain ⟨hstored, hholds⟩ := hmem _ (mem_append_right _ mem_cons_self)
    have hsorted : (pre ++ c.cid.getMinHobj :: suf).Pairwise ListedBefore :=
      hsplit ▸ listAll_sorted h
    refine eq_nil_iff_forall_not_mem.mpr fun o ho => ?_
    obtain ⟨hstored', hholds'⟩ := hmem o (mem_append_left _ ho)
    exact hl.first hstored hholds o hstored' hholds'
      ((pairwise_append.mp hsorted).2.2 o ho _ mem_cons_self)
  intro sizes hsizes
  have hnext : ∀ cursor l max, Stands db c start cursor l → 0 < max →
      ∃ next, listPage db c cursor max = some (l.take max, next) ∧
        Stands db c start next (l.drop max) := by
    intro cursor l max hs hmax
    obtain ⟨pre, hpre⟩ := hs.exists_split
    exact ⟨_, listPage_of_stands h hstart hs max, page_stands hfirst hpre hmax⟩
  have hbegin : Stands db c start start (listAll db c) := .inl ⟨rfl, rfl⟩
  obtain ⟨cursor, hall, hend⟩ := Paging.collect_all hnext hsizes hbegin
  -- one more call finds nothing left
  have hlast := Paging.collect_succ hall (listPage_of_stands h hstart hend _)
  rw [take_nil, append_nil, drop_nil] at hlast
  refine ⟨(listAll db c).length + 1, listAll db c, hlast, ?_, fun o => ?_⟩
  · exact (listAll_sorted h).imp fun hab => hab.ne
  · rw [mem_listAll_iff h]
    constructor
    · exact fun ho => ⟨ho.1, ho.2.1⟩
    · exact fun ho => ⟨ho.1, ho.2, hl.hash o ho.1 ho.2⟩

/-- **Only listable groups are listed exactly.** -/
theorem listable_of_listsExactly
    (hl : ListsExactly db c pgid shard start) : Listable db c pgid shard := by
  have hhash : ∀ o, StoredIn db o → Holds c pgid shard o → o.hobj.hash ≠ 0xffffffff := by
    intro o hstored hholds
    obtain ⟨k, l, hpages, -, hmem⟩ := hl (fun _ => 1) fun _ => Nat.one_pos
    have hrange := Paging.forall_mem_of_collect (P := fun o => InTempRange c o ∨ InMainRange c o)
      (fun _ _ _ _ hpage _ ho => mem_of_listPage h hpage ho) k hpages o
      ((hmem o).mpr ⟨hstored, hholds⟩)
    exact ((inRange_iff_holds h o).mp hrange).2
  refine ⟨hhash, fun hstored hholds o hostored hoholds hbefore => ?_⟩
  have hmin : c.cid.getMinHobj ∈ listAll db c :=
    (mem_listAll_iff h).mpr ⟨hstored, hholds, hhash _ hstored hholds⟩
  have ho : o ∈ listAll db c :=
    (mem_listAll_iff h).mpr ⟨hostored, hoholds, hhash _ hostored hoholds⟩
  obtain ⟨pre, suf, hsplit⟩ := append_of_mem hmin
  have hsorted : (pre ++ c.cid.getMinHobj :: suf).Pairwise ListedBefore :=
    hsplit ▸ listAll_sorted h
  have hpre : o ∈ pre := by
    rw [hsplit] at ho
    rcases mem_append.mp ho with ho | ho
    · exact ho
    · rcases mem_cons.mp ho with rfl | ho
      · exact absurd rfl hbefore.ne
      · have hafter := (pairwise_cons.mp (pairwise_append.mp hsorted).2.1).1 o ho
        exact absurd hbefore hafter.asymm
  -- pages as long as what comes before the object: the list never gets further
  have hpage : page pre.length (listAll db c) = (pre, c.cid.getMinHobj) := by
    rw [page, hsplit, take_left, drop_left]
    rfl
  have hagain : ∀ k : ℕ, ∃ l, listPage db c c.cid.getMinHobj pre.length =
      some (l, c.cid.getMinHobj) := fun _ =>
    ⟨pre, by rw [listPage_of_first h (.inr rfl), hpage]⟩
  have hbegin : ∀ k : ℕ, ∃ l, listPage db c start pre.length = some (l, c.cid.getMinHobj) :=
    fun _ => ⟨pre, by rw [listPage_of_first h hstart, hpage]⟩
  obtain ⟨k, l, hpages, -⟩ := hl (fun _ => pre.length) fun _ => length_pos_of_mem hpre
  have hnotMax : ∀ o, o = Ghobject.default ∨ o = c.cid.getMinHobj → o ≠ Ghobject.getMax := by
    rintro o ho rfl
    have hfalse := (listStart_of_first h ho db).2.1
    exact absurd hfalse (by decide)
  cases k with
  | zero => exact hnotMax start hstart (Prod.mk.inj (Option.some.inj hpages)).2
  | succ k =>
    obtain ⟨l', hl'⟩ := Paging.cursor_of_collect hbegin hagain k
    have heq := hl'.symm.trans hpages
    exact hnotMax _ (.inr rfl) (Prod.mk.inj (Option.some.inj heq)).2

end Group

/-- **When a collection is listed exactly.** For every collection of a placement group and every
set of keys, listing from the minimal object and going on from each cursor finds the objects of
the group that are stored, each once and no others, exactly if none has the hash `0xffffffff` and
`get_min_hobj` is not listed after another object. The key of an object is in one of the two
ranges exactly if the object is of the group and does not have this hash. -/
theorem collection_list_complete_iff (db : ObjectKeys) (h : IsPg c pgid shard) {start : Ghobject}
    (hstart : start = Ghobject.default ∨ start = c.cid.getMinHobj) :
    (ListsExactly db c pgid shard start ↔ Listable db c pgid shard) ∧
      ∀ o : Ghobject, (InTempRange c o ∨ InMainRange c o ↔ Holds c pgid shard o) ↔
        ¬ (Holds c pgid shard o ∧ o.hobj.hash = 0xffffffff) := by
  refine ⟨⟨listable_of_listsExactly h hstart, listsExactly_of_listable h hstart⟩, fun o => ?_⟩
  rw [inRange_iff_holds h]
  tauto

end

/-- The only placement group of pool 1. -/
def onlyPg : Collection := ⟨true, .pg ⟨1, 0⟩ (-1), 0⟩

theorem isPg_onlyPg : IsPg onlyPg ⟨1, 0⟩ (-1) := ⟨rfl, rfl, by decide, by decide, by decide⟩

/-- A store with the keys of some regular objects. -/
def storeOf (l : List Ghobject) (h : ∀ o ∈ l, o.Regular) : ObjectKeys where
  keys := OrdMap.empty.insertAll (l.map objectKey)
  wf k hk := by
    rw [mem_keys_iff, mem_insertAll] at hk
    rcases hk with hk | hk
    · exact absurd hk (not_mem_empty k)
    · obtain ⟨o, ho, rfl⟩ := mem_map.mp hk
      exact .inl ⟨o, getObjectKey_eq_some (h o ho)⟩

theorem storedIn_storeOf (h : ∀ o ∈ l, o.Regular) (o : Ghobject) :
    StoredIn (storeOf l h) o ↔ o ∈ l := by
  have hmem : ∀ k, k ∈ (storeOf l h).keys ↔ k ∈ l.map objectKey := by
    intro k
    simp only [storeOf, mem_insertAll, not_mem_empty, false_or]
  constructor
  · rintro ⟨key, hkey, hin⟩
    obtain ⟨hreg, rfl⟩ := getObjectKey_eq_some_iff.mp hkey
    obtain ⟨o', ho', heq⟩ := mem_map.mp ((hmem _).mp hin)
    have hsame : (Except.ok o' : Except KeyError Ghobject) = .ok o := by
      rw [← getKeyObject_objectKey (h o' ho'), heq, getKeyObject_objectKey hreg]
    exact Except.ok.inj hsame ▸ ho'
  · intro ho
    exact ⟨_, getObjectKey_eq_some (h o ho), (hmem _).mpr (mem_map_of_mem ho)⟩

/-- The objects `a` and `b` are listed, with any pages. -/
theorem collection_list_complete_iff_two :
    ListsExactly (storeOf [headObject [0x61] [] 5, headObject [0x62] [] 6]
      (by simp [regular_headObject])) onlyPg ⟨1, 0⟩ (-1) Ghobject.default := by
  refine (collection_list_complete_iff _ isPg_onlyPg (.inl rfl)).1.mpr ⟨?_, ?_⟩
  · intro o hstored _
    rw [storedIn_storeOf, mem_pair] at hstored
    rcases hstored with rfl | rfl <;> decide
  · intro hmin
    rw [storedIn_storeOf, mem_pair] at hmin
    exact absurd hmin (by decide)

/-- A temporary object of pool 1. -/
def tempObject : Ghobject :=
  { hobj := Hobject.mk' [0x74] [] noSnap 7 (-3) [], generation := 0xffffffffffffffff,
    shardId := -1, max := false }

theorem regular_tempObject : tempObject.Regular := ⟨rfl, rfl, Hobject.canonical_mk' _ _ _ _ _ _⟩

theorem regular_getMinHobj : onlyPg.cid.getMinHobj.Regular := ⟨rfl, rfl, .inl rfl⟩

/-- **Both ways to miss an object.** An object with the hash `0xffffffff` is not listed, though it
is stored and of the group. And with a temporary object and `get_min_hobj`, read one by one, the
list begins anew after the first object, again and again. -/
theorem collection_list_incomplete :
    (∃ db, StoredIn db (headObject [0x61] [] 0xffffffff) ∧
      Holds onlyPg ⟨1, 0⟩ (-1) (headObject [0x61] [] 0xffffffff) ∧
      collectionList db onlyPg Ghobject.default Ghobject.getMax 1 = .ok ([], Ghobject.getMax) ∧
      ¬ ListsExactly db onlyPg ⟨1, 0⟩ (-1) Ghobject.default) ∧
    (∃ db, listPages db onlyPg Ghobject.default (fun _ => 1) 1 =
        some ([tempObject], onlyPg.cid.getMinHobj) ∧
      listPages db onlyPg Ghobject.default (fun _ => 1) 2 =
        some ([tempObject, tempObject], onlyPg.cid.getMinHobj) ∧
      ¬ ListsExactly db onlyPg ⟨1, 0⟩ (-1) Ghobject.default) := by
  refine ⟨⟨storeOf [headObject [0x61] [] 0xffffffff] (by simp [regular_headObject]), ?_⟩,
    storeOf [tempObject, onlyPg.cid.getMinHobj] (by simp [regular_tempObject, regular_getMinHobj]),
    ?_⟩
  · have hstored : StoredIn (storeOf [headObject [0x61] [] 0xffffffff]
        (by simp [regular_headObject])) (headObject [0x61] [] 0xffffffff) :=
      (storedIn_storeOf _ _).mpr mem_cons_self
    have hholds : Holds onlyPg ⟨1, 0⟩ (-1) (headObject [0x61] [] 0xffffffff) :=
      ⟨by decide, by decide, by decide⟩
    refine ⟨hstored, hholds, by decide +kernel, fun hl => ?_⟩
    exact (listable_of_listsExactly isPg_onlyPg (.inl rfl) hl).hash _ hstored hholds rfl
  · refine ⟨by decide +kernel, by decide +kernel, fun hl => ?_⟩
    have hlistable := listable_of_listsExactly isPg_onlyPg (.inl rfl) hl
    refine hlistable.first ((storedIn_storeOf _ _).mpr (by simp)) ⟨by decide, by decide, by decide⟩
      tempObject ((storedIn_storeOf _ _).mpr mem_cons_self) ⟨by decide, by decide, by decide⟩
      (.inl ⟨by decide, by decide⟩)

end Ceph.BlueStore
