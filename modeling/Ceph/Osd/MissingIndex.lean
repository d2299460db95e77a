import Ceph.Osd.PgSplit
import Ceph.Lib.ReverseIndex
import Ceph.Lib.Transition

set_option autoImplicit false

/-! # The index and the change tracker of a missing set

`pg_missing_set` finds the object that needs the oldest version through `rmissing`, a map from
version numbers to objects that is meant to be the inverse of `missing`, and it notes every
object it changes until the changes are flushed to disk.

The tracker is right in every run (`Tracking.Reported`). The index is right as long as no two
objects need the same version number and no operation leaves the entry of a former need behind
(`MissingOp.Fits`): `add` and `decode` write their keys over those of the items they replace
and drop none.
-/

namespace Ceph.Osd

open MissingSet OrdMap Option List

/-! ## Decoding -/

def Soid.setPool (oid : Soid) (pool : Int64) : Soid :=
  if h : oid.val.max = false then
    ⟨{ oid.val with pool := pool }, oid.property.canonical, fun hmax => nomatch h.symm.trans hmax⟩
  else oid

namespace MissingSet

/-- The hobject upgrade of `decode`: objects without a pool get one. -/
def upgradePool (items : OrdMap Soid MissingItem) (pool : Int64) : OrdMap Soid MissingItem :=
  let old := fun oid : Soid => !oid.val.max && oid.val.pool == -1
  let tmp := (items.filter fun oid _ => old oid).entries.foldl
    (fun tmp e => tmp.insert (Soid.setPool e.1 pool) e.2) OrdMap.empty
  tmp.entries.foldl (fun items e => items.insertNew e.1 e.2) (items.filter fun oid _ => !old oid)

def decodedItems (structV : UInt8) (items : OrdMap Soid MissingItem) (pool : Int64) :
    OrdMap Soid MissingItem :=
  if structV < 3 then upgradePool items pool else items

/-- `decode` of a set with these items, into a set that is there. -/
def decode (m : MissingSet) (structV : UInt8) (items : OrdMap Soid MissingItem)
    (mayIncludeDeletes : Bool) (pool : Int64) : MissingSet :=
  let missing := decodedItems structV items pool
  { missing := missing
    rmissing := missing.entries.foldl (fun r e => r.insert e.2.need.version e.1) m.rmissing
    changed := (m.changed.insertAll m.missing.keys).insertAll missing.keys
    mayIncludeDeletes := if 4 ≤ structV then mayIncludeDeletes else m.mayIncludeDeletes }

/-! ## The index -/

/-- The version number an item is indexed by. -/
def needVersion (item : MissingItem) : UInt64 := item.need.version

/-- **`rmissing` is the inverse of `missing`**: one entry for each missing object, under the
version number it needs, and no others. -/
def Indexed (m : MissingSet) : Prop := OrdMap.Inverse needVersion m.missing m.rmissing

/-- No other object needs the version number. -/
def Unshared (m : MissingSet) (oid : Soid) (v : UInt64) : Prop :=
  ∀ e ∈ m.missing.entries, e.2.need.version = v → e.1 = oid

/-- New items can be put over the old ones without a trace: they need different version numbers,
and they need the version number of an old item exactly if they replace that item. -/
def Accepts (m : MissingSet) (new : OrdMap Soid MissingItem) : Prop :=
  (new.entries.map fun e => e.2.need.version).Nodup ∧
    ∀ e ∈ m.missing.entries,
      (∃ e' ∈ new.entries, e'.2.need.version = e.2.need.version) ↔ e.1 ∈ new

instance (m : MissingSet) (oid : Soid) (v : UInt64) : Decidable (m.Unshared oid v) :=
  inferInstanceAs (Decidable (∀ e ∈ _, _))

instance (m : MissingSet) (new : OrdMap Soid MissingItem) : Decidable (m.Accepts new) :=
  inferInstanceAs (Decidable (_ ∧ _))

variable {m : MissingSet}

theorem distinct_iff_nodup (items : OrdMap Soid MissingItem) :
    OrdMap.Distinct needVersion items ↔ (items.entries.map fun e => e.2.need.version).Nodup := by
  rw [nodup_map_iff_inj_on items.nodup_entries]
  constructor
  · rintro hdistinct ⟨a, b⟩ hmem ⟨a', b'⟩ hmem' hkey
    rw [mem_entries_iff] at hmem hmem'
    obtain rfl := hdistinct a a' b b' hmem hmem' hkey
    rw [hmem, Option.some.injEq] at hmem'
    rw [hmem']
  · intro hinj a a' b b' hb hb' hkey
    rw [← mem_entries_iff] at hb hb'
    exact congrArg Prod.fst (hinj _ hb _ hb' hkey)

theorem exists_need_iff (items : OrdMap Soid MissingItem) (v : UInt64) :
    (∃ o item, items.get o = some item ∧ needVersion item = v) ↔
      ∃ e ∈ items.entries, e.2.need.version = v := by
  simp only [Prod.exists, mem_entries_iff]
  rfl

/-- One item, as a map. -/
def single (oid : Soid) (item : MissingItem) : OrdMap Soid MissingItem :=
  OrdMap.empty.insert oid item

theorem accepts_single_iff (m : MissingSet) (oid : Soid) (item : MissingItem) :
    m.Accepts (single oid item) ↔
      ∀ e ∈ m.missing.entries, e.2.need.version = item.need.version ↔ e.1 = oid := by
  have hentries : (single oid item).entries = [(oid, item)] := rfl
  have hmem : ∀ o, o ∈ single oid item ↔ o = oid := by
    intro o
    rw [single, mem_insert]
    exact or_iff_left (not_mem_empty o)
  rw [Accepts, hentries]
  simp only [map_cons, map_nil, nodup_singleton, true_and, mem_singleton,
    exists_eq_left, hmem]
  refine forall₂_congr fun e _ => ?_
  rw [eq_comm]

theorem addNextEvent_eq (m : MissingSet) (e : LogEntry) :
    m.addNextEvent e = (m.unindex e.soid).put e.soid (nextItem (m.get e.soid) e) := by
  unfold addNextEvent nextItem
  split_ifs
  · rfl
  · cases hget : m.get e.soid with
    | none => rw [unindex, hget]
    | some item => rfl

theorem reviseNeed_eq (m : MissingSet) (oid : Soid) (need : Eversion) (isDelete : Bool) :
    m.reviseNeed oid need isDelete =
      (m.unindex oid).put oid ⟨need, ((m.get oid).map (·.have_)).getD .zero, isDelete⟩ := by
  unfold reviseNeed
  cases hget : m.get oid with
  | none =>
    rw [unindex, hget]
    rfl
  | some item => rfl

section

variable (h : m.Indexed)

include h

theorem indexed_update_iff (new : OrdMap Soid MissingItem) :
    OrdMap.Inverse needVersion (m.missing.update new)
        (m.rmissing.insertPairs (OrdMap.flipped needVersion new)) ↔ m.Accepts new := by
  rw [OrdMap.Inverse.update_iff h, distinct_iff_nodup]
  refine and_congr_right fun _ => ?_
  simp only [Prod.forall, mem_entries_iff, ← exists_need_iff]
  rfl

/-- **Writing one item over the old one** (`add`). -/
theorem indexed_put_iff (oid : Soid) (item : MissingItem) :
    (m.put oid item).Indexed ↔
      ∀ e ∈ m.missing.entries, e.2.need.version = item.need.version ↔ e.1 = oid :=
  (indexed_update_iff h (single oid item)).trans (accepts_single_iff m oid item)

theorem indexed_rmItem (oid : Soid) : (m.rmItem oid).Indexed := by
  unfold rmItem
  cases hget : m.get oid with
  | none => exact h
  | some item => exact OrdMap.Inverse.erase h hget

/-- **Writing one item after dropping the key of the old one** (`add_next_event`,
`revise_need`). -/
theorem indexed_unindex_put_iff (oid : Soid) (item : MissingItem) :
    ((m.unindex oid).put oid item).Indexed ↔ m.Unshared oid item.need.version := by
  -- the same maps come about by removing the object and putting it back
  have hsame : ((m.unindex oid).put oid item).Indexed ↔ ((m.rmItem oid).put oid item).Indexed := by
    cases hget : m.get oid with
    | none => rw [unindex, rmItem, hget]
    | some old =>
      have hmissing : m.missing.insert oid item = (m.missing.erase oid).insert oid item := by
        apply OrdMap.ext_get
        intro o
        rw [OrdMap.get_insert, OrdMap.get_insert, OrdMap.get_erase]
        split_ifs <;> rfl
      rw [unindex, rmItem, hget]
      show OrdMap.Inverse needVersion (m.missing.insert oid item) _ ↔
        OrdMap.Inverse needVersion ((m.missing.erase oid).insert oid item) _
      rw [hmissing]
      rfl
  have hmem : ∀ e, e ∈ (m.rmItem oid).missing.entries ↔ e.1 ≠ oid ∧ e ∈ m.missing.entries := by
    rintro ⟨o, it⟩
    rw [mem_entries_iff, mem_entries_iff]
    show (m.rmItem oid).get o = some it ↔ _
    rw [get_rmItem]
    split_ifs with heq
    · simp [heq]
    · simp [heq, get]
  rw [hsame, indexed_put_iff (indexed_rmItem h oid)]
  constructor
  · intro hfree e he hkey
    by_contra hne
    exact hne ((hfree e ((hmem e).mpr ⟨hne, he⟩)).mp hkey)
  · intro hfree e he
    obtain ⟨hne, hmem⟩ := (hmem e).mp he
    exact ⟨hfree e hmem, fun heq => absurd heq hne⟩

theorem indexed_reviseHave (oid : Soid) (have_ : Eversion) :
    (m.reviseHave oid have_).Indexed := by
  unfold reviseHave
  cases hget : m.get oid with
  | none => exact h
  | some item => exact OrdMap.Inverse.insert_of_key_eq h hget rfl

theorem indexed_rm (oid : Soid) (v : Eversion) : (m.rm oid v).Indexed := by
  unfold rm
  cases hget : m.get oid with
  | none => exact h
  | some item =>
    by_cases hv : item.need ≤ v
    · simp only [hv, if_true]
      exact indexed_rmItem h oid
    · simp only [hv, if_false]
      exact h

end

theorem eq_rmItem_of_got {m' : MissingSet} {oid : Soid} {v : Eversion}
    (hgot : m.got oid v = some m') : m' = m.rmItem oid := by
  unfold got at hgot
  cases hget : m.get oid with
  | none =>
    rw [hget] at hgot
    cases hgot
  | some item =>
    rw [hget] at hgot
    simp only [ite_none_right_eq_some, Option.some.injEq] at hgot
    exact hgot.2.symm

/-! ### Splits -/

theorem indexed_foldl_rmItem (h : m.Indexed) (l : List (Soid × MissingItem)) :
    (l.foldl (fun m e => m.rmItem e.1) m).Indexed := by
  induction l generalizing m with
  | nil => exact h
  | cons e l ih => exact ih (indexed_rmItem h e.1)

def moved (m : MissingSet) (child : Pg) (splitBits : Nat) : OrdMap Soid MissingItem :=
  m.missing.filter fun oid _ => movesTo child splitBits oid

/-- **A split takes from the set that is split** what it finds there. -/
theorem indexed_splitInto (h : m.Indexed) (child : Pg) (splitBits : Nat) (omissing : MissingSet) :
    (m.splitInto child splitBits omissing).1.Indexed := by
  rw [splitInto, foldl_splitStep_eq]
  exact indexed_foldl_rmItem h _

/-- **A split puts what it moves over the items of the child.** -/
theorem indexed_splitInto_child_iff (h : m.Indexed) (parent : MissingSet) (child : Pg)
    (splitBits : Nat) :
    (parent.splitInto child splitBits m).2.Indexed ↔ m.Accepts (parent.moved child splitBits) := by
  rw [← indexed_update_iff h, splitInto, foldl_splitStep_eq]
  obtain ⟨hmissing, hrmissing⟩ := foldl_put_missing
    { m with mayIncludeDeletes := parent.mayIncludeDeletes }
    (parent.missing.entries.filter fun e => movesTo child splitBits e.1)
  rw [Indexed, hmissing, hrmissing]
  rfl

/-! ### Decoding -/

/-- What is decoded replaces the items and is written over the index, so that every version number
needed before must be needed again. -/
def Renews (m : MissingSet) (new : OrdMap Soid MissingItem) : Prop :=
  (new.entries.map fun e => e.2.need.version).Nodup ∧
    ∀ e ∈ m.missing.entries, ∃ e' ∈ new.entries, e'.2.need.version = e.2.need.version

instance (m : MissingSet) (new : OrdMap Soid MissingItem) : Decidable (m.Renews new) :=
  inferInstanceAs (Decidable (_ ∧ _))

theorem indexed_decode_iff (h : m.Indexed) (structV : UInt8) (items : OrdMap Soid MissingItem)
    (mayIncludeDeletes : Bool) (pool : Int64) :
    (m.decode structV items mayIncludeDeletes pool).Indexed ↔
      m.Renews (decodedItems structV items pool) := by
  set new := decodedItems structV items pool with hnew
  have hfold : (m.decode structV items mayIncludeDeletes pool).rmissing =
      m.rmissing.insertPairs (OrdMap.flipped needVersion new) := by
    rw [OrdMap.insertPairs, OrdMap.flipped, foldl_map]
    rfl
  have hwritten : ∀ v, (∃ o, (v, o) ∈ OrdMap.flipped needVersion new) ↔
      ∃ e ∈ new.entries, e.2.need.version = v := by
    intro v
    simp only [mem_flipped, exists_need_iff]
  show OrdMap.Inverse needVersion new _ ↔ _
  rw [hfold, inverse_overlay_iff (fun _ _ hb => hb) (fun _ _ hb => .inl hb),
    distinct_iff_nodup]
  refine and_congr_right fun _ => ?_
  constructor
  · rintro hstale ⟨o, item⟩ hmem
    have hget := OrdMap.Inverse.get_key h ((mem_entries_iff m.missing o item).mp hmem)
    rcases hstale _ o hget with hk | ⟨b, hb, hkey⟩
    · exact (hwritten _).mp hk
    · exact ⟨(o, b), (mem_entries_iff new o b).mpr hb, hkey⟩
  · intro hrenew v o hget
    obtain ⟨item, hitem, rfl⟩ := (h v o).mp hget
    exact .inl ((hwritten _).mpr
      (hrenew (o, item) ((mem_entries_iff m.missing o item).mpr hitem)))

/-! ## What is reported -/

variable {flushed : OrdMap Soid MissingItem}

/-- Every object whose item is not what it was when the changes were last flushed is on
record. -/
def Reported (flushed : OrdMap Soid MissingItem) (m : MissingSet) : Prop :=
  ∀ o, m.get o ≠ flushed.get o → o ∈ m.changed

theorem Reported.tracked {m' : MissingSet} (h : Reported flushed m) (htracked : Tracked m m') :
    Reported flushed m' := by
  intro o hne
  rcases htracked.get_eq_or o with heq | hmem
  · exact htracked.changed_mono o (h o (heq ▸ hne))
  · exact hmem

theorem tracked_foldl_rmItem (l : List (Soid × MissingItem)) (m : MissingSet) :
    Tracked m (l.foldl (fun m e => m.rmItem e.1) m) := by
  induction l generalizing m with
  | nil => exact Tracked.refl m
  | cons e l ih => exact (tracked_rmItem m e.1).trans (ih _)

theorem tracked_foldl_put (l : List (Soid × MissingItem)) (m : MissingSet) :
    Tracked m (l.foldl (fun m e => m.put e.1 e.2) m) := by
  induction l generalizing m with
  | nil => exact Tracked.refl m
  | cons e l ih => exact (tracked_put m e.1 e.2).trans (ih _)

theorem tracked_splitInto (m : MissingSet) (child : Pg) (splitBits : Nat) (omissing : MissingSet) :
    Tracked m (m.splitInto child splitBits omissing).1 ∧
      Tracked { omissing with mayIncludeDeletes := m.mayIncludeDeletes }
        (m.splitInto child splitBits omissing).2 := by
  rw [splitInto, foldl_splitStep_eq]
  exact ⟨tracked_foldl_rmItem _ _, tracked_foldl_put _ _⟩

theorem reported_decode (h : Reported flushed m) (structV : UInt8)
    (items : OrdMap Soid MissingItem) (mayIncludeDeletes : Bool) (pool : Int64) :
    Reported flushed (m.decode structV items mayIncludeDeletes pool) := by
  intro o hne
  set new := decodedItems structV items pool with hnew
  show o ∈ (m.changed.insertAll m.missing.keys).insertAll new.keys
  rw [mem_insertAll, mem_insertAll, mem_keys_iff, mem_keys_iff]
  by_cases hbefore : o ∈ m.missing
  · exact .inl (.inr hbefore)
  by_cases hafter : o ∈ new
  · exact .inr hafter
  -- neither before nor after: the item is as it was
  rw [mem_iff_isSome, Bool.not_eq_true, isSome_eq_false_iff,
    isNone_iff_eq_none] at hbefore hafter
  have hsame : m.get o = (m.decode structV items mayIncludeDeletes pool).get o :=
    hbefore.trans hafter.symm
  exact .inl (.inl (h o (hsame ▸ hne)))

end MissingSet

/-! ## Runs -/

/-- A missing set, and its items when the changes were last flushed. -/
structure Tracking where
  set : MissingSet
  flushed : OrdMap Soid MissingItem
  deriving DecidableEq

/-- The operations on a missing set. A set takes part in a split as the one that is split or as
that of the child. -/
inductive MissingOp where
  | addNextEvent (e : LogEntry)
  | reviseNeed (oid : Soid) (need : Eversion) (isDelete : Bool)
  | reviseHave (oid : Soid) (have_ : Eversion)
  | add (oid : Soid) (need have_ : Eversion) (isDelete : Bool)
  | rm (oid : Soid) (v : Eversion)
  | got (oid : Soid) (v : Eversion)
  | splitInto (child : Pg) (splitBits : Nat) (omissing : MissingSet)
  | splitFrom (parent : MissingSet) (child : Pg) (splitBits : Nat)
  | decode (structV : UInt8) (items : OrdMap Soid MissingItem) (mayIncludeDeletes : Bool)
      (pool : Int64)
  | flush

namespace MissingOp

/-- What an operation makes of the set; nothing where an assertion fails. -/
def apply (m : MissingSet) : MissingOp → Option MissingSet
  | .addNextEvent e => some (m.addNextEvent e)
  | .reviseNeed oid need isDelete => some (m.reviseNeed oid need isDelete)
  | .reviseHave oid have_ => some (m.reviseHave oid have_)
  | .add oid need have_ isDelete => some (m.add oid need have_ isDelete)
  | .rm oid v => some (m.rm oid v)
  | .got oid v => m.got oid v
  | .splitInto child splitBits omissing => some (m.splitInto child splitBits omissing).1
  | .splitFrom parent child splitBits => some (parent.splitInto child splitBits m).2
  | .decode structV items mayIncludeDeletes pool =>
    some (m.decode structV items mayIncludeDeletes pool)
  | .flush => some { m with changed := .empty }

/-- **When an operation keeps the index.** No other object needs the version number that is
written; `add`, which does not drop the former key of its object, is given an object that is not
missing or needs that version number already; and `decode`, which does not clear the index, is
given a set that needs every version number needed before. -/
def Fits (m : MissingSet) : MissingOp → Prop
  | .addNextEvent e => m.Unshared e.soid e.version.version
  | .reviseNeed oid need _ => m.Unshared oid need.version
  | .add oid need _ _ => ∀ e ∈ m.missing.entries, e.2.need.version = need.version ↔ e.1 = oid
  | .splitFrom parent child splitBits => m.Accepts (parent.moved child splitBits)
  | .decode structV items _ pool => m.Renews (MissingSet.decodedItems structV items pool)
  | _ => True

instance (m : MissingSet) : (op : MissingOp) → Decidable (op.Fits m)
  | .addNextEvent e => inferInstanceAs (Decidable (m.Unshared e.soid e.version.version))
  | .reviseNeed oid need _ => inferInstanceAs (Decidable (m.Unshared oid need.version))
  | .add _ _ _ _ => inferInstanceAs (Decidable (∀ e ∈ _, _))
  | .splitFrom parent child splitBits =>
    inferInstanceAs (Decidable (m.Accepts (parent.moved child splitBits)))
  | .decode structV items _ pool =>
    inferInstanceAs (Decidable (m.Renews (MissingSet.decodedItems structV items pool)))
  | .reviseHave _ _ | .rm _ _ | .got _ _ | .splitInto _ _ _ | .flush =>
    inferInstanceAs (Decidable True)

theorem isSome_apply_of_not_fits {m : MissingSet} {op : MissingOp} (h : ¬ op.Fits m) :
    (op.apply m).isSome := by
  cases op with
  | got oid v => exact absurd trivial h
  | _ => rfl

end MissingOp

namespace Tracking

/-- One operation; a flush starts the record anew. -/
def step (s : Tracking) (op : MissingOp) : Option Tracking :=
  (op.apply s.set).map fun m =>
    { set := m
      flushed := match op with
        | .flush => s.set.missing
        | _ => s.flushed }

/-- **The index is the inverse of the items, and every change is reported.** -/
structure Sound (s : Tracking) : Prop where
  indexed : s.set.Indexed
  reported : MissingSet.Reported s.flushed s.set

theorem indexed_apply_iff {m m' : MissingSet} {op : MissingOp} (h : m.Indexed)
    (hop : op.apply m = some m') : m'.Indexed ↔ op.Fits m := by
  cases op with
  | addNextEvent e =>
    cases hop
    rw [addNextEvent_eq, indexed_unindex_put_iff h,
      need_nextItem]
    rfl
  | reviseNeed oid need isDelete =>
    cases hop
    rw [reviseNeed_eq, indexed_unindex_put_iff h]
    rfl
  | reviseHave oid have_ =>
    cases hop
    exact iff_of_true (indexed_reviseHave h oid have_) trivial
  | add oid need have_ isDelete =>
    cases hop
    exact indexed_put_iff h oid ⟨need, have_, isDelete⟩
  | rm oid v =>
    cases hop
    exact iff_of_true (indexed_rm h oid v) trivial
  | got oid v =>
    obtain rfl := eq_rmItem_of_got hop
    exact iff_of_true (indexed_rmItem h oid) trivial
  | splitInto child splitBits omissing =>
    cases hop
    exact iff_of_true (indexed_splitInto h child splitBits omissing) trivial
  | splitFrom parent child splitBits =>
    cases hop
    exact indexed_splitInto_child_iff h parent child splitBits
  | decode structV items mayIncludeDeletes pool =>
    cases hop
    exact indexed_decode_iff h structV items mayIncludeDeletes pool
  | flush =>
    cases hop
    exact iff_of_true h trivial

theorem reported_step {s s' : Tracking} {op : MissingOp}
    (h : MissingSet.Reported s.flushed s.set) (hstep : s.step op = some s') :
    MissingSet.Reported s'.flushed s'.set := by
  obtain ⟨m, hop, rfl⟩ := map_eq_some_iff.mp hstep
  cases op with
  | addNextEvent e =>
    cases hop
    exact h.tracked (tracked_addNextEvent _ e)
  | reviseNeed oid need isDelete =>
    cases hop
    exact h.tracked (tracked_reviseNeed _ oid need isDelete)
  | reviseHave oid have_ =>
    cases hop
    exact h.tracked (tracked_reviseHave _ oid have_)
  | add oid need have_ isDelete =>
    cases hop
    exact h.tracked (tracked_put _ oid _)
  | rm oid v =>
    cases hop
    exact h.tracked (tracked_rm _ oid v)
  | got oid v =>
    obtain rfl := eq_rmItem_of_got hop
    exact h.tracked (tracked_rmItem _ oid)
  | splitInto child splitBits omissing =>
    cases hop
    exact h.tracked (tracked_splitInto _ child splitBits omissing).1
  | splitFrom parent child splitBits =>
    cases hop
    have hflag : MissingSet.Reported s.flushed
        { s.set with mayIncludeDeletes := parent.mayIncludeDeletes } := h
    exact hflag.tracked (tracked_splitInto parent child splitBits s.set).2
  | decode structV items mayIncludeDeletes pool =>
    cases hop
    exact reported_decode h structV items mayIncludeDeletes pool
  | flush =>
    cases hop
    intro o hne
    exact absurd rfl hne

/-- **Runs on a missing set.** The index and the record are right all along a run exactly if every
operation of the run fits where it is made; the record is right in any case. -/
theorem sound_throughout_iff (s : Tracking) (hs : s.Sound) (ops : List MissingOp) :
    ((∀ done, done <+: ops → ∀ t, Transition.run step done s = some t → t.Sound) ↔
        Transition.Along step (fun s op => op.Fits s.set) ops s) ∧
      ∀ t, Transition.run step ops s = some t → MissingSet.Reported t.flushed t.set := by
  constructor
  · have hiff : _ ↔ Transition.Along step (fun s op => ¬ ¬ op.Fits s.set) ops s :=
      Transition.throughout_iff_along (P := Sound)
        (I := fun s => MissingSet.Reported s.flushed s.set)
        (fun _ _ _ h => reported_step h)
        (fun s op s' hrep hsound hstep => by
          obtain ⟨m, hop, rfl⟩ := map_eq_some_iff.mp hstep
          rw [not_not, ← indexed_apply_iff hsound.indexed hop]
          exact ⟨Sound.indexed, fun hindex => ⟨hindex, reported_step hrep hstep⟩⟩)
        (fun s op hbad => by
          unfold step
          rw [isSome_map]
          exact MissingOp.isSome_apply_of_not_fits hbad)
        hs.reported hs
    simpa only [not_not] using hiff
  · intro t hrun
    exact Transition.invariant_of_run (fun _ _ _ h => reported_step h) hrun hs.reported

/-- A new set. -/
def init : Tracking := ⟨.empty false, .empty⟩

theorem init_sound : init.Sound :=
  ⟨inverse_empty _, fun _ hne => absurd rfl hne⟩

/-- An object with a name of one letter. -/
def letter (c : Char) : Soid :=
  ⟨Hobject.mk' [c.toNat.toUInt8] [] 0 0 1 [], Hobject.canonical_mk' .., fun h => nomatch h⟩

/-- An object is missing, is needed at a later version, and is recovered. -/
theorem sound_throughout_recovery :
    init.Sound ∧ ∀ done, done <+: [.add (letter 'a') ⟨1, 5⟩ .zero false,
        .reviseNeed (letter 'a') ⟨1, 7⟩ false, .flush, .add (letter 'b') ⟨1, 9⟩ .zero false,
        .got (letter 'a') ⟨1, 7⟩] →
      ∀ t, Transition.run step done init = some t → t.Sound :=
  ⟨init_sound, (sound_throughout_iff init init_sound _).1.mpr (by decide)⟩

/-- The key of a former need stays behind when `add` is given an object that is missing, and when
a set is decoded into one that was used. `get_oldest_need` then finds the object of that key,
which is no longer missing, and aborts. -/
theorem stale_key_after_add_and_decode :
    (∃ t, Transition.run step [.add (letter 'a') ⟨1, 5⟩ .zero false,
        .add (letter 'a') ⟨1, 7⟩ .zero false, .got (letter 'a') ⟨1, 7⟩,
        .add (letter 'b') ⟨1, 9⟩ .zero false] init = some t ∧
        t.set.rmissing.get 5 = some (letter 'a') ∧ t.set.get (letter 'a') = none ∧
        t.set.getOldestNeed = none) ∧
      ∃ t, Transition.run step [.add (letter 'a') ⟨1, 5⟩ .zero false,
        .decode 4 (MissingSet.single (letter 'b') ⟨⟨1, 9⟩, .zero, false⟩) false (-1)] init =
          some t ∧
        t.set.rmissing.get 5 = some (letter 'a') ∧ t.set.get (letter 'a') = none ∧
        t.set.getOldestNeed = none :=
  ⟨⟨_, rfl, by decide, by decide, by decide⟩, ⟨_, rfl, by decide, by decide, by decide⟩⟩

end Tracking

end Ceph.Osd
