import Ceph.Common.Hobject
import Ceph.Lib.OrdMap

set_option autoImplicit false

/-! # Versions, log entries and missing sets

The data of a placement group's log (`osd/osd_types.h`): versions (`eversion_t`), log entries
and the short records kept for duplicate detection, the log itself (`pg_log_t`), and the set
of objects a replica knows it lacks (`pg_missing_set`) with the operations that keep it.
Each operation on the missing set has one lemma that says what it does to the items.
-/

namespace Ceph.Osd

open OrdMap

/-! ## Versions -/

structure Eversion where
  epoch : UInt32
  version : UInt64
  deriving DecidableEq, Repr

namespace Eversion

/-- The default version `0'0`. -/
def zero : Eversion := ⟨0, 0⟩

/-- `eversion_t::max()`. -/
def max : Eversion := ⟨0xffffffff, 0xffffffffffffffff⟩

/-- The epoch counts first, the version within it second. -/
def sortKey (v : Eversion) : UInt32 ×ₗ UInt64 := toLex (v.epoch, v.version)

end Eversion

theorem Eversion.sortKey_injective : Function.Injective Eversion.sortKey := by
  rintro ⟨e, v⟩ ⟨e', v'⟩ h
  simpa [Eversion.sortKey] using h

instance : LinearOrder Eversion := MachineInt.linearOrderOfKey _ Eversion.sortKey_injective

theorem Eversion.lt_iff (a b : Eversion) :
    a < b ↔ if a.epoch = b.epoch then a.version < b.version else a.epoch < b.epoch := by
  show a.sortKey < b.sortKey ↔ _
  simp only [Eversion.sortKey, Prod.Lex.toLex_lt_toLex]
  by_cases h : a.epoch = b.epoch
  · simp [h]
  · simp [h]

theorem Eversion.zero_le (v : Eversion) : Eversion.zero ≤ v := by
  rw [← not_lt, Eversion.lt_iff]
  split_ifs <;> simp [Eversion.zero]

/-! ## Log entries -/

structure OsdReqid where
  nameType : UInt8
  nameNum : Int64
  tid : UInt64
  inc : Int32
  deriving DecidableEq, Repr

/-- `ObjectModDesc`: how to undo an entry locally. -/
structure ObjectModDesc where
  canLocalRollback : Bool
  rollbackInfoCompleted : Bool
  maxRequiredVersion : UInt8
  bl : Bytes
  deriving DecidableEq, Repr

/-- The operation of a log entry. -/
inductive LogOp where
  | modify
  | clone
  | delete
  | lostRevert
  | lostDelete
  | lostMark
  | promote
  | clean
  | error
  deriving DecidableEq, Repr

/-- `pg_log_entry_t`. -/
structure LogEntry where
  op : LogOp
  soid : Soid
  version : Eversion
  priorVersion : Eversion
  revertingTo : Eversion
  userVersion : UInt64
  reqid : OsdReqid
  extraReqids : List (OsdReqid × UInt64)
  extraReqidReturnCodes : OrdMap UInt32 Int32
  mtime : UInt32 × UInt32
  returnCode : Int32
  snaps : Bytes
  modDesc : ObjectModDesc
  deriving DecidableEq

namespace LogEntry

def isClone (e : LogEntry) : Bool := e.op = .clone

def isError (e : LogEntry) : Bool := e.op = .error

def isUpdate (e : LogEntry) : Bool :=
  e.op ∈ [.clone, .modify, .promote, .clean, .lostRevert, .lostMark]

def isDelete (e : LogEntry) : Bool := e.op = .delete ∨ e.op = .lostDelete

def canRollback (e : LogEntry) : Bool := e.modDesc.canLocalRollback

/-- Errors are kept for duplicate detection only. -/
def objectIsIndexed (e : LogEntry) : Bool := !e.isError

/-- The entry makes a new object: there is no prior version, or the object is a clone. -/
def Creates (e : LogEntry) : Prop := e.priorVersion = .zero ∨ e.isClone = true

instance (e : LogEntry) : Decidable e.Creates := inferInstanceAs (Decidable (_ ∨ _))

theorem isUpdate_iff (e : LogEntry) :
    e.isUpdate = true ↔ e.isDelete = false ∧ e.isError = false := by
  unfold isUpdate isDelete isError
  cases e.op <;> simp

end LogEntry

/-- `pg_log_dup_t`. -/
structure LogDup where
  reqid : OsdReqid
  version : Eversion
  userVersion : UInt64
  returnCode : Int32
  deriving DecidableEq, Repr

structure PgLog where
  head : Eversion
  tail : Eversion
  canRollbackTo : Eversion
  rollbackInfoTrimmedTo : Eversion
  log : List LogEntry
  dups : List LogDup
  deriving DecidableEq

/-! ## Missing sets -/

/-- `pg_missing_item`. -/
structure MissingItem where
  need : Eversion
  have_ : Eversion
  isDelete : Bool
  deriving DecidableEq, Repr

/-- `pg_missing_set`, with its reverse index and its change tracker. -/
structure MissingSet where
  missing : OrdMap Soid MissingItem
  rmissing : OrdMap UInt64 Soid
  changed : OrdMap Soid Unit
  mayIncludeDeletes : Bool
  deriving DecidableEq

variable (m : MissingSet)

namespace MissingSet

def empty (mayIncludeDeletes : Bool) : MissingSet :=
  ⟨.empty, .empty, .empty, mayIncludeDeletes⟩

/-- The item of an object (`is_missing` with its out argument). -/
def get (m : MissingSet) (oid : Soid) : Option MissingItem := m.missing.get oid

/-- Store an item, index it by the version needed and note the change. -/
def put (m : MissingSet) (oid : Soid) (item : MissingItem) : MissingSet :=
  { m with
    missing := m.missing.insert oid item
    rmissing := m.rmissing.insert item.need.version oid
    changed := m.changed.insert oid () }

/-- Drop the index entry of an object that is missing. -/
def unindex (m : MissingSet) (oid : Soid) : MissingSet :=
  match m.get oid with
  | none => m
  | some item => { m with rmissing := m.rmissing.erase item.need.version }

def addNextEvent (m : MissingSet) (e : LogEntry) : MissingSet :=
  if e.Creates then
    -- new object
    (m.unindex e.soid).put e.soid ⟨e.version, .zero, e.isDelete⟩
  else
    match m.get e.soid with
    | some item =>
      -- already missing (prior)
      (m.unindex e.soid).put e.soid ⟨e.version, item.have_, e.isDelete⟩
    | none =>
      -- not missing, we must have prior_version
      m.put e.soid ⟨e.version, e.priorVersion, e.isDelete⟩

def reviseNeed (m : MissingSet) (oid : Soid) (need : Eversion) (isDelete : Bool) :
    MissingSet :=
  match m.get oid with
  | some item => (m.unindex oid).put oid ⟨need, item.have_, isDelete⟩
  | none => m.put oid ⟨need, .zero, isDelete⟩

def reviseHave (m : MissingSet) (oid : Soid) (have_ : Eversion) : MissingSet :=
  match m.get oid with
  | some item =>
    { m with missing := m.missing.insert oid { item with have_ }
             changed := m.changed.insert oid () }
  | none => m

def add (m : MissingSet) (oid : Soid) (need have_ : Eversion) (isDelete : Bool) : MissingSet :=
  m.put oid ⟨need, have_, isDelete⟩

/-- `rm` of an iterator; nothing happens to an object that is not missing. -/
def rmItem (m : MissingSet) (oid : Soid) : MissingSet :=
  match m.get oid with
  | none => m
  | some item =>
    { m with missing := m.missing.erase oid
             rmissing := m.rmissing.erase item.need.version
             changed := m.changed.insert oid () }

/-- `rm`: forget the object if the version needed is at most `v`. -/
def rm (m : MissingSet) (oid : Soid) (v : Eversion) : MissingSet :=
  match m.get oid with
  | some item => if item.need ≤ v then m.rmItem oid else m
  | none => m

/-- `got`; nothing where an assertion fails. -/
def got (m : MissingSet) (oid : Soid) (v : Eversion) : Option MissingSet :=
  match m.get oid with
  | some item => if item.need ≤ v ∨ item.isDelete then some (m.rmItem oid) else none
  | none => none

/-- `get_oldest_need`; nothing where its assertion fails. -/
def getOldestNeed (m : MissingSet) : Option Eversion :=
  match m.missing.entries, m.rmissing.entries with
  | [], _ => some .zero
  | _ :: _, [] => none
  | _ :: _, (_, oid) :: _ => (m.get oid).map (·.need)

/-! ### What the operations do to the items -/

theorem get_put (oid o : Soid) (item : MissingItem) :
    (m.put oid item).get o = if o = oid then some item else m.get o :=
  m.missing.get_insert oid o item

theorem get_rmItem (oid o : Soid) : (m.rmItem oid).get o = if o = oid then none else m.get o := by
  unfold rmItem
  cases h : m.get oid with
  | none =>
    by_cases ho : o = oid
    · rw [if_pos ho, ho]
      exact h
    · rw [if_neg ho]
  | some item => exact m.missing.get_erase oid o

theorem get_unindex (oid o : Soid) : (m.unindex oid).get o = m.get o := by
  unfold unindex
  cases m.get oid <;> rfl

/-- The item `add_next_event` leaves for the entry's object, from the item before. -/
def nextItem (item : Option MissingItem) (e : LogEntry) : MissingItem :=
  if e.Creates then ⟨e.version, .zero, e.isDelete⟩
  else match item with
    | some item => ⟨e.version, item.have_, e.isDelete⟩
    | none => ⟨e.version, e.priorVersion, e.isDelete⟩

theorem need_nextItem (item : Option MissingItem) (e : LogEntry) :
    (nextItem item e).need = e.version := by
  unfold nextItem
  split_ifs
  · rfl
  · cases item <;> rfl

theorem get_addNextEvent (e : LogEntry) (o : Soid) :
    (m.addNextEvent e).get o =
      if o = e.soid then some (nextItem (m.get e.soid) e) else m.get o := by
  unfold addNextEvent nextItem
  split_ifs with hnew ho ho
  · rw [get_put, if_pos ho]
  · rw [get_put, if_neg ho, get_unindex]
  · cases h : m.get e.soid <;> simp only [get_put, if_pos ho]
  · cases h : m.get e.soid <;> simp only [get_put, if_neg ho, get_unindex]

theorem get_reviseNeed (oid o : Soid) (need : Eversion) (isDelete : Bool) :
    (m.reviseNeed oid need isDelete).get o =
      if o = oid then some ⟨need, ((m.get oid).map (·.have_)).getD .zero, isDelete⟩
      else m.get o := by
  unfold reviseNeed
  cases h : m.get oid with
  | none => simp [get_put]
  | some item => simp [get_put, get_unindex]

theorem get_reviseHave (oid o : Soid) (have_ : Eversion) :
    (m.reviseHave oid have_).get o =
      if o = oid then (m.get oid).map (fun item => { item with have_ }) else m.get o := by
  unfold reviseHave
  cases h : m.get oid with
  | none =>
    by_cases ho : o = oid
    · simp [ho, h]
    · simp [ho]
  | some item => exact m.missing.get_insert oid o _

theorem get_rm (oid o : Soid) (v : Eversion) :
    (m.rm oid v).get o =
      if o = oid then (m.get oid).filter (fun item => !decide (item.need ≤ v))
      else m.get o := by
  unfold rm
  cases h : m.get oid with
  | none =>
    by_cases ho : o = oid
    · simp [ho, h]
    · simp [ho]
  | some item =>
    by_cases ho : o = oid
    · by_cases hv : item.need ≤ v
      · simp [ho, hv, get_rmItem, Option.filter]
      · simp [ho, hv, h, Option.filter]
    · by_cases hv : item.need ≤ v
      · simp [ho, hv, get_rmItem]
      · simp [ho, hv]

/-! ### Change tracking -/

/-- **What a change of the missing set leaves on record**: every object whose item differs,
besides what was on record before. -/
structure Tracked (m m' : MissingSet) : Prop where
  get_eq_or : ∀ o, m'.get o = m.get o ∨ o ∈ m'.changed
  changed_mono : ∀ o ∈ m.changed, o ∈ m'.changed
  mayIncludeDeletes_eq : m'.mayIncludeDeletes = m.mayIncludeDeletes

theorem Tracked.refl : Tracked m m :=
  ⟨fun _ => .inl rfl, fun _ h => h, rfl⟩

theorem Tracked.trans {m₁ m₂ m₃ : MissingSet} (h : Tracked m₁ m₂) (h' : Tracked m₂ m₃) :
    Tracked m₁ m₃ := by
  refine ⟨fun o => ?_, fun o ho => h'.changed_mono o (h.changed_mono o ho),
    h'.mayIncludeDeletes_eq.trans h.mayIncludeDeletes_eq⟩
  rcases h'.get_eq_or o with heq | hmem
  · rcases h.get_eq_or o with heq' | hmem
    · exact .inl (heq.trans heq')
    · exact .inr (h'.changed_mono o hmem)
  · exact .inr hmem

theorem tracked_put (oid : Soid) (item : MissingItem) : Tracked m (m.put oid item) := by
  refine ⟨fun o => ?_, fun o ho => (mem_insert ..).mpr (.inr ho), rfl⟩
  by_cases h : o = oid
  · exact .inr ((mem_insert ..).mpr (.inl h))
  · exact .inl (by rw [get_put, if_neg h])

theorem tracked_unindex (oid : Soid) : Tracked m (m.unindex oid) := by
  refine ⟨fun o => .inl (get_unindex m oid o), ?_, ?_⟩
  · unfold unindex
    cases m.get oid <;> exact fun _ h => h
  · unfold unindex
    cases m.get oid <;> rfl

theorem tracked_addNextEvent (e : LogEntry) : Tracked m (m.addNextEvent e) := by
  unfold addNextEvent
  split_ifs
  · exact (tracked_unindex m _).trans (tracked_put _ _ _)
  · cases h : m.get e.soid with
    | none => exact tracked_put m _ _
    | some item => exact (tracked_unindex m _).trans (tracked_put _ _ _)

theorem tracked_reviseNeed (oid : Soid) (need : Eversion) (isDelete : Bool) :
    Tracked m (m.reviseNeed oid need isDelete) := by
  unfold reviseNeed
  cases h : m.get oid with
  | none => exact tracked_put m _ _
  | some item => exact (tracked_unindex m _).trans (tracked_put _ _ _)

theorem tracked_reviseHave (oid : Soid) (have_ : Eversion) :
    Tracked m (m.reviseHave oid have_) := by
  refine ⟨fun o => ?_, ?_, ?_⟩
  · rw [get_reviseHave]
    by_cases ho : o = oid
    · cases h : m.get oid with
      | none => exact .inl (by simp [ho, h])
      | some item =>
        refine .inr ?_
        unfold reviseHave
        rw [h]
        exact (mem_insert ..).mpr (.inl ho)
    · exact .inl (by rw [if_neg ho])
  · unfold reviseHave
    cases m.get oid with
    | none => exact fun _ h => h
    | some item => exact fun o ho => (mem_insert ..).mpr (.inr ho)
  · unfold reviseHave
    cases m.get oid <;> rfl

theorem tracked_rmItem (oid : Soid) : Tracked m (m.rmItem oid) := by
  refine ⟨fun o => ?_, ?_, ?_⟩
  · by_cases ho : o = oid
    · cases h : m.get oid with
      | none => exact .inl (by rw [get_rmItem, if_pos ho, ho, h])
      | some item =>
        refine .inr ?_
        unfold rmItem
        rw [h]
        exact (mem_insert ..).mpr (.inl ho)
    · exact .inl (by rw [get_rmItem, if_neg ho])
  · unfold rmItem
    cases m.get oid with
    | none => exact fun _ h => h
    | some item => exact fun o ho => (mem_insert ..).mpr (.inr ho)
  · unfold rmItem
    cases m.get oid <;> rfl

theorem tracked_rm (oid : Soid) (v : Eversion) : Tracked m (m.rm oid v) := by
  unfold rm
  cases h : m.get oid with
  | none => exact Tracked.refl m
  | some item =>
    by_cases hv : item.need ≤ v
    · simp only [hv, if_true]
      exact tracked_rmItem m oid
    · simp only [hv, if_false]
      exact Tracked.refl m

end MissingSet

end Ceph.Osd
