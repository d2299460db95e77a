import Ceph.Lib.ByteString

set_option autoImplicit false

/-! # The transaction of a placement group

`PGTransaction` collects what the operations of a client do to an object. It keeps no list of the
steps: an `ObjectOperation` says whether the object is removed first, how it is made, the truncations
and the writes that are left, and `generate_transaction` gives these to the store in that order.

Here is the entry of one object. The theorems say what a recorded step does to the bytes that the
store will have: a truncation resizes them, a write overwrites them. A removal does not always empty
them (`bytes_remove`): it forgets what was recorded of an object that the transaction has made, and
with it that an older object was to be removed.
-/

namespace Ceph.Osd

open ByteString

/-- `ObjectOperation::Init`. The source of a clone is given by its snapshot id. -/
inductive InitType
  | none
  | create
  | clone (source : ℕ)
deriving DecidableEq

/-- The lowest truncation and the last one. -/
structure Truncation where
  lowest : ℕ
  last : ℕ
  le : lowest ≤ last
deriving DecidableEq

/-- `ObjectOperation`. `buffer_updates` maps intervals to data, the newer over the older; it is kept
as the list of what was inserted, the newest last. -/
structure ObjectOperation where
  initType : InitType := .none
  deleteFirst : Bool := false
  truncate : Option Truncation := none
  bufferUpdates : List (ℕ × List UInt8) := []
deriving DecidableEq

namespace ObjectOperation

def isDelete (op : ObjectOperation) : Bool := op.initType = .none && op.deleteFirst

def isNone (op : ObjectOperation) : Bool := op.initType = .none && !op.deleteFirst

def isFreshObject (op : ObjectOperation) : Bool := op.initType ≠ .none

/-- `buffer_updates.erase` from an offset on. -/
def eraseFrom (off : ℕ) (l : List (ℕ × List UInt8)) : List (ℕ × List UInt8) :=
  l.map fun u => (u.1, u.2.take (off - u.1))

/-- The write of an update. -/
def applyUpdate (b : Option (List UInt8)) (u : ℕ × List UInt8) : Option (List UInt8) :=
  some (ByteString.overwrite 0 u.1 u.2 (b.getD []))

/-- `generate_transaction`: what the store has of the object afterwards, if it had `stored` of it.
`source` are the clones. -/
def generate (op : ObjectOperation) (source : ℕ → List UInt8) (stored : Option (List UInt8)) :
    Option (List UInt8) :=
  let b := if op.deleteFirst then none else stored
  let b := match op.initType with
    | .none => b
    | .create => some (b.getD [])
    | .clone s => some (source s)
  let b := match op.truncate with
    | none => b
    | some t =>
      let b := ByteString.resize 0 t.lowest (b.getD [])
      some (if t.lowest ≠ t.last then ByteString.resize 0 t.last b else b)
  op.bufferUpdates.foldl applyUpdate b

end ObjectOperation

/-- The entry of the object in `op_map`. -/
structure PGTransaction where
  entry : Option ObjectOperation := none
deriving DecidableEq

namespace PGTransaction

open ObjectOperation

def empty (t : PGTransaction) : Bool := t.entry.isNone

/-- `op_map[hoid]`. -/
def op (t : PGTransaction) : ObjectOperation := t.entry.getD {}

def getObjectOpForModify (t : PGTransaction) : Option ObjectOperation :=
  -- ceph_assert(!op.is_delete())
  if t.op.isDelete then none else some t.op

/-- How `create` and `clone` set up an object. -/
def init (t : PGTransaction) (i : InitType) : Option PGTransaction :=
  -- ceph_assert(op.is_none() || op.is_delete())
  if t.op.isNone || t.op.isDelete then some ⟨some { t.op with initType := i }⟩ else none

def create (t : PGTransaction) : Option PGTransaction := t.init .create

def clone (t : PGTransaction) (source : ℕ) : Option PGTransaction := t.init (.clone source)

def remove (t : PGTransaction) : Option PGTransaction :=
  t.getObjectOpForModify.map fun op =>
    if !op.isFreshObject then ⟨some { deleteFirst := true }⟩
    -- make it a noop if it's a fresh object
    else ⟨none⟩

/-- The truncations after one more. -/
def addTruncation (off : ℕ) : Option Truncation → Truncation
  | none => ⟨off, off, le_refl off⟩
  | some t => if h : off < t.lowest then ⟨off, off, le_refl off⟩ else ⟨t.lowest, off, not_lt.mp h⟩

def truncate (t : PGTransaction) (off : ℕ) : Option PGTransaction :=
  t.getObjectOpForModify.map fun op =>
    ⟨some { op with
      bufferUpdates := eraseFrom off op.bufferUpdates
      truncate := some (addTruncation off op.truncate) }⟩

/-- An insertion into `buffer_updates`. -/
def update (t : PGTransaction) (off : ℕ) (data : List UInt8) : Option PGTransaction :=
  t.getObjectOpForModify.map fun op =>
    ⟨some { op with bufferUpdates := op.bufferUpdates ++ [(off, data)] }⟩

def write (t : PGTransaction) (off : ℕ) (data : List UInt8) : Option PGTransaction :=
  -- ceph_assert(len > 0)
  if data.length > 0 then t.update off data else none

def zero (t : PGTransaction) (off len : ℕ) : Option PGTransaction :=
  t.update off (List.replicate len 0)

def nop (t : PGTransaction) : Option PGTransaction :=
  t.getObjectOpForModify.map fun op => ⟨some op⟩

/-- What the store has of the object after the transaction. -/
def generate (t : PGTransaction) (source : ℕ → List UInt8) (stored : Option (List UInt8)) :
    Option (List UInt8) :=
  match t.entry with
  | none => stored
  | some op => op.generate source stored

/-- The bytes that the store has of the object after the transaction. -/
def bytes (t : PGTransaction) (source : ℕ → List UInt8) (stored : Option (List UInt8)) :
    List UInt8 := (t.generate source stored).getD []

end PGTransaction

namespace ObjectOperation

variable (source : ℕ → List UInt8) (stored : Option (List UInt8))

/-- The bytes before the truncations and the writes. -/
def initBytes (op : ObjectOperation) : List UInt8 :=
  match op.initType with
  | .clone s => source s
  | _ => if op.deleteFirst then [] else stored.getD []

def truncateBytes (t : Option Truncation) (b : List UInt8) : List UInt8 :=
  match t with
  | none => b
  | some t => ByteString.resize 0 t.last (ByteString.resize 0 t.lowest b)

def updateBytes (l : List (ℕ × List UInt8)) (b : List UInt8) : List UInt8 :=
  l.foldl (fun b u => ByteString.overwrite 0 u.1 u.2 b) b

theorem getD_foldl_applyUpdate (l : List (ℕ × List UInt8)) (b : Option (List UInt8)) :
    (l.foldl applyUpdate b).getD [] = updateBytes l (b.getD []) := by
  induction l generalizing b with
  | nil => rfl
  | cons u l ih => exact ih (applyUpdate b u)

/-- **The bytes of an object are made in three parts.** -/
theorem getD_generate (op : ObjectOperation) :
    (op.generate source stored).getD [] =
      updateBytes op.bufferUpdates (truncateBytes op.truncate (op.initBytes source stored)) := by
  rw [generate, getD_foldl_applyUpdate]
  congr 1
  have hinit : (match op.initType with
      | .none => if op.deleteFirst then none else stored
      | .create => some ((if op.deleteFirst then none else stored).getD [])
      | .clone s => some (source s) : Option (List UInt8)).getD [] = op.initBytes source stored := by
    rw [initBytes]
    cases op.initType with
    | none => cases op.deleteFirst <;> rfl
    | create => cases op.deleteFirst <;> rfl
    | clone s => rfl
  cases ht : op.truncate with
  | none => exact hinit
  | some t =>
    simp only [truncateBytes, Option.getD_some]
    rw [hinit]
    by_cases h : t.lowest = t.last
    · rw [if_neg (by simpa using h), ← h, resize_resize 0 (.inl le_rfl)]
    · rw [if_pos h]

theorem updateBytes_append (l : List (ℕ × List UInt8)) (u : ℕ × List UInt8) (b : List UInt8) :
    updateBytes (l ++ [u]) b = ByteString.overwrite 0 u.1 u.2 (updateBytes l b) :=
  List.foldl_append ..

/-- A truncation after the writes is one before them, if the writes are cut. -/
theorem resize_updateBytes (off : ℕ) (l : List (ℕ × List UInt8)) (b : List UInt8) :
    ByteString.resize 0 off (updateBytes l b) =
      updateBytes (eraseFrom off l) (ByteString.resize 0 off b) := by
  induction l generalizing b with
  | nil => rfl
  | cons u l ih =>
    show ByteString.resize 0 off (updateBytes l _) = _
    rw [ih, resize_overwrite]
    rfl

/-- The lowest and the last truncation are enough. -/
theorem truncateBytes_addTruncation (off : ℕ) (t : Option Truncation) (b : List UInt8) :
    truncateBytes (some (PGTransaction.addTruncation off t)) b =
      ByteString.resize 0 off (truncateBytes t b) := by
  cases t with
  | none => exact resize_resize 0 (.inl le_rfl)
  | some t =>
    rw [PGTransaction.addTruncation]
    by_cases h : off < t.lowest
    · have hlast : off ≤ t.last := le_trans h.le t.le
      rw [dif_pos h]
      calc truncateBytes (some ⟨off, off, le_refl off⟩) b
          = ByteString.resize 0 off b := resize_resize 0 (.inl le_rfl)
        _ = ByteString.resize 0 off (ByteString.resize 0 t.lowest b) :=
            (resize_resize 0 (.inl h.le)).symm
        _ = ByteString.resize 0 off (truncateBytes (some t) b) :=
            (resize_resize 0 (.inl hlast)).symm
    · rw [dif_neg h]
      -- nothing is between the lowest truncation and the last one
      refine (resize_resize 0 (.inr ?_)).symm
      rw [length_resize]
      exact t.le

end ObjectOperation

namespace PGTransaction

open ObjectOperation

variable {source : ℕ → List UInt8} {stored : Option (List UInt8)} {t t' : PGTransaction}

theorem bytes_eq (t : PGTransaction) (source : ℕ → List UInt8) (stored : Option (List UInt8)) :
    t.bytes source stored = updateBytes t.op.bufferUpdates
      (truncateBytes t.op.truncate (t.op.initBytes source stored)) := by
  cases t with
  | mk entry =>
    cases entry with
    | none => rfl
    | some op => exact op.getD_generate source stored

theorem getObjectOpForModify_eq_some {op : ObjectOperation}
    (h : t.getObjectOpForModify = some op) : op = t.op := by
  rw [getObjectOpForModify] at h
  by_cases hdel : t.op.isDelete = true
  · rw [if_pos hdel] at h
    cases h
  · rw [if_neg hdel, Option.some_inj] at h
    exact h.symm

theorem bytes_truncate {off : ℕ} (h : t.truncate off = some t') :
    t'.bytes source stored = ByteString.resize 0 off (t.bytes source stored) := by
  obtain ⟨op, hop, rfl⟩ := Option.map_eq_some_iff.mp h
  rw [getObjectOpForModify_eq_some hop, bytes_eq, bytes_eq, resize_updateBytes,
    ← truncateBytes_addTruncation]
  rfl

theorem bytes_update {off : ℕ} {data : List UInt8} (h : t.update off data = some t') :
    t'.bytes source stored = ByteString.overwrite 0 off data (t.bytes source stored) := by
  obtain ⟨op, hop, rfl⟩ := Option.map_eq_some_iff.mp h
  rw [getObjectOpForModify_eq_some hop, bytes_eq, bytes_eq]
  exact updateBytes_append ..

theorem bytes_write {off : ℕ} {data : List UInt8} (h : t.write off data = some t') :
    t'.bytes source stored = ByteString.overwrite 0 off data (t.bytes source stored) := by
  rw [write] at h
  by_cases hdata : data.length > 0
  · rw [if_pos hdata] at h
    exact bytes_update h
  · rw [if_neg hdata] at h
    cases h

theorem bytes_nop (h : t.nop = some t') : t'.bytes source stored = t.bytes source stored := by
  obtain ⟨op, hop, rfl⟩ := Option.map_eq_some_iff.mp h
  rw [getObjectOpForModify_eq_some hop, bytes_eq, bytes_eq]
  rfl

theorem init_eq_some {i : InitType} (h : t.init i = some t') :
    t.op.initType = .none ∧ t'.op = { t.op with initType := i } := by
  rw [init] at h
  by_cases hop : (t.op.isNone || t.op.isDelete) = true
  · rw [if_pos hop, Option.some_inj] at h
    refine ⟨?_, ?_⟩
    · simp only [isNone, isDelete, Bool.or_eq_true, Bool.and_eq_true, decide_eq_true_eq] at hop
      rcases hop with hop | hop
      · exact hop.1
      · exact hop.1
    · rw [← h]
      rfl
  · rw [if_neg hop] at h
    cases h

theorem bytes_create (h : t.create = some t') : t'.bytes source stored = t.bytes source stored := by
  obtain ⟨hnone, hop⟩ := init_eq_some h
  rw [bytes_eq, bytes_eq, hop]
  simp only [initBytes, hnone]

/-- The transaction has recorded nothing but that the object is removed. -/
def Blank (t : PGTransaction) : Prop := t.op.truncate = none ∧ t.op.bufferUpdates = []

theorem bytes_clone {s : ℕ} (hblank : t.Blank) (h : t.clone s = some t') :
    t'.bytes source stored = source s := by
  obtain ⟨-, hop⟩ := init_eq_some h
  rw [bytes_eq, hop]
  simp only [initBytes, hblank.1, hblank.2]
  rfl

theorem remove_eq_some (h : t.remove = some t') :
    t' = if t.op.isFreshObject then ⟨none⟩ else ⟨some { deleteFirst := true }⟩ := by
  obtain ⟨op, hop, rfl⟩ := Option.map_eq_some_iff.mp h
  rw [getObjectOpForModify_eq_some hop]
  cases t.op.isFreshObject <;> rfl

theorem blank_remove (h : t.remove = some t') : t'.Blank := by
  rw [remove_eq_some h]
  cases t.op.isFreshObject
  · exact ⟨rfl, rfl⟩
  · exact ⟨rfl, rfl⟩

/-- **The bytes after a removal.** An object that the transaction has made is forgotten, and the store
keeps what it had before the transaction. -/
theorem bytes_remove (h : t.remove = some t') :
    t'.bytes source stored = if t.op.isFreshObject then stored.getD [] else [] := by
  rw [remove_eq_some h]
  cases t.op.isFreshObject
  · rfl
  · rfl

end PGTransaction

end Ceph.Osd
