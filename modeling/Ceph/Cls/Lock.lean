import Ceph.Lib.OrdMap
import Mathlib.Data.Prod.Lex
import Mathlib.Data.String.Basic

set_option autoImplicit false

/-! # Advisory locks

The object class of `cls/lock/cls_lock.cc`. A lock is an extended attribute of an object: a set of
lockers, with a type and a tag. Lockers that have expired are dropped when the lock is read. An
ephemeral lock is removed with its object.

An object that does not exist is `none`. A method that fails changes nothing, since its
transaction is dropped; an assertion that fails is `none`.
-/

namespace Ceph.Cls.Lock

/-! ## Types -/

/-- `ClsLockType`, and the values that are not in the enumeration. -/
inductive ClsLockType
  | none
  | exclusive
  | shared
  | exclusiveEphemeral
  | other (t : ℕ)
deriving DecidableEq

def ClsLockType.isExclusive (t : ClsLockType) : Bool := t = .exclusive || t = .exclusiveEphemeral

def ClsLockType.isEphemeral (t : ClsLockType) : Bool := t = .exclusiveEphemeral

def ClsLockType.isValid (t : ClsLockType) : Bool :=
  t = .shared || t = .exclusive || t = .exclusiveEphemeral

structure UTime where
  sec : ℕ
  nsec : ℕ
deriving DecidableEq

def UTime.isZero (a : UTime) : Bool := a.sec = 0 && a.nsec = 0

/-- `operator<`. -/
def UTime.lt (a b : UTime) : Bool := a.sec < b.sec || (a.sec = b.sec && a.nsec < b.nsec)

/-- `operator+=`, with `normalize`. -/
def UTime.add (a b : UTime) : UTime :=
  let sec := min (a.sec + b.sec) (2 ^ 32 - 1)
  let nsec := (a.nsec + b.nsec) % 2 ^ 32
  if nsec > 1000000000 then ⟨min (sec + nsec / 1000000000) (2 ^ 32 - 1), nsec % 1000000000⟩
  else ⟨sec, nsec⟩

/-- `entity_name_t`: the type and the number. -/
abbrev EntityName := ℕ ×ₗ ℤ

/-- The fields of `entity_addr_t`. -/
structure EntityAddr where
  type : ℕ
  nonce : ℕ
  sockaddr : List UInt8
deriving DecidableEq

def typeLegacy : ℕ := 1

structure EntityInst where
  name : EntityName
  addr : EntityAddr

/-- `locker_id_t`: the locker's client name and cookie. -/
abbrev LockerId := EntityName ×ₗ String

def lockerId (locker : EntityName) (cookie : String) : LockerId := toLex (locker, cookie)

/-- `locker_info_t`. An expiration other than zero is when the locker expires. -/
structure LockerInfo where
  expiration : UTime
  addr : EntityAddr
  description : String
deriving DecidableEq

def LockerInfo.expired (info : LockerInfo) (now : UTime) : Bool :=
  !info.expiration.isZero && info.expiration.lt now

structure LockInfo where
  lockers : OrdMap LockerId LockerInfo := .empty
  lockType : ClsLockType := .none
  tag : String := ""
deriving DecidableEq

def LockInfo.unexpired (lock : LockInfo) (now : UTime) : OrdMap LockerId LockerInfo :=
  lock.lockers.filter fun _ info => !info.expired now

/-- An object, with its attributes `lock.<name>`. -/
abbrev Object := Option (OrdMap String LockInfo)

inductive Errno
  | EINVAL
  | EBUSY
  | EEXIST
  | ENOENT
  | EIO
deriving DecidableEq

/-- What a call finds: its origin, the time at which it reads the lock and the time at which it
sets an expiration, and whether the store reads and writes the attribute. -/
structure Env where
  origin : EntityInst
  readTime : UTime
  lockTime : UTime
  reads : Bool := true
  writes : Bool := true

/-! ## Reading and writing a lock -/

/-- What `read_lock` gives: the lock, the object, and whether it was written to. -/
structure ReadLock where
  lock : LockInfo
  object : Object
  wrote : Bool

def readLock (env : Env) (object : Object) (name : String) : Except Errno ReadLock :=
  match object with
  | none => .error .ENOENT
  | some attrs =>
    if !env.reads then .error Errno.EIO
    else
      match attrs.get name with
      -- ENODATA
      | none => .ok ⟨{}, object, false⟩
      | some lock =>
        -- now trim expired locks
        let lock := { lock with lockers := lock.unexpired env.readTime }
        if lock.lockers.entries = [] ∧ lock.lockType.isEphemeral then
          -- clean_lock
          .ok ⟨lock, none, true⟩
        else .ok ⟨lock, object, false⟩

def writeLock (env : Env) (object : Object) (name : String) (lock : LockInfo) :
    Except Errno Object :=
  if env.writes then .ok (some ((object.getD .empty).insert name lock)) else .error Errno.EIO

/-! ## The methods -/

/-- `LOCK_FLAG_MAY_RENEW`. -/
def mayRenew (flags : ℕ) : Bool := flags.testBit 0

/-- `LOCK_FLAG_MUST_RENEW`. -/
def mustRenew (flags : ℕ) : Bool := flags.testBit 1

/-- The arguments of `lock_op`. -/
structure LockOp where
  name : String
  type : ClsLockType
  cookie : String
  tag : String
  description : String
  duration : UTime
  flags : ℕ

/-- `locker_info_t` of a new locker. -/
def newLocker (env : Env) (op : LockOp) : LockerInfo where
  expiration := if op.duration.isZero then ⟨0, 0⟩ else env.lockTime.add op.duration
  addr := { env.origin.addr with type := typeLegacy }
  description := op.description

/-- The end of `lock_obj`, with the other lockers. -/
def takeLock (env : Env) (op : LockOp) (r : ReadLock) (lockers : OrdMap LockerId LockerInfo) :
    Except Errno Object :=
  if lockers.entries ≠ [] ∧ op.type.isExclusive then .error .EBUSY
  else if lockers.entries ≠ [] ∧ r.lock.lockType ≠ op.type then .error .EBUSY
  else
    writeLock env r.object op.name
      ⟨lockers.insert (lockerId env.origin.name op.cookie) (newLocker env op), op.type, op.tag⟩

def lockObj (env : Env) (object : Object) (op : LockOp) : Except Errno Object :=
  let failIfExists := !mayRenew op.flags
  let failIfDoesNotExist := mustRenew op.flags
  if !op.type.isValid then .error .EINVAL
  else if op.name = "" then .error .EINVAL
  else if !failIfExists && failIfDoesNotExist then .error .EINVAL
  else
    match readLock env object op.name with
    | .error .ENOENT => lockWith ⟨{}, object, false⟩
    | .error e => .error e
    | .ok r => lockWith r
where
  /-- What follows when the lock is read. -/
  lockWith (r : ReadLock) : Except Errno Object :=
    let id := lockerId env.origin.name op.cookie
    if r.lock.lockers.entries ≠ [] ∧ op.tag ≠ r.lock.tag then .error .EBUSY
    else if (r.lock.lockers.get id).isSome then
      if !mayRenew op.flags && !mustRenew op.flags then .error .EEXIST
      -- remove old entry
      else takeLock env op r (r.lock.lockers.erase id)
    else if mustRenew op.flags then .error .ENOENT
    else takeLock env op r r.lock.lockers

def removeLock (env : Env) (object : Object) (name : String) (locker : EntityName)
    (cookie : String) : Option (Except Errno Object) :=
  match readLock env object name with
  | .error e => some (.error e)
  | .ok r =>
    let id := lockerId locker cookie
    if (r.lock.lockers.get id).isNone then some (.error .ENOENT)
    else
      let lockers := r.lock.lockers.erase id
      if r.lock.lockType.isEphemeral then
        -- ceph_assert(lockers.empty())
        if lockers.entries ≠ [] then none else some (.ok none)
      else some (writeLock env r.object name { r.lock with lockers := lockers })

/-- The checks that `assert_locked` and `set_cookie` make. -/
def checkLocked (env : Env) (object : Object) (name : String) (type : ClsLockType)
    (cookie tag : String) : Except Errno (ReadLock × LockerInfo) :=
  if !type.isValid then .error .EINVAL
  else if name = "" then .error .EINVAL
  else
    match readLock env object name with
    | .error e => .error e
    | .ok r =>
      if r.lock.lockers.entries = [] then .error .EBUSY
      else if r.lock.lockType ≠ type then .error .EBUSY
      else if r.lock.tag ≠ tag then .error .EBUSY
      else
        match r.lock.lockers.get (lockerId env.origin.name cookie) with
        | none => .error .EBUSY
        | some info => .ok (r, info)

/-- `assert_locked`. It is not marked to write, so that it fails if reading the lock has removed the
object. -/
def assertLocked (env : Env) (object : Object) (name : String) (type : ClsLockType)
    (cookie tag : String) : Except Errno Object :=
  match checkLocked env object name type cookie tag with
  | .error e => .error e
  | .ok (r, _) => if r.wrote then .error Errno.EIO else .ok r.object

def setCookie (env : Env) (object : Object) (name : String) (type : ClsLockType)
    (cookie tag newCookie : String) : Except Errno Object :=
  match checkLocked env object name type cookie tag with
  | .error e => .error e
  | .ok (r, info) =>
    let id := lockerId env.origin.name newCookie
    -- lock cookie in-use
    if (r.lock.lockers.get id).isSome then .error .EBUSY
    else
      writeLock env r.object name { r.lock with
        lockers := (r.lock.lockers.erase (lockerId env.origin.name cookie)).insert id info }

/-! ## Calls -/

/-- The calls. `unlock` removes the caller's own lock, `break_lock` that of any locker. -/
inductive Call
  | lock (op : LockOp)
  | unlock (name cookie : String)
  | breakLock (name : String) (locker : EntityName) (cookie : String)
  | setCookie (name : String) (type : ClsLockType) (cookie tag newCookie : String)
  | assertLocked (name : String) (type : ClsLockType) (cookie tag : String)

/-- A call: `none` if it aborts. -/
def exec (env : Env) (object : Object) : Call → Option (Except Errno Object)
  | .lock op => some (lockObj env object op)
  | .unlock name cookie => removeLock env object name env.origin.name cookie
  | .breakLock name locker cookie => removeLock env object name locker cookie
  | .setCookie name type cookie tag newCookie =>
    some (setCookie env object name type cookie tag newCookie)
  | .assertLocked name type cookie tag => some (assertLocked env object name type cookie tag)

/-- The type and the tag under which each locker of each lock was admitted. -/
abbrev Admitted := String → LockerId → Option (ClsLockType × String)

/-- What a call that succeeds adds: a new locker, or a new name for one. -/
def Admitted.after (admitted : Admitted) (env : Env) : Call → Admitted
  | .lock op => Function.update admitted op.name
    (Function.update (admitted op.name) (lockerId env.origin.name op.cookie)
      (some (op.type, op.tag)))
  | .setCookie name _ cookie _ newCookie => Function.update admitted name
    (Function.update (admitted name) (lockerId env.origin.name newCookie)
      (admitted name (lockerId env.origin.name cookie)))
  | _ => admitted

/-- The object, and how its lockers were admitted. -/
structure State where
  object : Object
  admitted : Admitted := fun _ _ => none

/-- One call. If it fails, nothing changes. -/
def step (st : State) (c : Env × Call) : Option State :=
  (exec c.1 st.object c.2).map fun
    | .error _ => st
    | .ok object => ⟨object, st.admitted.after c.1 c.2⟩

end Ceph.Cls.Lock
