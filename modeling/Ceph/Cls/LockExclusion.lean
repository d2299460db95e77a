import Ceph.Cls.Lock
import Ceph.Lib.Transition

set_option autoImplicit false

/-! # Advisory locks exclude each other

What holds of every lock that is stored (`Good`): its type is valid, an exclusive lock has at most
one locker, and every locker was admitted under the type and the tag of the lock. Every call keeps
this (`step_spec`), whatever the times. From it follows what the calls promise (`lock_exclusion`).
-/

namespace Ceph.Cls.Lock

open Function OrdMap List Option

open Transition (run)

/-! ## The locks of an object -/

/-- The lock that an object stores under a name. -/
def lockAt (object : Object) (name : String) : Option LockInfo :=
  object.bind fun attrs => attrs.get name

/-- **A lock that is stored**: an exclusive one has one locker at most, and all lockers were
admitted under its type and tag. -/
structure Good (admitted : LockerId → Option (ClsLockType × String)) (lock : LockInfo) : Prop where
  valid : lock.lockType.isValid = true
  single : lock.lockType.isExclusive = true → lock.lockers.entries.length ≤ 1
  admitted : ∀ id info, lock.lockers.get id = some info →
    admitted id = some (lock.lockType, lock.tag)

/-- **The invariant**: every stored lock is good, and has a name. -/
def Inv (st : State) : Prop :=
  ∀ name lock, lockAt st.object name = some lock → name ≠ "" ∧ Good (st.admitted name) lock

section Good

variable {admitted : LockerId → Option (ClsLockType × String)} {lock : LockInfo}

theorem get_unexpired {now : UTime} {id : LockerId} {info : LockerInfo} :
    (lock.unexpired now).get id = some info ↔
      lock.lockers.get id = some info ∧ info.expired now = false := by
  rw [LockInfo.unexpired, OrdMap.get_filter, filter_eq_some_iff, Bool.not_eq_true']

theorem Good.filter (h : Good admitted lock) (p : LockerId → LockerInfo → Bool) :
    Good admitted { lock with lockers := lock.lockers.filter p } := by
  refine ⟨h.valid, fun hexcl => (length_filter_le _ _).trans (h.single hexcl), ?_⟩
  intro id info hget
  rw [OrdMap.get_filter, filter_eq_some_iff] at hget
  exact h.admitted id info hget.1

end Good

/-! ## Reading -/

section Read

variable {env : Env} {object : Object} {name : String} {r : ReadLock}

/-- What `read_lock` has read. -/
structure Readable (env : Env) (object : Object) (name : String) (r : ReadLock) : Prop where
  reads : env.reads = true
  kept : ∀ n lock, lockAt r.object n = some lock → lockAt object n = some lock
  lock : (lockAt object name = none ∧ r.lock = {}) ∨ ∃ lock, lockAt object name = some lock ∧
    r.lock = { lock with lockers := lock.unexpired env.readTime }

/-- **`read_lock`.** -/
theorem readLock_spec (h : readLock env object name = .ok r) : Readable env object name r := by
  cases object with
  | none => simp [readLock] at h
  | some attrs =>
    simp only [readLock] at h
    split_ifs at h with hreads
    have hreads : env.reads = true := by simpa using hreads
    cases hget : attrs.get name with
    | none =>
      rw [hget] at h
      cases h
      exact ⟨hreads, fun _ _ h => h, .inl ⟨hget, rfl⟩⟩
    | some lock =>
      simp only [hget] at h
      split_ifs at h
      · cases h
        exact ⟨hreads, fun n l h => absurd h (by simp [lockAt]), .inr ⟨lock, hget, rfl⟩⟩
      · cases h
        exact ⟨hreads, fun _ _ h => h, .inr ⟨lock, hget, rfl⟩⟩

theorem readLock_enoent (h : readLock env object name = .error .ENOENT) : object = none := by
  cases object with
  | none => rfl
  | some attrs =>
    simp only [readLock] at h
    split_ifs at h with hreads
    · exact absurd h (by simp)
    · cases hget : attrs.get name with
      | none =>
        rw [hget] at h
        exact absurd h (by simp)
      | some lock =>
        simp only [hget] at h
        split_ifs at h

theorem Readable.good {st : State} (h : Readable env st.object name r) (hinv : Inv st) :
    r.lock.lockers.entries = [] ∨ name ≠ "" ∧ Good (st.admitted name) r.lock := by
  rcases h.lock with ⟨-, heq⟩ | ⟨lock, hlock, heq⟩
  · left
    rw [heq]
    rfl
  · right
    obtain ⟨hname, hgood⟩ := hinv name lock hlock
    rw [heq]
    exact ⟨hname, hgood.filter _⟩

theorem Readable.get_iff (h : Readable env object name r) {id : LockerId} {info : LockerInfo} :
    r.lock.lockers.get id = some info ↔ ∃ lock, lockAt object name = some lock ∧
      lock.lockers.get id = some info ∧ info.expired env.readTime = false := by
  rcases h.lock with ⟨hnone, heq⟩ | ⟨lock, hlock, heq⟩
  · rw [heq, hnone]
    constructor
    · intro hget
      exact absurd hget (by simp)
    · rintro ⟨lock, hlock, -⟩
      exact absurd hlock (by simp)
  · rw [heq]
    constructor
    · intro hget
      exact ⟨lock, hlock, get_unexpired.mp hget⟩
    · rintro ⟨lock', hlock', hget⟩
      obtain rfl := Option.some.inj (hlock.symm.trans hlock')
      exact get_unexpired.mpr hget

end Read

/-! ## Writing -/

/-- **A lock is written.** The others are as they were. -/
theorem writeLock_inv {env : Env} {st : State} (hinv : Inv st) {object object' : Object}
    {name : String} {lock : LockInfo} {admitted : Admitted}
    (hkept : ∀ n l, lockAt object n = some l → lockAt st.object n = some l)
    (hwrite : writeLock env object name lock = .ok object') (hname : name ≠ "")
    (hgood : Good (admitted name) lock) (hother : ∀ n, n ≠ name → admitted n = st.admitted n) :
    Inv ⟨object', admitted⟩ := by
  rw [writeLock] at hwrite
  split_ifs at hwrite
  cases hwrite
  intro n l hl
  simp only [lockAt, bind_some, get_insert] at hl
  split_ifs at hl with hn
  · cases hl
    exact ⟨hn ▸ hname, hn ▸ hgood⟩
  · have hbefore : lockAt object n = some l := by
      cases object with
      | none => exact absurd hl (by simp)
      | some attrs => exact hl
    show n ≠ "" ∧ Good (admitted n) l
    rw [hother n hn]
    exact hinv n l (hkept n l hbefore)

theorem inv_none (admitted : Admitted) : Inv ⟨none, admitted⟩ :=
  fun _ _ h => absurd h (by simp [lockAt])

/-! ## The methods -/

section Methods

variable {env : Env} {st : State} {object' : Object}

theorem lockObj_ok {op : LockOp} (h : lockObj env st.object op = .ok object') :
    op.type.isValid = true ∧ op.name ≠ "" ∧ ∃ r, lockObj.lockWith env op r = .ok object' ∧
      (Readable env st.object op.name r ∨ st.object = none ∧ r = ⟨{}, none, false⟩) := by
  simp only [lockObj] at h
  split_ifs at h with hvalid hname hflags
  refine ⟨by simpa using hvalid, hname, ?_⟩
  cases hread : readLock env st.object op.name with
  | ok r =>
    rw [hread] at h
    exact ⟨r, h, .inl (readLock_spec hread)⟩
  | error e =>
    rw [hread] at h
    cases e with
    | ENOENT =>
      have hnone := readLock_enoent hread
      rw [hnone] at h
      exact ⟨_, h, .inr ⟨hnone, rfl⟩⟩
    | _ => exact absurd h (by simp)

/-- The caller is a locker that has not expired. -/
def Holder (env : Env) (object : Object) (name cookie : String) : Prop :=
  ∃ lock info, lockAt object name = some lock ∧
    lock.lockers.get (lockerId env.origin.name cookie) = some info ∧
    info.expired env.readTime = false

/-- **`lock` admits a new holder, or renews.** -/
theorem lockObj_renews {op : LockOp} (h : lockObj env st.object op = .ok object') :
    (¬ Holder env st.object op.name op.cookie ∧ mustRenew op.flags = false) ∨
      (Holder env st.object op.name op.cookie ∧
        (mayRenew op.flags = true ∨ mustRenew op.flags = true)) := by
  obtain ⟨-, -, r, hwith, hr⟩ := lockObj_ok h
  have hholder : (r.lock.lockers.get (lockerId env.origin.name op.cookie)).isSome = true ↔
      Holder env st.object op.name op.cookie := by
    rcases hr with hr | ⟨hnone, rfl⟩
    · rw [isSome_iff_exists]
      constructor
      · rintro ⟨info, hget⟩
        obtain ⟨lock, hlock⟩ := hr.get_iff.mp hget
        exact ⟨lock, info, hlock⟩
      · rintro ⟨lock, info, hlock⟩
        exact ⟨info, hr.get_iff.mpr ⟨lock, hlock⟩⟩
    · constructor
      · intro hsome
        exact absurd hsome (by simp)
      · rintro ⟨lock, info, hlock, -⟩
        rw [hnone] at hlock
        exact absurd hlock (by simp [lockAt])
  simp only [lockObj.lockWith] at hwith
  split_ifs at hwith with htag hsome hrenew hmust
  · right
    refine ⟨hholder.mp hsome, ?_⟩
    cases hmay : mayRenew op.flags with
    | true => exact .inl rfl
    | false => exact .inr (by simpa [hmay] using hrenew)
  · exact .inl ⟨fun hc => hsome (hholder.mpr hc), by simpa using hmust⟩

/-- **The lock is taken**, with the lockers that may stay. -/
theorem takeLock_inv (hinv : Inv st) {op : LockOp} {r : ReadLock}
    (hkept : ∀ n l, lockAt r.object n = some l → lockAt st.object n = some l)
    (hvalid : op.type.isValid = true) (hname : op.name ≠ "") {lockers : OrdMap LockerId LockerInfo}
    (hlockers : ∀ id info, lockers.get id = some info →
      st.admitted op.name id = some (r.lock.lockType, r.lock.tag) ∧ r.lock.tag = op.tag)
    (h : takeLock env op r lockers = .ok object') :
    Inv ⟨object', st.admitted.after env (.lock op)⟩ := by
  rw [takeLock] at h
  split_ifs at h with hexcl htype
  refine writeLock_inv hinv hkept h hname ⟨hvalid, ?_, ?_⟩ ?_
  · -- an exclusive lock is taken only if nobody else has it
    intro hexclusive
    have hnil : lockers.entries = [] := by
      by_contra hne
      exact hexcl ⟨hne, hexclusive⟩
    show (OrdMap.insertEntry _ _ lockers.entries).length ≤ 1
    rw [hnil]
    exact le_rfl
  · intro id info hget
    rw [get_insert] at hget
    simp only [Admitted.after, update_self]
    split_ifs at hget with hid
    · rw [hid, update_self]
    · obtain ⟨hadmitted, htag⟩ := hlockers id info hget
      have hsame : r.lock.lockType = op.type := by
        by_contra hne
        exact htype ⟨entries_ne_nil hget, hne⟩
      rw [update_of_ne hid, hadmitted, hsame, htag]
  · intro n hn
    exact update_of_ne hn _ _

/-- **`lock`.** -/
theorem lockObj_inv (hinv : Inv st) {op : LockOp} (h : lockObj env st.object op = .ok object') :
    Inv ⟨object', st.admitted.after env (.lock op)⟩ := by
  obtain ⟨hvalid, hname, r, hwith, hr⟩ := lockObj_ok h
  have hkept : ∀ n l, lockAt r.object n = some l → lockAt st.object n = some l := by
    rcases hr with hr | ⟨-, rfl⟩
    · exact hr.kept
    · intro n l hl
      exact absurd hl (by simp [lockAt])
  have hlockers : ¬(r.lock.lockers.entries ≠ [] ∧ op.tag ≠ r.lock.tag) → ∀ id info,
      r.lock.lockers.get id = some info →
        st.admitted op.name id = some (r.lock.lockType, r.lock.tag) ∧ r.lock.tag = op.tag := by
    intro htag id info hget
    have hne := entries_ne_nil hget
    refine ⟨?_, by_contra fun hc => htag ⟨hne, Ne.symm hc⟩⟩
    rcases hr with hr | ⟨-, rfl⟩
    · exact ((hr.good hinv).resolve_left hne).2.admitted id info hget
    · exact absurd rfl hne
  simp only [lockObj.lockWith] at hwith
  split_ifs at hwith with htag hsome hrenew hmust
  · refine takeLock_inv hinv hkept hvalid hname ?_ hwith
    intro id info hget
    rw [get_erase] at hget
    split_ifs at hget
    exact hlockers htag id info hget
  · exact takeLock_inv hinv hkept hvalid hname (hlockers htag) hwith

/-- **`unlock` and `break_lock`** do not abort. -/
theorem removeLock_inv (hinv : Inv st) (env : Env) (name : String) (locker : EntityName)
    (cookie : String) : ∃ r, removeLock env st.object name locker cookie = some r ∧
      ∀ object', r = .ok object' → Inv ⟨object', st.admitted⟩ := by
  rw [removeLock]
  cases hread : readLock env st.object name with
  | error e => exact ⟨_, rfl, fun _ h => absurd h (by simp)⟩
  | ok r =>
    have hr := readLock_spec hread
    cases hget : r.lock.lockers.get (lockerId locker cookie) with
    | none => exact ⟨.error .ENOENT, by simp [hget], fun _ h => absurd h (by simp)⟩
    | some info =>
    obtain ⟨hname, hgood⟩ := (hr.good hinv).resolve_left (entries_ne_nil hget)
    simp only [hget, isNone_some, Bool.false_eq_true, if_false]
    split_ifs with hephemeral hempty
    · -- an ephemeral lock has one locker, which is the one that is removed
      exfalso
      have hperm := (entries_perm_of_get hget).length_eq
      have hexcl : r.lock.lockType.isExclusive = true := by
        simp only [ClsLockType.isEphemeral, decide_eq_true_eq] at hephemeral
        rw [hephemeral]
        rfl
      have hsingle := hgood.single hexcl
      rw [hperm, length_cons] at hsingle
      exact hempty (length_eq_zero_iff.mp (by omega))
    · refine ⟨_, rfl, ?_⟩
      intro object' h
      cases h
      exact inv_none st.admitted
    · refine ⟨_, rfl, ?_⟩
      intro object' h
      exact writeLock_inv hinv hr.kept h hname (hgood.filter _) fun _ _ => rfl

/-- **What `assert_locked` and `set_cookie` check.** -/
theorem checkLocked_ok {object : Object} {name cookie tag : String} {type : ClsLockType}
    {r : ReadLock} {info : LockerInfo}
    (h : checkLocked env object name type cookie tag = .ok (r, info)) :
    Readable env object name r ∧ r.lock.lockType = type ∧ r.lock.tag = tag ∧
      r.lock.lockers.get (lockerId env.origin.name cookie) = some info := by
  rw [checkLocked] at h
  split_ifs at h
  cases hread : readLock env object name with
  | error e =>
    rw [hread] at h
    exact absurd h (by simp)
  | ok r' =>
    simp only [hread] at h
    split_ifs at h with hempty htype htag
    cases hget : r'.lock.lockers.get (lockerId env.origin.name cookie) with
    | none =>
      rw [hget] at h
      exact absurd h (by simp)
    | some info' =>
      rw [hget] at h
      cases h
      exact ⟨readLock_spec hread, not_not.mp htype, not_not.mp htag, hget⟩

/-- **`assert_locked`** says whether the caller is a locker that has not expired, with that
cookie, type and tag. -/
theorem assertLocked_iff (hinv : Inv st) {name cookie tag : String} {type : ClsLockType} :
    (∃ object', assertLocked env st.object name type cookie tag = .ok object') ↔
      env.reads = true ∧ ∃ lock info, lockAt st.object name = some lock ∧
        lock.lockers.get (lockerId env.origin.name cookie) = some info ∧
        info.expired env.readTime = false ∧ lock.lockType = type ∧ lock.tag = tag := by
  constructor
  · rintro ⟨object', h⟩
    rw [assertLocked] at h
    cases hcheck : checkLocked env st.object name type cookie tag with
    | error e =>
      rw [hcheck] at h
      exact absurd h (by simp)
    | ok ri =>
      obtain ⟨hr, htype, htag, hget⟩ := checkLocked_ok hcheck
      obtain ⟨lock, hlock, hget', hfresh⟩ := hr.get_iff.mp hget
      refine ⟨hr.reads, lock, ri.2, hlock, hget', hfresh, ?_⟩
      rcases hr.lock with ⟨hnone, -⟩ | ⟨lock', hlock', heq⟩
      · exact absurd (hnone.symm.trans hlock) (by simp)
      · obtain rfl := Option.some.inj (hlock.symm.trans hlock')
        rw [heq] at htype htag
        exact ⟨htype, htag⟩
  · rintro ⟨hreads, lock, info, hlock, hget, hfresh, rfl, rfl⟩
    obtain ⟨hname, hgood⟩ := hinv name lock hlock
    have hfound := get_unexpired.mpr ⟨hget, hfresh⟩
    have hne := entries_ne_nil hfound
    refine ⟨st.object, ?_⟩
    cases hobject : st.object with
    | none =>
      rw [hobject] at hlock
      exact absurd hlock (by simp [lockAt])
    | some attrs =>
      rw [hobject] at hlock
      have hattr : attrs.get name = some lock := hlock
      have hread : readLock env (some attrs) name =
          .ok ⟨{ lock with lockers := lock.unexpired env.readTime }, some attrs, false⟩ := by
        simp [readLock, hreads, hattr, hne]
      simp [assertLocked, checkLocked, hgood.valid, hname, hread, hne, hfound]

theorem lockAt_of_takeLock {op : LockOp} {r : ReadLock} {lockers : OrdMap LockerId LockerInfo}
    (h : takeLock env op r lockers = .ok object') : lockAt object' op.name = some ⟨lockers.insert
      (lockerId env.origin.name op.cookie) (newLocker env op), op.type, op.tag⟩ := by
  simp only [takeLock, writeLock] at h
  split_ifs at h
  cases h
  simp [lockAt, get_insert]

/-- **Who was given the lock holds it.** After a `lock` call that succeeds, `assert_locked` succeeds
for the same client and cookie exactly with the type and the tag of that call, and exactly until the
lock expires. -/
theorem assertLocked_of_lockObj (hinv : Inv st) {op : LockOp}
    (h : lockObj env st.object op = .ok object') (env' : Env)
    (horigin : env'.origin.name = env.origin.name) (type : ClsLockType) (tag : String) :
    (∃ object'', assertLocked env' object' op.name type op.cookie tag = .ok object'') ↔
      env'.reads = true ∧ (newLocker env op).expired env'.readTime = false ∧
        type = op.type ∧ tag = op.tag := by
  have hlock : ∃ lockers, lockAt object' op.name = some ⟨OrdMap.insert lockers
      (lockerId env.origin.name op.cookie) (newLocker env op), op.type, op.tag⟩ := by
    obtain ⟨-, -, r, hwith, -⟩ := lockObj_ok h
    simp only [lockObj.lockWith] at hwith
    split_ifs at hwith
    · exact ⟨_, lockAt_of_takeLock hwith⟩
    · exact ⟨_, lockAt_of_takeLock hwith⟩
  obtain ⟨lockers, hlock⟩ := hlock
  rw [assertLocked_iff (lockObj_inv hinv h), horigin, hlock]
  simp [get_insert, @eq_comm _ type, @eq_comm _ tag]

/-- A lock of 30 seconds that is taken at second 100 is held at second 130. -/
theorem assertLocked_of_lockObj_thirty_seconds :
    let env : Env := ⟨⟨toLex (8, 1), ⟨2, 0, []⟩⟩, ⟨100, 0⟩, ⟨100, 0⟩, true, true⟩
    ∃ object' object'', lockObj env none ⟨"image", .exclusive, "auto", "", "", ⟨30, 0⟩, 0⟩ =
        .ok object' ∧
      assertLocked { env with readTime := ⟨130, 0⟩ } object' "image" .exclusive "auto" "" =
        .ok object'' := by
  intro env
  have h : lockObj env none ⟨"image", .exclusive, "auto", "", "", ⟨30, 0⟩, 0⟩ = .ok _ := rfl
  obtain ⟨object'', h'⟩ := (assertLocked_of_lockObj (inv_none fun _ _ => none) h
    { env with readTime := ⟨130, 0⟩ } rfl .exclusive "").mpr ⟨rfl, rfl, rfl, rfl⟩
  exact ⟨_, object'', h, h'⟩

/-- **`set_cookie`** keeps the locker under its new name. -/
theorem setCookie_inv (hinv : Inv st) {name cookie tag newCookie : String} {type : ClsLockType}
    (h : setCookie env st.object name type cookie tag newCookie = .ok object') :
    Inv ⟨object', st.admitted.after env (.setCookie name type cookie tag newCookie)⟩ := by
  rw [setCookie] at h
  cases hcheck : checkLocked env st.object name type cookie tag with
  | error e =>
    rw [hcheck] at h
    exact absurd h (by simp)
  | ok ri =>
    obtain ⟨r, info⟩ := ri
    obtain ⟨hr, -, -, hget⟩ := checkLocked_ok hcheck
    obtain ⟨hname, hgood⟩ := (hr.good hinv).resolve_left (entries_ne_nil hget)
    simp only [hcheck] at h
    split_ifs at h with hused
    have hperm := (entries_perm_of_get hget).length_eq
    refine writeLock_inv hinv hr.kept h hname ⟨hgood.valid, ?_, ?_⟩ ?_
    · intro hexcl
      have hsingle := hgood.single hexcl
      have hinsert := (entries_insert_perm
        (r.lock.lockers.erase (lockerId env.origin.name cookie))
        (lockerId env.origin.name newCookie) info).length_eq
      have hle : ((r.lock.lockers.erase (lockerId env.origin.name cookie)).erase
          (lockerId env.origin.name newCookie)).entries.length ≤
          (r.lock.lockers.erase (lockerId env.origin.name cookie)).entries.length :=
        length_filter_le _ _
      rw [length_cons] at hperm hinsert
      show (OrdMap.insert _ _ _).entries.length ≤ 1
      omega
    · intro id info' hget'
      rw [get_insert] at hget'
      simp only [Admitted.after, update_self]
      split_ifs at hget' with hid
      · rw [hid, update_self]
        exact hgood.admitted _ _ hget
      · rw [get_erase] at hget'
        split_ifs at hget'
        rw [update_of_ne hid]
        exact hgood.admitted id info' hget'
    · intro n hn
      exact update_of_ne hn _ _

/-- **One call** does not abort and keeps the invariant. -/
theorem step_spec (hinv : Inv st) (c : Env × Call) : ∃ st', step st c = some st' ∧ Inv st' := by
  have hkeep : ∀ r, exec c.1 st.object c.2 = some r →
      (∀ object', r = .ok object' → Inv ⟨object', st.admitted.after c.1 c.2⟩) →
      ∃ st', step st c = some st' ∧ Inv st' := by
    intro r hr hok
    rw [step, hr, map_some]
    cases r with
    | error e => exact ⟨st, rfl, hinv⟩
    | ok object' => exact ⟨_, rfl, hok object' rfl⟩
  obtain ⟨env, call⟩ := c
  cases call with
  | lock op => exact hkeep _ rfl fun object' h => lockObj_inv hinv h
  | unlock name cookie =>
    obtain ⟨r, hr, hok⟩ := removeLock_inv hinv env name env.origin.name cookie
    exact hkeep r hr hok
  | breakLock name locker cookie =>
    obtain ⟨r, hr, hok⟩ := removeLock_inv hinv env name locker cookie
    exact hkeep r hr hok
  | setCookie name type cookie tag newCookie =>
    exact hkeep _ rfl fun object' h => setCookie_inv hinv h
  | assertLocked name type cookie tag =>
    refine hkeep _ rfl fun object' h => ?_
    rw [assertLocked] at h
    cases hcheck : checkLocked env st.object name type cookie tag with
    | error e =>
      rw [hcheck] at h
      exact absurd h (by simp)
    | ok ri =>
      simp only [hcheck] at h
      split_ifs at h
      cases h
      exact fun n l hl => hinv n l ((checkLocked_ok hcheck).1.kept n l hl)

end Methods

/-! ## Every sequence of calls -/

/-- **What the locks of an object promise.** -/
structure Exclusive (st : State) : Prop where
  single : ∀ name lock, lockAt st.object name = some lock → lock.lockType.isExclusive = true →
    ∀ now, (lock.unexpired now).entries.length ≤ 1
  admitted : ∀ name lock, lockAt st.object name = some lock → ∀ id info,
    lock.lockers.get id = some info → st.admitted name id = some (lock.lockType, lock.tag)
  renews : ∀ env op object', lockObj env st.object op = .ok object' →
    (¬ Holder env st.object op.name op.cookie ∧ mustRenew op.flags = false) ∨
      (Holder env st.object op.name op.cookie ∧
        (mayRenew op.flags = true ∨ mustRenew op.flags = true))
  asserts : ∀ env name type cookie tag,
    (∃ object', assertLocked env st.object name type cookie tag = .ok object') ↔
      env.reads = true ∧ ∃ lock info, lockAt st.object name = some lock ∧
        lock.lockers.get (lockerId env.origin.name cookie) = some info ∧
        info.expired env.readTime = false ∧ lock.lockType = type ∧ lock.tag = tag
  total : ∀ env call, (exec env st.object call).isSome = true

theorem Inv.exclusive {st : State} (hinv : Inv st) : Exclusive st where
  single name lock hlock hexcl now :=
    (length_filter_le _ _).trans ((hinv name lock hlock).2.single hexcl)
  admitted name lock hlock := (hinv name lock hlock).2.admitted
  renews _ _ _ h := lockObj_renews h
  asserts _ _ _ _ _ := assertLocked_iff hinv
  total env call := by
    obtain ⟨st', hst', -⟩ := step_spec hinv (env, call)
    rw [step, map_eq_some_iff] at hst'
    obtain ⟨r, hr, -⟩ := hst'
    rw [hr]
    rfl

/-- **Advisory locks exclude each other.** On an object without locks, whether it exists or not,
every sequence of calls runs without an abort, and in every state the locks are exclusive. -/
theorem lock_exclusion {object : Object} (hobject : ∀ name, lockAt object name = none)
    (calls : List (Env × Call)) :
    ∃ st, run step calls { object := object } = some st ∧ Exclusive st := by
  have hstart : Inv { object := object } := fun name lock h =>
    absurd ((hobject name).symm.trans h) (by simp)
  obtain ⟨st, hrun, hinv⟩ := Transition.run_of_along (fun s c hs _ => step_spec hs c)
    (Transition.along_of_forall (fun _ _ _ => trivial) { object := object }) hstart
  exact ⟨st, hrun, hinv.exclusive⟩

/-- Two clients ask for the same exclusive lock. -/
def twoLocks : List (Env × Call) :=
  [1, 2].map fun client =>
    (⟨⟨toLex (8, client), ⟨2, 0, []⟩⟩, ⟨100, 0⟩, ⟨100, 0⟩, true, true⟩,
      .lock ⟨"image", .exclusive, "auto", "", "", ⟨30, 0⟩, 0⟩)

/-- The second one does not get it. -/
theorem lock_exclusion_twoLocks : ∃ st, run step twoLocks { object := none } = some st ∧
    Exclusive st ∧ (lockAt st.object "image").map (fun lock => lock.lockers.keys) =
      some [lockerId (toLex (8, 1)) "auto"] := by
  have hnone : ∀ name, lockAt none name = none := fun _ => rfl
  obtain ⟨st, hrun, hexclusive⟩ := lock_exclusion hnone twoLocks
  refine ⟨st, hrun, hexclusive, ?_⟩
  have hkeys : (run step twoLocks { object := none }).map (fun st => (lockAt st.object "image").map
      fun lock => lock.lockers.keys) = some (some [lockerId (toLex (8, 1)) "auto"]) := rfl
  rw [hrun] at hkeys
  exact Option.some.inj hkeys

end Ceph.Cls.Lock
