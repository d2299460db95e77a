import Ceph.Common.IpAddr
import Ceph.Lib.SepText
import Ceph.Lib.SetIntersection
import Mathlib.Data.List.Sort
import Mathlib.Data.Set.Basic

set_option autoImplicit false

/-! # Capabilities of an MDS client

A grant has a specification, a match (a path, and possibly a user with groups) and possibly a
network. `is_capable` asks the grants one after the other. A grant with a user also has the
permissions of the inode checked, as for that user with the groups of the caller that the grant
lists.
-/

namespace Ceph.Mds

/-! ## What can be asked for, and what a grant allows -/

def mayRead : UInt32 := (1 : UInt32) <<< 0
def mayWrite : UInt32 := (1 : UInt32) <<< 1
def mayExecute : UInt32 := (1 : UInt32) <<< 2
def mayChown : UInt32 := (1 : UInt32) <<< 4
def mayChgrp : UInt32 := (1 : UInt32) <<< 5
def maySetVxattr : UInt32 := (1 : UInt32) <<< 6
def maySnapshot : UInt32 := (1 : UInt32) <<< 7

def capAll : UInt32 := (1 : UInt32) <<< 0
def capRead : UInt32 := (1 : UInt32) <<< 1
def capWrite : UInt32 := (1 : UInt32) <<< 2
/-- `SET_VXATTR`: if the capability permits setting vxattrs (layout, quota, etc). -/
def capSetVxattr : UInt32 := (1 : UInt32) <<< 3
/-- `SNAPSHOT`: if the capability permits mksnap/rmsnap. -/
def capSnapshot : UInt32 := (1 : UInt32) <<< 4
def capRWPS : UInt32 := capRead ||| capWrite ||| capSetVxattr ||| capSnapshot

/-- `MDSCapSpec`. Its constructor sees to it that `*` has the other bits. -/
structure MDSCapSpec where
  caps : UInt32
  rwps_of_all : caps &&& capAll ≠ 0 → caps &&& capRWPS = capRWPS

namespace MDSCapSpec

theorem and_or_absorb (c r : UInt32) : (c ||| r) &&& r = r := by
  apply UInt32.toBitVec_inj.mp
  ext i hi
  simp only [UInt32.toBitVec_and, UInt32.toBitVec_or, BitVec.getElem_and, BitVec.getElem_or]
  cases c.toBitVec[i] <;> simp

/-- The constructor. -/
def ofCaps (caps : UInt32) : MDSCapSpec where
  caps := if caps &&& capAll ≠ 0 then caps ||| capRWPS else caps
  rwps_of_all := by
    split
    · exact fun _ => and_or_absorb caps capRWPS
    · next h => exact fun h' => absurd h' h

def allowAll (s : MDSCapSpec) : Bool := s.caps &&& capAll ≠ 0
def allowRead (s : MDSCapSpec) : Bool := s.caps &&& capRead ≠ 0
def allowWrite (s : MDSCapSpec) : Bool := s.caps &&& capWrite ≠ 0
def allowSnapshot (s : MDSCapSpec) : Bool := s.caps &&& capSnapshot ≠ 0
def allowSetVxattr (s : MDSCapSpec) : Bool := s.caps &&& capSetVxattr ≠ 0

def allows (s : MDSCapSpec) (r w : Bool) : Bool :=
  if s.allowAll then true
  else if r && !s.allowRead then false
  else if w && !s.allowWrite then false
  else true

end MDSCapSpec

/-! ## Callers and inodes -/

/-- The caller of a request. The list of groups is as the client sent it. -/
structure Caller where
  uid : UInt32
  gid : UInt32
  gidList : Option (List UInt64)

/-- The path of an inode: the names of the dentries from the root. -/
structure InodePath where
  names : List (List Char)
  isName : SepText.Names '/' names

/-- The text of a path, without a leading `/`. -/
def InodePath.text (p : InodePath) : List Char := ['/'].intercalate p.names

structure Inode where
  path : InodePath
  uid : UInt32
  gid : UInt32
  mode : UInt32

/-! ## What a grant matches -/

def mdsAuthUidAny : Int := -1

/-- `MDSCapMatch`. The user is an `int64_t`, which holds a `uid_t` or -1. -/
structure MDSCapMatch where
  uid : Int := mdsAuthUidAny
  gids : List ℕ := []
  path : List Char := []

namespace MDSCapMatch

/-- `normalize_path`: drop any leading `/`. -/
def normalizePath (path : List Char) : List Char := path.dropWhile (· = '/')

def isMatchAll (m : MDSCapMatch) : Bool := m.uid = mdsAuthUidAny && m.path = []

/-- `match_path`. If the path does not already have a trailing `/`, the target has one there, so
that `foo` does not match `food`. -/
def matchPath (m : MDSCapMatch) (target : List Char) : Bool :=
  if m.path = [] then true
  else if !m.path.isPrefixOf target then false
  else if target.length > m.path.length ∧ m.path.getLast? ≠ some '/' ∧
      target[m.path.length]? ≠ some '/' then false
  else true

/-- Whether the caller is in one of the groups. -/
def gidMatched (m : MDSCapMatch) (caller : Caller) : Bool :=
  m.gids.contains caller.gid.toNat ||
    match caller.gidList with
    | some l => l.any fun i => m.gids.contains i.toNat
    | none => false

/-- `match`. The parameter `caller_uid` is an `int`, which is what is compared with the user. -/
def isMatch (m : MDSCapMatch) (target : List Char) (caller : Caller) : Bool :=
  if m.uid ≠ mdsAuthUidAny ∧ m.uid ≠ caller.uid.toInt32.toInt then false
  else if m.uid ≠ mdsAuthUidAny ∧ m.gids ≠ [] ∧ !m.gidMatched caller then false
  else m.matchPath target

end MDSCapMatch

/-! ## Grants -/

structure MDSCapGrant where
  spec : MDSCapSpec
  capMatch : MDSCapMatch
  network : CapNetwork := {}

/-- What the grammar reads of a grant. The groups come with a user. -/
structure ParsedGrant where
  caps : UInt32
  path : List Char := []
  uid : Option (UInt32 × List UInt32) := none
  network : CapNetwork := {}

/-- The match that the constructors make of it. -/
def ParsedGrant.capMatch (g : ParsedGrant) : MDSCapMatch :=
  match g.uid with
  | none => { path := MDSCapMatch.normalizePath g.path }
  | some (uid, gids) =>
    ⟨uid.toNat, gids.map UInt32.toNat, MDSCapMatch.normalizePath g.path⟩

structure MDSAuthCaps where
  grants : List MDSCapGrant

/-- The grant behind `MDSAuthCaps::parse`: its groups are sorted. -/
def ParsedGrant.grant (g : ParsedGrant) : MDSCapGrant where
  spec := .ofCaps g.caps
  capMatch := { g.capMatch with gids := g.capMatch.gids.insertionSort (· ≤ ·) }
  network := g.network

/-- `MDSAuthCaps::parse`, of what the grammar reads. -/
def MDSAuthCaps.parse (l : List ParsedGrant) : MDSAuthCaps := ⟨l.map ParsedGrant.grant⟩

/-! ## The decision -/

/-- The groups of the caller narrowed down to those specifically allowed. -/
def narrowGids (gids : List ℕ) (caller : Caller) : List ℕ :=
  let own := if gids.contains caller.gid.toNat then [caller.gid.toNat] else []
  match caller.gidList with
  | some l => (own ++ setIntersection gids (l.map UInt64.toNat)).insertionSort (· ≤ ·)
  | none => own

def sIRUSR : UInt32 := 0o400
def sIWUSR : UInt32 := 0o200
def sIXUSR : UInt32 := 0o100
def sIRGRP : UInt32 := 0o040
def sIWGRP : UInt32 := 0o020
def sIXGRP : UInt32 := 0o010
def sIROTH : UInt32 := 0o004
def sIWOTH : UInt32 := 0o002
def sIXOTH : UInt32 := 0o001

/-- The check of the mode of the inode, with the bits of the owner, the group or the others. -/
def modeAllows (mask mode r w x : UInt32) : Bool :=
  (mask &&& mayRead = 0 || mode &&& r ≠ 0) && (mask &&& mayWrite = 0 || mode &&& w ≠ 0) &&
    (mask &&& mayExecute = 0 || mode &&& x ≠ 0)

/-- The check of unix permissions, with the narrowed groups. -/
def Inode.admits (inode : Inode) (uid : UInt32) (gids : List ℕ) (mask newUid newGid : UInt32) :
    Bool :=
  -- you can't chown to someone else, or from someone else
  if mask &&& mayChown ≠ 0 ∧ (newUid ≠ uid ∨ inode.uid ≠ uid) then false
  -- you can only chgrp *to* one of your groups... if you own the file
  else if mask &&& mayChgrp ≠ 0 ∧ (inode.uid ≠ uid ∨ newGid.toNat ∉ gids) then false
  else if inode.uid = uid then modeAllows mask inode.mode sIRUSR sIWUSR sIXUSR
  else if inode.gid.toNat ∈ gids then modeAllows mask inode.mode sIRGRP sIWGRP sIXGRP
  else modeAllows mask inode.mode sIROTH sIWOTH sIXOTH

/-- One turn of the loop of `is_capable`. -/
def MDSCapGrant.isCapable (g : MDSCapGrant) (inode : Inode) (caller : Caller)
    (mask newUid newGid : UInt32) (addr : EntityAddr) : Bool :=
  if g.network.excludes addr then false
  else if g.capMatch.isMatch inode.path.text caller &&
      g.spec.allows (mask &&& (mayRead ||| mayExecute) ≠ 0) (mask &&& mayWrite ≠ 0) then
    -- we have a match; narrow down GIDs to those specifically allowed here
    let gids := narrowGids g.capMatch.gids caller
    if mask &&& maySetVxattr ≠ 0 ∧ !g.spec.allowSetVxattr then false
    else if mask &&& maySnapshot ≠ 0 ∧ !g.spec.allowSnapshot then false
    -- check unix permissions?
    else if g.capMatch.uid = mdsAuthUidAny then true
    else inode.admits caller.uid gids mask newUid newGid
  else false

def MDSAuthCaps.isCapable (caps : MDSAuthCaps) (inode : Inode) (caller : Caller)
    (mask newUid newGid : UInt32) (addr : EntityAddr) : Bool :=
  caps.grants.any (·.isCapable inode caller mask newUid newGid addr)

def MDSAuthCaps.allowAll (caps : MDSAuthCaps) : Bool :=
  caps.grants.any fun i => i.capMatch.isMatchAll && i.spec.allowAll

end Ceph.Mds
