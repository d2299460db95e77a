import Ceph.Common.IpAddr
import Ceph.Lib.OrdMap
import Mathlib.Data.String.Basic

set_option autoImplicit false

/-! # Capabilities of an OSD client

A capability is a list of grants. A plain grant has a match (pool, namespace, tag of the pool,
prefix of the object's name) and a specification of what it allows; a profile grant stands for the
grants the profile expands to. `is_capable` asks the grants one after the other. A class call of
the operation needs no single grant that allows all of it: the grants share a vector in which each
marks the calls that it authorises.
-/

namespace Ceph.Osd

/-! ## What a grant allows -/

def osdCapR : UInt8 := (1 : UInt8) <<< 1
def osdCapW : UInt8 := (1 : UInt8) <<< 2
def osdCapClsR : UInt8 := (1 : UInt8) <<< 3
def osdCapClsW : UInt8 := (1 : UInt8) <<< 4
/-- `OSD_CAP_ANY`: `*`. -/
def osdCapAny : UInt8 := 0xff

structure OSDCapSpec where
  allow : UInt8 := 0
  className : String := ""
  methodName : String := ""
deriving DecidableEq

def OSDCapSpec.allowAll (s : OSDCapSpec) : Bool := s.allow = osdCapAny

/-! ## What a grant matches -/

structure OSDCapPoolNamespace where
  poolName : String := ""
  nspace : Option String := none
deriving DecidableEq

/-- The metadata of a pool's applications: a map of keys and values for each application. -/
abbrev AppMap := OrdMap String (OrdMap String String)

structure OSDCapPoolTag where
  application : String := ""
  key : String := ""
  value : String := ""
deriving DecidableEq

structure OSDCapMatch where
  poolNamespace : OSDCapPoolNamespace := {}
  poolTag : OSDCapPoolTag := {}
  objectPrefix : String := ""
deriving DecidableEq

/-- `boost::starts_with`, and `find` at position 0. -/
def startsWith (s pre : List Char) : Bool := pre.isPrefixOf s

/-- The test of the namespace: a pattern that ends in `*` stands for its continuations. -/
def nspaceMatch (nspace ns : String) : Bool :=
  (nspace ≠ "" && nspace.toList.getLast? = some '*' &&
      startsWith ns.toList nspace.toList.dropLast) ||
    nspace = ns

def OSDCapPoolNamespace.isMatch (m : OSDCapPoolNamespace) (pn ns : String) : Bool :=
  if m.poolName ≠ "" ∧ m.poolName ≠ pn then false
  else
    match m.nspace with
    | some nspace => nspaceMatch nspace ns
    | none => true

def OSDCapPoolNamespace.isMatchAll (m : OSDCapPoolNamespace) : Bool :=
  m.poolName = "" && m.nspace.isNone

def OSDCapPoolTag.isMatch (m : OSDCapPoolTag) (appMap : AppMap) : Bool :=
  if m.application = "" then true
  else
    match appMap.get m.application with
    | none => false
    | some kvMap =>
      if m.key = "*" ∧ m.value = "*" then true
      else if m.key = "*" then kvMap.entries.any fun it => it.2 = m.value
      else
        match kvMap.get m.key with
        | none => false
        | some v => m.value = "*" || v = m.value

def OSDCapPoolTag.isMatchAll (m : OSDCapPoolTag) : Bool := m.application = ""

def OSDCapMatch.isMatch (m : OSDCapMatch) (pn ns : String) (appMap : AppMap) (object : String) :
    Bool :=
  if !m.poolNamespace.isMatch pn ns then false
  else if !m.poolTag.isMatch appMap then false
  else if m.objectPrefix ≠ "" ∧ !startsWith object.toList m.objectPrefix.toList then false
  else true

def OSDCapMatch.isMatchAll (m : OSDCapMatch) : Bool :=
  m.poolNamespace.isMatchAll && m.poolTag.isMatchAll && m.objectPrefix = ""

/-! ## Grants -/

structure OSDCapProfile where
  name : String := ""
  poolNamespace : OSDCapPoolNamespace := {}
deriving DecidableEq

def OSDCapProfile.isValid (p : OSDCapProfile) : Bool := p.name ≠ ""

/-- A grant. The grants that a profile expands to are kept with it. -/
inductive OSDCapGrant
  | mk (capMatch : OSDCapMatch) (spec : OSDCapSpec) (profile : OSDCapProfile)
      (network : CapNetwork) (profileGrants : List OSDCapGrant)

namespace OSDCapGrant

def network : OSDCapGrant → CapNetwork
  | .mk _ _ _ network _ => network

/-- The constructor of a plain grant. -/
def plain (m : OSDCapMatch) (s : OSDCapSpec) (n : CapNetwork := {}) : OSDCapGrant := .mk m s {} n []

end OSDCapGrant

/-- `OpRequest::ClassInfo`: a call of a class method. -/
structure ClassInfo where
  className : String
  methodName : String
  read : Bool
  write : Bool
  whitelisted : Bool
deriving DecidableEq

/-- The operation that a capability is asked for. -/
structure CapRequest where
  poolName : String
  ns : String
  applicationMetadata : AppMap
  object : String
  opMayRead : Bool
  opMayWrite : Bool
  classes : List ClassInfo

/-! ## The decision -/

/-- The check of one class call: `allow class foo [method_name]`, or `allow x | class-{rw}` for a
method that is on the whitelist. -/
def OSDCapSpec.classAllowed (s : OSDCapSpec) (c : ClassInfo) : Bool :=
  if s.className ≠ "" ∧ c.className = s.className ∧
      (s.methodName = "" ∨ c.methodName = s.methodName) then true
  else if !c.whitelisted then false
  else if (c.read ∧ s.allow &&& osdCapClsR = 0) ∨ (c.write ∧ s.allow &&& osdCapClsW = 0) then false
  else true

/-- A plain grant, behind the test of the network. `classAllowed` says for each class call whether
it has been authorised so far. -/
def plainCapable (r : CapRequest) (m : OSDCapMatch) (s : OSDCapSpec) (classAllowed : List Bool) :
    Bool × List Bool :=
  if m.isMatch r.poolName r.ns r.applicationMetadata r.object then
    if (r.opMayRead ∧ s.allow &&& osdCapR = 0) ∨ (r.opMayWrite ∧ s.allow &&& osdCapW = 0) then
      (false, classAllowed)
    else if r.classes = [] then (true, classAllowed)
    -- check 'allow *'
    else if s.allowAll then (true, classAllowed)
    else
      -- compare this grant to each class in the operation
      let classAllowed := r.classes.zipWith (fun c a => s.classAllowed c || a) classAllowed
      (classAllowed.all id, classAllowed)
  else (false, classAllowed)

mutual

def OSDCapGrant.isCapable (r : CapRequest) (addr : EntityAddr) :
    OSDCapGrant → List Bool → Bool × List Bool
  | .mk m s profile network profileGrants, classAllowed =>
    if network.excludes addr then (false, classAllowed)
    else if profile.isValid then anyCapable r addr profileGrants classAllowed
    else plainCapable r m s classAllowed

/-- The grants of a list, up to the first that says yes. -/
def anyCapable (r : CapRequest) (addr : EntityAddr) :
    List OSDCapGrant → List Bool → Bool × List Bool
  | [], classAllowed => (false, classAllowed)
  | g :: gs, classAllowed =>
    let c := g.isCapable r addr classAllowed
    if c.1 then c else anyCapable r addr gs c.2

end

mutual

def OSDCapGrant.allowAll : OSDCapGrant → Bool
  | .mk m s profile _ profileGrants =>
    if profile.isValid then anyAllowAll profileGrants else m.isMatchAll && s.allowAll

def anyAllowAll : List OSDCapGrant → Bool
  | [] => false
  | g :: gs => g.allowAll || anyAllowAll gs

end

structure OSDCap where
  grants : List OSDCapGrant

def OSDCap.allowAll (caps : OSDCap) : Bool := anyAllowAll caps.grants

def OSDCap.isCapable (caps : OSDCap) (r : CapRequest) (addr : EntityAddr) : Bool :=
  (anyCapable r addr caps.grants (List.replicate r.classes.length false)).1

/-! ## Flattened grants -/

/-- A plain grant with the networks in front of it: its own and those of the profiles it came
from. -/
structure FlatGrant where
  networks : List CapNetwork
  capMatch : OSDCapMatch
  spec : OSDCapSpec

mutual

def OSDCapGrant.flatten (networks : List CapNetwork) : OSDCapGrant → List FlatGrant
  | .mk m s profile network profileGrants =>
    if profile.isValid then flattenAll (network :: networks) profileGrants
    else [⟨network :: networks, m, s⟩]

def flattenAll (networks : List CapNetwork) : List OSDCapGrant → List FlatGrant
  | [] => []
  | g :: gs => g.flatten networks ++ flattenAll networks gs

end

def OSDCap.flattened (caps : OSDCap) : List FlatGrant := flattenAll [] caps.grants

theorem flattenAll_eq_flatMap (networks : List CapNetwork) (gs : List OSDCapGrant) :
    flattenAll networks gs = gs.flatMap (OSDCapGrant.flatten networks) := by
  induction gs with
  | nil => rfl
  | cons g gs ih => rw [flattenAll, ih, List.flatMap_cons]

/-- A flattened grant on its own. -/
def FlatGrant.isCapable (r : CapRequest) (addr : EntityAddr) (f : FlatGrant)
    (classAllowed : List Bool) : Bool × List Bool :=
  if f.networks.any (·.excludes addr) then (false, classAllowed)
  else plainCapable r f.capMatch f.spec classAllowed

/-- The flattened grants of a list, up to the first that says yes. -/
def anyFlatCapable (r : CapRequest) (addr : EntityAddr) :
    List FlatGrant → List Bool → Bool × List Bool
  | [], classAllowed => (false, classAllowed)
  | f :: fs, classAllowed =>
    let c := f.isCapable r addr classAllowed
    if c.1 then c else anyFlatCapable r addr fs c.2

theorem anyFlatCapable_singleton (r : CapRequest) (addr : EntityAddr) (f : FlatGrant)
    (classAllowed : List Bool) :
    anyFlatCapable r addr [f] classAllowed = f.isCapable r addr classAllowed := by
  simp only [anyFlatCapable]
  split
  · rfl
  · next hfalse => exact Prod.ext (Bool.eq_false_of_not_eq_true hfalse).symm rfl

theorem anyFlatCapable_append (r : CapRequest) (addr : EntityAddr) (fs fs' : List FlatGrant)
    (classAllowed : List Bool) :
    anyFlatCapable r addr (fs ++ fs') classAllowed = let c := anyFlatCapable r addr fs classAllowed
      if c.1 then c else anyFlatCapable r addr fs' c.2 := by
  induction fs generalizing classAllowed with
  | nil => rfl
  | cons f fs ih =>
    simp only [List.cons_append, anyFlatCapable]
    by_cases hf : (f.isCapable r addr classAllowed).1 = true
    · simp only [hf, if_true]
    · simp only [hf, Bool.false_eq_true, if_false, ih]

/-- Behind an excluding network no flattened grant says yes, or marks a call. -/
theorem anyFlatCapable_of_excludes {r : CapRequest} {addr : EntityAddr} {fs : List FlatGrant}
    (h : ∀ f ∈ fs, f.networks.any (·.excludes addr) = true) (classAllowed : List Bool) :
    anyFlatCapable r addr fs classAllowed = (false, classAllowed) := by
  induction fs with
  | nil => rfl
  | cons f fs ih =>
    have hf : f.isCapable r addr classAllowed = (false, classAllowed) :=
      if_pos (h f List.mem_cons_self)
    simp only [anyFlatCapable, hf, Bool.false_eq_true, if_false]
    exact ih fun f' hf' => h f' (List.mem_cons_of_mem f hf')

end Ceph.Osd
