import Ceph.Mds.CapDecision
import Ceph.Osd.CapDecision

set_option autoImplicit false

/-! # Networks and the commands of an administrator

A grant that carries a network is of no use to a client from elsewhere: `is_capable` passes it over,
for an OSD and for an MDS. The gate in front of the administrative commands asks `allow_all`, which
does not look at networks.
-/

namespace Ceph

open List

def eperm : Int := 1

/-- The gate of `OSD::handle_command`: the code of the reply, or nothing if the command is queued.
-/
def Osd.handleCommand (session : Option Osd.OSDCap) (sourceIsMon : Bool) : Option Int :=
  match session with
  | none => some (-eperm)
  | some caps => if !caps.allowAll || sourceIsMon then some (-eperm) else none

/-- The gate of `MDSDaemon::handle_command`: the code of the reply, or nothing if the command goes
on. -/
def Mds.handleCommand (authCaps : Mds.MDSAuthCaps) : Option Int :=
  if !authCaps.allowAll then some (-eperm) else none

/-! ## `allow *` without a match -/

/-- A flattened grant that allows everything on every object. -/
def Osd.FlatGrant.Unrestricted (f : Osd.FlatGrant) : Prop :=
  f.capMatch.poolNamespace = {} ∧ f.capMatch.poolTag.application = "" ∧
    f.capMatch.objectPrefix = "" ∧ f.spec.allow = Osd.osdCapAny

/-- A grant that allows everything to every user on every path. -/
def Mds.MDSCapGrant.Unrestricted (g : Mds.MDSCapGrant) : Prop :=
  g.capMatch.uid = Mds.mdsAuthUidAny ∧ g.capMatch.path = [] ∧ g.spec.caps &&& Mds.capAll ≠ 0

namespace Osd

theorem isMatchAll_and_allowAll_iff (networks : List CapNetwork) (m : OSDCapMatch)
    (s : OSDCapSpec) :
    (m.isMatchAll && s.allowAll) = true ↔ (FlatGrant.mk networks m s).Unrestricted := by
  obtain ⟨⟨pool, ns⟩, tag, pre⟩ := m
  simp [OSDCapMatch.isMatchAll, OSDCapPoolNamespace.isMatchAll, OSDCapPoolTag.isMatchAll,
    OSDCapSpec.allowAll, FlatGrant.Unrestricted, and_assoc]

mutual

theorem OSDCapGrant.allowAll_iff (networks : List CapNetwork) :
    ∀ g : OSDCapGrant, g.allowAll = true ↔ ∃ f ∈ g.flatten networks, f.Unrestricted
  | .mk m s profile network profileGrants => by
      rw [OSDCapGrant.allowAll, OSDCapGrant.flatten]
      split
      · exact anyAllowAll_iff (network :: networks) profileGrants
      · rw [isMatchAll_and_allowAll_iff (network :: networks)]
        simp

theorem anyAllowAll_iff (networks : List CapNetwork) :
    ∀ gs : List OSDCapGrant, anyAllowAll gs = true ↔ ∃ f ∈ flattenAll networks gs, f.Unrestricted
  | [] => by simp [anyAllowAll, flattenAll]
  | g :: gs => by
      rw [anyAllowAll, flattenAll, Bool.or_eq_true, OSDCapGrant.allowAll_iff networks g,
        anyAllowAll_iff networks gs]
      simp only [mem_append, or_and_right, exists_or]

end

theorem OSDCap.isCapable_of_not_contains {caps : OSDCap} {addr : EntityAddr}
    (h : ∀ g ∈ caps.grants, g.network.network ≠ "" ∧ ¬ g.network.Contains addr) (r : CapRequest) :
    caps.isCapable r addr = false := by
  rw [Bool.eq_false_iff, ne_eq, caps.isCapable_iff_permits]
  rintro ⟨f, hf, ⟨hnet, -, -⟩, -⟩
  rw [OSDCap.flattened, flattenAll_eq_flatMap, mem_flatMap] at hf
  obtain ⟨g, hg, hf⟩ := hf
  have hmem : g.network ∈ f.networks :=
    networks_subset_of_mem_flatten [] g hf mem_cons_self
  exact (h g hg).2 (hnet g.network hmem (h g hg).1)

end Osd

namespace Mds

theorem MDSAuthCaps.allowAll_iff (caps : MDSAuthCaps) :
    caps.allowAll = true ↔ ∃ g ∈ caps.grants, g.Unrestricted := by
  simp [MDSAuthCaps.allowAll, MDSCapMatch.isMatchAll, MDSCapSpec.allowAll,
    MDSCapGrant.Unrestricted, and_assoc]

theorem MDSAuthCaps.isCapable_of_not_contains {caps : MDSAuthCaps} {addr : EntityAddr}
    (h : ∀ g ∈ caps.grants, g.network.network ≠ "" ∧ ¬ g.network.Contains addr) (inode : Inode)
    (caller : Caller) (mask newUid newGid : UInt32) :
    caps.isCapable inode caller mask newUid newGid addr = false := by
  rw [MDSAuthCaps.isCapable, any_eq_false]
  intro g hg hcap
  have hout := ((g.isCapable_iff inode caller mask newUid newGid addr).mp hcap).1
  exact absurd hout (by rw [CapNetwork.excludes_of_not_contains (h g hg).1 (h g hg).2]; simp)

end Mds

/-- **What a network confines.** To a client that is outside the networks of all grants,
`is_capable` permits nothing; the gate of the commands refuses the client exactly if no grant is
an `allow *` without a match (or, for an OSD, if the client is a monitor). -/
theorem network_confines (osd : Osd.OSDCap) (mds : Mds.MDSAuthCaps) (addr : EntityAddr) :
    ((∀ g ∈ osd.grants, g.network.network ≠ "" ∧ ¬ g.network.Contains addr) →
        (∀ r : Osd.CapRequest, osd.isCapable r addr = false) ∧
          ∀ sourceIsMon : Bool, (Osd.handleCommand (some osd) sourceIsMon = some (-eperm) ↔
            sourceIsMon = true ∨ ∀ f ∈ osd.flattened, ¬ f.Unrestricted)) ∧
      ((∀ g ∈ mds.grants, g.network.network ≠ "" ∧ ¬ g.network.Contains addr) →
        (∀ (inode : Mds.Inode) (caller : Mds.Caller) (mask newUid newGid : UInt32),
          mds.isCapable inode caller mask newUid newGid addr = false) ∧
        (Mds.handleCommand mds = some (-eperm) ↔ ∀ g ∈ mds.grants, ¬ g.Unrestricted)) := by
  refine ⟨fun h => ⟨osd.isCapable_of_not_contains h, fun sourceIsMon => ?_⟩,
    fun h => ⟨mds.isCapable_of_not_contains h, ?_⟩⟩
  · have hall : osd.allowAll = false ↔ ∀ f ∈ osd.flattened, ¬ f.Unrestricted := by
      rw [Bool.eq_false_iff, ne_eq, Osd.OSDCap.allowAll, Osd.anyAllowAll_iff []]
      simp [Osd.OSDCap.flattened]
    rw [← hall, Osd.handleCommand]
    cases osd.allowAll <;> cases sourceIsMon <;> simp
  · have hall : mds.allowAll = false ↔ ∀ g ∈ mds.grants, ¬ g.Unrestricted := by
      rw [Bool.eq_false_iff, ne_eq, Mds.MDSAuthCaps.allowAll_iff]
      simp
    rw [← hall, Mds.handleCommand]
    cases mds.allowAll <;> simp

/-- A client from outside 10.0.0.0/8 whose grants are for that network only: reading refused, and
the command too. -/
theorem network_confines_read :
    let net : CapNetwork := ⟨"10.0.0.0/8", .inet 0x0A000000#32, 8, true⟩
    let grant : Osd.OSDCapGrant := .plain {} { allow := Osd.osdCapR } net
    (∀ r, (Osd.OSDCap.mk [grant]).isCapable r (.inet 0xC0A80001#32) = false) ∧
      Osd.handleCommand (some ⟨[grant]⟩) false = some (-eperm) := by
  intro net grant
  have hout : ∀ g ∈ (Osd.OSDCap.mk [grant]).grants,
      g.network.network ≠ "" ∧ ¬ g.network.Contains (.inet 0xC0A80001#32) := by
    intro g hg
    rw [mem_singleton.mp hg]
    exact ⟨by decide, fun hc => absurd hc.2 (by decide)⟩
  obtain ⟨hcap, hgate⟩ := (network_confines ⟨[grant]⟩ ⟨[]⟩ (.inet 0xC0A80001#32)).1 hout
  refine ⟨hcap, (hgate false).mpr (.inr ?_)⟩
  intro f hf hun
  rw [mem_singleton.mp hf] at hun
  exact absurd hun.2.2.2 (by decide)

/-- **The gate lets a client in from anywhere** that has `allow *` for a network. -/
theorem handleCommand_ignores_network :
    let net : CapNetwork := ⟨"10.0.0.0/8", .inet 0x0A000000#32, 8, true⟩
    let osd : Osd.OSDCap := ⟨[.plain {} { allow := Osd.osdCapAny } net]⟩
    let mds : Mds.MDSAuthCaps := ⟨[⟨.ofCaps Mds.capAll, {}, net⟩]⟩
    (∀ g ∈ osd.grants, g.network.network ≠ "" ∧ ¬ g.network.Contains (.inet 0xC0A80001#32)) ∧
      (∀ g ∈ mds.grants, g.network.network ≠ "" ∧ ¬ g.network.Contains (.inet 0xC0A80001#32)) ∧
      Osd.handleCommand (some osd) false = none ∧ Mds.handleCommand mds = none := by
  intro net osd mds
  have hout : net.network ≠ "" ∧ ¬ net.Contains (.inet 0xC0A80001#32) :=
    ⟨by decide, fun hc => absurd hc.2 (by decide)⟩
  refine ⟨fun g hg => ?_, fun g hg => ?_, by decide +kernel, by decide +kernel⟩
  · rw [mem_singleton.mp hg]
    exact hout
  · rw [mem_singleton.mp hg]
    exact hout

end Ceph
