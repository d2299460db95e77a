import Mathlib.Data.Fintype.Pi

set_option autoImplicit false

/-! # Networks of capabilities

A grant may be restricted to clients that connect from a network, given as an address and the length
of a prefix. `network_contains` compares an address and the network under the mask of the prefix.
-/

namespace Ceph

/-- What `network_contains` reads of an `entity_addr_t`: the family, and the address of the families
it knows. An IPv4 address is the number its four bytes make, the first byte highest. -/
inductive EntityAddr
  | inet (addr : BitVec 32)
  | inet6 (addr : Fin 16 → UInt8)
  | other (family : ℕ)
deriving DecidableEq

/-- `netmask_ipv4`. A shift by 32 is not defined, hence the first branch. -/
def netmaskIpv4 (addr : BitVec 32) (prefixLen : ℕ) : BitVec 32 :=
  addr &&& (if prefixLen ≥ 32 then BitVec.allOnes 32 else ~~~(BitVec.allOnes 32 >>> prefixLen))

def netmaskIpv6 (addr : Fin 16 → UInt8) (prefixLen : ℕ) : Fin 16 → UInt8 :=
  let prefixLen := if prefixLen > 128 then 128 else prefixLen
  fun i =>
    if i.val < prefixLen / 8 then addr i
    else if i.val = prefixLen / 8 then
      addr i &&& ~~~((0xff : UInt8) >>> UInt8.ofNat (prefixLen % 8))
    else 0

def networkContains (network : EntityAddr) (prefixLen : ℕ) (addr : EntityAddr) : Bool :=
  match network, addr with
  | .inet n, .inet a => netmaskIpv4 n prefixLen = netmaskIpv4 a prefixLen
  | .inet6 n, .inet6 a => netmaskIpv6 n prefixLen = netmaskIpv6 a prefixLen
  | _, _ => false

/-- The network of a grant: the text, and what `parse_network` made of it. -/
structure CapNetwork where
  network : String := ""
  networkParsed : EntityAddr := .other 0
  networkPrefix : ℕ := 0
  networkValid : Bool := true
deriving DecidableEq

namespace CapNetwork

/-- The test `network.size() && (!network_valid || !network_contains(…))` of a grant. -/
def excludes (n : CapNetwork) (addr : EntityAddr) : Bool :=
  n.network ≠ "" && (!n.networkValid || !networkContains n.networkParsed n.networkPrefix addr)

/-- **The network contains the address.** -/
def Contains (n : CapNetwork) (addr : EntityAddr) : Prop :=
  n.networkValid = true ∧ networkContains n.networkParsed n.networkPrefix addr = true

/-- A grant goes on unless it carries a network that does not contain the address. -/
theorem excludes_eq_false_iff (n : CapNetwork) (addr : EntityAddr) :
    n.excludes addr = false ↔ (n.network ≠ "" → n.Contains addr) := by
  unfold excludes Contains
  by_cases hn : n.network = ""
  · simp [hn]
  · cases n.networkValid <;> simp [hn]

theorem excludes_of_not_contains {n : CapNetwork} {addr : EntityAddr} (hn : n.network ≠ "")
    (h : ¬ n.Contains addr) : n.excludes addr = true := by
  cases he : n.excludes addr with
  | true => rfl
  | false => exact absurd ((excludes_eq_false_iff n addr).mp he hn) h

end CapNetwork

end Ceph
