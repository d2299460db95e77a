import Mathlib.Data.Finset.Card

set_option autoImplicit false

/-! # A pass of repairs over overlapping groups

A group can restore its members if not too many of them are lost. A pass goes over a list of groups
once; what one group restores helps those that come after it.
-/

namespace RecoveryPass

variable {α : Type} [DecidableEq α]

/-- Members, and how many of them can be lost at a time. -/
structure Group (α : Type) where
  members : Finset α
  capacity : ℕ

/-- What is lost after a group has had its turn. -/
def Group.restore (g : Group α) (lost : Finset α) : Finset α :=
  if (g.members ∩ lost).card ≤ g.capacity then lost \ g.members else lost

/-- What is lost after a pass. -/
def pass (gs : List (Group α)) (lost : Finset α) : Finset α :=
  gs.foldl (fun lost g => g.restore lost) lost

@[simp] theorem pass_cons (g : Group α) (gs : List (Group α)) (lost : Finset α) :
    pass (g :: gs) lost = pass gs (g.restore lost) := rfl

@[simp] theorem pass_append (gs hs : List (Group α)) (lost : Finset α) :
    pass (gs ++ hs) lost = pass hs (pass gs lost) := List.foldl_append

theorem Group.restore_of_le {g : Group α} {lost : Finset α}
    (h : (g.members ∩ lost).card ≤ g.capacity) : g.restore lost = lost \ g.members := if_pos h

theorem Group.restore_of_lt {g : Group α} {lost : Finset α}
    (h : g.capacity < (g.members ∩ lost).card) : g.restore lost = lost := if_neg (not_le.mpr h)

theorem Group.restore_of_inter_eq_empty {g : Group α} {lost : Finset α}
    (h : g.members ∩ lost = ∅) : g.restore lost = lost := by
  rw [Group.restore_of_le (by rw [h]; exact Nat.zero_le _)]
  rw [Finset.inter_comm] at h
  exact Finset.sdiff_eq_self_of_disjoint (Finset.disjoint_iff_inter_eq_empty.mpr h)

theorem Group.restore_subset (g : Group α) (lost : Finset α) : g.restore lost ⊆ lost := by
  unfold Group.restore
  split
  · exact Finset.sdiff_subset
  · exact Finset.Subset.refl lost

theorem pass_subset (gs : List (Group α)) (lost : Finset α) : pass gs lost ⊆ lost := by
  induction gs generalizing lost with
  | nil => exact Finset.Subset.refl lost
  | cons g gs ih =>
    calc pass (g :: gs) lost
        _ ⊆ g.restore lost := ih (g.restore lost)
        _ ⊆ lost := g.restore_subset lost

/-- What a pass restores is in one of the groups. -/
theorem exists_mem_of_not_mem_pass {gs : List (Group α)} {lost : Finset α} {x : α} (hx : x ∈ lost)
    (h : x ∉ pass gs lost) : ∃ g ∈ gs, x ∈ g.members := by
  induction gs generalizing lost with
  | nil => exact absurd hx h
  | cons g gs ih =>
    by_cases hg : x ∈ g.members
    · exact ⟨g, List.mem_cons_self, hg⟩
    · have hkept : x ∈ g.restore lost := by
        unfold Group.restore
        split
        · exact Finset.mem_sdiff.mpr ⟨hx, hg⟩
        · exact hx
      obtain ⟨g', hg', hxg'⟩ := ih hkept h
      exact ⟨g', List.mem_cons_of_mem g hg', hxg'⟩

end RecoveryPass
