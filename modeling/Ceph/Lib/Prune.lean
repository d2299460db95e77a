import Mathlib.Data.List.Pairwise
import Mathlib.Data.List.Induction
import Mathlib.Tactic

set_option autoImplicit false

/-! # Lists pruned as they grow

A list collects items one after the other. Each new item erases the older items it supersedes,
so that the list holds only what is still needed. What is kept is part of what was pushed
(`prune_sublist`), and what was erased is superseded by a younger item that is kept
(`prune_covers`), through however many steps the erasing went.
-/

namespace Prune

variable {α : Type} (supersedes : α → α → Bool)

/-- Append an item and erase the older ones it supersedes. -/
def push (l : List α) (x : α) : List α := l.filter (fun y => !supersedes x y) ++ [x]

/-- The list left after pushing every item of `l`. -/
def prune (l : List α) : List α := l.foldl (push supersedes) []

theorem mem_push {l : List α} {x y : α} :
    y ∈ push supersedes l x ↔ y = x ∨ y ∈ l ∧ supersedes x y = false := by
  simp [push, or_comm]

theorem prune_concat (l : List α) (x : α) :
    prune supersedes (l ++ [x]) = push supersedes (prune supersedes l) x := by
  simp [prune]

theorem prune_sublist (l : List α) : (prune supersedes l).Sublist l := by
  induction l using List.reverseRecOn with
  | nil => exact List.Sublist.refl _
  | append_singleton l x ih =>
    rw [prune_concat, push]
    exact (List.filter_sublist.trans ih).append (List.Sublist.refl [x])

variable {supersedes}

/-- **Nothing is erased without a younger substitute.** If the pushed items increase in a
transitive order and superseding is transitive, each of them is still there or superseded by
a greater one that is. -/
theorem prune_covers {lt : α → α → Prop} (hlt : ∀ x y z, lt x y → lt y z → lt x z)
    (hsup : ∀ x y z, supersedes x y = true → supersedes y z = true → supersedes x z = true)
    {l : List α} (hl : l.Pairwise lt) {x : α} (hx : x ∈ l) :
    ∃ y ∈ prune supersedes l, y = x ∨ lt x y ∧ supersedes y x = true := by
  induction l using List.reverseRecOn with
  | nil => simp at hx
  | append_singleton l z ih =>
    obtain ⟨hl', -, hz⟩ := List.pairwise_append.mp hl
    rw [prune_concat]
    rcases List.mem_append.mp hx with hx | hx
    · obtain ⟨y, hy, hcover⟩ := ih hl' hx
      have hyz : lt y z := hz y ((prune_sublist _ l).subset hy) z (by simp)
      by_cases hzy : supersedes z y = true
      · -- the substitute of `x` is erased now, and `z` takes its place
        refine ⟨z, (mem_push _).mpr (.inl rfl), .inr ?_⟩
        rcases hcover with rfl | ⟨hxy, hyx⟩
        · exact ⟨hyz, hzy⟩
        · exact ⟨hlt _ _ _ hxy hyz, hsup _ _ _ hzy hyx⟩
      · exact ⟨y, (mem_push _).mpr (.inr ⟨hy, by simpa using hzy⟩), hcover⟩
    · have hxz : x = z := by simpa using hx
      exact ⟨z, (mem_push _).mpr (.inl rfl), .inl hxz.symm⟩

end Prune
