import Mathlib.Tactic

set_option autoImplicit false

/-! # Postconditions of partial computations

A computation that can fail is an option. `Ensures m P` says that the result of `m` has the property
`P` if there is a result. There is one rule for each way to build a computation, so that a proof about
a program has the shape of the program.
-/

/-- **Partial correctness**: what `m` returns has the property. -/
def Ensures {α : Type} (m : Option α) (P : α → Prop) : Prop := ∀ a, m = some a → P a

namespace Ensures

variable {α β : Type} {m n : Option α} {P Q : α → Prop} {R : β → Prop}

/-- The strongest postcondition. -/
theorem eq (m : Option α) : Ensures m (m = some ·) := fun _ h => h

theorem none : Ensures Option.none P := fun _ h => by cases h

theorem some {a : α} (h : P a) : Ensures (Option.some a) P := by
  rintro _ ⟨⟩
  exact h

theorem ite {c : Prop} [Decidable c] (hm : c → Ensures m P) (hn : ¬c → Ensures n P) :
    Ensures (if c then m else n) P := by
  split
  · exact hm ‹_›
  · exact hn ‹_›

theorem bind {f : α → Option β} (hm : Ensures m Q) (hf : ∀ a, Q a → Ensures (f a) R) :
    Ensures (m.bind f) R := by
  intro b h
  obtain ⟨a, ha, hb⟩ := Option.bind_eq_some_iff.mp h
  exact hf a (hm a ha) b hb

theorem map {f : α → β} (hm : Ensures m fun a => R (f a)) : Ensures (m.map f) R := by
  intro b h
  obtain ⟨a, ha, rfl⟩ := Option.map_eq_some_iff.mp h
  exact hm a ha

theorem imp (hm : Ensures m P) (h : ∀ a, P a → Q a) : Ensures m Q := fun a ha => h a (hm a ha)

end Ensures
