import Mathlib.Tactic

set_option autoImplicit false

/-! # Reading a list page by page

A pager is called with a cursor and a page size; it returns a page and the cursor to go on from.
If every cursor it hands out stands at what is left of a list, then the pages together are the
list, whatever the sizes.
-/

namespace Paging

variable {α C : Type}

/-- What has been returned after so many calls, and where to go on. -/
def collect (next : C → ℕ → Option (List α × C)) (sizes : ℕ → ℕ) (start : C) :
    ℕ → Option (List α × C)
  | 0 => some ([], start)
  | k + 1 => do
    let (l, c) ← collect next sizes start k
    let (page, c') ← next c (sizes k)
    return (l ++ page, c')

variable {next : C → ℕ → Option (List α × C)} {sizes : ℕ → ℕ} {start : C}

theorem collect_succ {k : ℕ} {l page : List α} {c c' : C}
    (h : collect next sizes start k = some (l, c)) (hnext : next c (sizes k) = some (page, c')) :
    collect next sizes start (k + 1) = some (l ++ page, c') := by
  simp [collect, h, hnext]

/-- **What holds of every page holds of what is collected.** -/
theorem forall_mem_of_collect {P : α → Prop}
    (hnext : ∀ c max page c', next c max = some (page, c') → ∀ x ∈ page, P x) (k : ℕ)
    {l : List α} {c : C} (h : collect next sizes start k = some (l, c)) : ∀ x ∈ l, P x := by
  induction k generalizing l c with
  | zero =>
    simp only [collect, Option.some_inj, Prod.mk.injEq] at h
    simp [← h.1]
  | succ k ih =>
    simp only [collect, Option.bind_eq_bind, Option.bind_eq_some_iff, Option.pure_def,
      Option.some_inj, Prod.exists, Prod.mk.injEq] at h
    obtain ⟨l₁, c₁, h₁, page, c₂, h₂, rfl, rfl⟩ := h
    intro x hx
    rcases List.mem_append.mp hx with hx | hx
    · exact ih h₁ x hx
    · exact hnext _ _ _ _ h₂ x hx

section Stands

variable {Stands : C → List α → Prop}
  (hnext : ∀ c l max, Stands c l → 0 < max →
    ∃ c', next c max = some (l.take max, c') ∧ Stands c' (l.drop max))
  (hsizes : ∀ k, 0 < sizes k) {l : List α} (hstart : Stands start l)

include hnext hsizes hstart

theorem collect_eq_take (k : ℕ) :
    ∃ c m, k ≤ m ∧ collect next sizes start k = some (l.take m, c) ∧ Stands c (l.drop m) := by
  induction k with
  | zero => exact ⟨start, 0, le_rfl, rfl, hstart⟩
  | succ k ih =>
    obtain ⟨c, m, hm, heq, hstands⟩ := ih
    obtain ⟨c', hpage, hstands'⟩ := hnext c _ (sizes k) hstands (hsizes k)
    have hk := hsizes k
    refine ⟨c', m + sizes k, by omega, ?_, ?_⟩
    · rw [collect_succ heq hpage, List.take_add]
    · rwa [List.drop_drop] at hstands'

/-- **The pages together are the list**: enough calls collect all of it. -/
theorem collect_all : ∃ c, collect next sizes start l.length = some (l, c) ∧ Stands c [] := by
  obtain ⟨c, m, hm, heq, hstands⟩ := collect_eq_take hnext hsizes hstart l.length
  rw [List.take_of_length_le hm] at heq
  rw [List.drop_eq_nil_of_le hm] at hstands
  exact ⟨c, heq, hstands⟩

end Stands

/-- **A pager that hands out the same cursor again never gets further.** -/
theorem cursor_of_collect {c₀ : C} (hstart : ∀ k, ∃ page, next start (sizes k) = some (page, c₀))
    (hagain : ∀ k, ∃ page, next c₀ (sizes k) = some (page, c₀)) (k : ℕ) :
    ∃ l, collect next sizes start (k + 1) = some (l, c₀) := by
  induction k with
  | zero =>
    obtain ⟨page, hpage⟩ := hstart 0
    exact ⟨_, collect_succ rfl hpage⟩
  | succ k ih =>
    obtain ⟨l, hl⟩ := ih
    obtain ⟨page, hpage⟩ := hagain (k + 1)
    exact ⟨_, collect_succ hl hpage⟩

end Paging
