import Mathlib.Algebra.Order.BigOperators.Group.List
import Mathlib.Tactic

set_option autoImplicit false

/-! # Texts with a separator

A list of names is written with a separator between them; `components` reads the names of a text,
and skips what is empty. A text is *clean* if nothing is: it is then the text of its components,
and it is the text of a prefix of a list of names if that list's text goes on behind it with a
separator, or ends (`components_prefix_iff`).
-/

namespace SepText

open List

variable {α : Type} {sep : α}

/-! ## Writing names -/

theorem intercalate_append {cs ds : List (List α)} (hc : cs ≠ []) (hd : ds ≠ []) :
    [sep].intercalate (cs ++ ds) = [sep].intercalate cs ++ sep :: [sep].intercalate ds := by
  induction cs with
  | nil => exact absurd rfl hc
  | cons c cs ih =>
    cases cs with
    | nil =>
      rw [singleton_append, intercalate_cons_of_ne_nil hd, intercalate_singleton]
      simp
    | cons c' cs =>
      rw [cons_append, cons_append, intercalate_cons_cons,
        intercalate_cons_cons, ← cons_append, ih (by simp)]
      simp

/-! ## Reading names -/

variable [DecidableEq α]

/-- The names of a text. -/
def components (sep : α) (t : List α) : List (List α) := (t.splitOn sep).filter (· ≠ [])

/-- There is no empty name between the separators, or in front of the first or behind the last. -/
def Clean (sep : α) (t : List α) : Prop := t = [] ∨ ∀ c ∈ t.splitOn sep, c ≠ []

/-- A list of names that can be written. -/
def Names (sep : α) (ns : List (List α)) : Prop := ∀ n ∈ ns, n ≠ [] ∧ sep ∉ n

theorem splitOn_intercalate_names {ns : List (List α)} (h : Names sep ns) (hne : ns ≠ []) :
    ([sep].intercalate ns).splitOn sep = ns :=
  splitOn_intercalate sep (fun n hn => (h n hn).2) hne

/-- A separator at the end adds no name. -/
theorem components_concat (sep : α) (t : List α) :
    components sep (t ++ [sep]) = components sep t := by
  rw [components, splitOn_append_cons_self, splitOn_nil, filter_append, components]
  simp

/-! ## Clean texts -/

theorem components_of_clean {t : List α} (h : Clean sep t) (hne : t ≠ []) :
    components sep t = t.splitOn sep := by
  rw [components, filter_eq_self]
  intro c hc
  simpa using (h.resolve_left hne) c hc

/-- **Prefixes of names**: the text of the names is the clean text, or goes on with a separator. -/
theorem components_prefix_iff {t : List α} (h : Clean sep t) (hne : t ≠ []) {ns : List (List α)}
    (hns : Names sep ns) :
    components sep t <+: ns ↔
      [sep].intercalate ns = t ∨ ∃ s, [sep].intercalate ns = t ++ sep :: s := by
  rw [components_of_clean h hne]
  have hsplit : t.splitOn sep ≠ [] := splitOn_ne_nil sep t
  constructor
  · rintro ⟨ds, rfl⟩
    by_cases hds : ds = []
    · left
      rw [hds, append_nil, intercalate_splitOn]
    · right
      exact ⟨[sep].intercalate ds, by
        rw [intercalate_append hsplit hds, intercalate_splitOn]⟩
  · intro htext
    have hns0 : ns ≠ [] := by
      rintro rfl
      rcases htext with heq | ⟨s, heq⟩
      · exact hne heq.symm
      · simp at heq
    have hback := splitOn_intercalate_names hns hns0
    rcases htext with heq | ⟨s, heq⟩
    · rw [heq] at hback
      rw [hback]
    · rw [heq, splitOn_append_cons_self] at hback
      exact ⟨s.splitOn sep, hback⟩

/-- A text that is followed by a separator in the text of names has all its names there. -/
theorem splitOn_prefix {t s : List α} {ns : List (List α)} (hns : Names sep ns)
    (h : [sep].intercalate ns = t ++ sep :: s) : t.splitOn sep ++ s.splitOn sep = ns := by
  have hne : ns ≠ [] := by
    rintro rfl
    simp at h
  rw [← splitOn_intercalate_names hns hne, h, splitOn_append_cons_self]

theorem Names.clean_of_splitOn_prefix {t : List α} {ns : List (List α)} (hns : Names sep ns)
    (h : t.splitOn sep <+: ns) : Clean sep t :=
  .inr fun c hc => (hns c (h.subset hc)).1

end SepText
