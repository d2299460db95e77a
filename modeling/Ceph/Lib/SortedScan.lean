import Mathlib.Data.List.DropRight
import Mathlib.Data.List.Pairwise
import Mathlib.Tactic

set_option autoImplicit false

/-! # Scans of ordered lists

A loop that walks an ordered list from one end and stops at the first element that fails a test
visits exactly the elements that pass it, when the test can only change once along the list.
Each lemma turns such a scan into a filter, so that what the loop does is said without the
order.
-/

namespace SortedScan

open List

variable {α : Type} {p : α → Bool} {l : List α}

/-- From the front, for a test that later elements pass only if earlier ones do. -/
theorem takeWhile_eq_filter (h : l.Pairwise (fun a b => p b = true → p a = true)) :
    l.takeWhile p = l.filter p := by
  induction l with
  | nil => rfl
  | cons a l ih =>
    obtain ⟨hhead, htail⟩ := pairwise_cons.mp h
    by_cases ha : p a = true
    · rw [takeWhile_cons_of_pos ha, filter_cons_of_pos ha, ih htail]
    · rw [takeWhile_cons_of_neg ha, filter_cons_of_neg ha]
      symm
      rw [filter_eq_nil_iff]
      intro b hb hpb
      exact ha (hhead b hb hpb)

theorem dropWhile_eq_filter (h : l.Pairwise (fun a b => p b = true → p a = true)) :
    l.dropWhile p = l.filter (fun a => !p a) := by
  induction l with
  | nil => rfl
  | cons a l ih =>
    obtain ⟨hhead, htail⟩ := pairwise_cons.mp h
    by_cases ha : p a = true
    · rw [dropWhile_cons_of_pos ha, filter_cons_of_neg (by simp [ha]), ih htail]
    · rw [dropWhile_cons_of_neg ha]
      symm
      rw [filter_eq_self]
      intro b hb
      rcases mem_cons.mp hb with rfl | hb
      · simpa using ha
      · simpa using fun hpb => ha (hhead b hb hpb)

/-- From the back, for a test that earlier elements pass only if later ones do. -/
theorem rtakeWhile_eq_filter (h : l.Pairwise (fun a b => p a = true → p b = true)) :
    l.rtakeWhile p = l.filter p := by
  rw [List.rtakeWhile, takeWhile_eq_filter (pairwise_reverse.mpr h), filter_reverse,
    reverse_reverse]

theorem rdropWhile_eq_filter (h : l.Pairwise (fun a b => p a = true → p b = true)) :
    l.rdropWhile p = l.filter (fun a => !p a) := by
  rw [List.rdropWhile, dropWhile_eq_filter (pairwise_reverse.mpr h), filter_reverse,
    reverse_reverse]

/-- **Two ends of a list**: what passes one test, and then what passes another that later elements
pass if earlier ones do, with nothing that passes both. -/
theorem filter_or_eq_append {q : α → Bool} (h : l.Pairwise (fun a b => q a = true → q b = true))
    (hpq : ∀ a ∈ l, q a = true → p a = false) :
    l.filter (fun a => p a || q a) = l.filter p ++ l.filter q := by
  induction l with
  | nil => rfl
  | cons a l ih =>
    obtain ⟨hhead, htail⟩ := pairwise_cons.mp h
    obtain ⟨ha, hl⟩ := forall_mem_cons.mp hpq
    by_cases hqa : q a = true
    · -- from here on everything passes the second test
      have hnone : (a :: l).filter p = [] := by
        rw [filter_eq_nil_iff]
        intro b hb
        rw [Bool.not_eq_true]
        rcases mem_cons.mp hb with rfl | hb
        · exact ha hqa
        · exact hl b hb (hhead b hb hqa)
      rw [hnone, nil_append]
      refine filter_congr fun b hb => ?_
      have hpb : p b = false := by simpa using filter_eq_nil_iff.mp hnone b hb
      rw [hpb, Bool.false_or]
    · rw [Bool.not_eq_true] at hqa
      rw [filter_cons, filter_cons, filter_cons, hqa, ih htail hl]
      cases p a <;> rfl

/-- The last element, where a scan from the back begins, is above all others. -/
theorem rel_getLast? {r : α → α → Prop} [Std.Refl r] (h : l.Pairwise r) {a b : α} (ha : a ∈ l)
    (hb : l.getLast? = some b) : r a b := by
  have hlast : l.getLast (ne_nil_of_mem ha) = b := by
    rw [getLast?_eq_some_getLast (ne_nil_of_mem ha)] at hb
    exact Option.some.inj hb
  rw [← hlast]
  exact h.rel_getLast ha

theorem find?_eq_some {r : α → α → Prop} (h : l.Pairwise r) {a : α} (ha : a ∈ l) (hp : p a = true)
    (hfirst : ∀ b ∈ l, r b a → p b = false) : l.find? p = some a := by
  induction l with
  | nil => cases ha
  | cons b l ih =>
    obtain ⟨hhead, htail⟩ := pairwise_cons.mp h
    rcases mem_cons.mp ha with rfl | ha
    · exact find?_cons_of_pos hp
    · have hb : p b = false := hfirst b mem_cons_self (hhead a ha)
      rw [find?_cons_of_neg (by simp [hb])]
      exact ih htail ha fun c hc => hfirst c (mem_cons_of_mem b hc)

/-- **What comes after a page**: the elements above the last one of the first few are the rest. -/
theorem filter_lt_eq_drop {κ : Type} [LinearOrder κ] {f : α → κ}
    (h : l.Pairwise (fun a b => f a < f b)) {n : ℕ} {x : α} (hx : (l.take n).getLast? = some x) :
    l.filter (fun a => f x < f a) = l.drop n := by
  have hsplit : (l.take n ++ l.drop n).Pairwise (fun a b => f a < f b) := by
    rwa [take_append_drop]
  obtain ⟨htake, -, hcross⟩ := pairwise_append.mp hsplit
  have hmem : x ∈ l.take n := mem_of_getLast? hx
  have hbelow : (l.take n).filter (fun a => f x < f a) = [] := by
    rw [filter_eq_nil_iff]
    intro a ha
    have hle : (l.take n).Pairwise (fun a b => f a ≤ f b) := htake.imp fun hab => hab.le
    simpa using rel_getLast? hle ha hx
  have habove : (l.drop n).filter (fun a => f x < f a) = l.drop n := by
    rw [filter_eq_self]
    intro a ha
    simpa using hcross x hmem a ha
  calc l.filter (fun a => f x < f a)
      = (l.take n ++ l.drop n).filter (fun a => f x < f a) := by rw [take_append_drop]
    _ = l.drop n := by rw [filter_append, hbelow, habove, nil_append]

end SortedScan
