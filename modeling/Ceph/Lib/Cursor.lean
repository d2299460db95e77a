import Ceph.Lib.SortedScan

set_option autoImplicit false

/-! # A cursor into an ordered list

A list that grows at its end, shrinks at its front and may be extended there is split by a bound:
the elements up to the bound come first. A cursor remembers the length of that part, so that
nothing before it has to be looked at again when the bound is raised. Each lemma says what one
change of the list does to the cursor.
-/

namespace Cursor

open SortedScan List

variable {α β : Type} [LinearOrder β] {key : α → β} {b b' : β} {l : List α} {k : ℕ}

/-- **The cursor stands at the bound**: the `k` elements before it are those up to the bound. -/
structure At (key : α → β) (b : β) (l : List α) (k : ℕ) : Prop where
  le_length : k ≤ l.length
  before : ∀ a ∈ l.take k, key a ≤ b
  after : ∀ a ∈ l.drop k, b < key a

/-- What a cursor passes when the bound is raised to `b'`. -/
def passed (key : α → β) (b' : β) (l : List α) (k : ℕ) : List α :=
  (l.drop k).takeWhile fun a => !decide (b' < key a)

theorem at_iff : At key b l k ↔ ∃ pre post, l = pre ++ post ∧ pre.length = k ∧
    (∀ a ∈ pre, key a ≤ b) ∧ ∀ a ∈ post, b < key a := by
  constructor
  · intro h
    exact ⟨l.take k, l.drop k, (take_append_drop k l).symm,
      length_take_of_le h.le_length, h.before, h.after⟩
  · rintro ⟨pre, post, rfl, rfl, hpre, hpost⟩
    refine ⟨?_, ?_, ?_⟩
    · rw [length_append]
      exact Nat.le_add_right _ _
    · rwa [take_left]
    · rwa [drop_left]

theorem At.append (h : At key b l k) {a : α} (ha : b < key a) : At key b (l ++ [a]) k := by
  obtain ⟨pre, post, rfl, rfl, hpre, hpost⟩ := at_iff.mp h
  refine at_iff.mpr ⟨pre, post ++ [a], append_assoc .., rfl, hpre, fun x hx => ?_⟩
  rcases mem_append.mp hx with hx | hx
  · exact hpost x hx
  · exact mem_singleton.mp hx ▸ ha

theorem At.prepend (h : At key b l k) {front : List α} (hfront : ∀ a ∈ front, key a ≤ b) :
    At key b (front ++ l) (k + front.length) := by
  obtain ⟨pre, post, rfl, rfl, hpre, hpost⟩ := at_iff.mp h
  refine at_iff.mpr ⟨front ++ pre, post, (append_assoc ..).symm, ?_, fun x hx => ?_, hpost⟩
  · rw [length_append, Nat.add_comm]
  · exact (mem_append.mp hx).elim (hfront x) (hpre x)

/-- Elements up to the bound that leave at the front are all before the cursor. -/
theorem At.of_prepend {front : List α} (h : At key b (front ++ l) k)
    (hfront : ∀ a ∈ front, key a ≤ b) : front.length ≤ k ∧ At key b l (k - front.length) := by
  obtain ⟨pre, post, heq, rfl, hpre, hpost⟩ := at_iff.mp h
  rcases append_eq_append_iff.mp heq with ⟨c, rfl, rfl⟩ | ⟨c, rfl, rfl⟩
  · rw [length_append, Nat.add_sub_cancel_left]
    exact ⟨Nat.le_add_right _ _,
      at_iff.mpr ⟨c, post, rfl, rfl, fun a ha => hpre a (mem_append_right _ ha), hpost⟩⟩
  · -- an element of the front behind the cursor would be above the bound
    have hnil : c = [] := eq_nil_iff_forall_not_mem.mpr fun a ha =>
      absurd (hfront a (mem_append_right _ ha))
        (not_le.mpr (hpost a (mem_append_left _ ha)))
    subst hnil
    rw [append_nil, Nat.sub_self]
    exact ⟨le_rfl, at_iff.mpr ⟨[], l, rfl, rfl, by simp, hpost⟩⟩

/-- **A cursor found from the end.** -/
theorem at_reset (hsorted : l.Pairwise fun a b => key a < key b) (b : β) :
    At key b l (l.rdropWhile fun a => decide (b < key a)).length := by
  have hmono : l.Pairwise fun a a' => decide (b < key a) = true → decide (b < key a') = true := by
    refine hsorted.imp ?_
    intro a a' hlt ha
    exact decide_eq_true ((of_decide_eq_true ha).trans hlt)
  refine at_iff.mpr ⟨_, _, (rdropWhile_append_rtakeWhile ..).symm, rfl,
    fun a ha => ?_, fun a ha => ?_⟩
  · rw [rdropWhile_eq_filter hmono, mem_filter] at ha
    simpa using ha.2
  · rw [rtakeWhile_eq_filter hmono, mem_filter] at ha
    simpa using ha.2

/-- **Raising the bound** passes the elements between the two bounds, and the cursor stands at
the new one. -/
theorem At.advance (h : At key b l k) (hsorted : l.Pairwise fun a b => key a < key b)
    (hb : b ≤ b') :
    At key b' l (k + (passed key b' l k).length) ∧
      passed key b' l k = l.filter fun a => b < key a ∧ key a ≤ b' := by
  obtain ⟨pre, post, rfl, rfl, hpre, hpost⟩ := at_iff.mp h
  have hmono : post.Pairwise fun a a' =>
      (!decide (b' < key a')) = true → (!decide (b' < key a)) = true := by
    refine (pairwise_append.mp hsorted).2.1.imp ?_
    intro a a' hlt ha
    simp only [Bool.not_eq_true', decide_eq_false_iff_not, not_lt] at ha ⊢
    exact hlt.le.trans ha
  have hpassed : passed key b' (pre ++ post) pre.length =
      post.takeWhile fun a => !decide (b' < key a) := by
    rw [passed, drop_left]
  rw [hpassed]
  constructor
  · refine at_iff.mpr ⟨pre ++ post.takeWhile _, post.dropWhile fun a => !decide (b' < key a),
      ?_, length_append, fun a ha => ?_, fun a ha => ?_⟩
    · rw [append_assoc, takeWhile_append_dropWhile]
    · rcases mem_append.mp ha with ha | ha
      · exact (hpre a ha).trans hb
      · simpa using mem_takeWhile_imp ha
    · rw [dropWhile_eq_filter hmono, mem_filter] at ha
      simpa using ha.2
  · have hnone : pre.filter (fun a => decide (b < key a ∧ key a ≤ b')) = [] := by
      rw [filter_eq_nil_iff]
      intro a ha hlt
      exact absurd (of_decide_eq_true hlt).1 (not_lt.mpr (hpre a ha))
    calc post.takeWhile (fun a => !decide (b' < key a))
        = post.filter fun a => !decide (b' < key a) := takeWhile_eq_filter hmono
      _ = post.filter fun a => b < key a ∧ key a ≤ b' := by
          refine filter_congr fun a ha => ?_
          rw [← decide_not, decide_eq_decide, not_lt]
          exact ⟨fun hle => ⟨hpost a ha, hle⟩, fun hle => hle.2⟩
      _ = (pre ++ post).filter fun a => b < key a ∧ key a ≤ b' := by
          rw [filter_append, hnone, nil_append]

end Cursor
