import Mathlib

set_option autoImplicit false

/-! # The merge intersection of two lists

The loop of `std::set_intersection`: it drops the smaller of the two heads, and takes both if they
are equal. If both lists are sorted the result holds the common elements. Here only the first is:
an element of it is found exactly if what precedes it in the second is smaller
(`mem_setIntersection`, `exists_of_mem_setIntersection`).
-/

variable {α : Type} [LinearOrder α]

/-- The loop while the head of the first list is `x`; `rest` goes on with its tail. -/
def intersectHead (rest : List α → List α) (x : α) : List α → List α
  | [] => []
  | y :: b =>
    if x < y then rest (y :: b)
    else if y < x then intersectHead rest x b
    else x :: rest b

def setIntersection : List α → List α → List α
  | [] => fun _ => []
  | x :: a => intersectHead (setIntersection a) x

theorem mem_of_mem_setIntersection {z : α} {a b : List α} (h : z ∈ setIntersection a b) :
    z ∈ a ∧ z ∈ b := by
  induction a generalizing b with
  | nil => cases h
  | cons x a ih =>
    induction b with
    | nil => cases h
    | cons y b ihb =>
      rw [setIntersection, intersectHead] at h
      split at h
      · exact ⟨List.mem_cons_of_mem x (ih h).1, (ih h).2⟩
      · split at h
        · exact ⟨(ihb h).1, List.mem_cons_of_mem y (ihb h).2⟩
        · rename_i hxy hyx
          have heq : x = y := le_antisymm (not_lt.mp hyx) (not_lt.mp hxy)
          rcases List.mem_cons.mp h with rfl | h
          · exact ⟨List.mem_cons_self, heq ▸ List.mem_cons_self⟩
          · exact ⟨List.mem_cons_of_mem x (ih h).1, List.mem_cons_of_mem y (ih h).2⟩

/-- **An element is found** if the first list is sorted, and smaller ones precede it in the
second. -/
theorem mem_setIntersection {z : α} {a : List α} (ha : a.Pairwise (· ≤ ·)) (hz : z ∈ a)
    {l : List α} (hl : ∀ y ∈ l, y < z) (r : List α) : z ∈ setIntersection a (l ++ z :: r) := by
  induction a generalizing l with
  | nil => cases hz
  | cons x a ih =>
    obtain ⟨hx, ha⟩ := List.pairwise_cons.mp ha
    have hxz : x ≤ z := by
      rcases List.mem_cons.mp hz with rfl | hz
      · exact le_rfl
      · exact hx z hz
    induction l with
    | nil =>
      rw [List.nil_append, setIntersection, intersectHead]
      split
      · rename_i hlt
        exact ih ha ((List.mem_cons.mp hz).resolve_left hlt.ne') (l := []) (by simp)
      · rename_i hnlt
        have heq : x = z := le_antisymm hxz (not_lt.mp hnlt)
        rw [if_neg (heq ▸ lt_irrefl x), heq]
        exact List.mem_cons_self
    | cons y l ihl =>
      have hyz : y < z := hl y List.mem_cons_self
      have hl' : ∀ y' ∈ l, y' < z := fun y' hy' => hl y' (List.mem_cons_of_mem y hy')
      rw [List.cons_append, setIntersection, intersectHead]
      split
      · rename_i hlt
        exact ih ha ((List.mem_cons.mp hz).resolve_left (hlt.trans hyz).ne')
          (l := y :: l) hl
      · split
        · exact ihl hl'
        · rename_i hxy hyx
          have heq : x = y := le_antisymm (not_lt.mp hyx) (not_lt.mp hxy)
          refine List.mem_cons_of_mem x (ih ha ?_ hl')
          exact (List.mem_cons.mp hz).resolve_left (heq ▸ hyz.ne')

/-- **It is found only then.** A larger element before it passes over it in the first list. -/
theorem exists_of_mem_setIntersection {z : α} {a b : List α} (ha : a.Pairwise (· ≤ ·))
    (h : z ∈ setIntersection a b) : ∃ l r, b = l ++ z :: r ∧ ∀ y ∈ l, y < z := by
  induction a generalizing b with
  | nil => cases h
  | cons x a ih =>
    obtain ⟨hx, ha⟩ := List.pairwise_cons.mp ha
    induction b with
    | nil => cases h
    | cons y b ihb =>
      rw [setIntersection, intersectHead] at h
      split at h
      · exact ih ha h
      · split at h
        · rename_i hyx
          obtain ⟨l, r, rfl, hl⟩ := ihb h
          -- the element is one of the first list, and not below its head
          have hxz : x ≤ z := by
            rcases List.mem_cons.mp (mem_of_mem_setIntersection h).1 with rfl | hz
            · exact le_rfl
            · exact hx z hz
          exact ⟨y :: l, r, rfl, List.forall_mem_cons.mpr ⟨hyx.trans_le hxz, hl⟩⟩
        · rename_i hxy hyx
          have heq : x = y := le_antisymm (not_lt.mp hyx) (not_lt.mp hxy)
          by_cases hzy : z = y
          · exact ⟨[], b, by rw [hzy, List.nil_append], by simp⟩
          · have hz : z ∈ setIntersection a b :=
              (List.mem_cons.mp h).resolve_left fun hzx => hzy (hzx.trans heq)
            obtain ⟨l, r, rfl, hl⟩ := ih ha hz
            have hyz : y < z :=
              lt_of_le_of_ne (heq ▸ hx z (mem_of_mem_setIntersection hz).1) (Ne.symm hzy)
            exact ⟨y :: l, r, rfl, List.forall_mem_cons.mpr ⟨hyz, hl⟩⟩
