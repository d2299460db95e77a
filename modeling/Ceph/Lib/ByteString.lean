import Mathlib.Tactic

set_option autoImplicit false

/-! # Strings that are resized and overwritten

The data of a file: a list that is cut or filled up to a length (`resize`) and written at an offset
(`overwrite`). A write behind the end fills the gap. A resize and a write are described by their
entries (`getElem?_resize`, `getElem?_overwrite`).
-/

namespace ByteString

open Option List

/-! ## Resizing and writing -/

variable {α : Type} (z : α)

/-- The first `n` entries, filled up with `z`. -/
def resize (n : ℕ) (b : List α) : List α := b.take n ++ List.replicate (n - b.length) z

/-- The entries `d` from the offset on. Nothing is written if there are none. -/
def overwrite (offset : ℕ) (d b : List α) : List α :=
  if d = [] then b else resize z offset b ++ (d ++ b.drop (offset + d.length))

@[simp] theorem length_resize (n : ℕ) (b : List α) : (resize z n b).length = n := by
  rw [resize, length_append, length_take, length_replicate]
  omega

@[simp] theorem overwrite_nil (offset : ℕ) (b : List α) : overwrite z offset [] b = b := if_pos rfl

theorem length_overwrite {offset : ℕ} {d : List α} (hd : d ≠ []) (b : List α) :
    (overwrite z offset d b).length = max b.length (offset + d.length) := by
  rw [overwrite, if_neg hd, length_append, length_append, length_resize, length_drop]
  omega

/-- **The entries after a resize.** -/
theorem getElem?_resize (n : ℕ) (b : List α) (i : ℕ) :
    (resize z n b)[i]? = if i < n then some ((b[i]?).getD z) else none := by
  rw [resize, getElem?_append, length_take, getElem?_take, getElem?_replicate]
  by_cases hn : i < n
  · by_cases hb : i < b.length
    · rw [if_pos (by omega), if_pos hn, if_pos hn, getElem?_eq_getElem hb, getD_some]
    · rw [if_neg (by omega), if_pos (by omega), if_pos hn, getElem?_eq_none (by omega),
        getD_none]
  · rw [if_neg (by omega), if_neg (by omega), if_neg hn]

/-- **The entries after a write.** -/
theorem getElem?_overwrite {offset : ℕ} {d : List α} (hd : d ≠ []) (b : List α) (i : ℕ) :
    (overwrite z offset d b)[i]? =
      if i < offset then some ((b[i]?).getD z)
      else if i < offset + d.length then d[i - offset]? else b[i]? := by
  rw [overwrite, if_neg hd, getElem?_append, length_resize, getElem?_resize,
    getElem?_append, getElem?_drop]
  by_cases hi : i < offset
  · rw [if_pos hi, if_pos hi, if_pos hi]
  · rw [if_neg hi, if_neg hi]
    by_cases hin : i < offset + d.length
    · rw [if_pos (by omega), if_pos hin]
    · rw [if_neg (by omega), if_neg hin]
      congr 1
      omega

/-- **Two resizes**: the first one is lost, unless it cuts off what the second one wants. -/
theorem resize_resize {m n : ℕ} {b : List α} (h : m ≤ n ∨ b.length ≤ n) :
    resize z m (resize z n b) = resize z m b := by
  apply ext_getElem?
  intro i
  rw [getElem?_resize, getElem?_resize, getElem?_resize]
  by_cases hm : i < m
  · rw [if_pos hm, if_pos hm]
    by_cases hn : i < n
    · rw [if_pos hn, getD_some]
    · rw [if_neg hn, getElem?_eq_none (by omega)]
  · rw [if_neg hm, if_neg hm]

theorem resize_length (b : List α) : resize z b.length b = b := by
  rw [resize, take_length, Nat.sub_self, replicate_zero, append_nil]

/-- **A resize after a write** is the write, cut short, after the resize. -/
theorem resize_overwrite (n offset : ℕ) (d b : List α) :
    resize z n (overwrite z offset d b) = overwrite z offset (d.take (n - offset)) (resize z n b) := by
  by_cases hd : d = []
  · rw [hd, take_nil, overwrite_nil, overwrite_nil]
  by_cases htake : d.take (n - offset) = []
  · -- the write is behind the cut
    have hle : n ≤ offset := by
      rcases take_eq_nil_iff.mp htake with h | h
      · omega
      · exact absurd h hd
    rw [htake, overwrite_nil]
    apply ext_getElem?
    intro i
    rw [getElem?_resize, getElem?_resize, getElem?_overwrite z hd]
    by_cases hn : i < n
    · rw [if_pos hn, if_pos hn, if_pos (by omega), getD_some]
    · rw [if_neg hn, if_neg hn]
  · have hlt : offset < n := by
      by_contra hge
      exact htake (by rw [Nat.sub_eq_zero_of_le (by omega), take_zero])
    apply ext_getElem?
    intro i
    rw [getElem?_resize, getElem?_overwrite z hd, getElem?_overwrite z htake, getElem?_resize,
      length_take, getElem?_take]
    by_cases hn : i < n
    · rw [if_pos hn, if_pos hn]
      by_cases hi : i < offset
      · rw [if_pos hi, if_pos hi, getD_some]
      · rw [if_neg hi, if_neg hi]
        by_cases hin : i < offset + d.length
        · rw [if_pos hin, if_pos (by omega), if_pos (by omega),
            getElem?_eq_getElem (by omega), getD_some]
        · rw [if_neg hin, if_neg (by omega)]
    · rw [if_neg hn, if_neg (by omega), if_neg (by omega), if_neg hn]

theorem overwrite_length (d b : List α) : overwrite z b.length d b = b ++ d := by
  by_cases hd : d = []
  · rw [hd, overwrite_nil, append_nil]
  · rw [overwrite, if_neg hd, resize_length, drop_eq_nil_of_le (by omega), append_nil]

theorem overwrite_zero {d b : List α} (h : b.length ≤ d.length) : overwrite z 0 d b = d := by
  by_cases hd : d = []
  · rw [hd, length_nil] at h
    have hb : b = [] := eq_nil_of_length_eq_zero (by omega)
    rw [hd, hb, overwrite_nil]
  · rw [overwrite, if_neg hd, resize, take_zero, Nat.zero_sub, replicate_zero,
      nil_append, nil_append, drop_eq_nil_of_le (by omega), append_nil]

end ByteString
