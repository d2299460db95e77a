import Ceph.Lib.LexCode
import Ceph.Lib.OrdMap

set_option autoImplicit false

/-! # Scans by prefix

The keys of a map are strings in lexicographic order. The keys with a common prefix stand together,
and a cursor that asks for the next key after its position, again and again until the prefix fails,
meets all of them (`within`). If there is no next key at all, then there is none with a later prefix
either (`within_eq_nil_of_next_eq_none`).
-/

namespace PrefixScan

open List

variable {β γ : Type} [LinearOrder β]

/-! ## Prefixes and the order -/

theorem le_of_isPrefix {p k : List β} (h : p <+: k) : p ≤ k := by
  induction p generalizing k with
  | nil => exact not_lt.mp (not_lt_nil k)
  | cons a p ih =>
    obtain ⟨x, rfl⟩ := h
    rw [← not_lt, cons_append, cons_lt_cons_self, not_lt]
    exact ih (prefix_append p x)

theorem lt_of_isPrefix {p p' k k' : List β} (hlen : p.length = p'.length) (hlt : p < p')
    (h : p <+: k) (h' : p' <+: k') : k < k' := by
  obtain ⟨x, rfl⟩ := h
  obtain ⟨y, rfl⟩ := h'
  exact (LexCode.append_lt_append_iff hlen x y).mpr (.inl hlt)

/-- **Keys with a common prefix stand together.** -/
theorem prefix_of_between {p k k' : List β} (hle : p ≤ k) (hlt : k < k') (h : p <+: k') :
    p <+: k := by
  induction p generalizing k k' with
  | nil => exact nil_prefix
  | cons a p ih =>
    obtain ⟨x, rfl⟩ := h
    cases k with
    | nil => exact absurd (nil_lt_cons a p) (not_lt.mpr hle)
    | cons b k =>
      rw [← not_lt, cons_lt_cons_iff, not_or] at hle
      rw [cons_append, cons_lt_cons_iff] at hlt
      rcases hlt with hlt | ⟨rfl, hlt⟩
      · exact absurd hlt hle.1
      · have hle' : p ≤ k := not_lt.mp fun hlt' => hle.2 ⟨rfl, hlt'⟩
        exact cons_prefix_cons.mpr ⟨rfl, ih hle' hlt (prefix_append p x)⟩

/-! ## The cursor -/

variable {m : OrdMap (List β) γ} {p pos : List β}

/-- The first entry after a position. -/
def next (m : OrdMap (List β) γ) (pos : List β) : Option (List β × γ) :=
  m.entries.find? fun e => decide (pos < e.1)

/-- All entries after a position. -/
def after (m : OrdMap (List β) γ) (pos : List β) : List (List β × γ) :=
  m.entries.filter fun e => decide (pos < e.1)

/-- The entries after a position that have the prefix. -/
def within (m : OrdMap (List β) γ) (p pos : List β) : List (List β × γ) :=
  (after m pos).filter fun e => decide (p <+: e.1)

theorem after_of_next_eq_none (h : next m pos = none) : after m pos = [] := by
  rw [after, filter_eq_nil_iff]
  exact find?_eq_none.mp h

/-- **The next entry** is the first one after the position. -/
theorem after_of_next_eq_some {e : List β × γ} (h : next m pos = some e) :
    after m pos = e :: after m e.1 := by
  have hpos : pos < e.1 := by simpa using find?_some h
  rw [next, ← head?_filter] at h
  obtain ⟨rest, hrest⟩ : ∃ rest, after m pos = e :: rest := head?_eq_some_iff.mp h
  have hsorted : (after m pos).Pairwise (fun a b => a.1 < b.1) := m.sorted.filter _
  rw [hrest] at hsorted
  -- what is after the entry is after the position
  have hafter : after m e.1 = (after m pos).filter fun a => decide (e.1 < a.1) := by
    rw [after, after, filter_filter]
    exact filter_congr fun a _ => by simpa using hpos.trans
  have hall : rest.filter (fun a => decide (e.1 < a.1)) = rest :=
    filter_eq_self.mpr fun a ha => decide_eq_true ((pairwise_cons.mp hsorted).1 a ha)
  rw [hafter, hrest, filter_cons, if_neg (by simp), hall]

theorem within_of_next_eq_none (h : next m pos = none) : within m p pos = [] := by
  rw [within, after_of_next_eq_none h, filter_nil]

/-- The prefix fails at the next entry, so it fails at all later ones. -/
theorem within_of_not_prefix {e : List β × γ} (hp : p <+: pos) (h : next m pos = some e)
    (hnot : ¬ p <+: e.1) : within m p pos = [] := by
  rw [within, filter_eq_nil_iff]
  intro e' he' hstarts
  rw [decide_eq_true_eq] at hstarts
  have hlt : pos < e.1 := by simpa using find?_some h
  rw [after_of_next_eq_some h] at he'
  rcases mem_cons.mp he' with rfl | he'
  · exact hnot hstarts
  · have hlater : e.1 < e'.1 := by simpa using (mem_filter.mp he').2
    exact hnot (prefix_of_between ((le_of_isPrefix hp).trans hlt.le) hlater hstarts)

theorem within_of_prefix {e : List β × γ} (h : next m pos = some e) (hstarts : p <+: e.1) :
    within m p pos = e :: within m p e.1 := by
  rw [within, after_of_next_eq_some h, filter_cons, if_pos (decide_eq_true hstarts), within]

/-- A scan that starts at the prefix meets all entries with the prefix, but one under the prefix
itself. -/
theorem mem_within_self {e : List β × γ} :
    e ∈ within m p p ↔ e ∈ m.entries ∧ p <+: e.1 ∧ e.1 ≠ p := by
  rw [within, after, mem_filter, mem_filter, decide_eq_true_eq, decide_eq_true_eq,
    and_assoc]
  refine and_congr_right fun _ => ⟨fun h => ⟨h.2, h.1.ne'⟩, fun h => ⟨?_, h.1⟩⟩
  exact lt_of_le_of_ne (le_of_isPrefix h.1) h.2.symm

theorem nodup_within (m : OrdMap (List β) γ) (p pos : List β) : (within m p pos).Nodup :=
  (m.nodup_entries.filter _).filter _

/-- **No next entry**: nothing is left for later prefixes either. -/
theorem within_eq_nil_of_next_eq_none {p' : List β} (hp : p <+: pos) (h : next m pos = none)
    (hlen : p'.length = p.length) (hlt : p < p') : within m p' p' = [] := by
  rw [eq_nil_iff_forall_not_mem]
  intro e he
  obtain ⟨hmem, hstarts, -⟩ := mem_within_self.mp he
  have hnone := find?_eq_none.mp h e hmem
  exact hnone (decide_eq_true (lt_of_isPrefix hlen.symm hlt hp hstarts))

end PrefixScan
