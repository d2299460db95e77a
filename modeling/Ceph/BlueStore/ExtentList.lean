import Ceph.BlueStore.ExtentMap

set_option autoImplicit false

/-! # Lists of extents

What an extent map denotes is the partial map from logical bytes to bytes of blobs (`lookup`). The
extents are in order and do not overlap (`Ordered`). To cut a range out of an extent leaves at most two
pieces of it (`Extent.keep`) and takes at most one (`Extent.cut`); the two together map what the extent
maps, and refer to as many bytes of the blob.
-/

namespace Ceph.BlueStore

open List

variable {β : Type}

variable {f : Extent β → List (Extent β)} {rs : List (ℕ × ℕ)} {t : UseTracker} {b : β} {x y : ℕ}

namespace Extent

/-- The first logical byte behind the extent. -/
def stop (e : Extent β) : ℕ := e.logicalOffset + e.length

/-- The ends of an extent, and so all its fields, have 32 bits. -/
def Small (e : Extent β) : Prop := e.stop < 2 ^ 32 ∧ e.blobOffset + e.length < 2 ^ 32

theorem logicalEnd_eq {e : Extent β} (h : e.stop < 2 ^ 32) : e.logicalEnd = e.stop :=
  Nat.mod_eq_of_lt h

theorem make_eq {lo o l : ℕ} (hlo : lo < 2 ^ 32) (ho : o < 2 ^ 32) (hl : l < 2 ^ 32) (b : β) :
    Extent.make lo o l b = ⟨lo, o, l, b⟩ := by
  rw [make, Nat.mod_eq_of_lt hlo, Nat.mod_eq_of_lt ho, Nat.mod_eq_of_lt hl]

theorem Small.make_eq {e : Extent β} (h : e.Small) :
    Extent.make e.logicalOffset e.blobOffset e.length e.blob = e := by
  obtain ⟨hstop, hblob⟩ := h
  rw [stop] at hstop
  exact Extent.make_eq (by omega) (by omega) (by omega) e.blob

/-- The extent maps a logical byte to a byte of a blob. -/
def Maps (e : Extent β) (x : ℕ) (b : β) (y : ℕ) : Prop :=
  e.logicalOffset ≤ x ∧ x < e.stop ∧ b = e.blob ∧ y = e.blobOffset + (x - e.logicalOffset)

/-- The part of an extent from `first` to before `last`. -/
def sub (e : Extent β) (first last : ℕ) : Extent β :=
  ⟨first, e.blobOffset + (first - e.logicalOffset), last - first, e.blob⟩

/-- What is left of an extent when the range from `offset` to before `last` is cut out. -/
def keep (offset last : ℕ) (e : Extent β) : List (Extent β) :=
  if last ≤ e.logicalOffset then [e]
  else if e.logicalOffset < offset then
    if last < e.stop then [e.sub e.logicalOffset offset, e.sub last e.stop]
    else if offset < e.stop then [e.sub e.logicalOffset offset]
    else [e]
  else if e.stop ≤ last then []
  else [e.sub last e.stop]

def cut (offset last : ℕ) (e : Extent β) : List (Extent β) :=
  if last ≤ e.logicalOffset then []
  else if e.logicalOffset < offset then
    if last < e.stop then [e.sub offset last]
    else if offset < e.stop then [e.sub offset e.stop]
    else []
  else if e.stop ≤ last then [e]
  else [e.sub e.logicalOffset last]

theorem sub_stop (e : Extent β) {first last : ℕ} (h : first ≤ last) :
    (e.sub first last).stop = last :=
  Nat.add_sub_cancel' h

theorem sub_sub (e : Extent β) {a b c d : ℕ} (hac : a ≤ c) (ha : e.logicalOffset ≤ a) :
    (e.sub a b).sub c d = e.sub c d := by
  simp only [sub, Extent.mk.injEq, true_and, and_true]
  omega

theorem sub_left (e : Extent β) (m : ℕ) :
    e.sub e.logicalOffset m = { e with length := m - e.logicalOffset } := by
  rw [sub, Nat.sub_self, Nat.add_zero]

theorem maps_sub {e : Extent β} {first last : ℕ} (hfirst : e.logicalOffset ≤ first)
    (hlast : last ≤ e.stop) :
    (e.sub first last).Maps x b y ↔ e.Maps x b y ∧ first ≤ x ∧ x < last := by
  have hend : (e.sub first last).stop = first + (last - first) := rfl
  rw [Maps, Maps, hend]
  dsimp only [sub]
  constructor
  · rintro ⟨hle, hlt, rfl, rfl⟩
    exact ⟨⟨by omega, by omega, rfl, by omega⟩, by omega, by omega⟩
  · rintro ⟨⟨hle, hlt, rfl, rfl⟩, hle', hlt'⟩
    exact ⟨by omega, by omega, rfl, by omega⟩

theorem maps_merge {p n : Extent β} (hend : p.stop = n.logicalOffset)
    (hblob : p.blob = n.blob) (hoffset : p.blobOffset + p.length = n.blobOffset) :
    Extent.Maps { p with length := p.length + n.length } x b y ↔
      p.Maps x b y ∨ n.Maps x b y := by
  simp only [Maps, stop] at *
  constructor
  · rintro ⟨hle, hlt, rfl, rfl⟩
    rcases Nat.lt_or_ge x n.logicalOffset with hx | hx
    · exact .inl ⟨hle, by omega, rfl, rfl⟩
    · exact .inr ⟨hx, by omega, hblob, by omega⟩
  · rintro (⟨hle, hlt, rfl, rfl⟩ | ⟨hle, hlt, rfl, rfl⟩)
    · exact ⟨hle, by omega, rfl, rfl⟩
    · exact ⟨by omega, by omega, hblob.symm, by omega⟩

end Extent

namespace ExtentMap

/-! ## Lookups -/

/-- The byte of a blob that a logical byte is mapped to. -/
def lookup (l : List (Extent β)) (x : ℕ) : Option (β × ℕ) :=
  (l.find? fun e => e.logicalOffset ≤ x ∧ x < e.stop).map fun e =>
    (e.blob, e.blobOffset + (x - e.logicalOffset))

/-- Some extent of the list maps the byte. -/
def Maps (l : List (Extent β)) (x : ℕ) (b : β) (y : ℕ) : Prop := ∃ e ∈ l, e.Maps x b y

/-- The extents are in order and do not overlap. -/
def Ordered (l : List (Extent β)) : Prop :=
  l.Pairwise fun e e' => e.logicalOffset < e'.logicalOffset ∧ e.stop ≤ e'.logicalOffset

variable {l l' r : List (Extent β)} {e e' : Extent β}

theorem maps_append : Maps (l ++ l') x b y ↔ Maps l x b y ∨ Maps l' x b y := by
  simp only [Maps, mem_append, or_and_right, exists_or]

theorem maps_cons : Maps (e :: l) x b y ↔ e.Maps x b y ∨ Maps l x b y := by
  simp only [Maps, mem_cons, exists_eq_or_imp]

theorem maps_flatMap : Maps (l.flatMap f) x b y ↔ ∃ e ∈ l, Maps (f e) x b y := by
  simp only [Maps, mem_flatMap]
  constructor
  · rintro ⟨e, ⟨a, ha, he⟩, hmaps⟩
    exact ⟨a, ha, e, he, hmaps⟩
  · rintro ⟨a, ha, e, he, hmaps⟩
    exact ⟨e, ⟨a, ha, he⟩, hmaps⟩

theorem not_maps_nil : ¬ Maps ([] : List (Extent β)) x b y := by
  rintro ⟨e, he, -⟩
  exact absurd he not_mem_nil

/-- **In an ordered list a lookup finds the extent that maps the byte.** -/
theorem lookup_eq_some_iff (h : Ordered l) : lookup l x = some (b, y) ↔ Maps l x b y := by
  induction l with
  | nil => exact iff_of_false (by simp [lookup]) not_maps_nil
  | cons e l ih =>
    obtain ⟨hhead, htail⟩ := pairwise_cons.mp h
    rw [maps_cons, ← ih htail, lookup]
    by_cases hx : e.logicalOffset ≤ x ∧ x < e.stop
    · -- no later extent starts before the end of this one
      have hlater : ¬ Maps l x b y := by
        rintro ⟨e', he', hle, -⟩
        have := (hhead e' he').2
        omega
      rw [find?_cons_of_pos (by simpa using hx), Option.map_some, Option.some_inj,
        Prod.mk.injEq, ih htail]
      constructor
      · rintro ⟨rfl, rfl⟩
        exact .inl ⟨hx.1, hx.2, rfl, rfl⟩
      · rintro (⟨-, -, rfl, rfl⟩ | hmaps)
        · exact ⟨rfl, rfl⟩
        · exact absurd hmaps hlater
    · rw [find?_cons_of_neg (by simpa using hx), ← lookup]
      constructor
      · exact .inr
      · rintro (⟨hle, hlt, -⟩ | hmaps)
        · exact absurd ⟨hle, hlt⟩ hx
        · exact hmaps

theorem lookup_eq_of_maps_iff (h : Ordered l) (h' : Ordered l')
    (hmaps : ∀ b y, Maps l x b y ↔ Maps l' x b y) : lookup l x = lookup l' x := by
  refine Option.ext fun (b, y) => ?_
  rw [lookup_eq_some_iff h, lookup_eq_some_iff h', hmaps]

/-! ## The ordered set -/

theorem insert_middle (hl : ∀ x ∈ l, x.logicalOffset < e.logicalOffset)
    (hr : ∀ x ∈ r, e.logicalOffset < x.logicalOffset) : insert e (l ++ r) = l ++ e :: r := by
  induction l with
  | nil =>
    cases r with
    | nil => rfl
    | cons x r => rw [nil_append, insert, if_pos (hr x mem_cons_self), nil_append]
  | cons x l ih =>
    have hx := hl x mem_cons_self
    rw [cons_append, insert, if_neg (by omega), if_pos hx,
      ih fun x' hx' => hl x' (mem_cons_of_mem _ hx'), cons_append]

theorem insert_of_mem {x : Extent β} (h : Ordered l) (hx : x ∈ l)
    (heq : x.logicalOffset = e.logicalOffset) : insert e l = l := by
  induction l with
  | nil => exact absurd hx not_mem_nil
  | cons a l ih =>
    obtain ⟨hhead, htail⟩ := pairwise_cons.mp h
    rcases mem_cons.mp hx with rfl | hx
    · rw [insert, if_neg (by omega), if_neg (by omega)]
    · have := (hhead x hx).1
      rw [insert, if_neg (by omega), if_pos (by omega), ih htail hx]

theorem ordered_append : Ordered (l ++ r) ↔ Ordered l ∧ Ordered r ∧
    ∀ e ∈ l, ∀ e' ∈ r, e.logicalOffset < e'.logicalOffset ∧ e.stop ≤ e'.logicalOffset :=
  pairwise_append

theorem ordered_cons : Ordered (e :: l) ↔
    (∀ e' ∈ l, e.logicalOffset < e'.logicalOffset ∧ e.stop ≤ e'.logicalOffset) ∧ Ordered l :=
  pairwise_cons

/-- An extent that starts where another one does can take its place. -/
theorem Ordered.replace (h : Ordered (l ++ e :: r)) (hoffset : e'.logicalOffset = e.logicalOffset)
    (hend : ∀ x ∈ r, e'.stop ≤ x.logicalOffset) : Ordered (l ++ e' :: r) := by
  obtain ⟨hl, hr, hcross⟩ := ordered_append.mp h
  obtain ⟨hhead, htail⟩ := ordered_cons.mp hr
  refine ordered_append.mpr ⟨hl, ordered_cons.mpr ⟨fun x hx => ?_, htail⟩, fun x hx y hy => ?_⟩
  · exact ⟨hoffset ▸ (hhead x hx).1, hend x hx⟩
  · rcases mem_cons.mp hy with rfl | hy
    · exact hoffset ▸ hcross x hx e mem_cons_self
    · exact hcross x hx y (mem_cons_of_mem _ hy)

theorem lowerBound_spec (h : Ordered l) (offset : ℕ) :
    (lowerBound l offset).1 ++ (lowerBound l offset).2 = l ∧
      (∀ e ∈ (lowerBound l offset).1, e.logicalOffset < offset) ∧
      ∀ e ∈ (lowerBound l offset).2, offset ≤ e.logicalOffset := by
  rw [lowerBound, span_eq_takeWhile_dropWhile]
  refine ⟨takeWhile_append_dropWhile, fun e he => ?_, ?_⟩
  · simpa using all_eq_true.mp all_takeWhile e he
  induction l with
  | nil => simp
  | cons x l ih =>
    obtain ⟨hhead, htail⟩ := ordered_cons.mp h
    by_cases hx : x.logicalOffset < offset
    · rw [dropWhile_cons_of_pos (by simpa using hx)]
      exact ih htail
    · rw [dropWhile_cons_of_neg (by simpa using hx)]
      intro e he
      rcases mem_cons.mp he with rfl | he
      · omega
      · have := (hhead e he).1
        omega

theorem dropLast_append_cons (h : l.getLast? = some e) : l.dropLast ++ e :: r = l ++ r := by
  obtain ⟨init, rfl⟩ := getLast?_eq_some_iff.mp h
  rw [dropLast_concat, append_assoc, singleton_append]

theorem seekLextent_append (l : List (Extent β)) (offset : ℕ) :
    (seekLextent l offset).1 ++ (seekLextent l offset).2 = l := by
  have hsplit : (lowerBound l (offset % 2 ^ 32)).1 ++ (lowerBound l (offset % 2 ^ 32)).2 = l := by
    rw [lowerBound, span_eq_takeWhile_dropWhile]
    exact takeWhile_append_dropWhile
  rw [seekLextent]
  split
  · exact hsplit
  · rename_i e hlast
    split
    · exact hsplit
    · exact (dropLast_append_cons hlast).trans hsplit

theorem filter_ne_middle (hl : ∀ x ∈ l, x.logicalOffset < e.logicalOffset)
    (hr : ∀ x ∈ r, e.logicalOffset < x.logicalOffset) :
    (l ++ [e] ++ r).filter (fun x => x.logicalOffset ≠ e.logicalOffset) = l ++ r := by
  have hl' : l.filter (fun x => x.logicalOffset ≠ e.logicalOffset) = l :=
    filter_eq_self.mpr fun x hx => decide_eq_true (hl x hx).ne
  have hr' : r.filter (fun x => x.logicalOffset ≠ e.logicalOffset) = r :=
    filter_eq_self.mpr fun x hx => decide_eq_true (hr x hx).ne'
  rw [filter_append, filter_append, hl', hr', filter_cons_of_neg (by simp),
    filter_nil, append_nil]

/-- **`seek_lextent`** splits an ordered map at an offset of 32 bits. -/
theorem seekLextent_spec (h : Ordered l) (hsmall : ∀ e ∈ l, e.stop < 2 ^ 32) {offset : ℕ}
    (hoffset : offset < 2 ^ 32) :
    (∀ e ∈ (seekLextent l offset).1, e.logicalOffset < offset ∧ e.stop ≤ offset) ∧
      ∀ e ∈ (seekLextent l offset).2, offset ≤ e.logicalOffset ∨ offset < e.stop := by
  obtain ⟨hsplit, hbefore, hfrom⟩ := lowerBound_spec h offset
  rw [seekLextent, Nat.mod_eq_of_lt hoffset]
  set fp := lowerBound l offset
  rw [← hsplit] at hsmall
  rw [← hsplit, ordered_append] at h
  cases hlast : fp.1.getLast? with
  | none =>
    rw [getLast?_eq_none_iff] at hlast
    refine ⟨fun e he => ?_, fun e he => .inl (hfrom e he)⟩
    rw [hlast] at he
    exact absurd he not_mem_nil
  | some e =>
    dsimp only
    obtain ⟨init, hinit⟩ := getLast?_eq_some_iff.mp hlast
    have hordered := h.1
    rw [hinit, ordered_append] at hordered
    have hmem : e ∈ fp.1 := by
      rw [hinit]
      exact mem_append_right _ mem_cons_self
    have hlt := hbefore e hmem
    rw [Extent.logicalEnd_eq (hsmall e (mem_append_left _ hmem))]
    -- the extents before the last one end where it starts, or before
    have hends : ∀ e' ∈ init, e'.logicalOffset < offset ∧ e'.stop ≤ offset := by
      intro e' he'
      have := hordered.2.2 e' he' e mem_cons_self
      omega
    split
    · rename_i hle
      refine ⟨fun e' he' => ?_, fun e' he' => .inl (hfrom e' he')⟩
      rw [hinit, mem_append, mem_singleton] at he'
      rcases he' with he' | rfl
      · exact hends e' he'
      · exact ⟨hlt, hle⟩
    · rename_i hgt
      have hdrop : fp.1.dropLast = init := by rw [hinit, dropLast_concat]
      refine ⟨fun e' he' => ?_, fun e' he' => ?_⟩
      · rw [hdrop] at he'
        exact hends e' he'
      · rcases mem_cons.mp he' with rfl | he'
        · exact .inr (by omega)
        · exact .inl (hfrom e' he')

/-! ## Cutting a range out -/

section Cut

variable {offset last : ℕ}

/-- **What is left maps the bytes out of the range.** -/
theorem maps_keep (hle : offset ≤ last) (e : Extent β) :
    Maps (e.keep offset last) x b y ↔ e.Maps x b y ∧ ¬ (offset ≤ x ∧ x < last) := by
  have hin : e.Maps x b y → e.logicalOffset ≤ x ∧ x < e.stop := fun h => ⟨h.1, h.2.1⟩
  rw [Extent.keep]
  split_ifs <;> simp (disch := omega) only [maps_cons, not_maps_nil, or_false, Extent.maps_sub]
  all_goals
    by_cases hmaps : e.Maps x b y
    · have := hin hmaps
      simp only [hmaps, true_and, true_iff, false_iff]
      omega
    · simp only [hmaps, false_and, or_self]

/-- **What is cut out maps the bytes of the range.** -/
theorem maps_cut (e : Extent β) :
    Maps (e.cut offset last) x b y ↔ e.Maps x b y ∧ offset ≤ x ∧ x < last := by
  have hin : e.Maps x b y → e.logicalOffset ≤ x ∧ x < e.stop := fun h => ⟨h.1, h.2.1⟩
  rw [Extent.cut]
  split_ifs <;> simp (disch := omega) only [maps_cons, not_maps_nil, or_false, Extent.maps_sub]
  all_goals
    by_cases hmaps : e.Maps x b y
    · have := hin hmaps
      simp only [hmaps, true_and, true_iff, false_iff]
      omega
    · simp only [hmaps, false_and]

/-- A piece lies in its extent. -/
def IsPiece (e e' : Extent β) : Prop :=
  e.logicalOffset ≤ e'.logicalOffset ∧ e'.stop ≤ e.stop ∧
    (e'.logicalOffset = e.logicalOffset ∨ e'.logicalOffset < e.stop)

theorem IsPiece.refl (e : Extent β) : IsPiece e e := ⟨le_rfl, le_rfl, .inl rfl⟩

theorem isPiece_sub {first last : ℕ} (hfirst : e.logicalOffset ≤ first) (hle : first ≤ last)
    (hlast : last ≤ e.stop) (h : first = e.logicalOffset ∨ first < e.stop) :
    IsPiece e (e.sub first last) :=
  ⟨hfirst, (e.sub_stop hle).trans_le hlast, h⟩

theorem isPiece_of_mem_keep (hle : offset ≤ last) (h : e' ∈ e.keep offset last) : IsPiece e e' := by
  rw [Extent.keep] at h
  split_ifs at h with h₁ h₂ h₃ h₄ h₅
  · exact mem_singleton.mp h ▸ IsPiece.refl e
  · rcases mem_cons.mp h with rfl | h
    · exact isPiece_sub le_rfl h₂.le (by omega) (.inl rfl)
    · exact mem_singleton.mp h ▸ isPiece_sub (by omega) h₃.le le_rfl (.inr h₃)
  · exact mem_singleton.mp h ▸ isPiece_sub le_rfl h₂.le (by omega) (.inl rfl)
  · exact mem_singleton.mp h ▸ IsPiece.refl e
  · exact absurd h not_mem_nil
  · exact mem_singleton.mp h ▸ isPiece_sub (by omega) (by omega) le_rfl (.inr (by omega))

theorem isPiece_of_mem_cut (hle : offset ≤ last) (h : e' ∈ e.cut offset last) : IsPiece e e' := by
  rw [Extent.cut] at h
  split_ifs at h with h₁ h₂ h₃ h₄ h₅
  · exact absurd h not_mem_nil
  · exact mem_singleton.mp h ▸ isPiece_sub h₂.le hle h₃.le (.inr (by omega))
  · exact mem_singleton.mp h ▸ isPiece_sub h₂.le h₄.le le_rfl (.inr h₄)
  · exact absurd h not_mem_nil
  · exact mem_singleton.mp h ▸ IsPiece.refl e
  · exact mem_singleton.mp h ▸ isPiece_sub le_rfl (by omega) (by omega) (.inl rfl)

theorem outside_of_mem_keep (h : e' ∈ e.keep offset last) :
    last ≤ e'.logicalOffset ∨ e'.logicalOffset < offset ∧ e'.stop ≤ offset := by
  rw [Extent.keep] at h
  split_ifs at h with h₁ h₂ h₃ h₄ h₅
  · exact mem_singleton.mp h ▸ .inl h₁
  · rcases mem_cons.mp h with rfl | h
    · exact .inr ⟨h₂, (e.sub_stop h₂.le).le⟩
    · exact mem_singleton.mp h ▸ .inl le_rfl
  · exact mem_singleton.mp h ▸ .inr ⟨h₂, (e.sub_stop h₂.le).le⟩
  · exact mem_singleton.mp h ▸ .inr ⟨h₂, by omega⟩
  · exact absurd h not_mem_nil
  · exact mem_singleton.mp h ▸ .inl le_rfl

theorem ordered_keep (hle : offset ≤ last) (e : Extent β) : Ordered (e.keep offset last) := by
  rw [Extent.keep]
  split_ifs with h₁ h₂
  · exact pairwise_singleton _ _
  · refine ordered_cons.mpr ⟨fun e' he' => ?_, pairwise_singleton _ _⟩
    obtain rfl := mem_singleton.mp he'
    exact ⟨Nat.lt_of_not_le h₁, (e.sub_stop h₂.le).trans_le hle⟩
  · exact pairwise_singleton _ _
  · exact pairwise_singleton _ _
  · exact List.Pairwise.nil
  · exact pairwise_singleton _ _

theorem ordered_cut (e : Extent β) : Ordered (e.cut offset last) := by
  rw [Extent.cut]
  split_ifs
  · exact List.Pairwise.nil
  · exact pairwise_singleton _ _
  · exact pairwise_singleton _ _
  · exact List.Pairwise.nil
  · exact pairwise_singleton _ _
  · exact pairwise_singleton _ _

/-- **Pieces of ordered extents are ordered.** -/
theorem ordered_flatMap (hf : ∀ e, Ordered (f e)) (hpiece : ∀ e, ∀ e' ∈ f e, IsPiece e e')
    (h : Ordered l) : Ordered (l.flatMap f) := by
  induction l with
  | nil => exact List.Pairwise.nil
  | cons e l ih =>
    obtain ⟨hhead, htail⟩ := ordered_cons.mp h
    rw [flatMap_cons, ordered_append]
    refine ⟨hf e, ih htail, fun a ha a' ha' => ?_⟩
    obtain ⟨e', he', ha'⟩ := mem_flatMap.mp ha'
    obtain ⟨-, hend, hlt⟩ := hpiece e a ha
    obtain ⟨hle, -, -⟩ := hpiece e' a' ha'
    have := hhead e' he'
    omega

theorem flatMap_keep_of_le (h : ∀ e ∈ l, last ≤ e.logicalOffset) :
    l.flatMap (Extent.keep offset last) = l := by
  rw [flatMap_congr fun e he => show e.keep offset last = [e] from if_pos (h e he),
    flatMap_singleton']

theorem flatMap_cut_of_le (h : ∀ e ∈ l, last ≤ e.logicalOffset) :
    l.flatMap (Extent.cut offset last) = [] :=
  flatMap_eq_nil_iff.mpr fun e he => if_pos (h e he)

theorem keep_cut_of_end_le (hle : offset ≤ last) (hlt : e.logicalOffset < offset)
    (h : e.stop ≤ offset) : e.keep offset last = [e] ∧ e.cut offset last = [] := by
  have h₁ : ¬ last ≤ e.logicalOffset := by omega
  have h₂ : ¬ last < e.stop := by omega
  have h₃ : ¬ offset < e.stop := by omega
  rw [Extent.keep, Extent.cut]
  simp only [if_neg h₁, if_pos hlt, if_neg h₂, if_neg h₃, and_self]

end Cut

/-! ## References -/

section Counted

variable [DecidableEq β] (S : Blobs β)

/-- The ranges of a blob that extents refer to. -/
def refs (l : List (Extent β)) (b : β) : List (ℕ × ℕ) :=
  (l.filter fun e => e.blob = b).map fun e => (e.blobOffset, e.length)

/-- The tracker of a blob counts the ranges; a blob that is not referred to may have none. -/
def Uses (t : UseTracker) (b : β) (rs : List (ℕ × ℕ)) : Prop :=
  UseTracker.Tracks t (S.blob b).logicalLength ((S.blob b).getReleaseSize S.minAllocSize) rs ∨
    t.isNotEmpty = false ∧ rs = []

/-- **The trackers count the references of the extents.** -/
def Counted (used : β → UseTracker) (l : List (Extent β)) : Prop :=
  ∀ b, Uses S (used b) b (refs l b)

variable {S} {used : β → UseTracker}

omit [DecidableEq β] in
theorem Uses.getReferencedBytes (h : Uses S t b rs) :
    t.getReferencedBytes = (rs.map Prod.snd).sum := by
  rcases h with htracks | ⟨hempty, rfl⟩
  · exact htracks.getReferencedBytes
  · exact UseTracker.getReferencedBytes_of_empty hempty

omit [DecidableEq β] in
theorem Uses.getD_bytesPerAu (h : Uses S t b rs) (hnum : t.numAu ≠ 0) {i : ℕ} (hi : i < t.numAu) :
    t.bytesPerAu.getD i 0 =
      UseTracker.sumCommon ((S.blob b).getReleaseSize S.minAllocSize) i rs := by
  rcases h with htracks | ⟨hempty, rfl⟩
  · exact htracks.units hnum i
  · exact UseTracker.getD_eq_zero_of_empty hempty hnum hi

theorem refs_cons_self (h : e.blob = b) (l : List (Extent β)) :
    refs (e :: l) b = (e.blobOffset, e.length) :: refs l b := by
  rw [refs, filter_cons_of_pos (by simpa using h)]
  rfl

theorem refs_cons_ne (h : b ≠ e.blob) (l : List (Extent β)) : refs (e :: l) b = refs l b := by
  rw [refs, filter_cons_of_neg (by simpa using Ne.symm h)]
  rfl

theorem Counted.perm (h : Counted S used l) (hperm : l'.Perm l) : Counted S used l' := by
  intro b
  have hrefs : (refs l' b).Perm (refs l b) := (hperm.filter _).map _
  rcases h b with ht | ⟨ht, hnil⟩
  · exact .inl (ht.perm hrefs)
  · rw [hnil] at hrefs
    exact .inr ⟨ht, hrefs.eq_nil⟩

theorem Counted.tracks (h : Counted S used (e :: l)) :
    UseTracker.Tracks (used e.blob) (S.blob e.blob).logicalLength
      ((S.blob e.blob).getReleaseSize S.minAllocSize)
      ((e.blobOffset, e.length) :: refs l e.blob) := by
  have hb := h e.blob
  rw [refs_cons_self rfl] at hb
  rcases hb with ht | ⟨-, hnil⟩
  · exact ht
  · exact absurd hnil (cons_ne_nil _ _)

theorem Counted.of_tracks (h : Counted S used l) (hrefs : refs l' b = rs)
    (ht : UseTracker.Tracks t (S.blob b).logicalLength
      ((S.blob b).getReleaseSize S.minAllocSize) rs)
    (hother : ∀ b', b' ≠ b → refs l' b' = refs l b') : Counted S (Function.update used b t) l' := by
  intro b'
  by_cases hb : b' = b
  · subst hb
    rw [Function.update_self, hrefs]
    exact .inl ht
  · rw [Function.update_of_ne hb, hother b' hb]
    exact h b'

/-- An extent that is counted refers to bytes of its blob. -/
theorem Counted.blob_lt (h : Counted S used l) (he : e ∈ l) : e.blobOffset + e.length < 2 ^ 32 := by
  obtain ⟨l₁, l₂, rfl⟩ := append_of_mem he
  have ht := (h.perm perm_middle.symm).tracks
  exact (ht.le _ mem_cons_self).trans_lt ht.fullLength_lt

/-- **A reference is put.** -/
theorem Counted.put (h : Counted S used (e :: l)) {lo : ℕ} (hlo : lo < 2 ^ 32) :
    ∃ oe used', OldExtent.create used lo e.blobOffset e.length e.blob = some (oe, used') ∧
      oe.e = { e with logicalOffset := lo } ∧ Counted S used' l := by
  have hblob := h.blob_lt mem_cons_self
  obtain ⟨t, empty, units, hput, ht⟩ := h.tracks.put
  refine ⟨⟨⟨lo, e.blobOffset, e.length, e.blob⟩, t.getReferencedBytes = 0⟩, _, ?_, rfl,
    h.of_tracks rfl ht fun b' hb' => (refs_cons_ne hb' l).symm⟩
  rw [OldExtent.create, Extent.make_eq hlo (by omega) (by omega)]
  dsimp only
  rw [hput, Option.map_some]

theorem BlobInfo.getReleaseSize_pos {info : BlobInfo} {minAllocSize : ℕ} (hmin : 0 < minAllocSize)
    (hpos : info.logicalLength ≠ 0) : 0 < info.getReleaseSize minAllocSize := by
  rw [BlobInfo.getReleaseSize]
  dsimp only
  split_ifs
  · omega
  · exact hmin
  · exact Nat.two_pow_pos _

/-- **A reference is taken.** -/
theorem Counted.get (h : Counted S used l) (hmin : 0 < S.minAllocSize)
    (hle : e.blobOffset + e.length ≤ (S.blob e.blob).logicalLength)
    (hpos : (S.blob e.blob).logicalLength ≠ 0)
    (hroom : e.length + ((refs l e.blob).map Prod.snd).sum < 2 ^ 32) :
    ∃ used', getRef S used e.blob e.blobOffset e.length = some used' ∧
      Counted S used' (e :: l) := by
  obtain ⟨t, hinit, ht⟩ : ∃ t, (if (used e.blob).isNotEmpty then some (used e.blob)
      else (used e.blob).init (S.blob e.blob).logicalLength
        ((S.blob e.blob).getReleaseSize S.minAllocSize)) = some t ∧
      UseTracker.Tracks t (S.blob e.blob).logicalLength
        ((S.blob e.blob).getReleaseSize S.minAllocSize) (refs l e.blob) := by
    split_ifs with hempty
    · rcases h e.blob with ht | ⟨hnot, -⟩
      · exact ⟨_, rfl, ht⟩
      · exact absurd hempty (by rw [hnot]; exact Bool.false_ne_true)
    · rw [Bool.not_eq_true] at hempty
      rcases h e.blob with ht | ⟨-, hnil⟩
      · exact ht.reinit hempty (Nat.pos_of_ne_zero hpos)
      · rw [hnil]
        exact UseTracker.init_tracks hempty (BlobInfo.getReleaseSize_pos hmin hpos)
          (Nat.pos_of_ne_zero hpos) (S.blob e.blob).logicalLength_lt
  obtain ⟨t', hget, ht'⟩ := ht.get hle hroom
  refine ⟨_, ?_, h.of_tracks (refs_cons_self rfl l) ht' fun b' hb' => refs_cons_ne hb' l⟩
  rw [getRef, if_neg hpos, hinit, Option.bind_some, hget, Option.map_some]

theorem Counted.congr (h : Counted S used l) (b : β)
    (ht : UseTracker.Tracks (used b) (S.blob b).logicalLength
      ((S.blob b).getReleaseSize S.minAllocSize) (refs l' b))
    (hother : ∀ b', b' ≠ b → refs l' b' = refs l b') : Counted S used l' := by
  have := h.of_tracks rfl ht hother
  rwa [Function.update_eq_self] at this

/-- **An extent refers to as much as its two parts.** -/
theorem Counted.split (h : Counted S used (e :: l)) {m : ℕ} (hlo : e.logicalOffset ≤ m)
    (hend : m ≤ e.stop) :
    Counted S used (e.sub e.logicalOffset m :: e.sub m e.stop :: l) := by
  have hlength : e.length = (m - e.logicalOffset) + (e.stop - m) := by
    rw [Extent.stop] at *
    omega
  have ht := h.tracks
  rw [hlength] at ht
  have hblob : ∀ m m', (e.sub m m').blob = e.blob := fun _ _ => rfl
  refine h.congr e.blob ?_ fun b' hb' => ?_
  · rw [refs_cons_self (hblob _ _), refs_cons_self (hblob _ _)]
    dsimp only [Extent.sub]
    rw [Nat.sub_self, Nat.add_zero]
    exact ht.split
  · have hne : ∀ m m', b' ≠ (e.sub m m').blob := fun _ _ => hb'
    rw [refs_cons_ne (hne _ _), refs_cons_ne (hne _ _), refs_cons_ne hb']

/-- An extent is cut into three parts, the one in the middle to be taken out. -/
theorem Counted.split_middle (h : Counted S used (e :: l)) {m m' : ℕ} (hlo : e.logicalOffset ≤ m)
    (hle : m ≤ m') (hend : m' ≤ e.stop) :
    Counted S used (e.sub m m' :: e.sub e.logicalOffset m :: e.sub m' e.stop :: l) := by
  have hsub := e.sub_stop (hle.trans hend)
  have h₁ := ((h.split hlo (hle.trans hend)).perm (List.Perm.swap _ _ _)).split
    (show (e.sub m e.stop).logicalOffset ≤ m' from hle) (hend.trans_eq hsub.symm)
  rw [hsub, Extent.sub_sub e hle hlo, show (e.sub m e.stop).logicalOffset = m from rfl,
    Extent.sub_sub e le_rfl hlo] at h₁
  exact h₁.perm ((List.Perm.swap _ _ _).cons _)

theorem Counted.merge {n : Extent β} (h : Counted S used (e :: n :: l)) (hblob : e.blob = n.blob)
    (hoffset : e.blobOffset + e.length = n.blobOffset) :
    Counted S used ({ e with length := e.length + n.length } :: l) := by
  have ht := h.tracks
  rw [refs_cons_self hblob.symm, ← hoffset] at ht
  refine h.congr e.blob ?_ fun b' hb' => ?_
  · rw [refs_cons_self rfl]
    exact ht.merge
  · rw [refs_cons_ne (e := { e with length := e.length + n.length }) hb', refs_cons_ne hb',
      refs_cons_ne (hblob ▸ hb')]

theorem Counted.of_length_zero (h : Counted S used (e :: l)) (hzero : e.length = 0) :
    Counted S used l := by
  have ht := h.tracks
  rw [hzero] at ht
  refine h.congr e.blob (ht.congr ?_ (fun i => ?_) fun r hr => ht.le r (mem_cons_of_mem _ hr))
    fun b' hb' => (refs_cons_ne hb' l).symm
  · rw [map_cons, sum_cons, Nat.zero_add]
  · rw [UseTracker.sumCommon_cons, UseTracker.common_zero, Nat.zero_add]

end Counted

end ExtentMap

end Ceph.BlueStore
