import Ceph.BlueStore.ExtentList
import Ceph.Lib.Transition

set_option autoImplicit false

/-! # The algebra of writes to an extent map

`punch_hole` cuts its range out of each extent (`punchLoop_spec`): it unmaps the bytes of the range and
no other, the old extents map what was unmapped, and the references that it puts are theirs.
`set_lextent` maps its range to the blob. `compress_extent_map` merges extents that continue each other
(`MergeStep`), never over the start of a shard. So over each run of these operations the blobs count the
bytes of the extents that refer to them (`run_wellFormed`).
-/

namespace Ceph.BlueStore

open Nat List

variable {β : Type}

namespace ExtentMap

/-! ## `punch_hole` -/

variable {e : Extent β} {m : ExtentMap β} {s : ExtentMap β × List (OldExtent β)} {shards : List ℕ}

variable {held before rest : List (Extent β)} {used : β → UseTracker}

section Punch

variable [DecidableEq β] {S : Blobs β} {offset length : ℕ}

/-- What the loop does to the extents before the iterator and from it on: the range is cut out of
them, what is cut out is added to the old extents, and its references are put. Other references may
be held. -/
def Punches (S : Blobs β) (held : List (Extent β)) (offset length : ℕ)
    (before rest : List (Extent β)) (old : List (OldExtent β)) (result : Option (Punched β)) : Prop :=
  ∃ r olds, result = some r ∧
    r.extents = before ++ rest.flatMap (Extent.keep offset (offset + length)) ∧
    r.oldExtents = old ++ olds ∧
    olds.map OldExtent.e = rest.flatMap (Extent.cut offset (offset + length)) ∧
    Counted S r.usedInBlob (held ++ r.extents)

theorem counted_middle {p : Extent β} : Counted S used (held ++ (before ++ p :: rest)) ↔
      Counted S used (p :: (held ++ before ++ rest)) := by
  rw [← append_assoc]
  exact ⟨fun h => h.perm perm_middle.symm, fun h => h.perm perm_middle⟩

theorem punches_behind {old : List (OldExtent β)} (hall : ∀ e ∈ rest, offset + length ≤ e.logicalOffset)
    (hcount : Counted S used (held ++ (before ++ rest))) :
    Punches S held offset length before rest old (some ⟨before ++ rest, old, used⟩) := by
  refine ⟨_, [], rfl, ?_, (append_nil old).symm, ?_, hcount⟩
  · rw [flatMap_keep_of_le hall]
  · rw [flatMap_cut_of_le hall]
    rfl

/-- One extent is cut, and then those behind it. -/
theorem Punches.cons {before' : List (Extent β)} {old : List (OldExtent β)} {oe : OldExtent β}
    {p : Extent β} {result : Option (Punched β)}
    (h : Punches S held offset length before' rest (old ++ [oe]) result)
    (hkeep : before' = before ++ p.keep offset (offset + length))
    (hcut : p.cut offset (offset + length) = [oe.e]) :
    Punches S held offset length before (p :: rest) old result := by
  obtain ⟨r, olds, hresult, hextents, holds, hcuts, hcount⟩ := h
  refine ⟨r, oe :: olds, hresult, ?_, ?_, ?_, hcount⟩
  · rw [hextents, hkeep, append_assoc, flatMap_cons]
  · rw [holds, append_assoc, singleton_append]
  · rw [map_cons, hcuts, flatMap_cons, hcut, singleton_append]

section Cases

variable {old : List (OldExtent β)}
  {p : Extent β} (hordered : Ordered (before ++ p :: rest)) (hstop : p.stop < 2 ^ 32)
  (hcount : Counted S used (held ++ (before ++ p :: rest)))

include hordered hstop hcount

/-- Split and deref middle. -/
theorem punches_middle (hlo : p.logicalOffset < offset) (hgt : offset + length < p.stop) :
    Punches S held offset length before (p :: rest) old
      ((OldExtent.create used offset (p.blobOffset + (offset - p.logicalOffset)) length
        p.blob).map fun (oe, used) =>
          ⟨insert (.make (offset + length) (p.blobOffset + (offset - p.logicalOffset) + length)
              (p.length + 2 ^ 64 - (offset - p.logicalOffset + length) % 2 ^ 64) p.blob)
            (before ++ { p with length := (offset - p.logicalOffset) % 2 ^ 32 } :: rest),
            old ++ [oe], used⟩) := by
  obtain ⟨-, hordr, hcross⟩ := ordered_append.mp hordered
  have hhead := (ordered_cons.mp hordr).1
  have hend : p.stop = p.logicalOffset + p.length := rfl
  have hall : ∀ e ∈ rest, offset + length < e.logicalOffset := fun e he =>
    hgt.trans_le (hhead e he).2
  have hcount' := counted_middle.mp hcount
  have hblob := hcount'.blob_lt mem_cons_self
  obtain ⟨oe, used', hcreate, hoe, hcount₁⟩ :=
    (hcount'.split_middle hlo.le (le_add_right offset length) hgt.le).put
      (show offset < 2 ^ 32 by omega)
  have hlength : (p.sub offset (offset + length)).length = length :=
    Nat.add_sub_cancel_left offset length
  have hright : Extent.make (offset + length) (p.blobOffset + (offset - p.logicalOffset) + length)
      (p.length + 2 ^ 64 - (offset - p.logicalOffset + length) % 2 ^ 64) p.blob =
      p.sub (offset + length) p.stop := by
    simp only [Extent.make, Extent.sub, Extent.mk.injEq, and_true]
    omega
  have hbefore' : ∀ x ∈ before ++ [p.sub p.logicalOffset offset],
      x.logicalOffset < offset + length := by
    refine forall_mem_append.mpr ⟨fun x hx => ?_, forall_mem_singleton.mpr ?_⟩
    · have := hcross x hx p mem_cons_self
      omega
    · exact hlo.trans_le (le_add_right _ _)
  have hkeep : p.keep offset (offset + length) =
      [p.sub p.logicalOffset offset, p.sub (offset + length) p.stop] := by
    rw [Extent.keep, if_neg (by omega), if_pos hlo, if_pos hgt]
  have hcut : p.cut offset (offset + length) = [p.sub offset (offset + length)] := by
    rw [Extent.cut, if_neg (by omega), if_pos hlo, if_pos hgt]
  rw [hlength] at hcreate
  rw [show OldExtent.create used offset (p.blobOffset + (offset - p.logicalOffset)) length
      p.blob = some (oe, used') from hcreate, Option.map_some, hright,
    mod_eq_of_lt (show offset - p.logicalOffset < 2 ^ 32 by omega), ← p.sub_left, append_cons,
    insert_middle hbefore' hall, append_cons]
  refine (punches_behind (fun e he => (hall e he).le) ?_).cons (by rw [hkeep, append_assoc]; rfl)
    (hcut.trans (by rw [hoe]; rfl))
  rw [append_assoc, append_assoc]
  exact counted_middle.mpr (hcount₁.perm (perm_middle.cons _))

/-- Deref head. -/
theorem punches_head (hlo : offset ≤ p.logicalOffset) (hlast : p.logicalOffset < offset + length)
    (hgt : offset + length < p.stop) :
    Punches S held offset length before (p :: rest) old
      ((OldExtent.create used p.logicalOffset p.blobOffset
        (p.length - (p.stop - (offset + length))) p.blob).map fun (oe, used) =>
          ⟨(insert (.make (offset + length) (p.blobOffset + p.length - (p.stop - (offset + length)))
              (p.stop - (offset + length)) p.blob) (before ++ p :: rest)).filter
              (fun e => e.logicalOffset ≠ p.logicalOffset), old ++ [oe], used⟩) := by
  obtain ⟨-, hordr, hcross⟩ := ordered_append.mp hordered
  have hhead := (ordered_cons.mp hordr).1
  have hend : p.stop = p.logicalOffset + p.length := rfl
  have hall : ∀ e ∈ rest, offset + length < e.logicalOffset := fun e he =>
    hgt.trans_le (hhead e he).2
  have hcount' := counted_middle.mp hcount
  have hblob := hcount'.blob_lt mem_cons_self
  obtain ⟨oe, used', hcreate, hoe, hcount₁⟩ :=
    (hcount'.split hlast.le hgt.le).put (show p.logicalOffset < 2 ^ 32 by omega)
  rw [p.sub_left] at hcreate hoe
  have hlength : offset + length - p.logicalOffset =
      p.length - (p.stop - (offset + length)) := by omega
  have hright : Extent.make (offset + length) (p.blobOffset + p.length - (p.stop - (offset + length)))
      (p.stop - (offset + length)) p.blob = p.sub (offset + length) p.stop := by
    simp only [Extent.make, Extent.sub, Extent.mk.injEq, and_true]
    omega
  have hless : ∀ x ∈ before, x.logicalOffset < p.logicalOffset := fun x hx =>
    (hcross x hx p mem_cons_self).1
  have hbefore' : ∀ x ∈ before ++ [p], x.logicalOffset < offset + length :=
    forall_mem_append.mpr ⟨fun x hx => (hless x hx).trans hlast, forall_mem_singleton.mpr hlast⟩
  have hgreater : ∀ x ∈ p.sub (offset + length) p.stop :: rest,
      p.logicalOffset < x.logicalOffset :=
    forall_mem_cons.mpr ⟨hlast, fun x hx => (hhead x hx).1⟩
  have hkeep : p.keep offset (offset + length) = [p.sub (offset + length) p.stop] := by
    rw [Extent.keep, if_neg (by omega), if_neg (by omega), if_neg (by omega)]
  have hcut : p.cut offset (offset + length) = [p.sub p.logicalOffset (offset + length)] := by
    rw [Extent.cut, if_neg (by omega), if_neg (by omega), if_neg (by omega)]
  rw [← hlength, show OldExtent.create used p.logicalOffset p.blobOffset
      (offset + length - p.logicalOffset) p.blob = some (oe, used') from hcreate,
    Option.map_some, hright, append_cons, insert_middle hbefore' hall,
    filter_ne_middle hless hgreater]
  rw [append_cons]
  refine (punches_behind (fun e he => (hall e he).le) ?_).cons (by rw [hkeep])
    (hcut.trans (by rw [hoe, ← p.sub_left]))
  rw [append_assoc]
  exact counted_middle.mpr hcount₁

end Cases

/-- **The loop cuts the range out of the extents.** -/
theorem punchLoop_spec (length : ℕ) (old : List (OldExtent β)) (hordered : Ordered (before ++ rest))
    (hbefore : ∀ e ∈ before, e.logicalOffset < offset ∧ e.stop ≤ offset)
    (hrest : ∀ e ∈ rest, offset ≤ e.logicalOffset ∨ offset < e.stop)
    (hstops : ∀ e ∈ rest, e.stop < 2 ^ 32) (hcount : Counted S used (held ++ (before ++ rest))) :
    Punches S held offset length before rest old
      (punchLoop offset length (offset + length) before old used rest) := by
  induction rest generalizing before old used with
  | nil =>
    rw [append_nil] at hcount
    exact ⟨_, [], rfl, (append_nil before).symm, (append_nil old).symm, rfl, hcount⟩
  | cons p rest ih =>
    have hp := hrest p mem_cons_self
    have hrest' := fun e he => hrest e (mem_cons_of_mem p he)
    have hstop := hstops p mem_cons_self
    have hstops' := fun e he => hstops e (mem_cons_of_mem p he)
    obtain ⟨hordb, hordr, hcross⟩ := ordered_append.mp hordered
    obtain ⟨hhead, hordr'⟩ := ordered_cons.mp hordr
    have hcount' := counted_middle.mp hcount
    have hend : p.stop = p.logicalOffset + p.length := rfl
    rw [punchLoop, Extent.logicalEnd_eq hstop]
    dsimp only
    split_ifs with hge hlo hgt hgt' hle
    · refine punches_behind (fun e he => ?_) hcount
      rcases mem_cons.mp he with rfl | he
      · exact hge
      · exact hge.trans (hhead e he).1.le
    · exact punches_middle hordered hstop hcount hlo hgt
    · -- deref tail
      obtain ⟨oe, used', hcreate, hoe, hcount₁⟩ :=
        ((hcount'.split hlo.le hgt'.le).perm (List.Perm.swap _ _ _)).put (hgt'.trans hstop)
      have hlength : (p.sub offset p.stop).length =
          p.length - (offset - p.logicalOffset) := by
        show p.stop - offset = _
        omega
      have hleft := p.sub_stop hlo.le
      have hbefore' : ∀ e ∈ before ++ [p.sub p.logicalOffset offset],
          e.logicalOffset < offset ∧ e.stop ≤ offset :=
        forall_mem_append.mpr ⟨hbefore, forall_mem_singleton.mpr ⟨hlo, hleft.le⟩⟩
      have hordered' : Ordered ((before ++ [p.sub p.logicalOffset offset]) ++ rest) := by
        rw [append_assoc]
        refine hordered.replace rfl fun e he => ?_
        have := hhead e he
        omega
      rw [hlength] at hcreate
      rw [show OldExtent.create used offset (p.blobOffset + (offset - p.logicalOffset))
          (p.length - (offset - p.logicalOffset)) p.blob = some (oe, used') from hcreate,
        Option.bind_some, ← p.sub_left]
      refine (ih (old ++ [oe]) hordered' hbefore' hrest' hstops'
        (by rw [append_assoc]; exact counted_middle.mpr hcount₁)).cons ?_ ?_
      · rw [Extent.keep, if_neg hge, if_pos hlo, if_neg hgt, if_pos hgt']
      · rw [Extent.cut, if_neg hge, if_pos hlo, if_neg hgt, if_pos hgt', hoe]
        rfl
    · exact absurd (hp.resolve_left (by omega)) hgt'
    · -- deref whole lextent
      obtain ⟨oe, used', hcreate, hoe, hcount₁⟩ :=
        hcount'.put (show p.logicalOffset < 2 ^ 32 by omega)
      rw [hcreate, Option.bind_some]
      refine (ih (old ++ [oe]) (ordered_append.mpr ⟨hordb, hordr', fun e he e' he' =>
        hcross e he e' (mem_cons_of_mem _ he')⟩) hbefore hrest' hstops'
        (by rwa [← append_assoc])).cons ?_ ?_
      · rw [Extent.keep, if_neg hge, if_neg hlo, if_pos hle, append_nil]
      · rw [Extent.cut, if_neg hge, if_neg hlo, if_pos hle, hoe]
    · exact punches_head hordered hstop hcount (by omega) (by omega) (by omega)

/-- **A well-formed extent map**: the extents are in order and within the object, the shards are in
order and the first one starts at zero, and the blobs count the references of the extents, and of
what is held beside them. -/
structure WellFormed (S : Blobs β) (held : List (Extent β)) (m : ExtentMap β) : Prop where
  ordered : Ordered m.extents
  bounded : ∀ e ∈ m.extents, e.stop < objectMaxSize
  shards : m.shards.Pairwise (· < ·)
  first : m.shards.getD 0 0 = 0
  counted : Counted S m.usedInBlob (held ++ m.extents)

theorem WellFormed.stop_lt (hm : WellFormed S held m) (he : e ∈ m.extents) : e.stop < 2 ^ 32 :=
  (hm.bounded e he).trans (by decide)

theorem WellFormed.small (hm : WellFormed S held m) (he : e ∈ m.extents) : e.Small :=
  ⟨hm.stop_lt he, hm.counted.blob_lt (mem_append_right held he)⟩

/-- The hole in a partial map. -/
def hole (f : ℕ → Option (β × ℕ)) (offset length x : ℕ) : Option (β × ℕ) :=
  if offset ≤ x ∧ x < offset + length then none else f x

/-- What is missing in the hole. -/
def filling (f : ℕ → Option (β × ℕ)) (offset length x : ℕ) : Option (β × ℕ) :=
  if offset ≤ x ∧ x < offset + length then f x else none

/-- **`punch_hole`** unmaps exactly the bytes of the range. The old extents do not overlap and map
what was unmapped. -/
theorem punchHole_spec (hm : WellFormed S held m) (hoffset : offset < 2 ^ 32) {length : ℕ}
    (hlast : offset + length < 2 ^ 64) (old : List (OldExtent β)) :
    ∃ m' olds, punchHole m offset length old = some (m', old ++ olds) ∧ WellFormed S held m' ∧
      m'.shards = m.shards ∧
      (∀ x, lookup m'.extents x = hole (lookup m.extents) offset length x) ∧
      (∀ e ∈ m'.extents, offset + length ≤ e.logicalOffset ∨
        e.logicalOffset < offset ∧ e.stop ≤ offset) ∧
      Ordered (olds.map OldExtent.e) ∧
      ∀ x, lookup (olds.map OldExtent.e) x = filling (lookup m.extents) offset length x := by
  have hsplit := seekLextent_append m.extents offset
  obtain ⟨hbefore, hrest⟩ := seekLextent_spec hm.ordered (fun e => hm.stop_lt) hoffset
  set before := (seekLextent m.extents offset).1
  set rest := (seekLextent m.extents offset).2
  have hle : offset ≤ offset + length := le_add_right offset length
  obtain ⟨r, olds, hloop, hextents, holds, hcut, hcount⟩ := punchLoop_spec length old
    (hsplit.symm ▸ hm.ordered) hbefore hrest
    (fun e he => hm.stop_lt (hsplit ▸ mem_append_right before he)) (hsplit.symm ▸ hm.counted)
  -- nothing is cut out of the extents before the iterator
  have hkeep : r.extents = m.extents.flatMap (Extent.keep offset (offset + length)) := by
    rw [hextents, ← hsplit, flatMap_append]
    congr 1
    rw [flatMap_congr fun e he => (keep_cut_of_end_le hle (hbefore e he).1 (hbefore e he).2).1,
      flatMap_singleton']
  have hcut' : olds.map OldExtent.e =
      m.extents.flatMap (Extent.cut offset (offset + length)) := by
    rw [hcut, ← hsplit, flatMap_append, flatMap_eq_nil_iff.mpr fun e he =>
      (keep_cut_of_end_le hle (hbefore e he).1 (hbefore e he).2).2, nil_append]
  have hordered : Ordered r.extents := hkeep ▸
    ordered_flatMap (ordered_keep hle) (fun e e' => isPiece_of_mem_keep hle) hm.ordered
  have hordered' : Ordered (olds.map OldExtent.e) := hcut' ▸
    ordered_flatMap ordered_cut (fun e e' => isPiece_of_mem_cut hle) hm.ordered
  refine ⟨{ m with extents := r.extents, usedInBlob := r.usedInBlob }, olds, ?_,
    ⟨hordered, fun e he => ?_, hm.shards, hm.first, hcount⟩, rfl, fun x => ?_, fun e he => ?_,
    hordered', fun x => ?_⟩
  · rw [punchHole, mod_eq_of_lt hlast, hloop, Option.map_some, holds]
  · dsimp only at he
    rw [hkeep] at he
    obtain ⟨e₀, he₀, he⟩ := mem_flatMap.mp he
    exact (isPiece_of_mem_keep hle he).2.1.trans_lt (hm.bounded e₀ he₀)
  · refine Option.ext fun (b, y) => ?_
    rw [lookup_eq_some_iff hordered, hkeep, maps_flatMap, hole]
    simp only [maps_keep hle]
    split
    · next hx => simp [hx]
    · rename_i hx
      rw [lookup_eq_some_iff hm.ordered]
      simp only [hx, not_false_eq_true, and_true]
      rfl
  · dsimp only at he
    rw [hkeep] at he
    obtain ⟨e₀, -, he⟩ := mem_flatMap.mp he
    exact outside_of_mem_keep he
  · refine Option.ext fun (b, y) => ?_
    rw [lookup_eq_some_iff hordered', hcut', maps_flatMap, filling]
    simp only [maps_cut]
    split
    · rename_i hx
      rw [lookup_eq_some_iff hm.ordered]
      simp only [hx, and_true]
      rfl
    · next hx => simp [hx]

end Punch

/-! ## `set_lextent` -/

/-- **`seek_shard`** finds the shard of an offset. -/
theorem seekShardLoop_spec {offset : ℕ} (fuel : ℕ) {left right : ℕ} (hfuel : right ≤ left + fuel)
    (hlt : left < right) (hright : right ≤ shards.length) (hleft : shards.getD left 0 ≤ offset)
    (hend : right = shards.length ∨ offset < shards.getD right 0) :
    ∃ s, seekShardLoop shards offset fuel left right = some s ∧ s < shards.length ∧
      shards.getD s 0 ≤ offset ∧ (s + 1 = shards.length ∨ offset < shards.getD (s + 1) 0) := by
  induction fuel generalizing left right with
  | zero => omega
  | succ fuel ih =>
    rw [seekShardLoop, if_pos hlt]
    dsimp only
    set mid := left + (right - left) / 2
    have hmid : left ≤ mid ∧ mid < right := by omega
    split_ifs with hge hnext
    · refine ⟨mid, rfl, by omega, hge, ?_⟩
      omega
    · rw [not_or] at hnext
      refine ih (by omega) ?_ hright (by omega) hend
      -- the shard at the right end starts behind the offset
      refine lt_of_le_of_ne (by omega) fun heq => ?_
      rw [heq] at hnext
      omega
    · refine ih (by omega) ?_ (by omega) hleft (.inr (by omega))
      refine lt_of_le_of_ne hmid.1 fun heq => ?_
      rw [← heq] at hge
      omega

theorem spansShard_isSome (hfirst : shards.getD 0 0 = 0) (offset length : ℕ) :
    ∃ spans, spansShard shards offset length = some spans := by
  rw [spansShard]
  split
  · exact ⟨false, rfl⟩
  · rename_i hne
    have hpos := length_pos_of_ne_nil hne
    obtain ⟨s, hs, -⟩ := seekShardLoop_spec shards.length (le_add_left _ 0) hpos le_rfl
      (hfirst.trans_le (zero_le offset)) (.inl rfl)
    exact ⟨_, by rw [seekShard, hs, Option.map_some]⟩

section Set

variable [DecidableEq β] {S : Blobs β}

/-- No extent starts in a range, and none reaches into it. -/
def Hole (m : ExtentMap β) (offset length : ℕ) : Prop :=
  ∀ e ∈ m.extents, offset + length ≤ e.logicalOffset ∨
    e.logicalOffset < offset ∧ e.stop ≤ offset

/-- An extent is put into a hole, with the references that were held for it. -/
theorem WellFormed.insert (hm : WellFormed S [e] m) (hhole : Hole m e.logicalOffset e.length)
    (hend : e.stop < objectMaxSize) :
    WellFormed S [] { m with extents := insert e m.extents } ∧
      ∀ x, lookup (ExtentMap.insert e m.extents) x =
        if e.logicalOffset ≤ x ∧ x < e.stop then
          some (e.blob, e.blobOffset + (x - e.logicalOffset))
        else lookup m.extents x := by
  by_cases htaken : ∃ x ∈ m.extents, x.logicalOffset = e.logicalOffset
  · -- only an extent without bytes fits in before one that starts there
    obtain ⟨x, hx, heq⟩ := htaken
    have hzero : e.length = 0 := by
      have := hhole x hx
      omega
    rw [insert_of_mem hm.ordered hx heq]
    refine ⟨⟨hm.ordered, hm.bounded, hm.shards, hm.first, hm.counted.of_length_zero hzero⟩,
      fun y => ?_⟩
    rw [if_neg (by rw [Extent.stop]; omega)]
  · push Not at htaken
    obtain ⟨hsplit, hbefore, hfrom⟩ := lowerBound_spec hm.ordered e.logicalOffset
    set l := (lowerBound m.extents e.logicalOffset).1
    set r := (lowerBound m.extents e.logicalOffset).2
    have hl : ∀ x ∈ l, x ∈ m.extents := fun x hx => hsplit ▸ mem_append_left r hx
    have hr : ∀ x ∈ r, x ∈ m.extents := fun x hx => hsplit ▸ mem_append_right l hx
    have hafter : ∀ x ∈ r, e.logicalOffset < x.logicalOffset := fun x hx =>
      lt_of_le_of_ne (hfrom x hx) (htaken x (hr x hx)).symm
    have hinsert : ExtentMap.insert e m.extents = l ++ e :: r := by
      rw [← hsplit, insert_middle hbefore hafter]
    obtain ⟨hordl, hordr, hcross⟩ := ordered_append.mp (hsplit.symm ▸ hm.ordered)
    have hordered : Ordered (l ++ e :: r) := by
      rw [ordered_append, ordered_cons]
      refine ⟨hordl, ⟨fun x hx => ⟨hafter x hx, ?_⟩, hordr⟩, fun x hx y hy => ?_⟩
      · have := hhole x (hr x hx)
        have := hafter x hx
        rw [Extent.stop]
        omega
      · rcases mem_cons.mp hy with rfl | hy
        · have := hhole x (hl x hx)
          have := hbefore x hx
          omega
        · exact hcross x hx y hy
    rw [hinsert]
    refine ⟨⟨hordered, ?_, hm.shards, hm.first, ?_⟩, fun x => ?_⟩
    · exact forall_mem_append.mpr ⟨fun x hx => hm.bounded x (hl x hx),
        forall_mem_cons.mpr ⟨hend, fun x hx => hm.bounded x (hr x hx)⟩⟩
    · have hcounted := hm.counted
      rw [← hsplit] at hcounted
      exact hcounted.perm perm_middle
    · split
      · rename_i hx
        exact (lookup_eq_some_iff hordered).mpr ⟨e, by simp, hx.1, hx.2, rfl, rfl⟩
      · rename_i hx
        refine lookup_eq_of_maps_iff hordered hm.ordered fun b y => ?_
        have hnot : ¬ e.Maps x b y := fun h => hx ⟨h.1, h.2.1⟩
        rw [← hsplit, maps_append, maps_append, maps_cons, or_iff_right hnot]

/-- The range that is mapped, over what was mapped before. -/
def mapped (f : ℕ → Option (β × ℕ)) (e : Extent β) (x : ℕ) : Option (β × ℕ) :=
  if e.logicalOffset ≤ x ∧ x < e.stop then
    some (e.blob, e.blobOffset + (x - e.logicalOffset))
  else f x

/-- What `set_lextent` needs of its arguments: the range is one of the object, and the bytes are
bytes of the blob. -/
def Fits (S : Blobs β) (e : Extent β) : Prop :=
  e.stop < objectMaxSize ∧ (S.blob e.blob).logicalLength ≠ 0 ∧
    e.blobOffset + e.length ≤ (S.blob e.blob).logicalLength

/-- The counters of the blob have room for one more extent, beside all that are in the map. -/
def HasRoom (m : ExtentMap β) (e : Extent β) : Prop :=
  e.length + ((refs m.extents e.blob).map Prod.snd).sum < 2 ^ 32

omit [DecidableEq β] in
theorem Fits.small (h : Fits S e) : e.Small :=
  ⟨h.1.trans (by decide), h.2.2.trans_lt (S.blob e.blob).logicalLength_lt⟩

/-- After the hole is punched: the extent is inserted, and perhaps the map is to be resharded. -/
theorem setLextent_finish (hm : WellFormed S [e] m) (hhole : Hole m e.logicalOffset e.length)
    (hend : e.stop < objectMaxSize) (old : Option (List (OldExtent β))) :
    ∃ m', (spansShard m.shards e.logicalOffset e.length).map (fun spans =>
        (if spans = true then requestReshard { m with extents := ExtentMap.insert e m.extents }
            e.logicalOffset e.logicalEnd
          else { m with extents := ExtentMap.insert e m.extents }, old)) = some (m', old) ∧
      WellFormed S [] m' ∧ m'.shards = m.shards ∧
      ∀ x, lookup m'.extents x = mapped (lookup m.extents) e x := by
  obtain ⟨spans, hspans⟩ := spansShard_isSome hm.first e.logicalOffset e.length
  obtain ⟨hwf, hlookup⟩ := hm.insert hhole hend
  rw [hspans, Option.map_some]
  have hreshard : ∀ (m₁ : ExtentMap β) (first last : ℕ), ∃ begin_ end_, requestReshard m₁ first last =
      { m₁ with needsReshardBegin := begin_, needsReshardEnd := end_ } := by
    intro m₁ first last
    rw [requestReshard]
    split_ifs <;> exact ⟨_, _, rfl⟩
  cases spans with
  | false => exact ⟨_, rfl, hwf, rfl, hlookup⟩
  | true =>
    obtain ⟨begin_, end_, heq⟩ := hreshard { m with extents := ExtentMap.insert e m.extents }
      e.logicalOffset e.logicalEnd
    rw [if_pos rfl, heq]
    exact ⟨_, rfl, ⟨hwf.ordered, hwf.bounded, hwf.shards, hwf.first, hwf.counted⟩, rfl, hlookup⟩

/-- **`set_lextent`** maps exactly its range to the blob; the old extents map what was mapped there
before. -/
theorem setLextent_spec (hm : WellFormed S [] m) (hmin : 0 < S.minAllocSize) (he : Fits S e)
    (hroom : HasRoom m e) (old : List (OldExtent β)) :
    ∃ m' olds, setLextent S m e.logicalOffset e.blobOffset e.length e.blob (some old) =
        some (m', some (old ++ olds)) ∧ WellFormed S [] m' ∧ m'.shards = m.shards ∧
      (∀ x, lookup m'.extents x = mapped (lookup m.extents) e x) ∧
      Ordered (olds.map OldExtent.e) ∧
      ∀ x, lookup (olds.map OldExtent.e) x =
        filling (lookup m.extents) e.logicalOffset e.length x := by
  have hmake := he.small.make_eq
  obtain ⟨hend, hpos, hle⟩ := he
  obtain ⟨used, hget, hcount⟩ := hm.counted.get hmin hle hpos hroom
  have hm₁ : WellFormed S [e] { m with usedInBlob := used } :=
    ⟨hm.ordered, hm.bounded, hm.shards, hm.first, hcount⟩
  have hoffset : e.logicalOffset < 2 ^ 32 ∧ e.logicalOffset + e.length < 2 ^ 64 := by
    rw [Extent.stop, objectMaxSize] at hend
    omega
  obtain ⟨m₂, olds, hpunch, hm₂, hshards, hlookup, hhole, hordered, holds⟩ :=
    punchHole_spec hm₁ hoffset.1 hoffset.2 old
  obtain ⟨m', hfinish, hm', hshards', hlookup'⟩ :=
    setLextent_finish hm₂ hhole hend (some (old ++ olds))
  refine ⟨m', olds, ?_, hm', hshards'.trans hshards, fun x => ?_, hordered, holds⟩
  · rw [setLextent, if_neg hpos, hmake]
    dsimp only
    rw [hget, Option.bind_some, punchIf, hpunch, Option.map_some, Option.bind_some]
    exact hfinish
  · rw [hlookup', mapped, mapped, hlookup, hole]
    split
    · rfl
    · next hx => exact if_neg hx

/-- Into a hole, `set_lextent` maps its range without a list for old extents. -/
theorem setLextent_hole_spec (hm : WellFormed S [] m) (hmin : 0 < S.minAllocSize) (he : Fits S e)
    (hroom : HasRoom m e) (hhole : Hole m e.logicalOffset e.length) :
    ∃ m', setLextent S m e.logicalOffset e.blobOffset e.length e.blob none = some (m', none) ∧
      WellFormed S [] m' ∧ m'.shards = m.shards ∧
      ∀ x, lookup m'.extents x = mapped (lookup m.extents) e x := by
  have hmake := he.small.make_eq
  obtain ⟨hend, hpos, hle⟩ := he
  obtain ⟨used, hget, hcount⟩ := hm.counted.get hmin hle hpos hroom
  have hm₁ : WellFormed S [e] { m with usedInBlob := used } :=
    ⟨hm.ordered, hm.bounded, hm.shards, hm.first, hcount⟩
  obtain ⟨m', hfinish, hm', hshards, hlookup⟩ := setLextent_finish hm₁ hhole hend none
  refine ⟨m', ?_, hm', hshards, hlookup⟩
  rw [setLextent, if_neg hpos, hmake]
  dsimp only
  rw [hget, Option.bind_some, punchIf, Option.bind_some]
  exact hfinish

end Set

/-! ## `compress_extent_map` -/

/-- Two extents that continue each other become one, and no shard starts behind the start of the
first one and not behind that of the second. -/
inductive MergeStep (shards : List ℕ) : List (Extent β) → List (Extent β) → Prop
  | merge {before rest : List (Extent β)} {p n : Extent β}
      (hend : p.stop = n.logicalOffset) (hblob : p.blob = n.blob)
      (hoffset : p.blobOffset + p.length = n.blobOffset)
      (hshards : ∀ s ∈ shards, ¬ (p.logicalOffset < s ∧ s ≤ n.logicalOffset)) :
      MergeStep shards (before ++ p :: n :: rest)
        (before ++ { p with length := p.length + n.length } :: rest)

abbrev Merges (shards : List ℕ) : List (Extent β) → List (Extent β) → Prop :=
  Relation.ReflTransGen (MergeStep shards)

theorem Merges.append_left (before : List (Extent β)) {l l' : List (Extent β)}
    (h : Merges shards l l') : Merges shards (before ++ l) (before ++ l') := by
  induction h with
  | refl => exact Relation.ReflTransGen.refl
  | tail _ hstep ih =>
    refine ih.tail ?_
    cases hstep with
    | merge hend hblob hoffset hshards =>
      rw [← append_assoc, ← append_assoc]
      exact .merge hend hblob hoffset hshards

theorem stepLeft_spec {fp : List (Extent β) × List (Extent β)} (hne : fp.1 ++ fp.2 ≠ []) :
    ∃ before p rest, stepLeft fp = (before, p :: rest) ∧ before ++ p :: rest = fp.1 ++ fp.2 := by
  rw [stepLeft]
  cases hlast : fp.1.getLast? with
  | none =>
    rw [getLast?_eq_none_iff] at hlast
    rw [hlast, nil_append] at hne ⊢
    obtain ⟨p, rest, hcons⟩ := exists_cons_of_ne_nil hne
    exact ⟨[], p, rest, Prod.ext hlast hcons, hcons.symm⟩
  | some e => exact ⟨_, _, _, rfl, dropLast_append_cons hlast⟩

section Compress

variable [DecidableEq β] {S : Blobs β}

/-- **The loops merge extents, and never over the start of a shard.** The shards that the loops have
passed start before `p` or where it starts. -/
theorem compressLoop_spec {passed pshard : List ℕ} (last : ℕ) (head : Bool) (p : Extent β)
    (hsplit : passed ++ pshard = shards)
    (hshards : shards.Pairwise (· < ·)) (hpassed : ∀ s ∈ passed, s ≤ p.logicalOffset)
    (hordered : Ordered (p :: rest)) (hsmall : ∀ e ∈ p :: rest, e.Small)
    (hlt : ∀ e ∈ rest, e.logicalOffset < objectMaxSize) :
    ∃ l removed, compressLoop last head pshard p rest = some (l, removed) ∧
      l.length + removed = rest.length + 1 ∧ Merges shards (p :: rest) l := by
  induction rest generalizing passed pshard p head with
  | nil => exact ⟨_, _, rfl, rfl, Relation.ReflTransGen.refl⟩
  | cons n rest ih =>
    obtain ⟨hhead, htail⟩ := ordered_cons.mp hordered
    obtain ⟨hn, htail'⟩ := ordered_cons.mp htail
    have hpn := hhead n mem_cons_self
    have hlt' := fun e he => hlt e (mem_cons_of_mem n he)
    have hsmall' := fun e he => hsmall e (mem_cons_of_mem p he)
    -- the next shard is the first of those that are not passed
    have hnext : ∀ s ∈ pshard, shardEnd pshard ≤ s := by
      rw [← hsplit, pairwise_append] at hshards
      intro s hs
      cases pshard with
      | nil => exact absurd hs not_mem_nil
      | cons s₀ pshard =>
        rcases mem_cons.mp hs with rfl | hs
        · exact le_rfl
        · exact ((pairwise_cons.mp hshards.2.1).1 s hs).le
    obtain ⟨hpstop, hpblob⟩ := hsmall p mem_cons_self
    rw [compressLoop, Extent.logicalEnd_eq hpstop, mod_eq_of_lt hpblob]
    split_ifs with hstop hmerge hge hnil
    · exact ⟨_, _, rfl, rfl, Relation.ReflTransGen.refl⟩
    · obtain ⟨hend, hblob, hoffset, hbefore⟩ := hmerge
      have hordered' : Ordered ({ p with length := p.length + n.length } :: rest) := by
        have hsub : Ordered ([] ++ p :: rest) := hordered.sublist (by simp)
        refine hsub.replace rfl fun e he => ?_
        have := (hn e he).2
        rw [Extent.stop] at hend this ⊢
        dsimp only
        omega
      obtain ⟨hnstop, hnblob⟩ := hsmall' n mem_cons_self
      have hsum : p.length + n.length < 2 ^ 32 := by omega
      have hsmall₁ : Extent.Small { p with length := p.length + n.length } := by
        rw [Extent.stop] at hend hnstop
        constructor
        · show p.logicalOffset + (p.length + n.length) < 2 ^ 32
          omega
        · show p.blobOffset + (p.length + n.length) < 2 ^ 32
          omega
      obtain ⟨l, removed, hloop, hlength, hmerges⟩ :=
        ih false { p with length := p.length + n.length } hsplit hpassed hordered'
          (forall_mem_cons.mpr ⟨hsmall₁, fun e he => hsmall' e (mem_cons_of_mem n he)⟩) hlt'
      refine ⟨l, removed + 1, by rw [mod_eq_of_lt hsum, hloop, Option.map_some], by
        rw [length_cons]; omega, ?_⟩
      refine Relation.ReflTransGen.head (show MergeStep shards ([] ++ p :: n :: rest) ([] ++ _) from
        .merge hend hblob hoffset ?_) hmerges
      rintro s hs ⟨hps, hsn⟩
      rw [← hsplit, mem_append] at hs
      rcases hs with hs | hs
      · exact absurd (hpassed s hs) (by omega)
      · exact absurd (hnext s hs) (by omega)
    · have := hlt n mem_cons_self
      rw [hnil, shardEnd] at hge
      omega
    · -- one shard is passed
      obtain ⟨s, pshard', rfl⟩ := exists_cons_of_ne_nil hnil
      have hpassed' : ∀ s' ∈ passed ++ [s], s' ≤ n.logicalOffset := forall_mem_append.mpr
        ⟨fun s' hs' => (hpassed s' hs').trans hpn.1.le, forall_mem_singleton.mpr hge⟩
      have hsplit' : (passed ++ [s]) ++ pshard' = shards := by
        rw [append_assoc]
        exact hsplit
      obtain ⟨l, removed, hloop, hlength, hmerges⟩ := ih true n hsplit' hpassed' htail hsmall' hlt'
      refine ⟨p :: l, removed, ?_, ?_, hmerges.append_left [p]⟩
      · rw [Option.bind_some, tail_cons, hloop, Option.map_some]
      · rw [length_cons, length_cons]
        omega
    · obtain ⟨l, removed, hloop, hlength, hmerges⟩ :=
        ih true n hsplit (fun s hs => (hpassed s hs).trans hpn.1.le) htail hsmall' hlt'
      refine ⟨p :: l, removed, ?_, ?_, hmerges.append_left [p]⟩
      · rw [Option.bind_some, hloop, Option.map_some]
      · rw [length_cons, length_cons]
        omega

/-- What a merge keeps: the order, the references and the bytes. -/
theorem WellFormed.mergeStep {l : List (Extent β)} (hm : WellFormed S [] m)
    (h : MergeStep shards m.extents l) :
    WellFormed S [] { m with extents := l } ∧ ∀ x, lookup l x = lookup m.extents x := by
  obtain ⟨hordered, hbounded, hshards, hfirst, hcounted⟩ := hm
  generalize m.extents = l₀ at *
  cases h with
  | @merge before rest p n hend hblob hoffset _ =>
    have hend' : Extent.stop { p with length := p.length + n.length } = n.stop := by
      rw [Extent.stop, Extent.stop, ← hend, Extent.stop]
      exact (add_assoc _ _ _).symm
    obtain ⟨-, htail⟩ := ordered_cons.mp (ordered_append.mp hordered).2.1
    have hordered' : Ordered (before ++ { p with length := p.length + n.length } :: rest) := by
      have hsub : Ordered (before ++ p :: rest) := hordered.sublist (by simp)
      exact hsub.replace rfl fun e he => hend'.trans_le ((ordered_cons.mp htail).1 e he).2
    refine ⟨⟨hordered', fun e he => ?_, hshards, hfirst, ?_⟩, fun x => ?_⟩
    · rcases mem_append.mp he with he | he
      · exact hbounded e (mem_append_left _ he)
      · rcases mem_cons.mp he with rfl | he
        · rw [hend']
          exact hbounded n (by simp)
        · exact hbounded e (by simp [he])
    · have hfirst' : Counted S m.usedInBlob (p :: n :: (before ++ rest)) :=
        hcounted.perm (perm_middle.trans (perm_middle.cons p)).symm
      exact (hfirst'.merge hblob hoffset).perm perm_middle
    · refine lookup_eq_of_maps_iff hordered' hordered fun b y => ?_
      rw [maps_append, maps_append, maps_cons, maps_cons, maps_cons,
        Extent.maps_merge hend hblob hoffset, or_assoc]

/-- **`compress_extent_map`** changes no byte, and merges extents only within a shard. -/
theorem compressExtentMap_spec (hm : WellFormed S [] m) (offset length : ℕ) :
    ∃ m' removed, compressExtentMap m offset length = some (m', removed) ∧ WellFormed S [] m' ∧
      m'.shards = m.shards ∧ Merges m.shards m.extents m'.extents ∧
      m'.extents.length + removed = m.extents.length ∧
      ∀ x, lookup m'.extents x = lookup m.extents x := by
  -- the loops start at some extent of the map
  obtain ⟨l, removed, hcompress, hmerges, hlength⟩ : ∃ l removed,
      compressExtentMap m offset length = some ({ m with extents := l }, removed) ∧
        Merges m.shards m.extents l ∧ l.length + removed = m.extents.length := by
    rw [compressExtentMap]
    split
    · exact ⟨m.extents, 0, rfl, Relation.ReflTransGen.refl, rfl⟩
    · rename_i hne
      obtain ⟨before, p, rest, hback, hsplit⟩ := stepLeft_spec
        ((seekLextent_append m.extents offset).symm ▸ hne)
      rw [seekLextent_append] at hsplit
      have hmem : ∀ e ∈ p :: rest, e ∈ m.extents := fun e he =>
        hsplit ▸ mem_append_right before he
      obtain ⟨l, removed, hloop, hlength, hmerges⟩ := compressLoop_spec ((offset + length) % 2 ^ 64) true p
        (takeWhile_append_dropWhile (p := fun s => p.logicalOffset ≥ s) (l := m.shards))
        hm.shards (fun s hs => by simpa using all_eq_true.mp all_takeWhile s hs)
        (ordered_append.mp (hsplit.symm ▸ hm.ordered)).2.1 (fun e he => hm.small (hmem e he))
        (fun e he => (le_add_right _ _).trans_lt (hm.bounded e (hmem e (mem_cons_of_mem p he))))
      rw [hback]
      dsimp only
      rw [hloop, Option.map_some]
      refine ⟨before ++ l, removed, rfl, ?_, ?_⟩
      · rw [← hsplit]
        exact hmerges.append_left before
      · rw [← hsplit, length_append, length_append, length_cons]
        omega
  obtain ⟨hm', hlookup⟩ : WellFormed S [] { m with extents := l } ∧
      ∀ x, lookup l x = lookup m.extents x := by
    clear hcompress hlength
    induction hmerges with
    | refl => exact ⟨hm, fun x => rfl⟩
    | tail _ hstep ih =>
      obtain ⟨hwf, hlookup⟩ := ih.1.mergeStep hstep
      exact ⟨hwf, fun x => (hlookup x).trans (ih.2 x)⟩
  exact ⟨_, removed, hcompress, hm', rfl, hmerges, hlength, hlookup⟩

end Compress

/-! ## Sequences of operations -/

section Runs

variable [DecidableEq β]

/-- What is done to an extent map. `set_lextent` is given a list for the old extents, or none. -/
inductive Op (β : Type)
  | punchHole (offset length : ℕ)
  | setLextent (e : Extent β) (punch : Bool)
  | compressExtentMap (offset length : ℕ)

/-- One operation on the map and the list of old extents; `none` if an assertion fails. -/
def step (S : Blobs β) (s : ExtentMap β × List (OldExtent β)) :
    Op β → Option (ExtentMap β × List (OldExtent β))
  | .punchHole offset length => punchHole s.1 offset length s.2
  | .setLextent e punch =>
    (setLextent S s.1 e.logicalOffset e.blobOffset e.length e.blob
      (if punch then some s.2 else none)).map fun r => (r.1, r.2.getD s.2)
  | .compressExtentMap offset length =>
    (compressExtentMap s.1 offset length).map fun r => (r.1, s.2)

/-- What the callers see to. Without a list for the old extents they have punched the hole. -/
def Permitted (S : Blobs β) (s : ExtentMap β × List (OldExtent β)) : Op β → Prop
  | .punchHole offset length => offset < 2 ^ 32 ∧ offset + length < 2 ^ 64
  | .setLextent e punch =>
    Fits S e ∧ HasRoom s.1 e ∧ (punch = true ∨ Hole s.1 e.logicalOffset e.length)
  | .compressExtentMap _ _ => True

/-- **The counts of a blob** are the bytes of the extents that refer to it, all together and in each
unit. -/
structure CountsBytes (S : Blobs β) (m : ExtentMap β) : Prop where
  bytes : ∀ b, (m.usedInBlob b).getReferencedBytes = ((refs m.extents b).map Prod.snd).sum
  units : ∀ b, (m.usedInBlob b).numAu ≠ 0 → ∀ i < (m.usedInBlob b).numAu,
    (m.usedInBlob b).bytesPerAu.getD i 0 =
      UseTracker.sumCommon ((S.blob b).getReleaseSize S.minAllocSize) i (refs m.extents b)

variable {S : Blobs β}

theorem WellFormed.countsBytes (hm : WellFormed S [] m) : CountsBytes S m :=
  ⟨fun b => (hm.counted b).getReferencedBytes, fun b hnum _ hi =>
    (hm.counted b).getD_bytesPerAu hnum hi⟩

/-- No assertion fails, and the map stays well formed. -/
theorem WellFormed.step (hs : WellFormed S [] s.1) (hmin : 0 < S.minAllocSize) {op : Op β}
    (hop : Permitted S s op) : ∃ t, step S s op = some t ∧ WellFormed S [] t.1 := by
  cases op with
  | punchHole offset length =>
    obtain ⟨m', olds, hpunch, hm', -⟩ := punchHole_spec hs hop.1 hop.2 s.2
    exact ⟨_, hpunch, hm'⟩
  | setLextent e punch =>
    obtain ⟨hfits, hroom, hhole⟩ := hop
    rw [ExtentMap.step]
    cases punch with
    | true =>
      obtain ⟨m', olds, hset, hm', -⟩ := setLextent_spec hs hmin hfits hroom s.2
      rw [if_pos rfl, hset]
      exact ⟨_, rfl, hm'⟩
    | false =>
      obtain ⟨m', hset, hm', -⟩ :=
        setLextent_hole_spec hs hmin hfits hroom (hhole.resolve_left Bool.false_ne_true)
      rw [if_neg Bool.false_ne_true, hset]
      exact ⟨_, rfl, hm'⟩
  | compressExtentMap offset length =>
    obtain ⟨m', removed, hcompress, hm', -⟩ := compressExtentMap_spec hs offset length
    rw [ExtentMap.step, hcompress]
    exact ⟨_, rfl, hm'⟩

/-- **Sequences of operations** keep the map well formed. -/
theorem run_wellFormed (hs : WellFormed S [] s.1) (hmin : 0 < S.minAllocSize) {ops : List (Op β)}
    (hops : Transition.Along (ExtentMap.step S) (Permitted S) ops s) :
    ∃ t, Transition.run (ExtentMap.step S) ops s = some t ∧ WellFormed S [] t.1 :=
  Transition.run_of_along (P := fun s => WellFormed S [] s.1) (fun _ _ hs hop => hs.step hmin hop)
    hops hs

/-- **The algebra of writes.** In a well-formed map `punch_hole` unmaps its range and nothing else,
and the old extents that it appends map what was unmapped; `set_lextent` maps its range to the bytes
of the blob and nothing else; `compress_extent_map` changes no byte and merges no extents over the
start of a shard. After every sequence of these operations the blobs count the bytes of the extents
that refer to them. -/
theorem write_algebra {m : ExtentMap β} (hmin : 0 < S.minAllocSize) (hm : WellFormed S [] m) :
    (∀ offset length old, offset < 2 ^ 32 → offset + length < 2 ^ 64 →
      ∃ m' olds, punchHole m offset length old = some (m', old ++ olds) ∧ Ordered m'.extents ∧
        (∀ x, lookup m'.extents x = hole (lookup m.extents) offset length x) ∧
        Ordered (olds.map OldExtent.e) ∧
        ∀ x, lookup (olds.map OldExtent.e) x = filling (lookup m.extents) offset length x) ∧
    (∀ e old, Fits S e → HasRoom m e →
      ∃ m' olds, setLextent S m e.logicalOffset e.blobOffset e.length e.blob (some old) =
          some (m', some (old ++ olds)) ∧ Ordered m'.extents ∧
        (∀ x, lookup m'.extents x = mapped (lookup m.extents) e x) ∧
        Ordered (olds.map OldExtent.e) ∧
        ∀ x, lookup (olds.map OldExtent.e) x =
          filling (lookup m.extents) e.logicalOffset e.length x) ∧
    (∀ e, Fits S e → HasRoom m e → Hole m e.logicalOffset e.length →
      ∃ m', setLextent S m e.logicalOffset e.blobOffset e.length e.blob none = some (m', none) ∧
        Ordered m'.extents ∧ ∀ x, lookup m'.extents x = mapped (lookup m.extents) e x) ∧
    (∀ offset length, ∃ m' removed, compressExtentMap m offset length = some (m', removed) ∧
      m'.shards = m.shards ∧ Merges m.shards m.extents m'.extents ∧ Ordered m'.extents ∧
      ∀ x, lookup m'.extents x = lookup m.extents x) ∧
    ∀ ops old, Transition.Along (ExtentMap.step S) (Permitted S) ops (m, old) →
      ∃ t, Transition.run (ExtentMap.step S) ops (m, old) = some t ∧ Ordered t.1.extents ∧
        CountsBytes S t.1 := by
  refine ⟨fun offset length old hoffset hlast => ?_, fun e old he hroom => ?_,
    fun e he hroom hhole => ?_,
    fun offset length => ?_, fun ops old hops => ?_⟩
  · obtain ⟨m', olds, hpunch, hm', -, hlookup, -, hordered, holds⟩ :=
      punchHole_spec hm hoffset hlast old
    exact ⟨m', olds, hpunch, hm'.ordered, hlookup, hordered, holds⟩
  · obtain ⟨m', olds, hset, hm', -, hlookup, hordered, holds⟩ := setLextent_spec hm hmin he hroom old
    exact ⟨m', olds, hset, hm'.ordered, hlookup, hordered, holds⟩
  · obtain ⟨m', hset, hm', -, hlookup⟩ := setLextent_hole_spec hm hmin he hroom hhole
    exact ⟨m', hset, hm'.ordered, hlookup⟩
  · obtain ⟨m', removed, hcompress, hm', hshards, hmerges, -, hlookup⟩ :=
      compressExtentMap_spec hm offset length
    exact ⟨m', removed, hcompress, hshards, hmerges, hm'.ordered, hlookup⟩
  · obtain ⟨t, hrun, ht⟩ := run_wellFormed (s := (m, old)) hm hmin hops
    exact ⟨t, hrun, ht.ordered, ht.countsBytes⟩

/-- What an operation is meant to do to the bytes of the object. -/
def Op.effect (f : ℕ → Option (β × ℕ)) : Op β → ℕ → Option (β × ℕ)
  | .punchHole offset length => hole f offset length
  | .setLextent e _ => mapped f e
  | .compressExtentMap _ _ => f

theorem lookup_step (hs : WellFormed S [] s.1) (hmin : 0 < S.minAllocSize) {op : Op β}
    (hop : Permitted S s op) {t : ExtentMap β × List (OldExtent β)} (h : step S s op = some t) :
    lookup t.1.extents = op.effect (lookup s.1.extents) := by
  cases op with
  | punchHole offset length =>
    obtain ⟨m', olds, hpunch, -, -, hlookup, -⟩ := punchHole_spec hs hop.1 hop.2 s.2
    rw [ExtentMap.step, hpunch] at h
    exact Option.some.inj h ▸ funext hlookup
  | setLextent e punch =>
    obtain ⟨hfits, hroom, hhole⟩ := hop
    rw [ExtentMap.step] at h
    cases punch with
    | true =>
      obtain ⟨m', olds, hset, -, -, hlookup, -⟩ := setLextent_spec hs hmin hfits hroom s.2
      rw [if_pos rfl, hset] at h
      exact Option.some.inj h ▸ funext hlookup
    | false =>
      obtain ⟨m', hset, -, -, hlookup⟩ :=
        setLextent_hole_spec hs hmin hfits hroom (hhole.resolve_left Bool.false_ne_true)
      rw [if_neg Bool.false_ne_true, hset] at h
      exact Option.some.inj h ▸ funext hlookup
  | compressExtentMap offset length =>
    obtain ⟨m', removed, hcompress, -, -, -, -, hlookup⟩ := compressExtentMap_spec hs offset length
    rw [ExtentMap.step, hcompress] at h
    exact Option.some.inj h ▸ funext hlookup

/-- **The map refines the bytes of the object.** Whatever extents it has cut, merged and counted on
the way, after every sequence of operations it maps each byte as their effects on a plain function
of the bytes do: the last write or hole over a byte decides. -/
theorem run_refines_bytes (hs : WellFormed S [] s.1) (hmin : 0 < S.minAllocSize) (ops : List (Op β))
    (hops : Transition.Along (ExtentMap.step S) (Permitted S) ops s) :
    ∃ t, Transition.run (ExtentMap.step S) ops s = some t ∧
      lookup t.1.extents = ops.foldl Op.effect (lookup s.1.extents) := by
  have hrun := Transition.history_of_along (P := fun done t => WellFormed S [] t.1 ∧
    lookup t.1.extents = done.foldl Op.effect (lookup s.1.extents)) ?_ [] hops ⟨hs, rfl⟩
  · exact hrun.imp fun t ht => ⟨ht.1, ht.2.2⟩
  · rintro done s' op ⟨hs', hbytes⟩ hop
    obtain ⟨t, hstep, ht⟩ := hs'.step hmin hop
    refine ⟨t, hstep, ht, ?_⟩
    rw [foldl_concat, ← hbytes]
    exact lookup_step hs' hmin hop hstep

end Runs

/-- A store with one blob of two units. -/
def oneBlob : Blobs Unit := ⟨4096, fun _ => ⟨8192, false, false, 0, by decide⟩⟩

/-- An onode without extents, in two shards. -/
def noExtents : ExtentMap Unit := ⟨[], [0, 65536], 0, 0, fun _ => ⟨0, 0, 0, []⟩⟩

theorem noExtents_wellFormed : WellFormed oneBlob [] noExtents :=
  ⟨List.Pairwise.nil, fun e he => absurd he not_mem_nil, by decide, rfl, fun _ => .inr ⟨rfl, rfl⟩⟩

theorem noExtents_permitted (old : List (OldExtent Unit)) :
    Permitted oneBlob (noExtents, old) (.setLextent ⟨65530, 0, 100, ()⟩ true) := by
  refine ⟨⟨?_, ?_, ?_⟩, ?_, .inl rfl⟩
  · decide
  · decide
  · decide
  · show 100 + 0 < 2 ^ 32
    decide

theorem write_algebra_noExtents :
    ∃ t, Transition.run (ExtentMap.step oneBlob)
        [.setLextent ⟨65530, 0, 100, ()⟩ true, .punchHole 65540 10, .compressExtentMap 0 70000]
        (noExtents, []) = some t ∧ Ordered t.1.extents ∧ CountsBytes oneBlob t.1 :=
  (write_algebra (by decide) noExtents_wellFormed).2.2.2.2 _ []
    ⟨noExtents_permitted [], ⟨by decide, by decide⟩, trivial, trivial⟩

/-- A hole is punched into what was written. -/
theorem run_refines_bytes_noExtents :
    let ops : List (Op Unit) := [.setLextent ⟨65530, 0, 100, ()⟩ true, .punchHole 65540 10]
    ∃ t, Transition.run (ExtentMap.step oneBlob) ops (noExtents, []) = some t ∧
      [65539, 65540, 65550].map (lookup t.1.extents) = [some ((), 9), none, some ((), 20)] := by
  intro ops
  obtain ⟨t, hrun, ht⟩ := run_refines_bytes (s := (noExtents, [])) noExtents_wellFormed (by decide)
    ops ⟨noExtents_permitted [], ⟨by decide, by decide⟩, trivial⟩
  exact ⟨t, hrun, by rw [ht]; decide⟩

/-- A store with one compressed blob of almost `2 ^ 32` bytes. -/
def hugeBlob : Blobs Unit := ⟨4096, fun _ => ⟨0xfffffffe, true, false, 0, by decide⟩⟩

/-- **What does not fit is cut off.** An offset is cut off to 32 bits where the extent is sought, and
the end of a range to 64 bits: then an assertion fails, or the range stays mapped. A hole is not punched
into an extent whose end has overflowed. A second extent over one of a huge blob is counted before the
first one is put, and an assertion fails. -/
theorem write_algebra_cut_off :
    (∃ t, Transition.run (ExtentMap.step oneBlob) [.setLextent ⟨10, 0, 10, ()⟩ true]
        (noExtents, []) = some t ∧ t.1.extents = [⟨10, 0, 10, ()⟩] ∧
      (punchHole t.1 (2 ^ 32 + 5) 1 []).isNone ∧
      (punchHole t.1 5 (2 ^ 64 - 1) []).map (fun r => lookup r.1.extents 12) =
        some (some ((), 2))) ∧
    ((Transition.run (ExtentMap.step oneBlob)
        [.setLextent ⟨0xfffffff0, 0, 0x20, ()⟩ true, .punchHole 0xfffffff8 4]
        (noExtents, [])).map fun t => lookup t.1.extents 0xfffffff8) = some (some ((), 8)) ∧
    (Transition.run (ExtentMap.step hugeBlob) [.setLextent ⟨0, 0, 0xfffffffe, ()⟩ true]
        (noExtents, [])).isSome ∧
      (Transition.run (ExtentMap.step hugeBlob)
        [.setLextent ⟨0, 0, 0xfffffffe, ()⟩ true, .setLextent ⟨0, 0, 0xfffffffe, ()⟩ true]
        (noExtents, [])).isNone :=
  ⟨⟨_, rfl, by decide +kernel, by decide +kernel, by decide +kernel⟩, by decide +kernel,
    by decide +kernel, by decide +kernel⟩

end ExtentMap

end Ceph.BlueStore
