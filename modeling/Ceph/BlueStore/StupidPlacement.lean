import Ceph.BlueStore.StupidAllocator
import Ceph.Lib.Transition
import Mathlib.Data.List.TakeWhile

set_option autoImplicit false

/-! # Free extents stay in the bins of their lengths

Whether `-ENOSPC` can be believed depends on where the extents are: `allocate_int` looks above the
bin of the wanted size only for all of it. An extent is placed if its bin is that of its length.
Adding and releasing extents and removing them at the start keep every extent placed. So does an
allocation, but for what the alignment leaves in front of it: this stays in the bin of the extent it
was cut from.

`enospc_truthful_iff` says when `-ENOSPC` can be believed after a run of all operations in which no
allocation leaves a part in front in a bin it does not belong to.
-/

namespace Ceph.BlueStore.Stupid

open List OrdMap

/-! ## Where the intervals of a set come from -/

namespace IntervalSet

variable {s s' : IntervalSet} {start len : ℕ} {e i p : Interval}

/-- The interval that begins at an offset is found there. So is one that has the offset inside,
if no other begins inside it. -/
theorem head?_findInc (hp : p ∈ s.m.entries) (hstart : start = p.1 ∨ p.1 < start ∧
      start < p.1 + p.2 ∧ ∀ f ∈ s.m.entries, f.1 ≤ p.1 ∨ p.1 + p.2 ≤ f.1) :
    (s.findInc start).2.head? = some p := by
  obtain ⟨l, r, hlr⟩ := append_of_mem hp
  obtain ⟨hl, hr⟩ := lt_of_entries_eq hlr
  rw [findInc, find, hlr]
  rcases hstart with rfl | ⟨hlt, hinside, hothers⟩
  · have hbefore : ∀ f ∈ l, decide (f.1 < p.1) = true := fun f hf => decide_eq_true (hl f hf)
    rw [takeWhile_append_of_pos hbefore, dropWhile_append_of_pos hbefore,
      takeWhile_cons_of_neg (by simp), dropWhile_cons_of_neg (by simp), append_nil]
    cases l.getLast? <;> simp
  · -- the extents in front of the offset end with this one
    have hbefore : ∀ f ∈ l ++ [p], decide (f.1 < start) = true := by
      intro f hf
      rcases mem_append.mp hf with hf | hf
      · exact decide_eq_true ((hl f hf).trans hlt)
      · rw [mem_singleton.mp hf]
        exact decide_eq_true hlt
    have hbehind : ∀ f ∈ r, start < f.1 := by
      intro f hf
      rcases hothers f (by simp [hlr, hf]) with hle | hle
      · exact absurd (hr f hf) (not_lt.mpr hle)
      · exact hinside.trans_le hle
    have htake : r.takeWhile (fun f => decide (f.1 < start)) = [] :=
      takeWhile_eq_nil_iff.mpr fun hr => by simpa using (hbehind _ (getElem_mem hr)).le
    have hdrop : r.dropWhile (fun f => decide (f.1 < start)) = r :=
      dropWhile_eq_self_iff.mpr fun hr => by simpa using (hbehind _ (getElem_mem hr)).le
    have hall : (r.head?.all fun f => decide (start < f.1)) = true := by
      cases r with
      | nil => rfl
      | cons f r => simpa using hbehind f mem_cons_self
    rw [append_cons, takeWhile_append_of_pos hbefore, dropWhile_append_of_pos hbefore, htake, hdrop,
      append_nil, getLast?_concat]
    simp [hall, hinside]

theorem mem_of_head?_findInc (h : (s.findInc start).2.head? = some p) : p ∈ s.m.entries := by
  rw [← s.find_append start]
  exact mem_append_right _ (mem_of_mem_head? h)

/-- What is inserted is an interval of the set, at the offset that is returned, and the others
were there before. The interval is no shorter than what was given. -/
theorem insert_spec (h : s.insert start len = some (s', i)) :
    len ≤ i.2 ∧ ∃ m : OrdMap ℕ ℕ, (∀ e ∈ m.entries, e ∈ s.m.entries) ∧ s'.m = m.insert i.1 i.2 := by
  have hput : ∀ {m : OrdMap ℕ ℕ} {k v : ℕ}, len ≤ v → (∀ e ∈ m.entries, e ∈ s.m.entries) →
      some ((⟨s.size + len, m.insert k v⟩ : IntervalSet), (k, v)) = some (s', i) →
      len ≤ i.2 ∧ ∃ m : OrdMap ℕ ℕ, (∀ e ∈ m.entries, e ∈ s.m.entries) ∧
        s'.m = m.insert i.1 i.2 := by
    intro m k v hlen hm heq
    cases heq
    exact ⟨hlen, m, hm, rfl⟩
  have herase : ∀ k, ∀ e ∈ (s.m.erase k).entries, e ∈ s.m.entries :=
    fun k e he => (mem_filter.mp he).1
  unfold insert at h
  dsimp only at h
  split_ifs at h with hzero
  split at h
  · exact hput (le_refl _) (fun _ => id) h
  · split_ifs at h with hbefore hend hfront hgap
    · split at h
      · exact hput (Nat.le_add_left _ _) (fun _ => id) h
      · exact hput (by omega) (herase _) h
    · exact hput (Nat.le_add_right _ _) (herase _) h
    · exact hput (le_refl _) (fun _ => id) h

/-- **Where the intervals after an `erase` come from**: they were there before, or are what is left
of the interval that is found, in front of the erased range or behind it. -/
theorem erase_spec (h : s.erase start len = some s') :
    ∃ p, (s.findInc start).2.head? = some p ∧ p.1 ≤ start ∧ start - p.1 + len ≤ p.2 ∧
      ∀ e ∈ s'.m.entries, e ∈ s.m.entries ∧ e.1 ≠ p.1 ∨
        (e = (p.1, start - p.1) ∧ start ≠ p.1) ∨
        (e = (start + len, p.2 - (start - p.1) - len) ∧ e.2 ≠ 0) := by
  unfold erase at h
  split at h
  · exact nomatch h
  · rename_i p rest hfind
    rw [Option.ite_none_left_eq_some, not_or, not_or, not_lt, not_lt, not_lt] at h
    obtain ⟨⟨-, hle, hlen⟩, h⟩ := h
    obtain rfl := Option.some.inj h
    refine ⟨p, by rw [hfind]; rfl, hle, hlen, ?_⟩
    rintro ⟨k, v⟩ he
    rw [mem_entries_iff] at he
    -- the front, if there is any, is at the offset of the interval
    have hfront : ∀ w, (if start - p.1 ≠ 0 then s.m.insert p.1 (start - p.1)
        else s.m.erase p.1).get k = some w →
        (k, w) ∈ s.m.entries ∧ k ≠ p.1 ∨ ((k, w) = (p.1, start - p.1) ∧ start ≠ p.1) := by
      intro w hw
      split_ifs at hw with hbefore
      · rw [get_insert] at hw
        split_ifs at hw with hk
        · rw [hk, ← Option.some.inj hw]
          exact .inr ⟨rfl, by omega⟩
        · exact .inl ⟨(mem_entries_iff _ _ _).mpr hw, hk⟩
      · rw [get_erase] at hw
        split_ifs at hw with hk
        exact .inl ⟨(mem_entries_iff _ _ _).mpr hw, hk⟩
    dsimp only at he
    by_cases hafter : p.2 - (start - p.1) - len ≠ 0
    · rw [if_pos hafter, get_insert] at he
      by_cases hk : k = start + len
      · rw [if_pos hk] at he
        rw [hk, ← Option.some.inj he]
        exact .inr (.inr ⟨rfl, hafter⟩)
      · rw [if_neg hk] at he
        exact (hfront v he).imp_right .inl
    · rw [if_neg hafter] at he
      exact (hfront v he).imp_right .inl

/-- An interval that is erased as a whole is gone, and nothing else changes. -/
theorem erase_whole (hp : p ∈ s.m.entries) (h : s.erase p.1 p.2 = some s') :
    ∀ e ∈ s'.m.entries, e ∈ s.m.entries ∧ e.1 ≠ p.1 := by
  obtain ⟨q, hq, -, -, hmem⟩ := erase_spec h
  rw [head?_findInc hp (.inl rfl), Option.some.injEq] at hq
  subst hq
  intro e he
  rcases hmem e he with hold | ⟨-, hne⟩ | ⟨rfl, hne⟩
  · exact hold
  · exact absurd rfl hne
  · exact absurd (by simp) hne

theorem mem_of_contains {k : ℕ} (h : s.contains k = some p) :
    p ∈ s.m.entries ∧ p.1 ≤ k ∧ k < p.1 + p.2 := by
  obtain ⟨hhead, hin⟩ := Option.filter_eq_some_iff.mp h
  exact ⟨mem_of_head?_findInc hhead, by simpa using hin⟩

theorem contains_of_mem (hp : p ∈ s.m.entries) (hpos : 0 < p.2) : s.contains p.1 = some p := by
  rw [contains, head?_findInc hp (.inl rfl), Option.filter_some, if_pos (by simpa using hpos)]

end IntervalSet

namespace StupidAllocator

variable {a a' : StupidAllocator} {bin : Fin 10} {s : IntervalSet} {off len : ℕ} {p : Interval}

/-! ## The bin of a length -/

theorem chooseBin_mono (a : StupidAllocator) {l l' : ℕ} (h : l ≤ l') :
    a.chooseBin l ≤ a.chooseBin l' := by
  have hdiv : l / a.blockSize ≤ l' / a.blockSize := Nat.div_le_div_right h
  have hlog := Nat.log_mono_right (b := 2) hdiv
  rw [Fin.le_def]
  simp only [chooseBin, Nat.log2_eq_log_two, Fin.val_ofNat]
  generalize l / a.blockSize = n at *
  generalize l' / a.blockSize = n' at *
  split_ifs <;> omega

/-- **The loop of `_insert_free` ends**: a merged extent only moves up, so that a turn more than
there are bins above changes nothing. -/
theorem insertLoop_succ {turns : ℕ} (hbin : a.chooseBin len = bin) (hturns : 10 ≤ turns + bin.val) :
    insertLoop (turns + 1) a bin off len = insertLoop turns a bin off len := by
  induction turns generalizing a bin off len with
  | zero => exact absurd bin.isLt (by omega)
  | succ turns ih =>
    rw [insertLoop, insertLoop]
    refine Option.bind_congr fun r hr => ?_
    obtain ⟨s, off', len'⟩ := r
    dsimp only
    split_ifs with hsame
    · rfl
    · refine Option.bind_congr fun t _ => ih rfl ?_
      have hle : bin ≤ a.chooseBin len' := hbin ▸ a.chooseBin_mono (IntervalSet.insert_spec hr).1
      have hlt : bin < a.chooseBin len' := lt_of_le_of_ne hle (Ne.symm hsame)
      rw [Fin.lt_def] at hlt
      omega

/-! ## Placement -/

/-- **Every extent is in the bin of its length.** -/
def Placed (a : StupidAllocator) : Prop :=
  ∀ bin, ∀ e ∈ (a.free bin).m.entries, a.chooseBin e.2 = bin

/-- An extent after a bin was replaced is one of the new bin, or of another. -/
theorem mem_setBin {b : Fin 10} {e : Interval} (h : e ∈ ((a.setBin bin s).free b).m.entries) :
    b = bin ∧ e ∈ s.m.entries ∨ b ≠ bin ∧ e ∈ (a.free b).m.entries := by
  by_cases hb : b = bin
  · subst hb
    have hfree : (a.setBin b s).free b = s := Function.update_self ..
    exact .inl ⟨rfl, hfree ▸ h⟩
  · have hfree : (a.setBin bin s).free b = a.free b := Function.update_of_ne hb ..
    exact .inr ⟨hb, hfree ▸ h⟩

theorem placed_setBin (h : a.Placed) (hs : ∀ e ∈ s.m.entries, a.chooseBin e.2 = bin) :
    (a.setBin bin s).Placed := by
  intro b e he
  rcases mem_setBin he with ⟨rfl, hnew⟩ | ⟨-, hold⟩
  · exact hs e hnew
  · exact h b e hold

theorem placed_insertLoop {turns : ℕ} (h : a.Placed)
    (hloop : insertLoop turns a bin off len = some a') : a'.Placed := by
  induction turns generalizing a bin off len with
  | zero => exact nomatch hloop
  | succ turns ih =>
    rw [insertLoop] at hloop
    obtain ⟨⟨s, i⟩, hinsert, hrest⟩ := Option.bind_eq_some_iff.mp hloop
    obtain ⟨-, m, hm, hs⟩ := IntervalSet.insert_spec hinsert
    -- all but the merged extent are those of before
    have hold : ∀ e ∈ s.m.entries, e ≠ i → a.chooseBin e.2 = bin := by
      intro e he hne
      rw [hs] at he
      exact h bin e (hm e ((mem_insertEntry he).resolve_left hne))
    dsimp only at hrest
    split_ifs at hrest with hsame
    · obtain rfl := Option.some.inj hrest
      refine placed_setBin h fun e he => ?_
      by_cases hei : e = i
      · rw [hei]
        exact hsame
      · exact hold e he hei
    · obtain ⟨t, herase, hnext⟩ := Option.bind_eq_some_iff.mp hrest
      refine ih (placed_setBin h fun e he => ?_) hnext
      have hi : i ∈ s.m.entries := by
        rw [hs, mem_entries_iff, get_insert, if_pos rfl]
      obtain ⟨hmem, hne⟩ := IntervalSet.erase_whole hi herase e he
      exact hold e hmem fun heq => hne (heq ▸ rfl)

theorem placed_insertFree (h : a.Placed) (hinsert : a.insertFree off len = some a') : a'.Placed :=
  placed_insertLoop h hinsert

theorem placed_initAddFree (h : a.Placed) (hadd : a.initAddFree off len = some a') :
    a'.Placed := by
  obtain ⟨b, hinsert, hb⟩ := Option.bind_eq_some_iff.mp hadd
  obtain rfl := Option.some.inj hb
  exact fun bin e he => placed_insertFree h hinsert bin e he

/-- A fold of steps that keep the extents placed. -/
theorem placed_foldlM {f : StupidAllocator → Interval → Option StupidAllocator}
    (hf : ∀ a b p, Placed a → f a p = some b → Placed b) {l : List Interval} (h : a.Placed)
    (hfold : l.foldlM f a = some a') : a'.Placed :=
  Transition.invariant_of_run (fun a p b ha hb => hf a b p ha hb) hfold h

theorem placed_release {releaseSet : IntervalSet} (h : a.Placed)
    (hrelease : a.release releaseSet = some a') : a'.Placed :=
  placed_foldlM (fun _ _ _ ha hadd => placed_initAddFree ha hadd) h hrelease

/-! ## Removing at the start -/

theorem placed_erase_key (h : a.Placed) {size : ℤ} {k : ℕ} :
    (a.setBin bin ⟨size, (a.free bin).m.erase k⟩).Placed :=
  placed_setBin h fun e he => h bin e (mem_filter.mp he).1

theorem placed_insert_key (h : a.Placed) {size : ℤ} (hlen : a.chooseBin len = bin) :
    (a.setBin bin ⟨size, (a.free bin).m.insert off len⟩).Placed := by
  refine placed_setBin h fun e he => ?_
  rcases mem_insertEntry he with rfl | he
  · exact hlen
  · exact h bin e he

theorem placed_claimBefore (h : a.Placed) (hclaim : a.claimBefore bin off len = some a') :
    a'.Placed := by
  unfold claimBefore at hclaim
  split_ifs at hclaim with hzero hbin
  · obtain rfl := Option.some.inj hclaim
    exact placed_erase_key h
  · obtain rfl := Option.some.inj hclaim
    exact placed_insert_key h hbin
  · obtain ⟨b, hinsert, hb⟩ := Option.bind_eq_some_iff.mp hclaim
    obtain rfl := Option.some.inj hb
    exact placed_erase_key (placed_insertFree h hinsert)

theorem placed_claimAfter (h : a.Placed) (hclaim : a.claimAfter bin off len = some a') :
    a'.Placed := by
  unfold claimAfter at hclaim
  split_ifs at hclaim with hzero hbin
  · exact Option.some.inj hclaim ▸ h
  · obtain rfl := Option.some.inj hclaim
    exact placed_insert_key h hbin
  · obtain ⟨b, hinsert, hb⟩ := Option.bind_eq_some_iff.mp hclaim
    obtain rfl := Option.some.inj hb
    have hplaced := placed_insertFree h hinsert
    exact placed_setBin hplaced (hplaced bin)

theorem placed_eraseClaiming (h : a.Placed) (herase : a.eraseClaiming bin off len = some a') :
    a'.Placed := by
  unfold eraseClaiming at herase
  split at herase
  · exact nomatch herase
  · dsimp only at herase
    split_ifs at herase
    obtain ⟨b, hbefore, hafter⟩ := Option.bind_eq_some_iff.mp herase
    have hsize : (a.editBin bin fun s => { s with size := s.size - len }).Placed :=
      placed_setBin h (h bin)
    exact placed_claimAfter (placed_claimBefore hsize hbefore) hafter

theorem placed_initRmLoop {bins : List (Fin 10)} {rm rm' : IntervalSet} (h : a.Placed)
    (hloop : initRmLoop bins a rm = some (a', rm')) : a'.Placed := by
  induction bins generalizing a rm with
  | nil =>
    cases hloop
    exact h
  | cons i bins ih =>
    rw [initRmLoop] at hloop
    split_ifs at hloop
    · cases hloop
      exact h
    · obtain ⟨b, hfold, hrest⟩ := Option.bind_eq_some_iff.mp hloop
      obtain ⟨rest, -, hnext⟩ := Option.bind_eq_some_iff.mp hrest
      exact ih (placed_foldlM (fun _ _ _ ha he => placed_eraseClaiming ha he) h hfold) hnext

theorem placed_initRmFree (h : a.Placed) (hrm : a.initRmFree off len = some a') : a'.Placed := by
  obtain ⟨⟨rm, i⟩, -, hloop⟩ := Option.bind_eq_some_iff.mp hrm
  obtain ⟨⟨b, rest⟩, hb, hend⟩ := Option.bind_eq_some_iff.mp hloop
  dsimp only at hend
  split_ifs at hend
  obtain rfl := Option.some.inj hend
  exact fun bin e he => placed_initRmLoop h hb bin e he

/-! ## Allocating -/

/-- Every extent is placed, but for one at an offset of a bin. -/
def PlacedBut (a : StupidAllocator) (bin : Fin 10) (k : ℕ) : Prop :=
  ∀ b, ∀ e ∈ (a.free b).m.entries, a.chooseBin e.2 = b ∨ b = bin ∧ e.1 = k ∧ 0 < e.2

/-- Nothing is done for an offset in front of the exception. -/
theorem demote_of_lt {k i : ℕ} (h : a.PlacedBut bin k) (hi : i < k) : a.demote bin i = some a := by
  unfold demote
  split
  · rfl
  · rename_i off len hcontains
    obtain ⟨hmem, hle, -⟩ := IntervalSet.mem_of_contains hcontains
    rcases h bin _ hmem with hplaced | ⟨-, hk, -⟩
    · exact if_pos hplaced
    · dsimp only at hk hle
      omega

/-- **What is left behind an allocation is placed.** -/
theorem placed_demote {k : ℕ} (h : a.PlacedBut bin k) (hdemote : a.demote bin k = some a') :
    a'.Placed := by
  -- the exception, if there is one, is the extent that is found
  have hfound : ∀ b, ∀ e ∈ (a.free b).m.entries, a.chooseBin e.2 = b ∨
      b = bin ∧ (a.free bin).contains k = some e := by
    intro b e he
    refine (h b e he).imp_right ?_
    rintro ⟨rfl, rfl, hpos⟩
    exact ⟨rfl, IntervalSet.contains_of_mem he hpos⟩
  unfold demote at hdemote
  split at hdemote
  · rename_i hnone
    obtain rfl := Option.some.inj hdemote
    intro b e he
    rcases hfound b e he with hplaced | ⟨-, hsome⟩
    · exact hplaced
    · exact nomatch hnone.symm.trans hsome
  · rename_i off len hcontains
    split_ifs at hdemote with hsame
    · obtain rfl := Option.some.inj hdemote
      intro b e he
      rcases hfound b e he with hplaced | ⟨rfl, hsome⟩
      · exact hplaced
      · rw [← Option.some.inj (hcontains.symm.trans hsome)]
        exact hsame
    · obtain ⟨t, herase, hinsert⟩ := Option.bind_eq_some_iff.mp hdemote
      refine placed_insertFree ?_ hinsert
      have hwhole := IntervalSet.erase_whole (IntervalSet.mem_of_contains hcontains).1 herase
      intro b e he
      rcases mem_setBin he with ⟨rfl, hleft⟩ | ⟨hb, hold⟩
      · obtain ⟨hmem, hne⟩ := hwhole e hleft
        rcases hfound b e hmem with hplaced | ⟨-, hsome⟩
        · exact hplaced
        · exact absurd (by rw [← Option.some.inj (hcontains.symm.trans hsome)]) hne
      · exact (hfound b e hold).resolve_right fun hbad => hb hbad.1

/-- What `allocate_int` may take: an extent that holds all of the wanted size, from the bin of that
size up, or an allocation unit, from there down. -/
def Suffices (a : StupidAllocator) (wantSize allocUnit : ℕ) (bin : Fin 10) (e : Interval) : Prop :=
  a.chooseBin (max allocUnit wantSize) ≤ bin ∧ wantSize ≤ alignedLen e allocUnit ∨
    bin ≤ a.chooseBin (max allocUnit wantSize) ∧ allocUnit ≤ alignedLen e allocUnit

/-- Whether an extent can be cut at the first allocation unit: nothing is left in front, or what is
left belongs to the same bin, where no extent begins inside this one. -/
def FrontFits (a : StupidAllocator) (allocUnit : ℕ) (bin : Fin 10) (e : Interval) : Prop :=
  skewOf e.1 allocUnit = 0 ∨
    skewOf e.1 allocUnit < e.2 ∧ a.chooseBin (skewOf e.1 allocUnit) = bin ∧
      ∀ f ∈ (a.free bin).m.entries, f.1 ≤ e.1 ∨ e.1 + e.2 ≤ f.1

/-- The condition on a call of `allocate_int`. -/
def FrontsFit (a : StupidAllocator) (wantSize allocUnit : ℕ) : Prop :=
  ∀ bin, ∀ e ∈ (a.free bin).m.entries, a.Suffices wantSize allocUnit bin e →
    a.FrontFits allocUnit bin e

instance (a : StupidAllocator) (wantSize allocUnit : ℕ) :
    Decidable (a.FrontsFit wantSize allocUnit) := by
  unfold FrontsFit Suffices FrontFits
  infer_instance

theorem mem_of_searchBins {bins : List (Fin 10)} {part : IntervalSet → List Interval}
    {enough : Interval → Bool} (h : a.searchBins bins part enough = some (bin, p)) :
    bin ∈ bins ∧ p ∈ part (a.free bin) ∧ enough p = true := by
  obtain ⟨b, hb, hfind⟩ := exists_of_findSome?_eq_some h
  obtain ⟨q, hq, heq⟩ := Option.map_eq_some_iff.mp hfind
  cases heq
  exact ⟨hb, mem_of_find?_eq_some hq, find?_some hq⟩

/-- **What the search finds** is a free extent that suffices. -/
theorem suffices_of_search {wantSize allocUnit hint : ℕ}
    (h : a.search wantSize allocUnit hint = some (bin, p)) :
    p ∈ (a.free bin).m.entries ∧ a.Suffices wantSize allocUnit bin p := by
  unfold search at h
  generalize (if hint = 0 then a.lastAlloc else hint) = hint at h
  have hup : ∀ b, b ∈ upFrom (a.chooseBin (max allocUnit wantSize)) ↔
      a.chooseBin (max allocUnit wantSize) ≤ b := fun b => by simp [upFrom]
  have hdown : ∀ b, b ∈ downFrom (a.chooseBin (max allocUnit wantSize)) ↔
      b ≤ a.chooseBin (max allocUnit wantSize) := fun b => by simp [downFrom]
  simp only [Option.or_eq_some_iff] at h
  rw [IntervalSet.mem_hint _ hint]
  rcases h with h | ⟨-, h | ⟨-, h | ⟨-, h⟩⟩⟩ <;>
    obtain ⟨hbin, hmem, henough⟩ := mem_of_searchBins h
  · exact ⟨.inl hmem, .inl ⟨(hup _).mp hbin, by simpa using henough⟩⟩
  · exact ⟨.inr hmem, .inl ⟨(hup _).mp hbin, by simpa using henough⟩⟩
  · exact ⟨.inl hmem, .inr ⟨(hdown _).mp hbin, by simpa using henough⟩⟩
  · exact ⟨.inr hmem, .inr ⟨(hdown _).mp hbin, by simpa using henough⟩⟩

/-- **An allocation keeps the extents placed** if what it leaves in front fits. -/
theorem placed_take {wantSize allocUnit : ℕ} {r : Interval} (h : a.Placed)
    (hp : p ∈ (a.free bin).m.entries) (hfits : a.FrontFits allocUnit bin p)
    (htake : a.take wantSize allocUnit bin p = some (r, a')) : a'.Placed := by
  unfold take at htake
  dsimp only at htake
  generalize min (max allocUnit wantSize) _ % 2 ^ 32 = length at htake
  generalize hskew : skewOf p.1 allocUnit = skew at htake
  obtain ⟨s, herase, hrest⟩ := Option.bind_eq_some_iff.mp htake
  -- the extent that is cut is the one that was found
  obtain ⟨q, hq, -, -, hmem⟩ := IntervalSet.erase_spec herase
  rw [FrontFits, hskew] at hfits
  have hqp : q = p := by
    refine Option.some.inj (hq.symm.trans (IntervalSet.head?_findInc hp ?_))
    rcases Nat.eq_zero_or_pos skew with hzero | hpos
    · exact .inl (by omega)
    · obtain ⟨hlt, -, hothers⟩ := hfits.resolve_left (by omega)
      exact .inr ⟨by omega, by omega, hothers⟩
  subst hqp
  have hbut : (a.setBin bin s).PlacedBut bin (q.1 + skew + length) := by
    intro b e he
    rcases mem_setBin he with ⟨rfl, hleft⟩ | ⟨-, hother⟩
    · rcases hmem e hleft with ⟨hold, -⟩ | ⟨rfl, hne⟩ | ⟨rfl, hne⟩
      · exact .inl (h b e hold)
      · refine .inl ?_
        obtain ⟨-, hbin, -⟩ := hfits.resolve_left (by omega)
        show a.chooseBin (q.1 + skew - q.1) = b
        rw [Nat.add_sub_cancel_left]
        exact hbin
      · exact .inr ⟨rfl, rfl, Nat.pos_of_ne_zero hne⟩
    · exact .inl (h b e hother)
  obtain ⟨c, hc, hend⟩ : ∃ c, (a.setBin bin s).demote bin (q.1 + skew + length) = some c ∧
      (if c.numFree < length then none else some ((q.1 + skew, length),
        { c with numFree := c.numFree - length, lastAlloc := q.1 + skew + length })) =
          some (r, a') := by
    by_cases hoffset : q.1 + skew ≠ 0
    · -- nothing of this bin ends where the extent begins and is in the wrong place
      have hfirst : 0 < q.1 := by
        rcases Nat.eq_zero_or_pos q.1 with hzero | hpos
        · rw [hzero] at hskew
          simp [skewOf] at hskew
          omega
        · exact hpos
      rw [if_pos hoffset, demote_of_lt hbut (by omega)] at hrest
      exact Option.bind_eq_some_iff.mp hrest
    · rw [if_neg hoffset] at hrest
      exact Option.bind_eq_some_iff.mp hrest
  split_ifs at hend
  cases hend
  exact fun b e he => placed_demote hbut hc b e he

theorem placed_allocateInt {wantSize allocUnit hint : ℕ} {r : Option Interval} (h : a.Placed)
    (hfits : a.FrontsFit wantSize allocUnit)
    (hint' : a.allocateInt wantSize allocUnit hint = some (r, a')) : a'.Placed := by
  unfold allocateInt at hint'
  split at hint'
  · cases hint'
    exact h
  · rename_i bin p hsearch
    obtain ⟨⟨r', b⟩, htake, heq⟩ := Option.map_eq_some_iff.mp hint'
    cases heq
    obtain ⟨hp, hsuffices⟩ := suffices_of_search hsearch
    exact placed_take h hp (hfits bin p hp hsuffices) htake

/-- The condition on the calls of `allocate_int` that the loop of `allocate` makes. -/
def LoopFits (wantSize allocUnit maxAllocSize : ℕ) : ℕ → StupidAllocator → ℕ → ℕ → Prop
  | 0, _, _, _ => True
  | turns + 1, a, allocated, hint => wantSize ≤ allocated ∨
    a.FrontsFit (min maxAllocSize (wantSize - allocated)) allocUnit ∧
      match a.allocateInt (min maxAllocSize (wantSize - allocated)) allocUnit hint with
      | some (some e, a) =>
        LoopFits wantSize allocUnit maxAllocSize turns a (allocated + e.2) (e.1 + e.2)
      | _ => True

instance decidableLoopFits (wantSize allocUnit maxAllocSize : ℕ) :
    (turns : ℕ) → (a : StupidAllocator) → (allocated hint : ℕ) →
      Decidable (LoopFits wantSize allocUnit maxAllocSize turns a allocated hint)
  | 0, _, _, _ => inferInstanceAs (Decidable True)
  | turns + 1, a, allocated, hint =>
    have : Decidable (match
        a.allocateInt (min maxAllocSize (wantSize - allocated)) allocUnit hint with
        | some (some e, a) =>
          LoopFits wantSize allocUnit maxAllocSize turns a (allocated + e.2) (e.1 + e.2)
        | _ => True) :=
      match a.allocateInt (min maxAllocSize (wantSize - allocated)) allocUnit hint with
      | some (some e, a) => decidableLoopFits wantSize allocUnit maxAllocSize turns a
          (allocated + e.2) (e.1 + e.2)
      | some (none, _) => inferInstanceAs (Decidable True)
      | none => inferInstanceAs (Decidable True)
    inferInstanceAs (Decidable (_ ∨ _ ∧ _))

theorem placed_allocateLoop {wantSize allocUnit maxAllocSize turns allocated hint n : ℕ}
    {extents extents' : List Interval} (h : a.Placed)
    (hfits : LoopFits wantSize allocUnit maxAllocSize turns a allocated hint)
    (hloop : allocateLoop wantSize allocUnit maxAllocSize turns a extents allocated hint =
      some (n, extents', a')) : a'.Placed := by
  induction turns generalizing a extents allocated hint with
  | zero => exact nomatch hloop
  | succ turns ih =>
    rw [allocateLoop] at hloop
    split_ifs at hloop with hdone
    · cases hloop
      exact h
    · obtain ⟨hfirst, hrest⟩ := hfits.resolve_left hdone
      split at hloop
      · exact nomatch hloop
      · rename_i b hcall
        cases hloop
        exact placed_allocateInt h hfirst hcall
      · rename_i e b hcall
        rw [hcall] at hrest
        exact ih (placed_allocateInt h hfirst hcall) hrest hloop

/-! ## Runs -/

/-- The operations of the allocator. -/
inductive Op
  | initAddFree (offset length : ℕ)
  | initRmFree (offset length : ℕ)
  | release (releaseSet : IntervalSet)
  | allocateInt (wantSize allocUnit hint : ℕ)
  | allocate (turns wantSize allocUnit maxAllocSize hint : ℕ) (extents : List Interval)

/-- The allocator after an operation; nothing where an assertion fails. -/
def step (a : StupidAllocator) : Op → Option StupidAllocator
  | .initAddFree offset length => a.initAddFree offset length
  | .initRmFree offset length => a.initRmFree offset length
  | .release releaseSet => a.release releaseSet
  | .allocateInt wantSize allocUnit hint => (a.allocateInt wantSize allocUnit hint).map Prod.snd
  | .allocate turns wantSize allocUnit maxAllocSize hint extents =>
    (a.allocate turns wantSize allocUnit maxAllocSize hint extents).map fun r => r.2.2

/-- The condition on an operation: ranges end below `2 ^ 64`, and what an allocation may leave in
front of it fits. -/
def Fits (a : StupidAllocator) : Op → Prop
  | .initAddFree offset length => offset + length < 2 ^ 64
  | .initRmFree offset length => offset + length < 2 ^ 64
  | .release releaseSet => ∀ p ∈ releaseSet.m.entries, p.1 + p.2 < 2 ^ 64
  | .allocateInt wantSize allocUnit _ => a.FrontsFit wantSize allocUnit
  | .allocate turns wantSize allocUnit maxAllocSize hint _ =>
    LoopFits wantSize allocUnit (if maxAllocSize = 0 then wantSize else maxAllocSize) turns a 0 hint

instance (a : StupidAllocator) (op : Op) : Decidable (a.Fits op) := by
  cases op <;> unfold Fits <;> infer_instance

theorem placed_step {op : Op} (h : a.Placed) (hfits : a.Fits op) (hstep : a.step op = some a') :
    a'.Placed := by
  cases op with
  | initAddFree offset length => exact placed_initAddFree h hstep
  | initRmFree offset length => exact placed_initRmFree h hstep
  | release releaseSet => exact placed_release h hstep
  | allocateInt wantSize allocUnit hint =>
    obtain ⟨⟨r, b⟩, hcall, rfl⟩ := Option.map_eq_some_iff.mp hstep
    exact placed_allocateInt h hfits hcall
  | allocate turns wantSize allocUnit maxAllocSize hint extents =>
    obtain ⟨⟨r, extents', b⟩, hcall, rfl⟩ := Option.map_eq_some_iff.mp hstep
    obtain ⟨⟨n, extents'', c⟩, hloop, heq⟩ := Option.map_eq_some_iff.mp hcall
    cases heq
    exact placed_allocateLoop h hfits hloop

/-- **When `-ENOSPC` can be believed.** After any operations from the empty allocator on, none of
which may leave a part in front in a bin it does not belong to: `allocate_int` reports `-ENOSPC`
only if there is no free extent with an aligned unit, exactly if one that has a unit, where there
are any, holds the wanted size or has a length of no higher bin than this. -/
theorem enospc_truthful_iff (blockSize : ℕ) {ops : List Op}
    (hfits : Transition.Along step Fits ops { blockSize })
    (hrun : Transition.run step ops { blockSize } = some a) (wantSize allocUnit hint : ℕ) :
    ((∃ a', a.allocateInt wantSize allocUnit hint = some (none, a')) →
      ∀ bin, ∀ e ∈ (a.free bin).m.entries, alignedLen e allocUnit < allocUnit) ↔
    ((∃ bin, ∃ e ∈ (a.free bin).m.entries, allocUnit ≤ alignedLen e allocUnit) →
      ∃ bin, ∃ e ∈ (a.free bin).m.entries, allocUnit ≤ alignedLen e allocUnit ∧
        (wantSize ≤ alignedLen e allocUnit ∨
          a.chooseBin e.2 ≤ a.chooseBin (max allocUnit wantSize))) := by
  have hplaced : a.Placed :=
    Transition.invariant_of_along (fun _ _ _ h hop hstep => placed_step h hop hstep) hfits hrun
      fun _ _ he => nomatch he
  rw [enospc_iff]
  refine imp_congr_right fun _ => ?_
  refine exists_congr fun bin => exists_congr fun e => and_congr_right fun he => ?_
  rw [hplaced bin e he]

/-- Sixteen blocks are free but for one. Four are allocated, then two, and the one is released. -/
def sampleOps : List Op :=
  [.initAddFree 0 65536, .initRmFree 8192 4096, .allocateInt 16384 4096 0,
    .allocate 4 8192 4096 0 0 [], .release ⟨4096, OrdMap.empty.insert 8192 4096⟩]

/-- Seven of the blocks that are left make up one extent, so that a call for eight gets a unit. -/
theorem enospc_truthful_iff_sample :
    ∃ a, Transition.run step sampleOps { blockSize := 4096 } = some a ∧
      ¬ ∃ a', a.allocateInt 32768 4096 0 = some (none, a') := by
  have hfits : Transition.Along step Fits sampleOps { blockSize := 4096 } := by decide +kernel
  have hfree : ((Transition.run step sampleOps { blockSize := 4096 }).any
      fun a => decide ((36864, 28672) ∈ (a.free 3).m.entries)) = true := by decide +kernel
  cases hrun : Transition.run step sampleOps { blockSize := 4096 } with
  | none => exact absurd (hrun ▸ hfree) (by simp)
  | some a =>
    have hmem : (36864, 28672) ∈ (a.free 3).m.entries := by simpa [hrun] using hfree
    refine ⟨a, rfl, fun henospc => ?_⟩
    have hnone := (enospc_truthful_iff 4096 hfits hrun 32768 4096 0).mpr
      (fun _ => ⟨3, _, hmem, by decide, .inr (a.chooseBin_mono (by decide))⟩) henospc
    exact absurd (hnone 3 _ hmem) (by decide)

/-- **False reports.** Five blocks are free from block 1 on, and four of them are allocated with a
unit of two blocks. Block 1 is left, in the bin of the five: two blocks with a unit of one block are
not found. And of eight blocks from block 1 on, in the bin of their length, the alignment to four
blocks leaves five: seven blocks are not found, and the bin is not searched for a unit. -/
theorem enospc_of_misplaced :
    (∃ a a', (({ blockSize := 4096 } : StupidAllocator).initAddFree 4096 20480).bind
        (fun a => a.allocateInt 16384 8192 0) = some (some (8192, 16384), a) ∧
      a.allocateInt 8192 4096 0 = some (none, a') ∧
      ∃ bin, ∃ e ∈ (a.free bin).m.entries, 4096 ≤ alignedLen e 4096) ∧
    ∃ a a', ({ blockSize := 4096 } : StupidAllocator).initAddFree 4096 32768 = some a ∧
      a.allocateInt 28672 16384 0 = some (none, a') ∧
      ∃ bin, ∃ e ∈ (a.free bin).m.entries, 16384 ≤ alignedLen e 16384 :=
  ⟨⟨_, _, rfl, rfl, 3, (4096, 4096), by decide, by decide⟩,
    _, _, rfl, rfl, 4, (4096, 32768), by decide, by decide⟩

end StupidAllocator

end Ceph.BlueStore.Stupid
