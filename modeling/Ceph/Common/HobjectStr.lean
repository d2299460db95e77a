import Ceph.Common.Hobject
import Ceph.Lib.LexCode

set_option autoImplicit false

/-! # Object names as strings

`hobject_t::to_str` (`common/hobject.cc`) writes an object as six fields with dots between
them: pool and nibble-reversed hash in upper-case hexadecimal digits of fixed width, the
snapshot, and the escaped name, locator key and namespace. The persisted missing set is keyed by
this string, so two objects must not have the same one: `toStr_injective` says that no two
objects other than the maximum do.
-/

namespace Ceph.Hobject

open List LexCode

/-! ## Fields -/

/-- `"0123456789ABCDEF"`. -/
def upperHexDigit (n : Nat) : UInt8 := UInt8.ofNat (if n < 10 then 0x30 + n else 0x37 + n)

/-- `"0123456789abcdef"`. -/
def lowerHexDigit (n : Nat) : UInt8 := UInt8.ofNat (if n < 10 then 0x30 + n else 0x57 + n)

/-- `reverse_nibbles` (`common/reverse.c`). -/
def reverseNibbles (v : UInt32) : UInt32 :=
  let v := swapBits 0x0F0F0F0F 4 v
  let v := swapBits 0x00FF00FF 8 v
  swapBits 0x0000FFFF 16 v

def getNibblewiseKeyU32 (h : Hobject) : UInt32 := reverseNibbles h.hash

/-- A number in the format `%llx`: no leading zeros, but one digit for zero. -/
def hexString (n : UInt64) : Bytes :=
  if n = 0 then [0x30] else (fixedWidth 16 lowerHexDigit 16 n.toNat).dropWhile (· = 0x30)

/-- The snapshot field: `head`, `snapdir` or a number. -/
def snapString (snap : UInt64) : Bytes :=
  if snap = noSnap then [0x68, 0x65, 0x61, 0x64]
  else if snap = snapDir then [0x73, 0x6e, 0x61, 0x70, 0x64, 0x69, 0x72]
  else hexString snap

/-- One iteration of the loop of `append_escaped`: `%`, `.` and `_` become `%p`, `%e` and
`%u`. -/
def escapeChar (c : UInt8) : Bytes :=
  if c = 0x25 then [0x25, 0x70]
  else if c = 0x2e then [0x25, 0x65]
  else if c = 0x5f then [0x25, 0x75]
  else [c]

/-- `append_escaped` of this file's source. -/
def appendEscaped (s : Bytes) : Bytes := s.flatMap escapeChar

def toStr (h : Hobject) : Bytes :=
  fixedWidth 16 upperHexDigit 16 h.pool.toUInt64.toNat ++ 0x2e ::
    (fixedWidth 16 upperHexDigit 8 h.getNibblewiseKeyU32.toNat ++ 0x2e ::
      (snapString h.snap ++ 0x2e :: (appendEscaped h.name ++ 0x2e ::
        (appendEscaped h.key ++ 0x2e :: appendEscaped h.nspace))))

/-! ## Each field can be read back -/

theorem reverseNibbles_injective : Function.Injective reverseNibbles := by
  have hswap : ∀ s ∈ [4, 8, 16], ∀ j < 32, swapIndex s j < 32 ∧ swapIndex s (swapIndex s j) = j := by
    decide
  -- a stage moves every bit to the place a second pass takes it back from
  have hstage : ∀ (mask s : UInt32) (k : Nat), k ∈ [4, 8, 16] → s.toNat = k →
      (∀ j < 32, mask.toBitVec.getLsbD j = decide (j / k % 2 = 0)) →
      Function.Injective (swapBits mask s) := by
    intro mask s k hk hs hmask v w heq
    have hk' : 0 < k ∧ k < 32 := by
      have := (by decide : ∀ k ∈ [4, 8, 16], 0 < k ∧ k < 32)
      exact this k hk
    rw [← UInt32.toBitVec_inj]
    apply BitVec.eq_of_getLsbD_eq
    intro i hi
    obtain ⟨hlt, hback⟩ := hswap k hk i hi
    have hv := swapBits_getLsbD k hs hk'.1 hk'.2 hmask v hlt
    have hw := swapBits_getLsbD k hs hk'.1 hk'.2 hmask w hlt
    rw [hback] at hv hw
    rw [← hv, ← hw, heq]
  have h4 := hstage 0x0F0F0F0F 4 4 (by decide) rfl (by decide)
  have h8 := hstage 0x00FF00FF 8 8 (by decide) rfl (by decide)
  have h16 := hstage 0x0000FFFF 16 16 (by decide) rfl (by decide)
  exact h16.comp (h8.comp h4)

theorem upperHexDigit_lt_iff : ∀ i < 16, ∀ j < 16,
    upperHexDigit i < upperHexDigit j ↔ i < j := by decide

theorem lowerHexDigit_lt_iff : ∀ i < 16, ∀ j < 16,
    lowerHexDigit i < lowerHexDigit j ↔ i < j := by decide

theorem mem_fixedWidth {b : Nat} {digit : Nat → UInt8} {k n : Nat} (hb : 0 < b) (hn : n < b ^ k)
    {c : UInt8} (hc : c ∈ fixedWidth b digit k n) : ∃ i < b, c = digit i := by
  induction k generalizing n with
  | zero => simp [fixedWidth] at hc
  | succ k ih =>
    have hpos : 0 < b ^ k := pow_pos hb k
    rcases mem_cons.mp hc with rfl | hc
    · exact ⟨_, div_pow_lt hpos hn, rfl⟩
    · exact ih (Nat.mod_lt _ hpos) hc

theorem mem_hexString {n : UInt64} {c : UInt8} (hc : c ∈ hexString n) :
    ∃ i < 16, c = lowerHexDigit i := by
  unfold hexString at hc
  split_ifs at hc with h0
  · exact ⟨0, by decide, (mem_singleton.mp hc).trans (by decide)⟩
  · have hmem := dropWhile_subset _ hc
    exact mem_fixedWidth (by decide) (lt_of_lt_of_le n.toNat_lt (by norm_num)) hmem

/-- The digits of fixed width, from those that are left without the leading zeros. -/
theorem replicate_append_dropWhile (l : Bytes) :
    List.replicate (l.length - (l.dropWhile (· = 0x30)).length) 0x30 ++ l.dropWhile (· = 0x30) =
      l := by
  have hall : ∀ c ∈ l.takeWhile (· = (0x30 : UInt8)), c = 0x30 := fun c hc => by
    simpa using all_eq_true.mp all_takeWhile c hc
  have hlen : l.length - (l.dropWhile (· = (0x30 : UInt8))).length =
      (l.takeWhile (· = (0x30 : UInt8))).length := by
    have hsplit := congrArg List.length
      (takeWhile_append_dropWhile (p := fun c : UInt8 => decide (c = 0x30)) (l := l))
    rw [length_append] at hsplit
    omega
  rw [hlen, ← eq_replicate_of_mem hall, takeWhile_append_dropWhile]

theorem hexString_injective : Function.Injective hexString := by
  have hbound : ∀ n : UInt64, n.toNat < 16 ^ 16 := fun n => n.toNat_lt
  -- a number other than zero keeps a leading digit that is not zero
  have hne : ∀ n : UInt64,
      (fixedWidth 16 lowerHexDigit 16 n.toNat).dropWhile (· = 0x30) ≠ [0x30] := by
    intro n h
    have hhead := head?_dropWhile_not (fun c : UInt8 => decide (c = 0x30))
      (fixedWidth 16 lowerHexDigit 16 n.toNat)
    rw [h] at hhead
    simp at hhead
  intro n m h
  unfold hexString at h
  split_ifs at h with hn hm hm
  · rw [hn, hm]
  · exact absurd h.symm (hne m)
  · exact absurd h (hne n)
  · have hdigits : fixedWidth 16 lowerHexDigit 16 n.toNat =
        fixedWidth 16 lowerHexDigit 16 m.toNat := by
      rw [← replicate_append_dropWhile (fixedWidth 16 lowerHexDigit 16 n.toNat),
        ← replicate_append_dropWhile (fixedWidth 16 lowerHexDigit 16 m.toNat), h,
        fixedWidth_length, fixedWidth_length]
    rw [← UInt64.toNat_inj]
    exact (fixedWidth_inj lowerHexDigit_lt_iff (hbound n) (hbound m)).mp hdigits

theorem snapString_injective : Function.Injective snapString := by
  have hhead : ∀ n : UInt64, hexString n ≠ [0x68, 0x65, 0x61, 0x64] := by
    intro n h
    obtain ⟨i, hi, heq⟩ := mem_hexString (n := n) (c := 0x68) (by simp [h])
    exact absurd heq.symm ((by decide : ∀ i < 16, lowerHexDigit i ≠ 0x68) i hi)
  have hdir : ∀ n : UInt64, hexString n ≠ [0x73, 0x6e, 0x61, 0x70, 0x64, 0x69, 0x72] := by
    intro n h
    obtain ⟨i, hi, heq⟩ := mem_hexString (n := n) (c := 0x73) (by simp [h])
    exact absurd heq.symm ((by decide : ∀ i < 16, lowerHexDigit i ≠ 0x73) i hi)
  intro a b h
  unfold snapString at h
  split_ifs at h with ha hb hb' ha' hb hb' hb hb'
  · rw [ha, hb]
  · exact absurd h (by decide)
  · exact absurd h.symm (hhead b)
  · exact absurd h (by decide)
  · rw [ha', hb']
  · exact absurd h.symm (hdir b)
  · exact absurd h (hhead a)
  · exact absurd h (hdir a)
  · exact hexString_injective h

/-! ## Fields between dots -/

theorem escapeChar_ne_dot {c d : UInt8} (hd : d ∈ escapeChar c) : d ≠ 0x2e := by
  unfold escapeChar at hd
  split_ifs at hd with h1 h2 h3
  · rcases mem_pair.mp hd with rfl | rfl <;> decide
  · rcases mem_pair.mp hd with rfl | rfl <;> decide
  · rcases mem_pair.mp hd with rfl | rfl <;> decide
  · rw [mem_singleton.mp hd]
    exact h2

theorem dot_notMem_appendEscaped (s : Bytes) : (0x2e : UInt8) ∉ appendEscaped s := by
  intro h
  obtain ⟨c, -, hc⟩ := mem_flatMap.mp h
  exact escapeChar_ne_dot hc rfl

theorem dot_notMem_snapString (snap : UInt64) : (0x2e : UInt8) ∉ snapString snap := by
  unfold snapString
  split_ifs
  · decide
  · decide
  · intro h
    obtain ⟨i, hi, heq⟩ := mem_hexString h
    exact absurd heq.symm ((by decide : ∀ i < 16, lowerHexDigit i ≠ 0x2e) i hi)

/-- An escaped character and what follows it determine the character. -/
theorem escapeChar_append_inj {c d : UInt8} {x y : Bytes}
    (h : escapeChar c ++ x = escapeChar d ++ y) : c = d ∧ x = y := by
  unfold escapeChar at h
  split_ifs at h <;> simp_all

theorem appendEscaped_injective : Function.Injective appendEscaped := by
  intro s t h
  induction s generalizing t with
  | nil =>
    cases t with
    | nil => rfl
    | cons d t =>
      have hne : escapeChar d ≠ [] := by
        unfold escapeChar
        split_ifs <;> simp
      simp [appendEscaped, hne] at h
  | cons c s ih =>
    cases t with
    | nil =>
      have hne : escapeChar c ≠ [] := by
        unfold escapeChar
        split_ifs <;> simp
      simp [appendEscaped, hne] at h
    | cons d t =>
      obtain ⟨rfl, hrest⟩ := escapeChar_append_inj h
      rw [ih hrest]

/-- **The first dot ends the first field.** -/
theorem append_dot_inj {u v x y : Bytes} (hu : (0x2e : UInt8) ∉ u) (hv : (0x2e : UInt8) ∉ v)
    (h : u ++ 0x2e :: x = v ++ 0x2e :: y) : u = v ∧ x = y := by
  induction u generalizing v with
  | nil =>
    cases v with
    | nil => exact ⟨rfl, (List.cons.inj h).2⟩
    | cons b v => exact absurd (mem_cons.mpr (.inl (List.cons.inj h).1)) hv
  | cons a u ih =>
    cases v with
    | nil => exact absurd (mem_cons.mpr (.inl (List.cons.inj h).1.symm)) hu
    | cons b v =>
      simp only [cons_append, List.cons.injEq] at h
      simp only [mem_cons, not_or] at hu hv
      obtain ⟨rfl, rfl⟩ := ih hu.2 hv.2 h.2
      exact ⟨by rw [h.1], rfl⟩

/-- **Two objects other than the maximum have different strings.** -/
theorem toStr_injective {g h : Hobject} (hg : g.max = false) (hh : h.max = false)
    (heq : g.toStr = h.toStr) : g = h := by
  unfold toStr at heq
  obtain ⟨hpool, hrest⟩ := append_inj heq (by simp)
  rw [List.cons.injEq] at hrest
  obtain ⟨hhash, hrest⟩ := append_inj hrest.2 (by simp)
  rw [List.cons.injEq] at hrest
  obtain ⟨hsnap, hrest⟩ := append_dot_inj (dot_notMem_snapString _) (dot_notMem_snapString _)
    hrest.2
  obtain ⟨hname, hrest⟩ := append_dot_inj (dot_notMem_appendEscaped _)
    (dot_notMem_appendEscaped _) hrest
  obtain ⟨hkey, hnspace⟩ := append_dot_inj (dot_notMem_appendEscaped _)
    (dot_notMem_appendEscaped _) hrest
  have hpool' : g.pool = h.pool := by
    have hnat := (fixedWidth_inj upperHexDigit_lt_iff (UInt64.toNat_lt _)
      (UInt64.toNat_lt _)).mp hpool
    exact Int64.toBitVec_inj.mp (congrArg UInt64.toBitVec (UInt64.toNat_inj.mp hnat))
  have hhash' : g.hash = h.hash := by
    have hnat := (fixedWidth_inj upperHexDigit_lt_iff (UInt32.toNat_lt _)
      (UInt32.toNat_lt _)).mp hhash
    exact reverseNibbles_injective (UInt32.toNat_inj.mp hnat)
  have hsnap' := snapString_injective hsnap
  have hname' := appendEscaped_injective hname
  have hkey' := appendEscaped_injective hkey
  have hnspace' := appendEscaped_injective hnspace
  cases g
  cases h
  simp_all

end Ceph.Hobject
