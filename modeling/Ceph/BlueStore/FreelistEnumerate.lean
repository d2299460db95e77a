import Ceph.BlueStore.FreelistBits

set_option autoImplicit false

/-! # Enumeration of the free ranges

`enumerate_next` walks the entries of the store with a cursor. Between two calls the cursor stands at
a set bit, or behind the end of the device (`Ready`). One call skips the set blocks from there and
then the clear blocks behind them; it ends at the next maximal run of free blocks, or finds that none
is left. So the calls after `enumerate_reset` return the maximal runs of free blocks in their order
(`enumerates_runs`).
-/

namespace Ceph.BlueStore.Freelist

open OrdMap Nat Option List

variable {g : Geometry} {kv : OrdMap ℕ g.Value} {n : ℕ} {allocated : Finset ℕ}
  {rest : List (ℕ × g.Value)} {offset pos b : ℕ} {bl : g.Value}

/-! ## Maximal runs -/

/-- From `a` to before `z` is a maximal run of a predicate below `n`. -/
structure IsRun (P : ℕ → Prop) (n a z : ℕ) : Prop where
  lt : a < z
  le : z ≤ n
  all : ∀ b, a ≤ b → b < z → P b
  left : a = 0 ∨ ¬ P (a - 1)
  right : z = n ∨ ¬ P z

/-- The runs that start at `e` or later, where nothing holds from `e` to before `a`, are the run at
`a` and those that start at its end or later. -/
theorem IsRun.first_or_later {P : ℕ → Prop} {n e a z x y : ℕ} (h : IsRun P n a z)
    (hskip : ∀ b, e ≤ b → b < a → ¬ P b) (hxy : IsRun P n x y) (he : e ≤ x) :
    x = a ∧ y = z ∨ z ≤ x := by
  have hax : a ≤ x := by
    by_contra hlt
    exact hskip x he (by omega) (hxy.all x le_rfl hxy.lt)
  by_cases hxz : z ≤ x
  · exact .inr hxz
  have hxa : x = a := by
    by_contra hne
    rcases hxy.left with h0 | hleft
    · omega
    · exact hleft (h.all (x - 1) (by omega) (by omega))
  subst hxa
  refine .inl ⟨rfl, ?_⟩
  -- the shorter one of two runs would not be maximal
  have hxylt := hxy.lt
  have hle := hxy.le
  have hle' := h.le
  rcases lt_trichotomy y z with hlt | heq | hgt
  · rcases hxy.right with hn | hright
    · omega
    · exact absurd (h.all y hxylt.le hlt) hright
  · exact heq
  · rcases h.right with hn | hright
    · omega
    · exact absurd (hxy.all z (by omega) hgt) hright

/-! ## Bits of the entries -/

/-- A store whose bits are those of a device with `n` blocks. -/
structure Bitmap (kv : OrdMap ℕ g.Value) (n : ℕ) (allocated : Finset ℕ) : Prop where
  allocated_lt : ∀ b ∈ allocated, b < n
  keys : ∀ e ∈ kv.entries, ∃ k, e.1 = k * g.bytesPerKey ∧ k * g.blocksPerKey < n
  bits : ∀ b, bitAt kv b = decide (b ∈ allocated ∨ n ≤ b ∧ b < roundBlocks g n)

theorem bitAt_entry {k i : ℕ} {v : g.Value}
    (h : (k * g.bytesPerKey, v) ∈ kv.entries) (hi : i < g.blocksPerKey) :
    bitAt kv (k * g.blocksPerKey + i) = v.getLsbD i := by
  have hdiv : (k * g.blocksPerKey + i) / g.blocksPerKey = k := by
    rw [Nat.mul_comm, mul_add_div g.key_pos, div_eq_of_lt hi, Nat.add_zero]
  have hmod : (k * g.blocksPerKey + i) % g.blocksPerKey = i := by
    rw [Nat.mul_comm, mul_add_mod, mod_eq_of_lt hi]
  rw [bitAt, keyOf, hdiv, hmod, (kv.mem_entries_iff _ _).mp h, getD_some]

theorem bitAt_absent (h : ∀ e ∈ kv.entries, e.1 ≠ keyOf g b) : bitAt kv b = false := by
  rw [bitAt, OrdMap.get, lookup_eq_none h]
  exact BitVec.getLsbD_zero

theorem mem_rest_of_lt {key : ℕ} {v : g.Value} (h : (key, v) :: rest <:+ kv.entries)
    {e : ℕ × g.Value} (he : e ∈ kv.entries) (hlt : key < e.1) : e ∈ rest := by
  obtain ⟨pre, hpre⟩ := h
  have hpre' := (lt_of_entries_eq hpre.symm).1
  rw [← hpre, mem_append, mem_cons] at he
  rcases he with hmem | rfl | hmem
  · exact absurd (hpre' e hmem) hlt.not_gt
  · exact absurd hlt (lt_irrefl _)
  · exact hmem

theorem bitAt_gap {k : ℕ} {v : g.Value} (h : (k * g.bytesPerKey, v) :: rest <:+ kv.entries)
    (hb : (k + 1) * g.blocksPerKey ≤ b) (hrest : ∀ e ∈ rest, keyOf g b < e.1) : bitAt kv b = false := by
  refine bitAt_absent fun e he heq => ?_
  have hk : k < b / g.blocksPerKey := (le_div_iff_mul_le g.key_pos).mpr hb
  have hlt : k * g.bytesPerKey < e.1 := by
    rw [heq, keyOf]
    exact Nat.mul_lt_mul_of_pos_right hk g.bytesPerKey_pos
  exact (hrest e (mem_rest_of_lt h he hlt)).ne' heq

/-! ## The loops -/

/-- A cursor is at the block `b`. -/
structure At (kv : OrdMap ℕ g.Value) (offset : ℕ) (bl : g.Value) (pos : ℕ)
    (rest : List (ℕ × g.Value)) (b : ℕ) : Prop where
  suffix : (offset, bl) :: rest <:+ kv.entries
  pos_lt : pos < g.blocksPerKey
  block : ∃ k, offset = k * g.bytesPerKey ∧ b = k * g.blocksPerKey + pos

theorem getOffset_eq (k i : ℕ) :
    getOffset g (k * g.bytesPerKey) i = (k * g.blocksPerKey + i) * g.bytesPerBlock := by
  rw [getOffset, Geometry.bytesPerKey]
  ring

section Search

variable {p : ℕ → Bool} {v : Bool}

theorem At.find_some (h : At kv offset bl pos rest b) (hp : ∀ i, p i = true ↔ bl.getLsbD i = v)
    {i : ℕ} (hi : (List.range' pos (g.blocksPerKey - pos)).find? p = some i) :
    ∃ a, At kv offset bl i rest a ∧ getOffset g offset i = a * g.bytesPerBlock ∧ b ≤ a ∧
      bitAt kv a = v ∧ ∀ x, b ≤ x → x < a → bitAt kv x = !v := by
  obtain ⟨k, rfl, rfl⟩ := h.block
  obtain ⟨hfound, hmem, hbefore⟩ := find?_range'_eq_some.mp hi
  obtain ⟨hle, hlt⟩ := mem_range'_1.mp hmem
  have hentry := h.suffix.mem mem_cons_self
  refine ⟨k * g.blocksPerKey + i, ⟨h.suffix, by omega, k, rfl, rfl⟩, getOffset_eq k i, by omega,
    ?_, ?_⟩
  · rw [bitAt_entry hentry (by omega)]
    exact (hp i).mp hfound
  · intro x hx hxa
    have hskip := hbefore (x - k * g.blocksPerKey) (by omega) (by omega)
    rw [Bool.not_eq_true', Bool.eq_false_iff, Ne, hp] at hskip
    rw [← Bool.eq_not.mpr hskip, ← bitAt_entry hentry (by omega)]
    congr 1
    omega

/-- The search in one value fails if all blocks of the key from here on have the other bit. -/
theorem At.find_none (h : At kv offset bl pos rest b) (hp : ∀ i, p i = true ↔ bl.getLsbD i = v)
    (hnone : (List.range' pos (g.blocksPerKey - pos)).find? p = none) :
    ∃ k, offset = k * g.bytesPerKey ∧ b < (k + 1) * g.blocksPerKey ∧
      ∀ x, b ≤ x → x < (k + 1) * g.blocksPerKey → bitAt kv x = !v := by
  obtain ⟨k, rfl, rfl⟩ := h.block
  have hpos := h.pos_lt
  have hentry := h.suffix.mem mem_cons_self
  have hnext : (k + 1) * g.blocksPerKey = k * g.blocksPerKey + g.blocksPerKey := Nat.succ_mul k _
  refine ⟨k, rfl, by omega, fun x hx hxk => ?_⟩
  have hskip := find?_range'_eq_none.mp hnone (x - k * g.blocksPerKey) (by omega) (by omega)
  rw [Bool.not_eq_true', Bool.eq_false_iff, Ne, hp] at hskip
  rw [← Bool.eq_not.mpr hskip, ← bitAt_entry hentry (by omega)]
  congr 1
  omega

end Search

theorem bitAt_after_last {k x : ℕ} {v : g.Value}
    (h : [(k * g.bytesPerKey, v)] <:+ kv.entries) (hx : (k + 1) * g.blocksPerKey ≤ x) :
    bitAt kv x = false :=
  bitAt_gap h hx fun _ he => absurd he not_mem_nil

/-- What holds of the blocks before `m` and of those from `m` on. -/
theorem forall_of_split {P Q : ℕ → Prop} {m : ℕ} (h : ∀ x, b ≤ x → x < m → P x)
    (h' : ∀ x, m ≤ x → Q x → P x) (x : ℕ) (hx : b ≤ x) (hq : Q x) : P x := by
  rcases Nat.lt_or_ge x m with hxm | hxm
  · exact h x hx hxm
  · exact h' x hxm hq

theorem key_end_le {k : ℕ} (h : k * g.blocksPerKey < n) :
    (k + 1) * g.blocksPerKey ≤ roundBlocks g n := by
  rw [roundBlocks]
  split
  · exact Nat.mul_le_mul_right _ (succ_le_succ
      ((le_div_iff_mul_le g.key_pos).mpr h.le))
  · rename_i hround
    rw [not_not] at hround
    rw [← hround] at h ⊢
    exact Nat.mul_le_mul_right _ (Nat.lt_of_mul_lt_mul_right h)

/-- The cursor is at a set block. -/
def Ready (kv : OrdMap ℕ g.Value) (c : Cursor g) (e : ℕ) : Prop :=
  ∃ bl, c.bl = some bl ∧ At kv c.offset bl c.pos c.rest e ∧ bitAt kv e = true

section OneCall

variable (hkv : Bitmap kv n allocated)

section Keys

include hkv

theorem Bitmap.next_entry {k key : ℕ} {v v' : g.Value}
    (h : (k * g.bytesPerKey, v) :: (key, v') :: rest <:+ kv.entries) :
    ∃ k', k < k' ∧ At kv key v' 0 rest (k' * g.blocksPerKey) ∧ key = k' * g.bytesPerKey ∧
      ∀ x, (k + 1) * g.blocksPerKey ≤ x → x < k' * g.blocksPerKey → bitAt kv x = false := by
  have hsuffix : (key, v') :: rest <:+ kv.entries := (suffix_cons _ _).trans h
  obtain ⟨k', hk', -⟩ := hkv.keys _ (hsuffix.mem mem_cons_self)
  obtain ⟨pre, hpre⟩ := h
  have hlt := (lt_of_entries_eq hpre.symm).2 _ mem_cons_self
  obtain ⟨pre', hpre'⟩ := hsuffix
  have hrest := (lt_of_entries_eq hpre'.symm).2
  rw [hk'] at hlt hrest
  refine ⟨k', Nat.lt_of_mul_lt_mul_right hlt,
    ⟨⟨pre', hpre'⟩, g.key_pos, k', hk', (Nat.add_zero _).symm⟩, hk', fun x hx hxk' => ?_⟩
  refine bitAt_gap ⟨pre, hpre⟩ hx fun e he => ?_
  have hkey : keyOf g x < k' * g.bytesPerKey :=
    Nat.mul_lt_mul_of_pos_right ((div_lt_iff_lt_mul g.key_pos).mpr hxk') g.bytesPerKey_pos
  rcases mem_cons.mp he with rfl | he
  · exact hkey.trans_eq hk'.symm
  · exact hkey.trans (hrest e he)

end Keys

-- the last key ends below `2 ^ 64`
variable (hend : roundBlocks g n * g.bytesPerBlock < 2 ^ 64)

theorem mul_bytesPerKey (k : ℕ) : k * g.bytesPerKey = k * g.blocksPerKey * g.bytesPerBlock := by
  rw [Geometry.bytesPerKey]
  ring

include hkv

include hend in
theorem Bitmap.next_key {k : ℕ} {v : g.Value} (h : (k * g.bytesPerKey, v) ∈ kv.entries) :
    (k * g.bytesPerKey + g.bytesPerKey) % 2 ^ 64 = (k + 1) * g.bytesPerKey := by
  obtain ⟨k', hk', hlt⟩ := hkv.keys _ h
  obtain rfl : k = k' := eq_of_mul_eq_mul_right g.bytesPerKey_pos hk'
  have hle := Nat.mul_le_mul_right g.bytesPerBlock (key_end_le hlt)
  rw [← Nat.succ_mul]
  exact mod_eq_of_lt ((mul_bytesPerKey (k + 1)).trans_lt (hle.trans_lt hend))

include hend in
/-- **Skipping set bits**: the next clear block is found. From there on all blocks are clear, or all
up to the cursor. -/
theorem skipSet_spec (h : At kv offset bl pos rest b) :
    ∃ a c, skipSet g offset bl pos rest = (a * g.bytesPerBlock, c) ∧ b ≤ a ∧
      (∀ x, b ≤ x → x < a → bitAt kv x = true) ∧ bitAt kv a = false ∧
      ((c.bl = none ∧ c.offset = a * g.bytesPerBlock ∧ ∀ x, a ≤ x → bitAt kv x = false) ∨
        ∃ bl' b', c.bl = some bl' ∧ At kv c.offset bl' c.pos c.rest b' ∧ a ≤ b' ∧
          ∀ x, a ≤ x → x < b' → bitAt kv x = false) := by
  have hp : ∀ (bl : g.Value) (i : ℕ), (!bl.getLsbD i) = true ↔ bl.getLsbD i = false := by simp
  fun_induction skipSet g offset bl pos rest generalizing b with
  | case1 offset pos bl rest i hfind =>
    obtain ⟨a, hat, hoffset, hle, hbit, hset⟩ := h.find_some (hp bl) hfind
    rw [hoffset]
    exact ⟨a, _, rfl, hle, hset, hbit,
      .inr ⟨bl, a, rfl, hat, le_rfl, fun x hx hxa => absurd hxa (by omega)⟩⟩
  | case2 offset bl pos hfind =>
    rename_i next
    obtain ⟨k, rfl, hlt, hset⟩ := h.find_none (hp bl) hfind
    have hafter := fun x hx => bitAt_after_last (x := x) h.suffix hx
    have hnext : next = _ := hkv.next_key hend (h.suffix.mem mem_cons_self)
    rw [getOffset, Nat.zero_mul, Nat.add_zero, hnext, mul_bytesPerKey]
    exact ⟨_, _, rfl, hlt.le, hset, hafter _ le_rfl, .inl ⟨rfl, rfl, hafter⟩⟩
  | case3 offset bl pos hfind next key value rest =>
    rename_i hgt
    -- keys are missing before the next entry
    obtain ⟨k, rfl, hlt, hset⟩ := h.find_none (hp bl) hfind
    obtain ⟨k', -, hat, rfl, hgap⟩ := hkv.next_entry h.suffix
    have hnext : next = _ := hkv.next_key hend (h.suffix.mem mem_cons_self)
    have hk' : (k + 1) * g.blocksPerKey < k' * g.blocksPerKey := by
      rw [gt_iff_lt, hnext] at hgt
      exact Nat.mul_lt_mul_of_pos_right (Nat.lt_of_mul_lt_mul_right hgt) g.key_pos
    rw [hnext, mul_bytesPerKey]
    exact ⟨_, _, rfl, hlt.le, hset, hgap _ le_rfl hk', .inr ⟨value, _, rfl, hat, hk'.le, hgap⟩⟩
  | case4 offset bl pos hfind next key value rest hgt =>
    rename_i ih
    obtain ⟨k, rfl, hlt, hset⟩ := h.find_none (hp bl) hfind
    obtain ⟨k', hk, hat, rfl, -⟩ := hkv.next_entry h.suffix
    have hnext : next = _ := hkv.next_key hend (h.suffix.mem mem_cons_self)
    have hk' : k' = k + 1 := by
      rw [gt_iff_lt, hnext, not_lt] at hgt
      have := Nat.le_of_mul_le_mul_right hgt g.bytesPerKey_pos
      omega
    subst hk'
    obtain ⟨a, c, hskip, hle, hset', hrest⟩ := ih hat
    exact ⟨a, c, hskip, hlt.le.trans hle, forall_of_split hset hset', hrest⟩

/-- **Skipping clear bits**: the cursor stops at the next set block, or there is none. -/
theorem skipClear_spec (h : At kv offset bl pos rest b) :
    (∃ z c bl', skipClear g offset bl pos rest = (some (z * g.bytesPerBlock), c) ∧
      c.bl = some bl' ∧ At kv c.offset bl' c.pos c.rest z ∧ b ≤ z ∧ bitAt kv z = true ∧
      ∀ x, b ≤ x → x < z → bitAt kv x = false) ∨
    ∃ c, skipClear g offset bl pos rest = (none, c) ∧ (∃ e ∈ kv.entries, c.offset = e.1) ∧
      ∀ x, b ≤ x → bitAt kv x = false := by
  have hp : ∀ (bl : g.Value) (i : ℕ), bl.getLsbD i = true ↔ bl.getLsbD i = true := by simp
  fun_induction skipClear g offset bl pos rest generalizing b with
  | case1 offset pos bl rest i hfind =>
    obtain ⟨z, hat, hoffset, hle, hbit, hclear⟩ := h.find_some (hp bl) hfind
    rw [hoffset]
    exact .inl ⟨z, _, bl, rfl, rfl, hat, hle, hbit, hclear⟩
  | case2 offset bl pos hfind =>
    obtain ⟨k, rfl, hlt, hclear⟩ := h.find_none (hp bl) hfind
    refine .inr ⟨_, rfl, ⟨_, h.suffix.mem mem_cons_self, rfl⟩, fun x hx => ?_⟩
    rcases Nat.lt_or_ge x ((k + 1) * g.blocksPerKey) with hxk | hxk
    · exact hclear x hx hxk
    · exact bitAt_after_last h.suffix hxk
  | case3 offset bl pos hfind key value rest ih =>
    obtain ⟨k, rfl, hlt, hclear⟩ := h.find_none (hp bl) hfind
    obtain ⟨k', hk, hat, rfl, hgap⟩ := hkv.next_entry h.suffix
    have hmono : (k + 1) * g.blocksPerKey ≤ k' * g.blocksPerKey := Nat.mul_le_mul_right _ hk
    have hclear' := forall_of_split hclear hgap
    rcases ih hat with ⟨z, c, bl', hskip, hbl, hat', hle, hbit, hrest⟩ | ⟨c, hskip, hmem, hrest⟩
    · exact .inl ⟨z, c, bl', hskip, hbl, hat', by omega, hbit, forall_of_split hclear' hrest⟩
    · refine .inr ⟨c, hskip, hmem, fun x hx => ?_⟩
      rcases Nat.lt_or_ge x (k' * g.blocksPerKey) with hxk | hxk
      · exact hclear' x hx hxk
      · exact hrest x hxk

/-! ## One call -/

theorem Bitmap.key_lt {e : ℕ × g.Value} (he : e ∈ kv.entries) : e.1 < g.bytesPerBlock * n := by
  obtain ⟨k, hk, hlt⟩ := hkv.keys e he
  rw [hk, Geometry.bytesPerKey, mul_left_comm]
  exact mul_lt_mul_of_pos_left hlt g.block_pos

theorem Bitmap.bit_iff (hb : b < n) : bitAt kv b = true ↔ b ∈ allocated := by
  rw [hkv.bits, decide_eq_true_iff]
  exact ⟨fun h => h.resolve_right (by omega), .inl⟩

/-- A clear block before a block that a cursor can be at lies on the device. -/
theorem Bitmap.clear_lt {a : ℕ} (h : At kv offset bl pos rest b)
    (hab : a ≤ b) (ha : bitAt kv a = false) : a < n := by
  obtain ⟨k, hk, hb⟩ := h.block
  obtain ⟨k', hk', hlt⟩ := hkv.keys _ (h.suffix.mem mem_cons_self)
  obtain rfl : k = k' := eq_of_mul_eq_mul_right g.bytesPerKey_pos (hk.symm.trans hk')
  have hend := key_end_le hlt
  have hpos := h.pos_lt
  rw [Nat.succ_mul] at hend
  rw [hkv.bits, decide_eq_false_iff_not] at ha
  omega

/-- The set block behind a clear one is on the device, or the first behind its end. -/
theorem Bitmap.set_le {a z : ℕ} (ha : a < n)
    (hclear : ∀ x, a ≤ x → x < z → bitAt kv x = false) (hz : bitAt kv z = true) : z ≤ n := by
  by_contra hlt
  have hn := hclear n ha.le (by omega)
  rw [hkv.bits, decide_eq_true_iff] at hz
  rw [hkv.bits, decide_eq_false_iff_not] at hn
  rcases hz with hz | hz
  · exact absurd (hkv.allocated_lt z hz) (by omega)
  · omega

include hend in
/-- **One call** from a cursor at a set block: there is no more clear block, or the next maximal run
of clear blocks is returned, and the cursor is at the set block behind it, or at the end. -/
theorem enumerateFrom_spec {c : Cursor g} {e : ℕ} (h : Ready kv c e) :
    (∃ c', enumerateFrom g (g.bytesPerBlock * n) c = some (none, c') ∧
      g.bytesPerBlock * n ≤ c'.offset ∧ ∀ x, e ≤ x → x < n → bitAt kv x = true) ∨
    ∃ a z c', enumerateFrom g (g.bytesPerBlock * n) c =
        some (some (a * g.bytesPerBlock, (z - a) * g.bytesPerBlock), c') ∧
      e ≤ a ∧ a < z ∧ z ≤ n ∧ (∀ x, e ≤ x → x < a → bitAt kv x = true) ∧
      (∀ x, a ≤ x → x < z → bitAt kv x = false) ∧
      (z = n ∧ g.bytesPerBlock * n ≤ c'.offset ∨ Ready kv c' z) := by
  obtain ⟨bl, hbl, hat, hbit⟩ := h
  have hlast : g.bytesPerBlock * n / g.bytesPerBlock * g.bytesPerBlock = n * g.bytesPerBlock := by
    rw [Nat.mul_div_cancel_left n g.block_pos]
  have hoffset : c.offset < g.bytesPerBlock * n := hkv.key_lt (hat.suffix.mem mem_cons_self)
  obtain ⟨a, c₁, hskip, hea, hset, hclear, hrest⟩ := skipSet_spec hkv hend hat
  rw [enumerateFrom, if_neg (not_le.mpr hoffset), hbl, map_some]
  rw [hskip]
  dsimp only
  rcases hrest with ⟨hnone, hoffset, hclear'⟩ | ⟨bl', b', hsome, hat', hab, hclear'⟩
  · -- no entry is left
    rw [hnone]
    dsimp only
    rw [finishEnumerate, hoffset, Nat.mul_comm g.bytesPerBlock n]
    split
    · rename_i hlt
      have han : a < n := Nat.lt_of_mul_lt_mul_right hlt
      dsimp only
      rw [Nat.mul_comm n, hlast, ← Nat.sub_mul]
      exact .inr ⟨a, n, _, rfl, hea, han, le_rfl, hset, fun x hx _ => hclear' x hx,
        .inl ⟨rfl, le_rfl⟩⟩
    · rename_i hge
      refine .inl ⟨c₁, rfl, by rw [hoffset]; omega, fun x hx hxn => hset x hx ?_⟩
      have : n ≤ a := Nat.le_of_mul_le_mul_right (not_lt.mp hge) g.block_pos
      omega
  · rw [hsome]
    dsimp only
    have han := hkv.clear_lt hat' hab hclear
    rcases skipClear_spec hkv hat' with
      ⟨z, c₂, bl₂, hskip₂, hbl₂, hat₂, hbz, hbitz, hclear₂⟩ | ⟨c₂, hskip₂, ⟨e', he', hoffset⟩, hclear₂⟩
    · -- the run ends at a set block
      have hclears := forall_of_split hclear' hclear₂
      have hzn := hkv.set_le han hclears hbitz
      have haz : a < z := by
        refine lt_of_le_of_ne (hab.trans hbz) fun heq => ?_
        rw [heq, hbitz] at hclear
        exact Bool.noConfusion hclear
      rw [hskip₂]
      dsimp only
      rw [hlast, min_eq_right (Nat.mul_le_mul_right _ hzn), ← Nat.sub_mul]
      exact .inr ⟨a, z, c₂, rfl, hea, haz, hzn, hset, hclears, .inr ⟨bl₂, hbl₂, hat₂, hbitz⟩⟩
    · -- all that is left of the device is free
      have hlt : c₂.offset < g.bytesPerBlock * n := hoffset.trans_lt (hkv.key_lt he')
      rw [hskip₂]
      rw [finishEnumerate, if_pos hlt]
      dsimp only
      rw [hlast, ← Nat.sub_mul]
      exact .inr ⟨a, n, _, rfl, hea, han, le_rfl, hset,
        forall_of_split hclear' fun x hx _ => hclear₂ x hx, .inl ⟨rfl, le_rfl⟩⟩

end OneCall

/-! ## All calls -/

/-- The ranges that `enumerate_next` returns from a cursor on, before it returns false, and false
again. -/
inductive Enumerates (size : ℕ) (kv : OrdMap ℕ g.Value) : Cursor g → List (ℕ × ℕ) → Prop
  | done {c c' : Cursor g} (h : enumerateNext g size kv c = some (none, c'))
      (hagain : enumerateNext g size kv c' = some (none, c')) : Enumerates size kv c []
  | next {c c' : Cursor g} {r : ℕ × ℕ} {rs : List (ℕ × ℕ)}
      (h : enumerateNext g size kv c = some (some r, c')) (hrest : Enumerates size kv c' rs) :
      Enumerates size kv c (r :: rs)

theorem enumerateNext_end (kv : OrdMap ℕ g.Value) {size : ℕ} {c : Cursor g} (hpos : 0 < size)
    (h : size ≤ c.offset) : enumerateNext g size kv c = some (none, c) := by
  rw [enumerateNext, if_neg (by omega), bind_some, enumerateFrom, if_pos h]

theorem enumerateNext_eq {size e : ℕ} {c : Cursor g} (h : Ready kv c e) (he : 0 < e) :
    enumerateNext g size kv c = enumerateFrom g size c := by
  obtain ⟨bl, -, hat, -⟩ := h
  obtain ⟨k, hk, hb⟩ := hat.block
  rw [enumerateNext, if_neg, bind_some]
  rintro ⟨hoffset, hpos⟩
  rw [hk] at hoffset
  rcases Nat.mul_eq_zero.mp hoffset with h0 | h0
  · rw [h0, hpos] at hb
    omega
  · exact absurd h0 g.bytesPerKey_pos.ne'

/-- The ranges of the maximal runs of free blocks from `e` on. -/
def FreeRuns (g : Geometry) (n : ℕ) (allocated : Finset ℕ) (e : ℕ) (rs : List (ℕ × ℕ)) : Prop :=
  rs.Pairwise (fun r r' => r.1 < r'.1) ∧
    ∀ offset length, (offset, length) ∈ rs ↔ ∃ a z, offset = a * g.bytesPerBlock ∧
      length = (z - a) * g.bytesPerBlock ∧ e ≤ a ∧ IsRun (fun b => b ∉ allocated) n a z

theorem FreeRuns.nil {e : ℕ} (h : ∀ x, e ≤ x → x < n → x ∈ allocated) :
    FreeRuns g n allocated e [] := by
  refine ⟨List.Pairwise.nil, fun offset length => ⟨fun hmem => absurd hmem not_mem_nil, ?_⟩⟩
  rintro ⟨a, z, -, -, hea, hrun⟩
  exact absurd (h a hea (hrun.lt.trans_le hrun.le)) (hrun.all a le_rfl hrun.lt)

theorem FreeRuns.cons {e a z : ℕ} {rs : List (ℕ × ℕ)}
    (hrun : IsRun (fun b => b ∉ allocated) n a z) (hea : e ≤ a)
    (hskip : ∀ b, e ≤ b → b < a → b ∈ allocated) (h : FreeRuns g n allocated z rs) :
    FreeRuns g n allocated e ((a * g.bytesPerBlock, (z - a) * g.bytesPerBlock) :: rs) := by
  obtain ⟨hsorted, hmem⟩ := h
  have haz := hrun.lt
  refine ⟨pairwise_cons.mpr ⟨?_, hsorted⟩, fun offset length => ?_⟩
  · rintro ⟨offset, length⟩ hr
    obtain ⟨a', z', rfl, rfl, hza, -⟩ := (hmem _ _).mp hr
    exact Nat.mul_lt_mul_of_pos_right (haz.trans_le hza) g.block_pos
  · rw [mem_cons, hmem]
    constructor
    · rintro (heq | ⟨a', z', hoffset, hlength, hza, hrun'⟩)
      · exact ⟨a, z, congrArg Prod.fst heq, congrArg Prod.snd heq, hea, hrun⟩
      · exact ⟨a', z', hoffset, hlength, by omega, hrun'⟩
    · rintro ⟨a', z', rfl, rfl, hea', hrun'⟩
      have hskip' := fun b hb hba => not_not.mpr (hskip b hb hba)
      rcases hrun.first_or_later hskip' hrun' hea' with ⟨rfl, rfl⟩ | hza
      · exact .inl rfl
      · exact .inr ⟨a', z', rfl, rfl, hza, hrun'⟩

theorem Bitmap.isRun (hkv : Bitmap kv n allocated) {e a z : ℕ} (he : bitAt kv e = true)
    (hea : e ≤ a) (haz : a < z) (hzn : z ≤ n) (hset : ∀ x, e ≤ x → x < a → bitAt kv x = true)
    (hclear : ∀ x, a ≤ x → x < z → bitAt kv x = false) (hz : z = n ∨ bitAt kv z = true) :
    IsRun (fun b => b ∉ allocated) n a z := by
  have hfree : ∀ x, a ≤ x → x < z → x ∉ allocated := by
    intro x hx hxz
    rw [← hkv.bit_iff (by omega), hclear x hx hxz]
    exact Bool.false_ne_true
  have hne : e ≠ a := by
    rintro rfl
    rw [hclear e le_rfl haz] at he
    exact Bool.noConfusion he
  refine ⟨haz, hzn, hfree, .inr (not_not.mpr ?_), ?_⟩
  · exact (hkv.bit_iff (by omega)).mp (hset (a - 1) (by omega) (by omega))
  · rcases Nat.lt_or_ge z n with hlt | hge
    · rcases hz with hz | hz
      · exact .inl hz
      · exact .inr (not_not.mpr ((hkv.bit_iff hlt).mp hz))
    · exact .inl (le_antisymm hzn hge)

/-- **The calls return the maximal runs of free blocks.** -/
theorem enumerates_runs (hkv : Bitmap kv n allocated)
    (hend : roundBlocks g n * g.bytesPerBlock < 2 ^ 64) (hn : 0 < n) {c c₀ : Cursor g} {e : ℕ}
    (hc : enumerateNext g (g.bytesPerBlock * n) kv c = enumerateFrom g (g.bytesPerBlock * n) c₀)
    (h : Ready kv c₀ e) :
    ∃ rs, Enumerates (g.bytesPerBlock * n) kv c rs ∧ FreeRuns g n allocated e rs := by
  have hsize : 0 < g.bytesPerBlock * n := mul_pos g.block_pos hn
  -- each call that returns a range moves the cursor forward
  induction hm : n - e using Nat.strong_induction_on generalizing c c₀ e with
  | _ m ih =>
    obtain ⟨-, -, -, hbit⟩ := id h
    rcases enumerateFrom_spec hkv hend h with ⟨c', hcall, hlast, hset⟩ |
      ⟨a, z, c', hcall, hea, haz, hzn, hset, hclear, hlast⟩
    · exact ⟨[], .done (hc.trans hcall) (enumerateNext_end kv hsize hlast),
        FreeRuns.nil fun x hx hxn => (hkv.bit_iff hxn).mp (hset x hx hxn)⟩
    · have hz : z = n ∨ bitAt kv z = true :=
        hlast.imp (fun h => h.1) fun ⟨_, _, _, hbit⟩ => hbit
      have hrun := hkv.isRun hbit hea haz hzn hset hclear hz
      have hskip : ∀ x, e ≤ x → x < a → x ∈ allocated := fun x hx hxa =>
        (hkv.bit_iff (by omega)).mp (hset x hx hxa)
      obtain ⟨rs, hrs, hruns⟩ : ∃ rs, Enumerates (g.bytesPerBlock * n) kv c' rs ∧
          FreeRuns g n allocated z rs := by
        rcases hlast with ⟨hz, hlast⟩ | hready
        · have hagain := enumerateNext_end kv hsize hlast
          exact ⟨[], .done hagain hagain, FreeRuns.nil fun x hx hxn => absurd hxn (by omega)⟩
        · exact ih (n - z) (by omega) (enumerateNext_eq hready (by omega)) hready rfl
      exact ⟨_, .next (hc.trans hcall) hrs, hruns.cons hrun hea hskip⟩

/-! ## The freelist after a run -/

theorem MergesTo.ne_nil {vs : List g.Value} {v : g.Value} (h : MergesTo g vs v) : vs ≠ [] := by
  induction h with
  | nonexistent r => exact cons_ne_nil _ _
  | merge _ _ ihl _ => exact fun h => ihl (append_eq_nil_iff.mp h).1

theorem Inv.bitmap {s : State g} (hs : Inv s n)
    (h : Stored g s.merges kv) : Bitmap kv n s.allocated := by
  refine ⟨hs.allocated_lt, fun e he => ?_, fun b => (bitAt_eq_flips h b).trans (hs.bits b)⟩
  have hkey := h e.1
  rw [(kv.mem_entries_iff e.1 e.2).mp he] at hkey
  -- a key is stored because it was merged
  obtain ⟨v, hv⟩ := exists_mem_of_ne_nil _ hkey.ne_nil
  obtain ⟨m, hm, -⟩ := mem_map.mp hv
  obtain ⟨hmem, heq⟩ := mem_filter.mp hm
  rw [← of_decide_eq_true heq]
  exact hs.keys m hmem

theorem startEnumerate_spec (h : bitAt kv 0 = true) :
    ∃ c, startEnumerate g kv = some c ∧ Ready kv c 0 := by
  have hbit := h
  rw [bitAt, keyOf, Nat.zero_div, Nat.zero_mul, Nat.zero_mod] at h
  cases hget : kv.get 0 with
  | none =>
    rw [hget, getD_none] at h
    exact absurd h (by simp)
  | some v =>
    rw [hget, getD_some] at h
    have hmem := (kv.mem_entries_iff 0 v).mpr hget
    obtain ⟨pre, rest, hentries⟩ := append_of_mem hmem
    -- no key is less than the first one
    obtain rfl : pre = [] := eq_nil_iff_forall_not_mem.mpr fun e he =>
      not_lt_zero _ ((lt_of_entries_eq hentries).1 e he)
    have hfirst : getNextSetBit g v 0 = some 0 := by
      refine find?_range'_eq_some.mpr ⟨h, ?_, fun j _ hj => absurd hj (not_lt_zero j)⟩
      exact mem_range'_1.mpr ⟨le_rfl, by have := g.key_pos; omega⟩
    refine ⟨⟨0, 0, some v, rest⟩, ?_, v, rfl, ⟨⟨[], hentries.symm⟩, g.key_pos, 0, ?_, ?_⟩, hbit⟩
    · rw [startEnumerate, hentries]
      exact if_pos ⟨rfl, hfirst⟩
    · exact (Nat.zero_mul _).symm
    · exact (Nat.zero_mul _).symm

/-- **The freelist is the history of the allocations.** After every run no call that is permitted
fails; a bit of the store is set if and only if its block is allocated; the bits behind the end that
are stored are set; and if the first block is allocated and the last key ends below `2 ^ 64`,
`enumerate_next` returns the maximal runs of free blocks, in increasing order, and then false. -/
theorem freelist_is_allocation_history (g : Geometry) (newSize : ℕ) (ops : List Op) (s : State g)
    (hrun : run g newSize ops = some s) (kv : OrdMap ℕ g.Value) (hkv : Stored g s.merges kv) :
    (∀ op, Permitted s op → ∃ s', step g s op = some s') ∧
      (∀ b, b * g.bytesPerBlock < s.size → (bitAt kv b = true ↔ b ∈ s.allocated)) ∧
      (∀ b, s.size ≤ b * g.bytesPerBlock → keyOf g b ∈ kv → bitAt kv b = true) ∧
      (0 ∈ s.allocated → roundBlocks g (s.size / g.bytesPerBlock) * g.bytesPerBlock < 2 ^ 64 →
        ∃ rs, Enumerates s.size kv (enumerateReset g) rs ∧
          FreeRuns g (s.size / g.bytesPerBlock) s.allocated 0 rs) := by
  obtain ⟨n, hs⟩ := run_inv hrun
  have hbitmap := hs.bitmap hkv
  refine ⟨fun op hop => hs.step_isSome hop, fun b hb => ?_, fun b hb hkey => ?_, fun h0 hend => ?_⟩
  · rw [hs.size_eq, Nat.mul_comm g.bytesPerBlock] at hb
    exact hbitmap.bit_iff (Nat.lt_of_mul_lt_mul_right hb)
  · rw [hs.size_eq, Nat.mul_comm g.bytesPerBlock] at hb
    have hn : n ≤ b := Nat.le_of_mul_le_mul_right hb g.block_pos
    obtain ⟨v, hv⟩ := isSome_iff_exists.mp hkey
    obtain ⟨k, hk, hlt⟩ := hbitmap.keys _ ((kv.mem_entries_iff _ v).mpr hv)
    -- the block lies in a key that starts on the device
    have hk' : b / g.blocksPerKey = k := eq_of_mul_eq_mul_right g.bytesPerKey_pos hk
    have hround := lt_next_key g b
    rw [hk'] at hround
    rw [hbitmap.bits, decide_eq_true_iff]
    exact .inr ⟨hn, hround.trans_le (key_end_le hlt)⟩
  · have hn : 0 < n := hs.allocated_lt 0 h0
    obtain ⟨c, hstart, hready⟩ := startEnumerate_spec ((hbitmap.bit_iff hn).mpr h0)
    rw [hs.size_eq, Nat.mul_div_cancel_left n g.block_pos] at hend ⊢
    refine enumerates_runs hbitmap hend hn ?_ hready
    rw [enumerateNext, if_pos ⟨rfl, rfl⟩, hstart, bind_some]

/-- Eight blocks of 4096 bytes under a key. -/
def eightBlocks : Geometry :=
  ⟨4096, 8, ⟨12, rfl⟩, ⟨3, rfl⟩, ⟨1, rfl⟩, by decide, by decide⟩

/-- A device of ten blocks grows to nineteen, with eight bits under a key. -/
theorem freelist_is_allocation_history_nineteen :
    ∃ s, run eightBlocks 40960
        [.allocate 0 8192, .allocate 24576 16384, .release 28672 4096, .expand 77824] = some s ∧
      (∀ b, b * 4096 < s.size → (bitAt (mergeAll _ s.merges) b = true ↔ b ∈ s.allocated)) ∧
      ∃ rs, Enumerates s.size (mergeAll _ s.merges) (enumerateReset _) rs := by
  have hdone : (run eightBlocks 40960 [.allocate 0 8192, .allocate 24576 16384,
      .release 28672 4096, .expand 77824]).map
        (fun s => decide (0 ∈ s.allocated ∧ s.size = 77824)) = some true := by decide +kernel
  obtain ⟨s, hrun, h0⟩ := map_eq_some_iff.mp hdone
  obtain ⟨h0, hsize⟩ := of_decide_eq_true h0
  obtain ⟨-, hbits, -, hruns⟩ := freelist_is_allocation_history _ _ _ s hrun _
    (stored_mergeAll s.merges)
  obtain ⟨rs, hrs, -⟩ := hruns h0 (by rw [hsize]; decide +kernel)
  exact ⟨s, hrun, hbits, rs, hrs⟩

/-- **The end of the last key overflows**: blocks of `2 ^ 60` bytes, of which a device has fifteen, all
of them allocated. The enumeration goes on at offset `0`, and all of the device is free. -/
theorem enumerate_overflows :
    let g : Geometry := ⟨2 ^ 60, 8, ⟨60, rfl⟩, ⟨3, rfl⟩, ⟨1, rfl⟩, by decide, by decide⟩
    ∃ s c, run g (15 * 2 ^ 60) [.allocate 0 (15 * 2 ^ 60)] = some s ∧
      s.allocated = Finset.range 15 ∧ s.size = 15 * 2 ^ 60 ∧
      enumerateNext g s.size (mergeAll g s.merges) (enumerateReset g) =
        some (some (0, 15 * 2 ^ 60), c) := by
  intro g
  have hdone : (run g (15 * 2 ^ 60) [.allocate 0 (15 * 2 ^ 60)]).map (fun s =>
      decide (s.allocated = Finset.range 15 ∧ s.size = 15 * 2 ^ 60 ∧
        (enumerateNext g s.size (mergeAll g s.merges) (enumerateReset g)).map Prod.fst =
          some (some (0, 15 * 2 ^ 60)))) = some true := by decide +kernel
  obtain ⟨s, hrun, h⟩ := map_eq_some_iff.mp hdone
  obtain ⟨hall, hsize, hnext⟩ := of_decide_eq_true h
  obtain ⟨⟨_, c⟩, heq, rfl⟩ := map_eq_some_iff.mp hnext
  exact ⟨s, c, hrun, hall, hsize, heq⟩

end Ceph.BlueStore.Freelist
