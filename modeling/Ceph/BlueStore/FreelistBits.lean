import Ceph.BlueStore.Freelist
import Ceph.Lib.Transition

set_option autoImplicit false

/-! # The bits of the freelist are the allocated blocks

How often a block was flipped decides its bit, whatever the store makes of the merges
(`bitAt_eq_flips`). A range that is flipped is flipped once at each of its blocks and nowhere else
(`flips_xorBlocks`). So after each run the blocks that are flipped are those that are allocated, and
those behind the end of the device that share a key with its last block (`run_inv`).
-/

namespace Ceph.BlueStore.Freelist

open Nat List

variable {g : Geometry}

theorem Geometry.block_pos (g : Geometry) : 0 < g.bytesPerBlock := by
  obtain ⟨k, hk⟩ := g.block_isp2
  rw [hk]
  exact Nat.two_pow_pos k

theorem Geometry.key_pos (g : Geometry) : 0 < g.blocksPerKey := by
  obtain ⟨k, hk⟩ := g.key_isp2
  rw [hk]
  exact Nat.two_pow_pos k

theorem Geometry.bytesPerKey_pos (g : Geometry) : 0 < g.bytesPerKey :=
  mul_pos g.block_pos g.key_pos

/-! ## Bits and flips -/

def keyOf (g : Geometry) (b : ℕ) : ℕ := b / g.blocksPerKey * g.bytesPerKey

/-- The bit of a block in the store: an absent key stands for zeros. -/
def bitAt (kv : OrdMap ℕ g.Value) (b : ℕ) : Bool :=
  ((kv.get (keyOf g b)).getD 0).getLsbD (b % g.blocksPerKey)

/-- Whether the merges flip a block an odd number of times. -/
def flips : List g.Merge → ℕ → Bool
  | [], _ => false
  | m :: merges, b =>
    (decide (m.1 = keyOf g b) && m.2.getLsbD (b % g.blocksPerKey)) ^^ flips merges b

theorem flips_append (ms ms' : List g.Merge) (b : ℕ) :
    flips (ms ++ ms') b = (flips ms b ^^ flips ms' b) := by
  induction ms with
  | nil => simp [flips]
  | cons m ms ih => rw [cons_append, flips, flips, ih, Bool.xor_assoc]

def xorAll : List g.Value → g.Value
  | [] => 0
  | v :: vs => v ^^^ xorAll vs

theorem xorAll_append (vs vs' : List g.Value) : xorAll (vs ++ vs') = xorAll vs ^^^ xorAll vs' := by
  induction vs with
  | nil => simp [xorAll]
  | cons v vs ih => rw [cons_append, xorAll, xorAll, ih, BitVec.xor_assoc]

/-- **The grouping of the merges does not matter.** -/
theorem MergesTo.eq_xorAll {vs : List g.Value} {v : g.Value} (h : MergesTo g vs v) :
    v = xorAll vs := by
  induction h with
  | nonexistent r => simp [xorAll]
  | merge _ _ ihl ihr => rw [xorAll_append, ← ihl, ← ihr]

theorem getLsbD_xorAll_operands (merges : List g.Merge) (b : ℕ) :
    (xorAll (operands g merges (keyOf g b))).getLsbD (b % g.blocksPerKey) = flips merges b := by
  induction merges with
  | nil => simp [operands, xorAll, flips]
  | cons m merges ih =>
    rw [flips, ← ih]
    by_cases hkey : m.1 = keyOf g b
    · rw [operands, filter_cons_of_pos (by simpa using hkey), map_cons, xorAll,
        BitVec.getLsbD_xor, decide_eq_true hkey, Bool.true_and]
      rfl
    · rw [operands, filter_cons_of_neg (by simpa using hkey), decide_eq_false hkey,
        Bool.false_and, Bool.false_xor]
      rfl

/-- **A bit of the store says how often the block was flipped.** -/
theorem bitAt_eq_flips {merges : List g.Merge} {kv : OrdMap ℕ g.Value}
    (h : Stored g merges kv) (b : ℕ) : bitAt kv b = flips merges b := by
  have hkey := h (keyOf g b)
  rw [bitAt, ← getLsbD_xorAll_operands]
  cases hget : kv.get (keyOf g b) with
  | none =>
    rw [hget] at hkey
    rw [hkey]
    rfl
  | some v =>
    rw [hget] at hkey
    rw [Option.getD_some, hkey.eq_xorAll]

theorem operands_append (ms ms' : List g.Merge) (key : ℕ) :
    operands g (ms ++ ms') key = operands g ms key ++ operands g ms' key := by
  rw [operands, filter_append, map_append]
  rfl

/-- **Merging at once** is one of the things that a store may do. -/
theorem stored_mergeAll (merges : List g.Merge) : Stored g merges (mergeAll g merges) := by
  induction merges using List.reverseRecOn with
  | nil =>
    intro key
    rfl
  | append_singleton ms m ih =>
    intro key
    have hkey := ih key
    rw [mergeAll, foldl_append, foldl_cons, foldl_nil, ← mergeAll,
      OrdMap.get_insert, operands_append]
    by_cases hm : m.1 = key
    · have hlast : operands g [m] key = [m.2] := by
        rw [operands, filter_cons_of_pos (by simpa using hm)]
        rfl
      rw [if_pos hm.symm, hlast, hm]
      cases hget : (mergeAll g ms).get key with
      | none =>
        rw [hget] at hkey
        rw [hkey]
        exact MergesTo.nonexistent m.2
      | some v =>
        rw [hget] at hkey
        exact MergesTo.merge hkey (MergesTo.nonexistent m.2)
    · have hlast : operands g [m] key = [] := by
        rw [operands, filter_cons_of_neg (by simpa using hm)]
        rfl
      rw [if_neg (Ne.symm hm), hlast, append_nil]
      exact hkey

/-! ## What `_xor` flips -/

theorem decide_xor_decide {p q : Prop} [Decidable p] [Decidable q] (h : ¬ (p ∧ q)) :
    (decide p ^^ decide q) = decide (p ∨ q) := by
  by_cases hp : p <;> by_cases hq : q <;> simp_all

theorem getLsbD_foldl_twoPow (w s n i : ℕ) (v : BitVec w) :
    ((List.range' s n).foldl (fun p i => p ^^^ BitVec.twoPow w i) v).getLsbD i =
      (v.getLsbD i ^^ decide (i < w ∧ s ≤ i ∧ i < s + n)) := by
  induction n generalizing s v with
  | zero =>
    rw [decide_eq_false (by omega), Bool.xor_false]
    rfl
  | succ n ih =>
    rw [List.range'_succ, foldl_cons, ih, BitVec.getLsbD_xor, BitVec.getLsbD_twoPow,
      Bool.xor_assoc, ← Bool.decide_and, decide_xor_decide (by omega)]
    congr 1
    exact decide_eq_decide.mpr (by omega)

variable {s : State g} {length n newSize offset : ℕ}

theorem getLsbD_flipBits {s i : ℕ} (hi : i < g.blocksPerKey) :
    (flipBits g s n).getLsbD i = decide (s ≤ i ∧ i < s + n) := by
  rw [flipBits, getLsbD_foldl_twoPow]
  simp [hi]

/-- The merges for the blocks from `first` to `last`, in terms of blocks. -/
def xorBlocks (g : Geometry) (first last : ℕ) : List g.Merge :=
  if first / g.blocksPerKey = last / g.blocksPerKey then
    [(keyOf g first, flipBits g (first % g.blocksPerKey)
      (last % g.blocksPerKey + 1 - first % g.blocksPerKey))]
  else
    (keyOf g first, flipBits g (first % g.blocksPerKey)
        (g.blocksPerKey - first % g.blocksPerKey)) ::
      ((List.range (last / g.blocksPerKey - first / g.blocksPerKey - 1)).map fun i =>
        ((first / g.blocksPerKey + 1 + i) * g.bytesPerKey, BitVec.allOnes g.blocksPerKey)) ++
      [(keyOf g last, flipBits g 0 (last % g.blocksPerKey + 1))]

theorem p2align_eq (x a : ℕ) : p2align x a = a * (x / a) := Nat.mul_comm _ _

theorem p2align_eq_self_iff {x a : ℕ} (ha : 0 < a) : p2align x a = x ↔ ∃ k, x = a * k := by
  rw [p2align_eq]
  constructor
  · exact fun h => ⟨x / a, h.symm⟩
  · rintro ⟨k, rfl⟩
    rw [Nat.mul_div_cancel_left k ha]

theorem xor_eq (first n : ℕ) (hn : 0 < n) :
    xor g (g.bytesPerBlock * first) (g.bytesPerBlock * n) =
      some (xorBlocks g first (first + n - 1)) := by
  have hb := g.block_pos
  obtain ⟨last, hlast⟩ : ∃ last, first + n = last + 1 := ⟨first + n - 1, by omega⟩
  -- the last byte lies in the last block
  obtain ⟨x, hx⟩ : ∃ x, x = g.bytesPerBlock * last + (g.bytesPerBlock - 1) := ⟨_, rfl⟩
  have hbyte : g.bytesPerBlock * first + g.bytesPerBlock * n - 1 = x := by
    rw [← Nat.mul_add, hlast, Nat.mul_add, mul_one]
    omega
  have hlastBlock : x / g.bytesPerBlock = last := by
    rw [hx, mul_add_div hb, div_eq_of_lt (by omega), add_zero]
  have hfirstKey : p2align (g.bytesPerBlock * first) g.bytesPerKey = keyOf g first := by
    rw [p2align, Geometry.bytesPerKey, Nat.mul_div_mul_left _ _ hb]
    rfl
  have hlastKey : p2align x g.bytesPerKey = keyOf g last := by
    rw [p2align, Geometry.bytesPerKey, ← Nat.div_div_eq_div_mul, hlastBlock]
    rfl
  have hs : g.bytesPerBlock * first % g.bytesPerKey / g.bytesPerBlock =
      first % g.blocksPerKey := by
    rw [Geometry.bytesPerKey, Nat.mod_mul_right_div_self, Nat.mul_div_cancel_left _ hb]
  have he : x % g.bytesPerKey / g.bytesPerBlock = last % g.blocksPerKey := by
    rw [Geometry.bytesPerKey, Nat.mod_mul_right_div_self, hlastBlock]
  have haligned : ¬ (p2align (g.bytesPerBlock * first) g.bytesPerBlock ≠ g.bytesPerBlock * first ∨
      p2align (g.bytesPerBlock * n) g.bytesPerBlock ≠ g.bytesPerBlock * n) := by
    rw [not_or, not_not, not_not]
    exact ⟨(p2align_eq_self_iff hb).mpr ⟨first, rfl⟩, (p2align_eq_self_iff hb).mpr ⟨n, rfl⟩⟩
  rw [xor, if_neg haligned]
  rw [hbyte, hfirstKey, hlastKey, hs, he, hlast, Nat.add_sub_cancel, xorBlocks]
  by_cases hkey : first / g.blocksPerKey = last / g.blocksPerKey
  · rw [if_pos hkey, if_pos (by rw [keyOf, keyOf, hkey])]
  · have hlt : first / g.blocksPerKey < last / g.blocksPerKey :=
      lt_of_le_of_ne (Nat.div_le_div_right (by omega)) hkey
    have hne : keyOf g first ≠ keyOf g last :=
      (mul_lt_mul_of_pos_right hlt g.bytesPerKey_pos).ne
    have hcount : (keyOf g last - keyOf g first) / g.bytesPerKey =
        last / g.blocksPerKey - first / g.blocksPerKey := by
      rw [keyOf, keyOf, ← Nat.sub_mul, Nat.mul_div_cancel _ g.bytesPerKey_pos]
    have hkeys : ∀ i, keyOf g first + (i + 1) * g.bytesPerKey =
        (first / g.blocksPerKey + 1 + i) * g.bytesPerKey := by
      intro i
      rw [keyOf, ← add_mul]
      congr 1
      omega
    rw [if_neg hkey, if_neg hne, hcount, if_neg]
    · simp only [hkeys]
    · rw [not_not, hkeys, keyOf]
      congr 1
      omega

/-! ### Flips of whole blocks -/

theorem keyOf_inj {b c : ℕ} : keyOf g b = keyOf g c ↔ b / g.blocksPerKey = c / g.blocksPerKey := by
  rw [keyOf, keyOf]
  exact ⟨fun h => eq_of_mul_eq_mul_right g.bytesPerKey_pos h, fun h => by rw [h]⟩

theorem flips_singleton (key : ℕ) (v : g.Value) (b : ℕ) :
    flips [(key, v)] b = (decide (key = keyOf g b) && v.getLsbD (b % g.blocksPerKey)) := by
  rw [flips, flips, Bool.xor_false]

theorem flips_middle (k n b : ℕ) :
    flips ((List.range n).map fun i =>
        ((k + i) * g.bytesPerKey, (BitVec.allOnes g.blocksPerKey : g.Value))) b =
      decide (k ≤ b / g.blocksPerKey ∧ b / g.blocksPerKey < k + n) := by
  have hbit : (BitVec.allOnes g.blocksPerKey).getLsbD (b % g.blocksPerKey) = true := by
    rw [BitVec.getLsbD_allOnes]
    exact decide_eq_true (mod_lt _ g.key_pos)
  induction n with
  | zero =>
    rw [decide_eq_false (by omega)]
    rfl
  | succ n ih =>
    have hkey : (k + n) * g.bytesPerKey = keyOf g b ↔ k + n = b / g.blocksPerKey :=
      ⟨fun h => eq_of_mul_eq_mul_right g.bytesPerKey_pos h, fun h => by rw [h]; rfl⟩
    rw [range_succ, map_append, flips_append, ih, map_singleton, flips_singleton,
      hbit, Bool.and_true, decide_eq_decide.mpr hkey]
    rw [decide_xor_decide (by omega)]
    exact decide_eq_decide.mpr (by omega)

theorem le_iff_key_le {w : ℕ} (hw : 0 < w) (a b : ℕ) :
    a ≤ b ↔ a / w < b / w ∨ a / w = b / w ∧ a % w ≤ b % w := by
  have ha := div_add_mod a w
  have hb := div_add_mod b w
  have ham := mod_lt a hw
  have hbm := mod_lt b hw
  rcases lt_trichotomy (a / w) (b / w) with h | h | h
  · have := mul_le_mul_left w (succ_le_of_lt h)
    rw [mul_succ] at this
    omega
  · rw [h] at ha
    omega
  · have := mul_le_mul_left w (succ_le_of_lt h)
    rw [mul_succ] at this
    omega

/-- **`_xor` flips each block of its range once, and no other.** -/
theorem flips_xorBlocks {first last : ℕ} (h : first ≤ last) (b : ℕ) :
    flips (xorBlocks g first last) b = decide (first ≤ b ∧ b ≤ last) := by
  have hw := g.key_pos
  have hmod : b % g.blocksPerKey < g.blocksPerKey := mod_lt _ hw
  have hle := le_iff_key_le hw first b
  have hle' := le_iff_key_le hw b last
  rw [le_iff_key_le hw] at h
  rw [xorBlocks]
  split
  · rename_i hkey
    rw [flips_singleton, decide_eq_decide.mpr keyOf_inj, getLsbD_flipBits hmod,
      ← Bool.decide_and]
    exact decide_eq_decide.mpr (by omega)
  · rename_i hkey
    rw [cons_append, flips, flips_append, flips_middle, flips_singleton,
      decide_eq_decide.mpr keyOf_inj, decide_eq_decide.mpr keyOf_inj, getLsbD_flipBits hmod,
      getLsbD_flipBits hmod, ← Bool.decide_and, ← Bool.decide_and]
    -- no block is flipped twice
    rw [decide_xor_decide (by omega), decide_xor_decide (by omega)]
    exact decide_eq_decide.mpr (by omega)

theorem key_of_mem_xorBlocks {first last : ℕ} {m : g.Merge} (h : first ≤ last)
    (hm : m ∈ xorBlocks g first last) :
    ∃ k, m.1 = k * g.bytesPerKey ∧ k * g.blocksPerKey ≤ last := by
  have hdiv : first / g.blocksPerKey ≤ last / g.blocksPerKey := Nat.div_le_div_right h
  have hle : ∀ k, k ≤ last / g.blocksPerKey → k * g.blocksPerKey ≤ last := fun k hk =>
    (Nat.mul_le_mul_right _ hk).trans (Nat.div_mul_le_self last _)
  rw [xorBlocks] at hm
  split at hm
  · rw [mem_singleton.mp hm]
    exact ⟨first / g.blocksPerKey, rfl, hle _ hdiv⟩
  · rw [cons_append, mem_cons, mem_append, mem_map, mem_singleton] at hm
    rcases hm with rfl | ⟨i, hi, rfl⟩ | rfl
    · exact ⟨first / g.blocksPerKey, rfl, hle _ hdiv⟩
    · rw [mem_range] at hi
      exact ⟨_, rfl, hle _ (by omega)⟩
    · exact ⟨last / g.blocksPerKey, rfl, hle _ le_rfl⟩

/-! ## Runs -/

/-- The number of blocks, rounded up to whole keys. -/
def roundBlocks (g : Geometry) (n : ℕ) : ℕ :=
  if n / g.blocksPerKey * g.blocksPerKey ≠ n then (n / g.blocksPerKey + 1) * g.blocksPerKey else n

theorem lt_next_key (g : Geometry) (n : ℕ) : n < (n / g.blocksPerKey + 1) * g.blocksPerKey := by
  rw [add_mul, one_mul, Nat.mul_comm]
  exact lt_mul_div_succ n g.key_pos |>.trans_eq (by rw [Nat.mul_add, mul_one])

/-- **The blocks behind the end.** -/
theorem xorPastEof_spec (g : Geometry) (n : ℕ) :
    ∃ ms, xorPastEof g (g.bytesPerBlock * n) = some ms ∧
      (∀ b, flips ms b = decide (n ≤ b ∧ b < roundBlocks g n)) ∧
      ∀ m ∈ ms, ∃ k, m.1 = k * g.bytesPerKey ∧ k * g.blocksPerKey < n := by
  have hblocks : g.bytesPerBlock * n / g.bytesPerBlock = n :=
    Nat.mul_div_cancel_left n g.block_pos
  rw [xorPastEof, hblocks, roundBlocks]
  dsimp only
  by_cases hround : n / g.blocksPerKey * g.blocksPerKey ≠ n
  · have hlt := lt_next_key g n
    rw [if_pos hround, if_pos hround]
    set e := (n / g.blocksPerKey + 1) * g.blocksPerKey with he
    have hlength : e * g.bytesPerBlock - g.bytesPerBlock * n = g.bytesPerBlock * (e - n) := by
      rw [Nat.mul_comm, Nat.mul_sub]
    refine ⟨xorBlocks g n (e - 1), ?_, fun b => ?_, fun m hm => ?_⟩
    · rw [hlength, xor_eq n (e - n) (by omega), show n + (e - n) - 1 = e - 1 by omega]
    · rw [flips_xorBlocks (by omega)]
      exact decide_eq_decide.mpr (by omega)
    · obtain ⟨k, hk, hle⟩ := key_of_mem_xorBlocks (by omega) hm
      refine ⟨k, hk, ?_⟩
      -- the one key that reaches beyond the end starts before it
      have hk' : k ≤ n / g.blocksPerKey := by
        have : k * g.blocksPerKey < e := by omega
        exact Nat.lt_succ_iff.mp (Nat.lt_of_mul_lt_mul_right this)
      have hle' := Nat.mul_le_mul_right g.blocksPerKey hk'
      have hn := Nat.div_mul_le_self n g.blocksPerKey
      omega
  · rw [if_neg hround, if_neg hround]
    refine ⟨[], rfl, fun b => ?_, fun m hm => absurd hm not_mem_nil⟩
    exact (decide_eq_false (by omega)).symm

/-- **The invariant of the freelist**, with the number of blocks of the device: a block is flipped if
it is allocated, or lies behind the end in the last key. -/
structure Inv (s : State g) (n : ℕ) : Prop where
  size_eq : s.size = g.bytesPerBlock * n
  allocated_lt : ∀ b ∈ s.allocated, b < n
  bits : ∀ b, flips s.merges b = decide (b ∈ s.allocated ∨ n ≤ b ∧ b < roundBlocks g n)
  keys : ∀ m ∈ s.merges, ∃ k, m.1 = k * g.bytesPerKey ∧ k * g.blocksPerKey < n

theorem create_inv (h : create g newSize = some s) : ∃ n, Inv s n := by
  obtain ⟨ms, hms, hflips, hkeys⟩ := xorPastEof_spec g (newSize / g.bytesPerBlock)
  rw [create, p2align_eq, hms, Option.map_some, Option.some_inj] at h
  subst h
  exact ⟨_, rfl, by simp, fun b => by simpa using hflips b, hkeys⟩

theorem range_blocks (hlength : 0 < length) (hle : offset + length ≤ g.bytesPerBlock * n)
    {ms : List g.Merge} (h : xor g offset length = some ms) :
    ∃ first count, 0 < count ∧ first + count ≤ n ∧
      blocksOf g offset length = Finset.Ico first (first + count) ∧
      ms = xorBlocks g first (first + count - 1) := by
  have haligned : ¬ (p2align offset g.bytesPerBlock ≠ offset ∨
      p2align length g.bytesPerBlock ≠ length) := by
    intro hne
    rw [xor, if_pos hne] at h
    simp at h
  rw [not_or, not_not, not_not] at haligned
  obtain ⟨first, rfl⟩ := (p2align_eq_self_iff g.block_pos).mp haligned.1
  obtain ⟨count, rfl⟩ := (p2align_eq_self_iff g.block_pos).mp haligned.2
  have hcount : 0 < count := Nat.pos_of_mul_pos_left hlength
  rw [xor_eq first count hcount, Option.some_inj] at h
  rw [← Nat.mul_add] at hle
  refine ⟨first, count, hcount, Nat.le_of_mul_le_mul_left hle g.block_pos, ?_, h.symm⟩
  rw [blocksOf, ← Nat.mul_add, Nat.mul_div_cancel_left _ g.block_pos,
    Nat.mul_div_cancel_left _ g.block_pos]

/-- A range of the device is flipped, and with it what is allocated. -/
theorem Inv.flip {first count : ℕ} (hs : Inv s n) (hcount : 0 < count) (hn : first + count ≤ n)
    {allocated : Finset ℕ} (hallocated : ∀ b, b ∈ allocated ↔
      ¬ (b ∈ s.allocated ↔ b ∈ Finset.Ico first (first + count))) :
    Inv ⟨s.size, s.merges ++ xorBlocks g first (first + count - 1), allocated⟩ n := by
  have hrange : ∀ b, b ∈ Finset.Ico first (first + count) ↔ first ≤ b ∧ b ≤ first + count - 1 := by
    intro b
    rw [Finset.mem_Ico]
    omega
  refine ⟨hs.size_eq, ?_, ?_, ?_⟩
  · intro b hb
    have hlt := hs.allocated_lt b
    rw [hallocated, hrange] at hb
    by_cases hold : b ∈ s.allocated
    · exact hlt hold
    · have : first ≤ b ∧ b ≤ first + count - 1 := by tauto
      omega
  · intro b
    have hlt := hs.allocated_lt b
    rw [flips_append, hs.bits, flips_xorBlocks (by omega)]
    have hb := hallocated b
    rw [hrange] at hb
    by_cases hold : b ∈ s.allocated <;> by_cases hin : first ≤ b ∧ b ≤ first + count - 1
    · have := hlt hold
      simp [hold, hin, hb]
      omega
    · simp [hold, hin, hb]
    · have : ¬ n ≤ b := by omega
      simp [hold, hin, hb, this]
    · simp [hold, hin, hb]
  · intro m hm
    rcases mem_append.mp hm with hm | hm
    · exact hs.keys m hm
    · obtain ⟨k, hk, hle⟩ := key_of_mem_xorBlocks (by omega) hm
      exact ⟨k, hk, by omega⟩

/-- A range of bytes is flipped. -/
theorem Inv.xor (hs : Inv s n) (hlength : 0 < length) (hle : offset + length ≤ s.size)
    {ms : List g.Merge} (hms : Freelist.xor g offset length = some ms) {allocated : Finset ℕ}
    (hallocated : ∀ b, b ∈ allocated ↔ ¬ (b ∈ s.allocated ↔ b ∈ blocksOf g offset length)) :
    Inv ⟨s.size, s.merges ++ ms, allocated⟩ n := by
  rw [hs.size_eq] at hle
  obtain ⟨first, count, hcount, hn, hblocks, rfl⟩ := range_blocks hlength hle hms
  rw [hblocks] at hallocated
  exact hs.flip hcount hn hallocated

/-- The device grows: the blocks behind its old end are flipped back. -/
theorem Inv.grow {n' : ℕ} (hs : Inv s n) (hn : n ≤ n') {reset set : List g.Merge}
    (hreset : xorPastEof g (g.bytesPerBlock * n) = some reset)
    (hset : xorPastEof g (g.bytesPerBlock * n') = some set) :
    Inv ⟨g.bytesPerBlock * n', s.merges ++ reset ++ set, s.allocated⟩ n' := by
  obtain ⟨_, hreset', hflips, hkeys⟩ := xorPastEof_spec g n
  obtain ⟨_, hset', hflips', hkeys'⟩ := xorPastEof_spec g n'
  obtain rfl := Option.some_inj.mp (hreset.symm.trans hreset')
  obtain rfl := Option.some_inj.mp (hset.symm.trans hset')
  refine ⟨rfl, fun b hb => (hs.allocated_lt b hb).trans_le hn, fun b => ?_, fun m hm => ?_⟩
  · have hlt := hs.allocated_lt b
    rw [flips_append, flips_append, hs.bits, hflips, hflips']
    by_cases hold : b ∈ s.allocated
    · have := hlt hold
      simp [hold, show ¬ n ≤ b by omega, show ¬ n' ≤ b by omega]
    · simp [hold]
  · rcases mem_append.mp hm with hm | hm
    · obtain ⟨k, hk, hlt⟩ := (mem_append.mp hm).elim (hs.keys m) (hkeys m)
      exact ⟨k, hk, hlt.trans_le hn⟩
    · exact hkeys' m hm

/-- **One call keeps the invariant.** -/
theorem step_inv {s' : State g} {op : Op} (hs : Inv s n) (h : step g s op = some s') :
    ∃ n', Inv s' n' := by
  cases op with
  | expand newSize =>
    rw [step] at h
    split at h
    · rename_i hguard
      obtain ⟨reset, hreset, h⟩ := Option.bind_eq_some_iff.mp h
      obtain ⟨set, hset, rfl⟩ := Option.map_eq_some_iff.mp h
      rw [hs.size_eq] at hguard hreset
      rw [p2align_eq] at hset ⊢
      refine ⟨_, hs.grow ?_ hreset hset⟩
      rw [le_div_iff_mul_le g.block_pos, Nat.mul_comm]
      exact hguard.le
    · simp at h
  | allocate offset length =>
    rw [step] at h
    split at h
    · rename_i hguard
      obtain ⟨hlength, hle, hdisjoint⟩ := hguard
      obtain ⟨ms, hms, rfl⟩ := Option.map_eq_some_iff.mp h
      rw [Finset.disjoint_left] at hdisjoint
      refine ⟨n, hs.xor hlength hle hms fun b => ?_⟩
      rw [Finset.mem_union]
      tauto
    · simp at h
  | release offset length =>
    rw [step] at h
    split at h
    · rename_i hguard
      obtain ⟨hlength, hle, hsub⟩ := hguard
      obtain ⟨ms, hms, rfl⟩ := Option.map_eq_some_iff.mp h
      refine ⟨n, hs.xor hlength hle hms fun b => ?_⟩
      rw [Finset.mem_sdiff]
      tauto
    · simp at h

/-- **The invariant holds after every run.** -/
theorem run_inv {ops : List Op} (h : run g newSize ops = some s) : ∃ n, Inv s n := by
  obtain ⟨s₀, hcreate, hrun⟩ := Option.bind_eq_some_iff.mp h
  refine Transition.invariant_of_run (P := fun s => ∃ n, Inv s n) ?_ hrun (create_inv hcreate)
  rintro s op s' ⟨n, hs⟩ hstep
  exact step_inv hs hstep

/-- What may be called: a larger device, or a range of whole blocks that are all free, or all
allocated. -/
def Permitted (s : State g) : Op → Prop
  | .expand newSize => s.size < newSize
  | .allocate offset length => g.bytesPerBlock ∣ offset ∧ g.bytesPerBlock ∣ length ∧ 0 < length ∧
      offset + length ≤ s.size ∧ Disjoint (blocksOf g offset length) s.allocated
  | .release offset length => g.bytesPerBlock ∣ offset ∧ g.bytesPerBlock ∣ length ∧ 0 < length ∧
      offset + length ≤ s.size ∧ blocksOf g offset length ⊆ s.allocated

theorem xor_isSome (hoffset : g.bytesPerBlock ∣ offset) (hlength : g.bytesPerBlock ∣ length)
    (hpos : 0 < length) : ∃ ms, xor g offset length = some ms := by
  obtain ⟨first, rfl⟩ := hoffset
  obtain ⟨n, rfl⟩ := hlength
  exact ⟨_, xor_eq first n (Nat.pos_of_mul_pos_left hpos)⟩

/-- **No call fails.** -/
theorem Inv.step_isSome (hs : Inv s n) {op : Op} (h : Permitted s op) :
    ∃ s', step g s op = some s' := by
  cases op with
  | expand newSize =>
    obtain ⟨reset, hreset, -⟩ := xorPastEof_spec g n
    obtain ⟨set, hset, -⟩ := xorPastEof_spec g (newSize / g.bytesPerBlock)
    have hlarger : newSize > s.size := h
    refine Option.isSome_iff_exists.mp ?_
    rw [step, if_pos hlarger, hs.size_eq, hreset, Option.bind_some, p2align_eq]
    dsimp only
    rw [hset]
    rfl
  | _ offset length =>
    obtain ⟨hoffset, hlength, hguard⟩ := h
    obtain ⟨ms, hms⟩ := xor_isSome hoffset hlength hguard.1
    exact ⟨_, by rw [step, if_pos hguard, hms, Option.map_some]⟩

end Ceph.BlueStore.Freelist
