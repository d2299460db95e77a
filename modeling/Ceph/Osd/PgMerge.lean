import Ceph.Osd.PgSplit

set_option autoImplicit false

/-! # Merging placement groups, and where the arithmetic of splits ends

When the number of groups of a pool shrinks, a group that is no longer there is merged into its
parent (`is_merge_source`), which is found by taking off the highest bit of the seed until a group
that stays is reached (`get_parent`). That is the group the stable modulo places the seed in.

The loop of `is_split` computes seeds in words of 32 bits. Its rounds reach `splitReach`; for a
number of groups beyond that it never ends.
-/

namespace Ceph.Osd

open Nat LinearHash

namespace Pg

/-- `get_parent`; nothing where the assertion fails. -/
def getParent (pg : Pg) : Option Pg :=
  let bits := cbits pg.seed
  if bits = 0 then none else some { pg with seed := pg.seed &&& splitMask (bits - 1) }

/-- The loop of `is_merge_source`: nothing where an assertion fails. -/
def mergeLoop (newPgNum : UInt32) : Nat → Pg → Option Pg
  | 0, _ => none
  | fuel + 1, t => if t.seed ≥ newPgNum then t.getParent >>= mergeLoop newPgNum fuel else some t

/-- `is_merge_source`: the parent, if the group is merged. Each round of the loop takes a bit off
the seed, so the loop has at most as many rounds as the seed has bits. -/
def isMergeSource (pg : Pg) (oldPgNum newPgNum : UInt32) : Option (Option Pg) :=
  if pg.seed < oldPgNum ∧ pg.seed ≥ newPgNum then
    (mergeLoop newPgNum (cbits pg.seed + 1) pg).map some
  else some none

/-- `get_parent`, so many times. -/
def ancestor (pg : Pg) : Nat → Option Pg
  | 0 => some pg
  | k + 1 => pg.ancestor k >>= getParent

end Pg

/-! ## Merging -/

theorem getParent_eq {pg : Pg} (hpos : 0 < pg.seed.toNat) :
    ∃ t, pg.getParent = some t ∧ t.pool = pg.pool ∧
      t.seed.toNat = pg.seed.toNat % 2 ^ (cbits pg.seed - 1) := by
  obtain ⟨hbits, -, -⟩ := cbits_spec hpos
  have hle : cbits pg.seed ≤ 32 := cbits_le pg.seed.toNat_lt
  refine ⟨_, if_neg (by omega), rfl, ?_⟩
  show (pg.seed &&& splitMask (cbits pg.seed - 1)).toNat = _
  rw [UInt32.toNat_and, splitMask_toNat (by omega), and_two_pow_sub_one_eq_mod]

theorem ancestor_of_parent {pg t : Pg} (h : pg.getParent = some t) (k : Nat) :
    pg.ancestor (k + 1) = t.ancestor k := by
  induction k with
  | zero =>
    show some pg >>= Pg.getParent = some t
    exact h
  | succ k ih =>
    show pg.ancestor (k + 1) >>= Pg.getParent = t.ancestor k >>= Pg.getParent
    rw [ih]

/-- **The loop of `is_merge_source`** ends at the first ancestor that stays, which is where the seed
is placed among the new groups. -/
theorem mergeLoop_spec {new : UInt32} (hpos : 0 < new.toNat) {fuel : Nat} {pg : Pg}
    (hfuel : cbits pg.seed < fuel) :
    ∃ (parent : Pg) (k : Nat), Pg.mergeLoop new fuel pg = some parent ∧ parent.pool = pg.pool ∧
      parent.seed.toNat = address (cbits new) new.toNat pg.seed.toNat ∧
      pg.ancestor k = some parent ∧ parent.seed < new ∧
      ∀ j < k, ∃ q, pg.ancestor j = some q ∧ new ≤ q.seed := by
  have hd := depth_cbits hpos
  induction fuel generalizing pg with
  | zero => omega
  | succ fuel ih =>
    rw [Pg.mergeLoop]
    by_cases hge : pg.seed ≥ new
    · have hge' := UInt32.le_iff_toNat_le.mp hge
      have hseed : 0 < pg.seed.toNat := by omega
      obtain ⟨hbits, -, hhi⟩ := cbits_spec hseed
      obtain ⟨t, ht, hpool, htseed⟩ := getParent_eq hseed
      have hshort : cbits t.seed < fuel := by
        have hle : cbits t.seed ≤ cbits pg.seed - 1 := by
          apply cbits_le
          rw [htseed]
          exact Nat.mod_lt _ (Nat.two_pow_pos _)
        omega
      obtain ⟨parent, k, hloop, hppool, haddr, hanc, hlt, hbefore⟩ := ih hshort
      refine ⟨parent, k + 1, ?_, hppool.trans hpool, ?_, ?_, hlt, ?_⟩
      · rw [if_pos hge, ht]
        exact hloop
      · rw [haddr, htseed]
        exact address_mod_top hd hhi hge'
      · rw [ancestor_of_parent ht, hanc]
      · intro j hj
        cases j with
        | zero => exact ⟨pg, rfl, hge⟩
        | succ j =>
          rw [ancestor_of_parent ht]
          exact hbefore j (by omega)
    · rw [if_neg hge]
      have hlt : pg.seed < new := UInt32.not_le.mp hge
      refine ⟨pg, 0, rfl, rfl, ?_, rfl, hlt, fun j hj => absurd hj (not_lt_zero j)⟩
      exact (address_of_lt hd (UInt32.lt_iff_toNat_lt.mp hlt)).symm

/-! ## Splits that never end -/

theorem round_le_splitReach (old seed n : UInt32) :
    ((n <<< UInt32.ofNat (cbits old - 1)) ||| seed).toNat ≤ splitReach old seed := by
  have hle : cbits old ≤ 32 := cbits_le old.toNat_lt
  have hshift : (UInt32.ofNat (cbits old - 1)).toNat % 32 = cbits old - 1 := by
    rw [UInt32.toNat_ofNat']
    omega
  generalize hs : (n <<< UInt32.ofNat (cbits old - 1)) ||| seed = s
  have hdvd : 2 ^ (cbits old - 1) ∣ 2 ^ 32 := pow_dvd_pow 2 (by omega)
  -- the round decides the high bits only
  have hmod : s.toNat % 2 ^ (cbits old - 1) = seed.toNat % 2 ^ (cbits old - 1) := by
    rw [← hs, UInt32.toNat_or, UInt32.toNat_shiftLeft, hshift, or_mod_two_pow,
      mod_mod_of_dvd _ hdvd, shiftLeft_eq, mul_mod_left, zero_or]
  have hdiv := div_add_mod s.toNat (2 ^ (cbits old - 1))
  have hword := s.toNat_lt
  rw [splitReach, ← hmod]
  generalize 2 ^ (cbits old - 1) = K at *
  obtain ⟨q, hq⟩ := hdvd
  have hlt : s.toNat / K < q := by
    rw [Nat.div_lt_iff_lt_mul (by
      rcases Nat.eq_zero_or_pos K with h0 | h0
      · rw [h0, Nat.zero_mul] at hq
        cases hq
      · exact h0), mul_comm, ← hq]
    exact hword
  have hmul : K * (s.toNat / K) + K ≤ 2 ^ 32 := by
    rw [hq, ← mul_succ]
    exact mul_le_mul_left K hlt
  omega

/-- **The loop of `is_split` does not end** for a number of groups its rounds do not reach. -/
theorem isSplitLoop_eq_none {pg : Pg} {old new : UInt32}
    (hnew : splitReach old pg.seed < new.toNat) (fuel : Nat) (n : UInt32)
    (children : OrdMap UInt32 Unit) : pg.isSplitLoop old new fuel n children = none := by
  induction fuel generalizing n children with
  | zero => rfl
  | succ fuel ih =>
    have hle := round_le_splitReach old pg.seed n
    have hlow : ¬ ((n <<< UInt32.ofNat (cbits old - 1)) ||| pg.seed) ≥ new := by
      rw [ge_iff_le, UInt32.le_iff_toNat_le]
      omega
    rw [Pg.isSplitLoop]
    simp only [if_neg hlow, ih, ite_self]

/-- **Children and parents are those of the stable modulo**, as long as the numbers of groups are
below `2^31` where it is taken and the rounds of `is_split` reach the new one. -/
theorem split_and_merge_arithmetic (pg : Pg) (old new : UInt32) (hseed : pg.seed < old) :
    (old < new → old.toNat < 2 ^ 31 → new.toNat ≤ splitReach old pg.seed →
      ∃ children, pg.isSplit old new = some children ∧ ∀ x, x ∈ children ↔
        old ≤ x ∧ x < new ∧
          (cephStableMod x.toInt32 old.toInt32 (lowMask (cbits old))).toUInt32 = pg.seed) ∧
    (new < old → 1 ≤ new → new.toNat < 2 ^ 31 →
      (pg.seed < new → pg.isMergeSource old new = some none) ∧
      (new ≤ pg.seed → ∃ (parent : Pg) (k : Nat),
        pg.isMergeSource old new = some (some parent) ∧ parent.pool = pg.pool ∧
        parent.seed = (cephStableMod pg.seed.toInt32 new.toInt32 (lowMask (cbits new))).toUInt32 ∧
        pg.ancestor k = some parent ∧ parent.seed < new ∧
        ∀ j < k, ∃ q, pg.ancestor j = some q ∧ new ≤ q.seed)) := by
  constructor
  · intro hlt hold hnew
    have hseed' := UInt32.lt_iff_toNat_lt.mp hseed
    obtain ⟨children, hsplit, hget⟩ := isSplit_spec hseed hlt hold hnew
    refine ⟨children, hsplit, fun x => ?_⟩
    rw [round_test old (by omega) hold, ← hget x, OrdMap.mem_iff_isSome]
    exact Option.isSome_iff_exists.trans ⟨fun ⟨_, h⟩ => h, fun h => ⟨_, h⟩⟩
  · intro hlt hpos hnew
    have hpos' : 0 < new.toNat := UInt32.le_iff_toNat_le.mp hpos
    refine ⟨fun hlow => ?_, fun hge => ?_⟩
    · rw [Pg.isMergeSource, if_neg fun hc => absurd hlow (UInt32.not_lt.mpr hc.2)]
    · obtain ⟨parent, k, hloop, hpool, haddr, hanc, hbelow, hbefore⟩ :=
        mergeLoop_spec hpos' (lt_succ_self (cbits pg.seed))
      have hle : cbits new ≤ 31 := cbits_le hnew
      refine ⟨parent, k, ?_, hpool, ?_, hanc, hbelow, hbefore⟩
      · rw [Pg.isMergeSource, if_pos ⟨hseed, hge⟩, hloop]
        rfl
      · rw [← UInt32.toNat_inj, haddr, cephStableMod_toNat (by omega) pg.seed new hnew]

/-- Twelve groups become thirty and five. -/
theorem split_and_merge_twelve :
    (∃ children, (⟨1, 3⟩ : Pg).isSplit 12 30 = some children ∧ ∀ x, x ∈ children ↔
      12 ≤ x ∧ x < 30 ∧
        (cephStableMod x.toInt32 (12 : UInt32).toInt32 (lowMask (cbits 12))).toUInt32 = 3) ∧
      ∃ (parent : Pg) (k : Nat), (⟨1, 11⟩ : Pg).isMergeSource 12 5 = some (some parent) ∧
        (⟨1, 11⟩ : Pg).ancestor k = some parent :=
  ⟨(split_and_merge_arithmetic ⟨1, 3⟩ 12 30 (by decide)).1 (by decide) (by decide) (by decide), by
    obtain ⟨parent, k, hmerge, -, -, hanc, -⟩ :=
      ((split_and_merge_arithmetic ⟨1, 11⟩ 12 5 (by decide)).2 (by decide) (by decide)
        (by decide)).2 (by decide)
    exact ⟨parent, k, hmerge, hanc⟩⟩

/-- From two groups to `2^32 - 1` the loop of `is_split` never ends, nor from `2^31 + 1` to
`2^31 + 2`; merging into no group at all fails the assertion of `get_parent`; and among `2^31`
groups the parent of `2^31 + 1` is not what the stable modulo of signed words gives. -/
theorem split_and_merge_limits :
    (∀ fuel, (⟨1, 0⟩ : Pg).isSplitLoop 2 4294967295 fuel 1 .empty = none) ∧
      (∀ fuel, (⟨1, 2147483648⟩ : Pg).isSplitLoop 2147483649 2147483650 fuel 1 .empty = none) ∧
      (⟨1, 0⟩ : Pg).isMergeSource 1 0 = none ∧
      (⟨1, 2147483649⟩ : Pg).isMergeSource 2147483650 2147483648 = some (some ⟨1, 1⟩) ∧
      (cephStableMod (2147483649 : UInt32).toInt32 (2147483648 : UInt32).toInt32
        (lowMask (cbits 2147483648))).toUInt32 = 0 := by
  refine ⟨fun fuel => isSplitLoop_eq_none (by decide) fuel 1 .empty,
    fun fuel => isSplitLoop_eq_none (by decide) fuel 1 .empty, by decide, by decide, by decide⟩

end Ceph.Osd
