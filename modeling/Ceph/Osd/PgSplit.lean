import Ceph.Osd.Placement
import Ceph.Osd.Types

set_option autoImplicit false

/-! # Splitting a placement group

When the number of groups of a pool grows, a group finds its children (`is_split`) and hands
each of them the log entries and missing objects with the child's low hash bits
(`split_out_child`, `split_into`). `isSplit_get` describes the children and `splitPgs_spec`
follows the whole split: every entry ends up in the one group its hash is placed in under the
new number, and the split loses and duplicates none.
-/

namespace Ceph.Osd

open MissingSet OrdMap List LinearHash

namespace Pg

/-- The loop of `is_split` from `n` on. The source has no bound on the loop. -/
def isSplitLoop (pg : Pg) (oldPgNum newPgNum : UInt32) : Nat → UInt32 →
    OrdMap UInt32 Unit → Option (OrdMap UInt32 Unit)
  | 0, _, _ => none
  | fuel + 1, n, children =>
    let oldBits := cbits oldPgNum
    let nextBit := n <<< UInt32.ofNat (oldBits - 1)
    let s := nextBit ||| pg.seed
    if s < oldPgNum ∨ s = pg.seed then isSplitLoop pg oldPgNum newPgNum fuel (n + 1) children
    else if s ≥ newPgNum then some children
    else
      let o := (cephStableMod s.toInt32 oldPgNum.toInt32 (lowMask oldBits)).toUInt32
      isSplitLoop pg oldPgNum newPgNum fuel (n + 1)
        (if o = pg.seed then children.insert s () else children)

/-- `is_split`: the seeds of the children, or nothing if the loop does not end in
`new_pg_num + 1` rounds. -/
def isSplit (pg : Pg) (oldPgNum newPgNum : UInt32) : Option (OrdMap UInt32 Unit) :=
  if pg.seed ≥ oldPgNum then some .empty
  else if newPgNum ≤ oldPgNum then some .empty
  else isSplitLoop pg oldPgNum newPgNum (newPgNum.toNat + 1) 1 .empty

end Pg

/-- `~((~0) << split_bits)`. -/
def splitMask (splitBits : Nat) : UInt32 := (~~~((-1 : Int32) <<< Int32.ofNat splitBits)).toUInt32

/-- The test by which `split_out_child` and `split_into` select what goes to the child. -/
def movesTo (child : Pg) (splitBits : Nat) (oid : Soid) : Bool :=
  (oid.val.hash &&& splitMask splitBits) = child.seed

/-- `pg_log_t::split_out_child`: what stays and what the child gets. -/
def PgLog.splitOutChild (l : PgLog) (child : Pg) (splitBits : Nat) : PgLog × PgLog :=
  ({ l with log := l.log.filter fun e => !movesTo child splitBits e.soid },
   { l with log := l.log.filter fun e => movesTo child splitBits e.soid })

/-- One iteration of the loop of `pg_missing_set::split_into`. -/
def MissingSet.splitStep (child : Pg) (splitBits : Nat) (s : MissingSet × MissingSet)
    (e : Soid × MissingItem) : MissingSet × MissingSet :=
  if movesTo child splitBits e.1 then
    (s.1.rmItem e.1, s.2.add e.1 e.2.need e.2.have_ e.2.isDelete)
  else s

/-- `pg_missing_set::split_into`: what stays and what the child gets. -/
def MissingSet.splitInto (m : MissingSet) (child : Pg) (splitBits : Nat)
    (omissing : MissingSet) : MissingSet × MissingSet :=
  m.missing.entries.foldl (MissingSet.splitStep child splitBits)
    (m, { omissing with mayIncludeDeletes := m.mayIncludeDeletes })

/-- The log and missing set of a group. -/
structure PgState where
  log : PgLog
  missing : MissingSet

/-- `PGLog::split_into`, as far as the entries go: what stays and what the child gets. -/
def PgState.splitInto (s : PgState) (child : Pg) (splitBits : Nat) : PgState × PgState :=
  let (log, childLog) := s.log.splitOutChild child splitBits
  let (missing, childMissing) := s.missing.splitInto child splitBits (.empty false)
  (⟨log, missing⟩, ⟨childLog, childMissing⟩)

/-- `OSD::split_pgs`: one child after the other takes its part of what the parent still has.
Nothing where an assertion of `get_split_bits` fails. -/
def splitPgs (pool : UInt64) (pgNum : UInt32) : List UInt32 → PgState →
    Option (PgState × List (UInt32 × PgState))
  | [], parent => some (parent, [])
  | seed :: seeds, parent => do
    let child : Pg := ⟨pool, seed⟩
    let splitBits ← child.getSplitBits pgNum
    let (parent, childState) := parent.splitInto child splitBits
    let (parent, rest) ← splitPgs pool pgNum seeds parent
    return (parent, (seed, childState) :: rest)

/-! ## One child -/

theorem splitMask_toNat {b : Nat} (hb : b < 32) : (splitMask b).toNat = 2 ^ b - 1 := by
  have htable : ∀ b < 32, (splitMask b).toNat = 2 ^ b - 1 := by decide
  exact htable b hb

/-- **The test of a split is placement under the new number of groups.** -/
theorem movesTo_eq (child : Pg) {n : UInt32} (hn : n.toNat < 2 ^ 31) (hs : child.seed < n)
    (oid : Soid) :
    movesTo child (bucketBits (cbits n) n.toNat child.seed.toNat) oid =
      decide (hashToSeed oid.val.hash n = child.seed) := by
  have hle := bucketBits_le child hn
  rw [Bool.eq_iff_iff, decide_eq_true_eq, hashToSeed_eq_iff_bits child hn hs, movesTo,
    decide_eq_true_eq, ← UInt32.toNat_inj, UInt32.toNat_and, splitMask_toNat (by omega),
    Nat.and_two_pow_sub_one_eq_mod]

namespace MissingSet

/-- The loop of `split_into`, as seen by the set that is split and by the set of the child. -/
theorem foldl_splitStep_eq (child : Pg) (bits : Nat) (l : List (Soid × MissingItem))
    (s : MissingSet × MissingSet) :
    l.foldl (splitStep child bits) s =
      ((l.filter fun e => movesTo child bits e.1).foldl (fun m e => m.rmItem e.1) s.1,
        (l.filter fun e => movesTo child bits e.1).foldl (fun m e => m.put e.1 e.2) s.2) := by
  induction l generalizing s with
  | nil => rfl
  | cons e l ih =>
    rw [foldl_cons, ih, filter_cons, splitStep]
    split_ifs <;> rfl

theorem get_foldl_rmItem (l : List (Soid × MissingItem)) (m : MissingSet) (o : Soid) :
    (l.foldl (fun m e => m.rmItem e.1) m).get o = if ∃ e ∈ l, o = e.1 then none else m.get o := by
  induction l generalizing m with
  | nil => simp
  | cons e l ih =>
    rw [foldl_cons, ih, get_rmItem]
    rw [← ite_or]
    simp only [exists_mem_cons_iff, or_comm]

theorem foldl_put_missing (m : MissingSet) (l : List (Soid × MissingItem)) :
    (l.foldl (fun m e => m.put e.1 e.2) m).missing = m.missing.insertPairs l ∧
      (l.foldl (fun m e => m.put e.1 e.2) m).rmissing =
        m.rmissing.insertPairs (l.map fun e => (e.2.need.version, e.1)) := by
  induction l generalizing m with
  | nil => exact ⟨rfl, rfl⟩
  | cons e l ih => exact ih (m.put e.1 e.2)

end MissingSet

/-- **`split_into` on a missing set**, one object at a time. -/
theorem get_splitInto (m : MissingSet) (child : Pg) (b : Nat) (om : MissingSet) (o : Soid) :
    (m.splitInto child b om).1.get o = (if movesTo child b o then none else m.get o) ∧
      (m.splitInto child b om).2.get o =
        (if movesTo child b o then (m.get o).or (om.get o) else om.get o) := by
  rw [MissingSet.splitInto, foldl_splitStep_eq]
  constructor
  · rw [get_foldl_rmItem]
    by_cases hm : movesTo child b o = true
    · cases hget : m.get o with
      | none => simp [hm]
      | some item =>
        have hmem := (mem_entries_iff m.missing o item).mpr hget
        rw [if_pos ⟨_, mem_filter.mpr ⟨hmem, hm⟩, rfl⟩, if_pos hm]
    · rw [if_neg hm, if_neg]
      rintro ⟨e, he, rfl⟩
      exact hm (mem_filter.mp he).2
  · have hupdate := get_update om.missing (m.missing.filter fun o _ => movesTo child b o) o
    rw [MissingSet.get, (foldl_put_missing _ _).1]
    refine hupdate.trans ?_
    rw [get_filter]
    show ((m.get o).filter _).or (om.get o) = _
    by_cases hm : movesTo child b o = true <;> cases m.get o <;> simp [hm]

/-! ## The children

Write `K` for the highest power of two that is at most the old number of groups. Round `n` of
the loop looks at the seed `n * K | m_seed`. -/

/-- The seed round `n` looks at. -/
def candidate (K seed n : Nat) : Nat := K * (n ||| seed / K) + seed % K

theorem or_one (n : Nat) : n ||| 1 = n / 2 * 2 + 1 := by
  have hodd : (n ||| 1) % 2 = 1 := Nat.or_mod_two_eq_one.mpr (.inr rfl)
  have hhalf : (n ||| 1) / 2 = n / 2 := by simp [Nat.or_div_two]
  omega

theorem candidate_eq {k seed n : Nat} : (n * 2 ^ k) ||| seed = candidate (2 ^ k) seed n := by
  have hsplit : seed = 2 ^ k * (seed / 2 ^ k) ||| seed % 2 ^ k := by
    rw [← Nat.two_pow_add_eq_or_of_lt (Nat.mod_lt _ (Nat.two_pow_pos k)), Nat.div_add_mod]
  have hmul : ∀ a, 2 ^ k * a = a <<< k := fun a => by rw [Nat.shiftLeft_eq, Nat.mul_comm]
  calc (n * 2 ^ k) ||| seed
      = (2 ^ k * n) ||| (2 ^ k * (seed / 2 ^ k) ||| seed % 2 ^ k) := by
        rw [← hsplit, Nat.mul_comm]
    _ = (2 ^ k * (n ||| seed / 2 ^ k)) ||| seed % 2 ^ k := by
        rw [← Nat.or_assoc, hmul, hmul, hmul, Nat.shiftLeft_or_distrib]
    _ = candidate (2 ^ k) seed n := by
        rw [← Nat.two_pow_add_eq_or_of_lt (Nat.mod_lt _ (Nat.two_pow_pos k)), candidate]

theorem candidate_mono {K seed m n : Nat} (hseed : seed < 2 * K) (h : m ≤ n) :
    candidate K seed m ≤ candidate K seed n := by
  have hq : seed / K < 2 := Nat.div_lt_of_lt_mul (by rw [Nat.mul_comm]; exact hseed)
  have hle : m ||| seed / K ≤ n ||| seed / K := by
    generalize seed / K = q at hq
    interval_cases q
    · simpa using h
    · rw [or_one, or_one]
      omega
  exact Nat.add_le_add_right (Nat.mul_le_mul_left K hle) _

/-- **Every hash of the group is looked at**, in the round of its high bits. -/
theorem candidate_of_address {p n seed x : Nat} (hp : 0 < p) (hx : address p n x = seed) :
    candidate (2 ^ (p - 1)) seed (x / 2 ^ (p - 1)) = x := by
  unfold address at hx
  rw [two_pow_pred hp, Nat.mul_comm] at hx
  have hr := Nat.mod_lt x (Nat.two_pow_pos (p - 1))
  generalize 2 ^ (p - 1) = K at *
  have hor : x / K ||| x / K % 2 = x / K := by
    rcases Nat.mod_two_eq_zero_or_one (x / K) with h | h
    · rw [h, Nat.or_zero]
    · rw [h, or_one]
      omega
  split_ifs at hx with hin
  · rw [← hx, candidate, Nat.mod_mul_right_div_self, Nat.mod_mul_right_mod, hor, Nat.div_add_mod]
  · rw [← hx, candidate, Nat.div_eq_of_lt hr, Nat.mod_mod, Nat.or_zero, Nat.div_add_mod]

section Children

variable {pg : Pg} {old new : UInt32}

/-- Round `n` looks at `candidate`, as long as its high bits fit a word. -/
theorem round_toNat (pg : Pg) (old : UInt32) (hold : old.toNat < 2 ^ 31) {n : UInt32}
    (hn : 2 ^ (cbits old - 1) * n.toNat < 2 ^ 32) :
    ((n <<< UInt32.ofNat (cbits old - 1)) ||| pg.seed).toNat =
      candidate (2 ^ (cbits old - 1)) pg.seed.toNat n.toNat := by
  have hle : cbits old ≤ 31 := cbits_le hold
  have hshift : (UInt32.ofNat (cbits old - 1)).toNat % 32 = cbits old - 1 := by
    rw [UInt32.toNat_ofNat']
    omega
  have hval : (n <<< UInt32.ofNat (cbits old - 1)).toNat = n.toNat * 2 ^ (cbits old - 1) := by
    rw [UInt32.toNat_shiftLeft, hshift, Nat.shiftLeft_eq]
    exact Nat.mod_eq_of_lt (by rw [Nat.mul_comm]; exact hn)
  rw [UInt32.toNat_or, hval, candidate_eq]

/-- The test of a round is placement under the old number of groups. -/
theorem round_test (old : UInt32) (hpos : 0 < old.toNat) (hold : old.toNat < 2 ^ 31) (s : UInt32) :
    (cephStableMod s.toInt32 old.toInt32 (lowMask (cbits old))).toUInt32 = hashToSeed s old := by
  have hle : cbits old ≤ 31 := cbits_le hold
  rw [← UInt32.toNat_inj, cephStableMod_toNat (by omega) s old hold,
    hashToSeed_toNat s old hpos hold]

/-- The largest seed a round can look at: the high bits of the round are all ones. -/
def splitReach (old seed : UInt32) : Nat :=
  2 ^ 32 - 2 ^ (cbits old - 1) + seed.toNat % 2 ^ (cbits old - 1)

/-- **The loop of `is_split`** ends if its rounds can reach the new number of groups, and adds to
the children the seeds of all rounds before the first one that does, if they pass the test. -/
theorem isSplitLoop_spec (hseed : pg.seed < old) (hlt : old < new) (hold : old.toNat < 2 ^ 31)
    (hnew : new.toNat ≤ splitReach old pg.seed) (fuel : Nat) (n : UInt32)
    (children : OrdMap UInt32 Unit) (hfuel : fuel + n.toNat = new.toNat + 2) (hn1 : 1 ≤ n.toNat)
    (hn : 2 ^ (cbits old - 1) * (n.toNat - 1) < new.toNat)
    (hfits : 2 ^ (cbits old - 1) * n.toNat < 2 ^ 32) :
    ∃ c, pg.isSplitLoop old new fuel n children = some c ∧ ∀ x : UInt32,
      c.get x = some () ↔ children.get x = some () ∨
        (old ≤ x ∧ x < new ∧ hashToSeed x old = pg.seed) ∧
          n.toNat ≤ x.toNat / 2 ^ (cbits old - 1) := by
  rw [UInt32.lt_iff_toNat_lt] at hseed hlt
  obtain ⟨hp, hlo, hhi⟩ := cbits_spec (v := old) (by omega)
  rw [two_pow_pred hp] at hhi
  have hround := fun n hn => round_toNat pg old (by omega) (n := n) hn
  have htest := round_test old (by omega) (by omega)
  have hKpos := Nat.two_pow_pos (cbits old - 1)
  have hdvd : 2 ^ (cbits old - 1) ∣ 2 ^ 32 :=
    Nat.pow_dvd_pow 2 (by have := cbits_le hold; omega)
  have hfound : ∀ x, hashToSeed x old = pg.seed →
      candidate (2 ^ (cbits old - 1)) pg.seed.toNat (x.toNat / 2 ^ (cbits old - 1)) = x.toNat := by
    intro x hx
    refine candidate_of_address (n := old.toNat) hp ?_
    rw [← hashToSeed_toNat x old (by omega) (by omega), hx]
  rw [splitReach] at hnew
  generalize 2 ^ (cbits old - 1) = K at *
  induction fuel generalizing n children with
  | zero =>
    -- the rounds before the new number of groups are fewer than the fuel
    have hle : n.toNat - 1 ≤ K * (n.toNat - 1) := Nat.le_mul_of_pos_left _ hKpos
    omega
  | succ fuel ih =>
    have hs := hround n hfits
    have hle' : K * n.toNat + pg.seed.toNat % K ≤ candidate K pg.seed.toNat n.toNat :=
      Nat.add_le_add_right (Nat.mul_le_mul_left K Nat.left_le_or) _
    -- a round that stays below the new number of groups is not the last that fits
    have hstep : ∀ (children : OrdMap UInt32 Unit),
        candidate K pg.seed.toNat n.toNat < new.toNat →
        ∃ c, pg.isSplitLoop old new fuel (n + 1) children = some c ∧ ∀ x : UInt32,
          c.get x = some () ↔ children.get x = some () ∨
            (old ≤ x ∧ x < new ∧ hashToSeed x old = pg.seed) ∧ n.toNat + 1 ≤ x.toNat / K := by
      intro children hbelow
      have hmore : K * (n.toNat + 1) < 2 ^ 32 := by
        obtain ⟨q, hq⟩ := hdvd
        have hlt : n.toNat < q := Nat.lt_of_mul_lt_mul_left (hq ▸ hfits)
        have hne : n.toNat + 1 ≠ q := by
          intro heq
          rw [hq, ← heq, Nat.mul_succ] at hnew
          omega
        rw [hq]
        exact Nat.mul_lt_mul_of_pos_left (by omega) hKpos
      have hsucc : (n + 1).toNat = n.toNat + 1 := by
        have hword : n.toNat + 1 ≤ K * (n.toNat + 1) := Nat.le_mul_of_pos_left _ hKpos
        rw [UInt32.toNat_add]
        show (n.toNat + 1) % 2 ^ 32 = _
        omega
      have h := ih (n + 1) children (by omega) (by omega)
        (by rw [hsucc, Nat.add_sub_cancel]; omega) (by rw [hsucc]; exact hmore)
      rw [hsucc] at h
      exact h
    unfold Pg.isSplitLoop
    simp only [htest]
    generalize hsdef : (n <<< UInt32.ofNat (cbits old - 1)) ||| pg.seed = s at *
    -- this round is the one of its own seed only
    have hlater : ∀ x, x ≠ s → hashToSeed x old = pg.seed →
        (n.toNat + 1 ≤ x.toNat / K ↔ n.toNat ≤ x.toNat / K) := by
      intro x hne hx
      have hround : n.toNat ≠ x.toNat / K := by
        intro heq
        rw [heq, hfound x hx] at hs
        exact hne (UInt32.toNat_inj.mp hs).symm
      omega
    by_cases hskip : s < old ∨ s = pg.seed
    · -- not a new group
      rw [if_pos hskip]
      have hlow : s.toNat < old.toNat := by
        rcases hskip with h | h
        · exact UInt32.lt_iff_toNat_lt.mp h
        · rw [h]
          exact hseed
      obtain ⟨c, hc, hget⟩ := hstep children (by omega)
      refine ⟨c, hc, fun x => ?_⟩
      rw [hget x]
      refine or_congr_right (and_congr_right fun h => hlater x ?_ h.2.2)
      rintro rfl
      exact absurd (UInt32.le_iff_toNat_le.mp h.1) (by omega)
    · rw [if_neg hskip]
      by_cases hend : s ≥ new
      · -- the loop ends: all later seeds are at least as large
        rw [if_pos hend]
        refine ⟨children, rfl, fun x => (or_iff_left ?_).symm⟩
        rintro ⟨⟨-, hx, hx'⟩, hm⟩
        have hmono := candidate_mono (show pg.seed.toNat < 2 * K by omega) hm
        rw [hfound x hx', ← hs] at hmono
        exact absurd (hend.trans (UInt32.le_iff_toNat_le.mpr hmono)) (UInt32.not_le.mpr hx)
      · rw [if_neg hend]
        have hbelow : s < new := UInt32.not_le.mp hend
        have hlow := UInt32.lt_iff_toNat_lt.mp hbelow
        have hhigh : old ≤ s := UInt32.not_lt.mp (fun h => hskip (.inl h))
        obtain ⟨c, hc, hget⟩ := hstep
          (if hashToSeed s old = pg.seed then children.insert s () else children) (by omega)
        refine ⟨c, hc, fun x => ?_⟩
        rw [hget x]
        by_cases hx : x = s
        · subst hx
          have hthis : n.toNat ≤ x.toNat / K := by
            rw [Nat.le_div_iff_mul_le hKpos, Nat.mul_comm]
            omega
          by_cases htst : hashToSeed x old = pg.seed
          · simp [htst, get_insert, hhigh, hbelow, hthis]
          · simp [htst]
        · refine or_congr ?_ (and_congr_right fun h => hlater x hx h.2.2)
          split_ifs
          · rw [get_insert, if_neg hx]
          · exact Iff.rfl

/-- **The children of a group** are the new groups whose own seed the old number of groups
places in it. -/
theorem isSplit_spec (hseed : pg.seed < old) (hlt : old < new) (hold : old.toNat < 2 ^ 31)
    (hnew : new.toNat ≤ splitReach old pg.seed) :
    ∃ c, pg.isSplit old new = some c ∧ ∀ x : UInt32,
      c.get x = some () ↔ old ≤ x ∧ x < new ∧ hashToSeed x old = pg.seed := by
  have hseed' := UInt32.lt_iff_toNat_lt.mp hseed
  have hlt' := UInt32.lt_iff_toNat_lt.mp hlt
  have hone : (1 : UInt32).toNat = 1 := rfl
  obtain ⟨hp, hlo, -⟩ := cbits_spec (v := old) (by omega)
  unfold Pg.isSplit
  rw [if_neg (UInt32.not_le.mpr hseed), if_neg (UInt32.not_le.mpr hlt)]
  obtain ⟨c, hc, hget⟩ := isSplitLoop_spec hseed hlt hold hnew
    (new.toNat + 1) 1 .empty (by rw [hone]) (by rw [hone]) (by rw [hone]; simp; omega)
    (by rw [hone, Nat.mul_one]; omega)
  refine ⟨c, hc, fun x => ?_⟩
  rw [hget x, get_empty, hone]
  refine ⟨fun h => (h.resolve_left nofun).1, fun h => .inr ⟨h, ?_⟩⟩
  have hge := UInt32.le_iff_toNat_le.mp h.1
  exact (Nat.one_le_div_iff (Nat.two_pow_pos _)).mpr (by omega)

theorem lt_splitReach (hold : old.toNat < 2 ^ 31) (seed : UInt32) :
    2 ^ 31 < splitReach old seed := by
  have hle : 2 ^ (cbits old - 1) ≤ 2 ^ 30 :=
    Nat.pow_le_pow_right (by omega) (by have := cbits_le hold; omega)
  unfold splitReach
  omega

theorem isSplit_get (hseed : pg.seed < old) (hle : old ≤ new) (hnew : new.toNat < 2 ^ 31) :
    ∃ c, pg.isSplit old new = some c ∧ ∀ x : UInt32,
      c.get x = some () ↔ old ≤ x ∧ x < new ∧ hashToSeed x old = pg.seed := by
  have hle' := UInt32.le_iff_toNat_le.mp hle
  by_cases hgrow : new ≤ old
  · unfold Pg.isSplit
    rw [if_neg (UInt32.not_le.mpr hseed), if_pos hgrow]
    refine ⟨.empty, rfl, fun x => ?_⟩
    rw [get_empty]
    constructor
    · intro h
      cases h
    · rintro ⟨h1, h2, -⟩
      exact absurd (lt_of_lt_of_le h2 (hgrow.trans h1)) (lt_irrefl x)
  · have hold : old.toNat < 2 ^ 31 := by omega
    have hreach := lt_splitReach hold pg.seed
    exact isSplit_spec hseed (UInt32.not_le.mp hgrow) hold (by omega)

end Children

/-! ## The whole split -/

/-- The part of a state that belongs to the objects with the given placement. -/
def PgState.restrict (s : PgState) (p : Soid → Bool) : PgState :=
  { log := { s.log with log := s.log.log.filter fun e => p e.soid }
    missing := { s.missing with missing := s.missing.missing.filter fun o _ => p o } }

/-- The same log, and the same items missing. -/
def PgState.SameEntries (s t : PgState) : Prop :=
  s.log = t.log ∧ ∀ o, s.missing.get o = t.missing.get o

theorem PgState.get_restrict (s : PgState) (p : Soid → Bool) (o : Soid) :
    (s.restrict p).missing.get o = if p o then s.missing.get o else none := by
  show (s.missing.missing.filter _).get o = _
  rw [get_filter]
  show (s.missing.get o).filter (fun _ => p o) = _
  cases s.missing.get o with
  | none => simp
  | some item => simp [Option.filter_some]

/-- What is placed in a group. -/
def placedIn (n seed : UInt32) (o : Soid) : Bool := hashToSeed o.val.hash n = seed

/-- **`split_into` moves exactly what is placed in the child** and keeps the rest. -/
theorem PgState.splitInto_spec (s : PgState) (child : Pg) {n : UInt32}
    (hn : n.toNat < 2 ^ 31) (hs : child.seed < n) :
    (s.splitInto child (bucketBits (cbits n) n.toNat child.seed.toNat)).1.SameEntries
        (s.restrict fun o => !placedIn n child.seed o) ∧
      (s.splitInto child (bucketBits (cbits n) n.toNat child.seed.toNat)).2.SameEntries
        (s.restrict (placedIn n child.seed)) := by
  have hmoves := movesTo_eq child hn hs
  generalize bucketBits (cbits n) n.toNat child.seed.toNat = b at *
  have hget := get_splitInto s.missing child b (.empty false)
  refine ⟨⟨?_, fun o => ?_⟩, ⟨?_, fun o => ?_⟩⟩
  · simp [PgState.splitInto, PgLog.splitOutChild, PgState.restrict, hmoves, placedIn]
  · show (s.missing.splitInto child b (.empty false)).1.get o = _
    rw [(hget o).1, PgState.get_restrict, hmoves, placedIn]
    by_cases h : hashToSeed o.val.hash n = child.seed <;> simp [h]
  · simp [PgState.splitInto, PgLog.splitOutChild, PgState.restrict, hmoves, placedIn]
  · show (s.missing.splitInto child b (.empty false)).2.get o = _
    have hempty : (MissingSet.empty false).get o = none := rfl
    rw [(hget o).2, PgState.get_restrict, hmoves, placedIn, hempty]
    by_cases h : hashToSeed o.val.hash n = child.seed <;> simp [h]

open PgState

theorem PgState.SameEntries.trans {s t u : PgState} (h : s.SameEntries t)
    (h' : t.SameEntries u) : s.SameEntries u :=
  ⟨h.1.trans h'.1, fun o => (h.2 o).trans (h'.2 o)⟩

theorem PgState.SameEntries.restrict {s t : PgState} (h : s.SameEntries t) (p : Soid → Bool) :
    (s.restrict p).SameEntries (t.restrict p) := by
  refine ⟨?_, fun o => ?_⟩
  · show PgLog.mk _ _ _ _ _ _ = PgLog.mk _ _ _ _ _ _
    rw [h.1]
  · rw [get_restrict, get_restrict, h.2]

/-- Restricting twice is restricting to both, in any form that selects the same objects. -/
theorem PgState.restrict_restrict (s : PgState) {p q r : Soid → Bool}
    (hr : ∀ o, r o = (p o && q o)) : ((s.restrict p).restrict q).SameEntries (s.restrict r) := by
  refine ⟨?_, fun o => ?_⟩
  · simp only [restrict, filter_filter]
    congr 2
    funext e
    rw [hr, Bool.and_comm]
  · rw [get_restrict, get_restrict, get_restrict, hr]
    cases p o <;> cases q o <;> simp

/-- **A split in any number of children.** Each child gets what is placed in it, the parent
keeps what is placed in none, and the log is distributed without loss or duplication. -/
theorem splitPgs_spec (pool : UInt64) {n : UInt32} (hn : n.toNat < 2 ^ 31)
    (seeds : List UInt32) (hlt : ∀ c ∈ seeds, c < n) (hnodup : seeds.Nodup) (s : PgState) :
    ∃ parent kids, splitPgs pool n seeds s = some (parent, kids) ∧
      parent.SameEntries (s.restrict fun o => !decide (hashToSeed o.val.hash n ∈ seeds)) ∧
      kids.map Prod.fst = seeds ∧
      (∀ k ∈ kids, k.2.SameEntries (s.restrict (placedIn n k.1))) ∧
      s.log.log.Perm (parent.log.log ++ kids.flatMap fun k => k.2.log.log) := by
  induction seeds generalizing s with
  | nil =>
    refine ⟨s, [], rfl, ⟨?_, fun o => ?_⟩, rfl, by simp, by simp⟩
    · simp [restrict]
    · simp [get_restrict]
  | cons c seeds ih =>
    obtain ⟨hc, hnodup'⟩ := nodup_cons.mp hnodup
    have hcn : c < n := hlt c (by simp)
    have hpos : 0 < n.toNat := by
      have := UInt32.lt_iff_toNat_lt.mp hcn
      omega
    obtain ⟨hstay, hmove⟩ := splitInto_spec s ⟨pool, c⟩ hn hcn
    obtain ⟨parent, kids, hrun, hparent, hseeds, hkids, hperm⟩ :=
      ih (fun c' hc' => hlt c' (by simp [hc'])) hnodup'
        (s.splitInto ⟨pool, c⟩ (bucketBits (cbits n) n.toNat c.toNat)).1
    refine ⟨parent, (c, (s.splitInto ⟨pool, c⟩ (bucketBits (cbits n) n.toNat c.toNat)).2) ::
      kids, ?_, ?_, ?_, ?_, ?_⟩
    · rw [splitPgs, getSplitBits_eq ⟨pool, c⟩ hpos hn]
      simp [hrun]
    · refine hparent.trans ((hstay.restrict _).trans (restrict_restrict s fun o => ?_))
      by_cases h : hashToSeed o.val.hash n = c <;> simp [placedIn, h]
    · rw [map_cons, hseeds]
    · intro k hk
      rcases mem_cons.mp hk with rfl | hk
      · exact hmove
      · -- a later child takes nothing that the first one took
        have hne : k.1 ≠ c := by
          intro h
          apply hc
          rw [← hseeds, ← h]
          exact mem_map_of_mem hk
        refine (hkids k hk).trans ((hstay.restrict _).trans
          (restrict_restrict s fun o => ?_))
        by_cases h : hashToSeed o.val.hash n = k.1
        · simp [placedIn, h, hne]
        · simp [placedIn, h]
    · rw [flatMap_cons]
      generalize bucketBits (cbits n) n.toNat c.toNat = b at *
      have hpart : s.log.log.Perm ((s.splitInto ⟨pool, c⟩ b).2.log.log ++
          (s.splitInto ⟨pool, c⟩ b).1.log.log) :=
        (filter_append_perm (fun e : LogEntry => movesTo ⟨pool, c⟩ b e.soid) _).symm
      exact (hpart.trans (hperm.append_left _)).trans (perm_append_comm_assoc _ _ _)

theorem hashToSeed_of_lt {x n : UInt32} (hn : n.toNat < 2 ^ 31) (hx : x < n) :
    hashToSeed x n = x := by
  have hx' := UInt32.lt_iff_toNat_lt.mp hx
  rw [← UInt32.toNat_inj, hashToSeed_toNat x n (by omega) hn]
  exact address_of_lt (depth_cbits (by omega)) hx'

/-- Placement under the old number of groups can be read off placement under the new one. -/
theorem hashToSeed_hashToSeed (h : UInt32) {old new : UInt32} (hpos : 0 < old.toNat)
    (hle : old ≤ new) (hnew : new.toNat < 2 ^ 31) :
    hashToSeed (hashToSeed h new) old = hashToSeed h old := by
  have hle' := UInt32.le_iff_toNat_le.mp hle
  rw [← UInt32.toNat_inj, hashToSeed_toNat _ old hpos (by omega),
    hashToSeed_toNat h old hpos (by omega), hashToSeed_toNat h new (by omega) hnew]
  exact address_address (depth_cbits hpos) (depth_cbits (by omega)) hle'

/-- A hash of the parent either stays or moves to one of the children. -/
theorem placed_parent_iff {pg : Pg} {old new : UInt32} (hseed : pg.seed < old) (hle : old ≤ new)
    (hnew : new.toNat < 2 ^ 31) {h : UInt32} (hh : hashToSeed h old = pg.seed) :
    hashToSeed h new = pg.seed ↔
      ¬ (old ≤ hashToSeed h new ∧ hashToSeed h new < new ∧
        hashToSeed (hashToSeed h new) old = pg.seed) := by
  have hseed' := UInt32.lt_iff_toNat_lt.mp hseed
  have hle' := UInt32.le_iff_toNat_le.mp hle
  have hback := hashToSeed_hashToSeed h (by omega : 0 < old.toNat) hle hnew
  have hlt := hashToSeed_lt h new (by omega) hnew
  rw [hh] at hback
  constructor
  · rintro heq ⟨h1, -, -⟩
    rw [heq] at h1
    exact absurd (lt_of_lt_of_le hseed h1) (lt_irrefl _)
  · intro hno
    have hlow : hashToSeed h new < old := by
      by_contra hc
      exact hno ⟨not_lt.mp hc, hlt, hback⟩
    rw [hashToSeed_of_lt (by omega) hlow] at hback
    exact hback

/-- The log entries and missing objects of a state are those of one group. -/
def PgState.PlacedIn (s : PgState) (n seed : UInt32) : Prop :=
  (∀ e ∈ s.log.log, placedIn n seed e.soid = true) ∧
    ∀ o, (s.missing.get o).isSome → placedIn n seed o = true

theorem PgState.restrict_congr {s : PgState} {n seed : UInt32} (hs : s.PlacedIn n seed)
    {p q : Soid → Bool} (hpq : ∀ o, placedIn n seed o = true → p o = q o) :
    (s.restrict p).SameEntries (s.restrict q) := by
  refine ⟨?_, fun o => ?_⟩
  · have hfilter : s.log.log.filter (fun e => p e.soid) =
        s.log.log.filter (fun e => q e.soid) :=
      filter_congr (fun e he => hpq e.soid (hs.1 e he))
    show PgLog.mk _ _ _ _ _ _ = PgLog.mk _ _ _ _ _ _
    rw [hfilter]
  · rw [get_restrict, get_restrict]
    cases hget : s.missing.get o with
    | none => simp
    | some item => rw [hpq o (hs.2 o (by simp [hget]))]

/-- **Ranges and splits follow placement.** For every number of groups below `2^31`, the range
of a group holds the objects placed in it (nameless snapshots apart); a child takes exactly
what is placed in it under the new number; and the split of a group into all its children
gives each object to the group it is placed in and distributes the log without loss or
duplication. -/
theorem ranges_and_splits_follow_placement (pg : Pg) (old new : UInt32)
    (hseed : pg.seed < old) (hle : old ≤ new) (hnew : new.toNat < 2 ^ 31) :
    (∀ o : Hobject, o.max = false → o.pool = pg.pool.toInt64 → ¬ Nameless o →
      (hashToSeed o.hash old = pg.seed ↔ InRange pg old o)) ∧
    (∀ child : Pg, child.seed < new → ∃ bits, child.getSplitBits new = some bits ∧
      ∀ s : PgState,
        (s.splitInto child bits).1.SameEntries (s.restrict fun o => !placedIn new child.seed o) ∧
        (s.splitInto child bits).2.SameEntries (s.restrict (placedIn new child.seed))) ∧
    (∃ children, pg.isSplit old new = some children ∧
      (∀ x, children.get x = some () ↔ old ≤ x ∧ x < new ∧ hashToSeed x old = pg.seed) ∧
      ∀ s : PgState, s.PlacedIn old pg.seed →
        ∃ parent kids,
          splitPgs pg.pool new (children.entries.map Prod.fst) s = some (parent, kids) ∧
          parent.SameEntries (s.restrict (placedIn new pg.seed)) ∧
          kids.map Prod.fst = children.entries.map Prod.fst ∧
          (∀ k ∈ kids, k.2.SameEntries (s.restrict (placedIn new k.1))) ∧
          s.log.log.Perm (parent.log.log ++ kids.flatMap fun k => k.2.log.log)) := by
  have hseed' := UInt32.lt_iff_toNat_lt.mp hseed
  have hle' := UInt32.le_iff_toNat_le.mp hle
  refine ⟨?_, ?_, ?_⟩
  · intro o hmax hpool hname
    rw [inRange_iff pg (by omega) hseed o hmax hpool]
    exact ⟨.inl, fun h => h.resolve_right (fun hc => hname hc.1)⟩
  · intro child hchild
    exact ⟨_, getSplitBits_eq child (by omega) hnew,
      fun s => splitInto_spec s child hnew hchild⟩
  · obtain ⟨children, hsplit, hget⟩ := isSplit_get hseed hle hnew
    refine ⟨children, hsplit, hget, fun s hs => ?_⟩
    have hmem : ∀ x, x ∈ children.entries.map Prod.fst ↔ children.get x = some () := by
      intro x
      rw [← mem_entries_iff, mem_map]
      constructor
      · rintro ⟨⟨y, u⟩, hy, rfl⟩
        exact hy
      · intro hx
        exact ⟨(x, ()), hx, rfl⟩
    have hnodup : (children.entries.map Prod.fst).Nodup :=
      pairwise_map.mpr (children.sorted.imp fun h => h.ne)
    obtain ⟨parent, kids, hrun, hparent, hseeds, hkids, hperm⟩ :=
      splitPgs_spec pg.pool hnew (children.entries.map Prod.fst)
        (fun c hc => ((hget c).mp ((hmem c).mp hc)).2.1) hnodup s
    refine ⟨parent, kids, hrun, hparent.trans ?_, hseeds, hkids, hperm⟩
    -- what is placed in no child is placed in the parent
    refine restrict_congr hs fun o ho => ?_
    have hplace := placed_parent_iff hseed hle hnew (of_decide_eq_true ho)
    rw [← hget, ← hmem] at hplace
    simp only [placedIn, hplace, decide_not]

/-- Three groups grow to five: group 1 splits into group 3 (group 4 comes from group 0). -/
theorem ranges_and_splits_follow_placement_three_five :
    ∃ children, Pg.isSplit ⟨7, 1⟩ 3 5 = some children ∧
      (∀ x, children.get x = some () ↔ 3 ≤ x ∧ x < 5 ∧ hashToSeed x 3 = 1) := by
  obtain ⟨-, -, children, hsplit, hget, -⟩ :=
    ranges_and_splits_follow_placement ⟨7, 1⟩ 3 5 (by decide) (by decide) (by decide)
  exact ⟨children, hsplit, hget⟩

/-- **Where the range is not the group.** With two groups, the snapshot 0 of an object without
a name and with hash 1 is placed in group 1 but lies in the range of group 0. With `2^31`
groups the `int` comparison of `ceph_stable_mod` sees a negative number of groups, and hash
`2^30` is placed in group 0 although it lies in the range of group `2^30`. -/
theorem range_differs_from_placement :
    (InRange ⟨7, 0⟩ 2 (Hobject.mk' [] [] 0 1 7 []) ∧ hashToSeed 1 2 = 1) ∧
    (InRange ⟨7, 0x40000000⟩ 0x80000000 (Hobject.mk' [0x61] [] noSnap 0x40000000 7 []) ∧
      hashToSeed 0x40000000 0x80000000 = 0) := by
  refine ⟨⟨⟨_, rfl, ?_, ?_⟩, ?_⟩, ⟨⟨_, rfl, ?_, ?_⟩, ?_⟩⟩
  all_goals decide

/-- A part of a state that has all that is placed in a child gives the child what the state does. -/
theorem PgState.SameEntries.splitInto {s t : PgState} {p : Soid → Bool}
    (h : t.SameEntries (s.restrict p)) (child : Pg) {n : UInt32} (hn : n.toNat < 2 ^ 31)
    (hs : child.seed < n) (hp : ∀ o, placedIn n child.seed o = true → p o = true) :
    (t.splitInto child (bucketBits (cbits n) n.toNat child.seed.toNat)).2.SameEntries
      (s.splitInto child (bucketBits (cbits n) n.toNat child.seed.toNat)).2 := by
  have hwhole := (splitInto_spec s child hn hs).2
  refine ((splitInto_spec t child hn hs).2.trans (h.restrict _)).trans
    ((restrict_restrict s fun o => ?_).trans ⟨hwhole.1.symm, fun o => (hwhole.2 o).symm⟩)
  cases ho : placedIn n child.seed o with
  | false => rw [Bool.and_false]
  | true => rw [hp o ho, Bool.and_self]

/-- **Splits compose.** A child is split off when the number of groups grows to `mid`. When it grows
to `new`, the group `x` is split off the child or off the rest, wherever its objects were, and gets
what one split to `new` gives it. It does not matter in how many steps a pool grows. -/
theorem splitInto_splitInto (s : PgState) (pool : UInt64) {mid new c x : UInt32} (hc : c < mid)
    (hle : mid ≤ new) (hnew : new.toNat < 2 ^ 31) (hx : x < new) :
    ∃ bits bits', (Pg.mk pool c).getSplitBits mid = some bits ∧
      (Pg.mk pool x).getSplitBits new = some bits' ∧
      ((if hashToSeed x mid = c then (s.splitInto ⟨pool, c⟩ bits).2
        else (s.splitInto ⟨pool, c⟩ bits).1).splitInto ⟨pool, x⟩ bits').2.SameEntries
        (s.splitInto ⟨pool, x⟩ bits').2 := by
  have hc' := UInt32.lt_iff_toNat_lt.mp hc
  have hle' := UInt32.le_iff_toNat_le.mp hle
  refine ⟨_, _, getSplitBits_eq _ (by omega) (by omega), getSplitBits_eq _ (by omega) hnew, ?_⟩
  have hfirst := splitInto_spec s ⟨pool, c⟩ (by omega) hc
  have hplace : ∀ o, placedIn new x o = true → hashToSeed o.val.hash mid = hashToSeed x mid := by
    intro o ho
    rw [← hashToSeed_hashToSeed _ (by omega) hle hnew, of_decide_eq_true ho]
  split_ifs with h
  · exact hfirst.2.splitInto _ hnew hx fun o ho => decide_eq_true ((hplace o ho).trans h)
  · exact hfirst.1.splitInto _ hnew hx fun o ho => by simp [placedIn, hplace o ho, h]

/-- An object with a hash. -/
def hashedObject (hash : UInt32) : Soid :=
  ⟨.mk' [0x61] [] noSnap hash 7 [], ⟨Hobject.canonical_mk' _ _ _ _ _ _, by simp [Hobject.mk']⟩⟩

/-- A write to it. -/
def hashedEntry (hash : UInt32) (version : Eversion) : LogEntry :=
  { op := .modify, soid := hashedObject hash, version, priorVersion := .zero
    revertingTo := .zero, userVersion := 0, reqid := ⟨0, 0, 0, 0⟩, extraReqids := []
    extraReqidReturnCodes := .empty, mtime := (0, 0), returnCode := 0, snaps := []
    modDesc := ⟨false, false, 0, []⟩ }

/-- Group 1 of three becomes groups 1 and 3 of five, with an entry and a missing object each, and an
entry of group 2. Group 3 gets its own. -/
theorem splitInto_splitInto_three_five :
    let log := [hashedEntry 1 ⟨1, 1⟩, hashedEntry 3 ⟨1, 2⟩, hashedEntry 2 ⟨1, 3⟩]
    let missing := ((MissingSet.empty false).put (hashedObject 1) ⟨⟨1, 1⟩, .zero, false⟩).put
      (hashedObject 3) ⟨⟨1, 2⟩, .zero, false⟩
    let s : PgState := ⟨⟨⟨1, 3⟩, .zero, .zero, .zero, log, []⟩, missing⟩
    ∃ bits bits', (Pg.mk 7 1).getSplitBits 3 = some bits ∧ (Pg.mk 7 3).getSplitBits 5 = some bits' ∧
      ((s.splitInto ⟨7, 1⟩ bits).2.splitInto ⟨7, 3⟩ bits').2.SameEntries
        (s.splitInto ⟨7, 3⟩ bits').2 ∧
      (s.splitInto ⟨7, 1⟩ bits).2.log.log = [hashedEntry 1 ⟨1, 1⟩, hashedEntry 3 ⟨1, 2⟩] ∧
      (s.splitInto ⟨7, 3⟩ bits').2.log.log = [hashedEntry 3 ⟨1, 2⟩] ∧
      (s.splitInto ⟨7, 3⟩ bits').2.missing.get (hashedObject 1) = none ∧
      (s.splitInto ⟨7, 3⟩ bits').2.missing.get (hashedObject 3) = some ⟨⟨1, 2⟩, .zero, false⟩ := by
  intro log missing s
  have h : hashToSeed 3 3 = 1 := by decide
  obtain ⟨bits, bits', hbits, hbits', hsame⟩ :=
    splitInto_splitInto s 7 (by decide : (1 : UInt32) < 3) (by decide : (3 : UInt32) ≤ 5)
      (by decide) (by decide : (3 : UInt32) < 5)
  rw [if_pos h] at hsame
  have hone : (Pg.mk 7 1).getSplitBits 3 = some 1 := by decide
  have hthree : (Pg.mk 7 3).getSplitBits 5 = some 2 := by decide
  cases hone.symm.trans hbits
  cases hthree.symm.trans hbits'
  exact ⟨1, 2, hbits, hbits', hsame, by decide, by decide, by decide, by decide⟩

end Ceph.Osd
