import Ceph.Mds.MDSAuthCaps

set_option autoImplicit false

/-! # The meaning of an MDS capability

`MDSCapGrant.Permits` says what a grant permits: the network and the path of the inode are within
those of the grant, the specification allows what is asked for, and if the grant is for a user, the
caller is that user, with one of the groups, and the permissions of the inode admit the caller with
the groups narrowed down to those of the grant.

`is_capable` decides otherwise in three cases: the path of the grant has an empty component, the
caller does not fit in an `int`, or a group of the caller is listed behind a larger one. The grant is
then missed (`MDSCapGrant.Missed`), or lets the caller in as one of the others (`MDSCapGrant.Misled`).
-/

namespace Ceph.Mds

open List SepText

/-! ## The declarative meaning -/

def Caller.InGroup (c : Caller) (y : ℕ) : Prop :=
  y = c.gid.toNat ∨ ∃ l, c.gidList = some l ∧ y ∈ l.map UInt64.toNat

def MDSCapSpec.AllowsMask (s : MDSCapSpec) (mask : UInt32) : Prop :=
  (mask &&& (mayRead ||| mayExecute) ≠ 0 → s.caps &&& capRead ≠ 0) ∧
    (mask &&& mayWrite ≠ 0 → s.caps &&& capWrite ≠ 0) ∧
    (mask &&& maySetVxattr ≠ 0 → s.caps &&& capSetVxattr ≠ 0) ∧
    (mask &&& maySnapshot ≠ 0 → s.caps &&& capSnapshot ≠ 0)

/-- The mode has the bits that the mask asks for. -/
def ModeAllows (mask mode r w x : UInt32) : Prop :=
  (mask &&& mayRead ≠ 0 → mode &&& r ≠ 0) ∧ (mask &&& mayWrite ≠ 0 → mode &&& w ≠ 0) ∧
    (mask &&& mayExecute ≠ 0 → mode &&& x ≠ 0)

/-- **The permissions of an inode**, for a user with some groups: owner, group or others, and who
may change the owner and the group. -/
def Inode.Admits (inode : Inode) (uid : UInt32) (groups : Set ℕ) (mask newUid newGid : UInt32) :
    Prop :=
  (mask &&& mayChown ≠ 0 → newUid = uid ∧ inode.uid = uid) ∧
    (mask &&& mayChgrp ≠ 0 → inode.uid = uid ∧ newGid.toNat ∈ groups) ∧
    (inode.uid = uid → ModeAllows mask inode.mode sIRUSR sIWUSR sIXUSR) ∧
    (inode.uid ≠ uid → inode.gid.toNat ∈ groups →
      ModeAllows mask inode.mode sIRGRP sIWGRP sIXGRP) ∧
    (inode.uid ≠ uid → inode.gid.toNat ∉ groups →
      ModeAllows mask inode.mode sIROTH sIWOTH sIXOTH)

/-- The network, the path and the mask of a request are within those of the grant. The empty path has
no components. -/
def MDSCapGrant.Covers (g : MDSCapGrant) (inode : Inode) (mask : UInt32) (addr : EntityAddr) : Prop :=
  (g.network.network ≠ "" → g.network.Contains addr) ∧
    components '/' g.capMatch.path <+: inode.path.names ∧ g.spec.AllowsMask mask

/-- The grant is for the caller, who is in one of its groups. -/
def MDSCapMatch.IsFor (m : MDSCapMatch) (caller : Caller) : Prop :=
  m.uid = caller.uid.toNat ∧ (m.gids ≠ [] → ∃ y ∈ m.gids, caller.InGroup y)

/-- **What a grant permits.** -/
def MDSCapGrant.Permits (g : MDSCapGrant) (inode : Inode) (caller : Caller)
    (mask newUid newGid : UInt32) (addr : EntityAddr) : Prop :=
  g.Covers inode mask addr ∧ (g.capMatch.uid = mdsAuthUidAny ∨ (g.capMatch.IsFor caller ∧
    inode.Admits caller.uid {y | y ∈ g.capMatch.gids ∧ caller.InGroup y} mask newUid newGid))

/-! ## Where the decision differs -/

/-- The path is found in the text of the names below it: it has no empty component, except that a
single `/` at its end is found in what lies further down. -/
def MDSCapMatch.Spelled (m : MDSCapMatch) (names : List (List Char)) : Prop :=
  Clean '/' m.path ∨
    ∃ c, m.path = c ++ ['/'] ∧ c ≠ [] ∧ Clean '/' c ∧ components '/' m.path ≠ names

/-- A group that a merge with the list of the caller finds: only smaller ones stand before it. -/
def Caller.Finds (c : Caller) (y : ℕ) : Prop :=
  y = c.gid.toNat ∨ ∃ l l₁ l₂, c.gidList = some l ∧ l.map UInt64.toNat = l₁ ++ y :: l₂ ∧
    ∀ z ∈ l₁, z < y

/-- A group of the caller and of the grant that it does not find. -/
def MDSCapMatch.Loses (m : MDSCapMatch) (c : Caller) (y : ℕ) : Prop :=
  y ∈ m.gids ∧ c.InGroup y ∧ ¬c.Finds y

section Differs

variable (g : MDSCapGrant) (inode : Inode) (caller : Caller) (mask newUid newGid : UInt32)
  (addr : EntityAddr)

/-- **The grant permits the request and is missed**: the path is not spelled out, the user of the
caller does not fit in an `int`, or a group is lost that the inode is to get, or that alone may do
what the request asks for. -/
def MDSCapGrant.Missed : Prop :=
  g.Permits inode caller mask newUid newGid addr ∧
    (¬g.capMatch.Spelled inode.path.names ∨ (g.capMatch.uid ≠ mdsAuthUidAny ∧
      (2 ^ 31 ≤ caller.uid.toNat ∨
        (mask &&& mayChgrp ≠ 0 ∧ g.capMatch.Loses caller newGid.toNat) ∨
        (inode.uid ≠ caller.uid ∧ g.capMatch.Loses caller inode.gid.toNat ∧
          ¬ModeAllows mask inode.mode sIROTH sIWOTH sIXOTH))))

/-- **The grant does not permit the request and lets it through**: the group of the inode is lost, may
not do what the request asks for, and the others may. -/
def MDSCapGrant.Misled : Prop :=
  g.Covers inode mask addr ∧ g.capMatch.Spelled inode.path.names ∧ g.capMatch.IsFor caller ∧
    caller.uid.toNat < 2 ^ 31 ∧ mask &&& mayChown = 0 ∧ mask &&& mayChgrp = 0 ∧
    inode.uid ≠ caller.uid ∧ g.capMatch.Loses caller inode.gid.toNat ∧
    ModeAllows mask inode.mode sIROTH sIWOTH sIXOTH ∧
    ¬ModeAllows mask inode.mode sIRGRP sIWGRP sIXGRP

end Differs

/-! ## Paths -/

variable (m : MDSCapMatch)

theorem MDSCapMatch.matchPath_iff (hne : m.path ≠ []) (t : List Char) :
    m.matchPath t = true ↔
      t = m.path ∨ (m.path.getLast? = some '/' ∧ m.path <+: t) ∨ ∃ s, t = m.path ++ '/' :: s := by
  rw [matchPath, if_neg hne]
  by_cases hpre : m.path <+: t
  · obtain ⟨s, rfl⟩ := hpre
    have hisp : m.path.isPrefixOf (m.path ++ s) = true :=
      isPrefixOf_iff_prefix.mpr (prefix_append _ _)
    cases s with
    | nil => simp
    | cons a s => by_cases hlast : m.path.getLast? = some '/' <;> simp [hisp, hlast]
  · have hisp : m.path.isPrefixOf t = false := by
      rw [Bool.eq_false_iff]
      exact fun h => hpre (List.isPrefixOf_iff_prefix.mp h)
    simp only [hisp, hpre, Bool.not_false, if_true, Bool.false_eq_true, and_false, false_or,
      false_iff, not_or]
    refine ⟨?_, ?_⟩
    · rintro rfl
      exact hpre prefix_rfl
    · rintro ⟨s, rfl⟩
      exact hpre (prefix_append _ _)

/-- **The test of the path** is the prefix relation on components, for paths that are spelled out. -/
theorem MDSCapMatch.matchPath_iff_spelled (p : InodePath) :
    m.matchPath p.text = true ↔ components '/' m.path <+: p.names ∧ m.Spelled p.names := by
  by_cases hne : m.path = []
  · simp [matchPath, hne, components, Spelled, Clean]
  rw [m.matchPath_iff hne]
  constructor
  · rintro (heq | ⟨hlast, s, hs⟩ | ⟨s, hs⟩)
    · -- the inode of the path
      have hnames : p.names ≠ [] := by
        intro hnil
        rw [InodePath.text, hnil] at heq
        exact hne heq.symm
      have hsplit : m.path.splitOn '/' = p.names := by
        rw [← heq]
        exact splitOn_intercalate_names p.isName hnames
      have hclean : Clean '/' m.path :=
        p.isName.clean_of_splitOn_prefix (hsplit ▸ prefix_rfl)
      exact ⟨by rw [components_of_clean hclean hne, hsplit], .inl hclean⟩
    · -- the path ends with a separator
      have hpath : m.path.dropLast ++ ['/'] = m.path := dropLast_append_getLast? '/' hlast
      have hall := splitOn_prefix (t := m.path.dropLast) (s := s) p.isName (by
        rw [← InodePath.text, ← hs, append_cons, hpath])
      have hclean : Clean '/' m.path.dropLast :=
        p.isName.clean_of_splitOn_prefix ⟨_, hall⟩
      have hdrop : m.path.dropLast ≠ [] := by
        intro hnil
        rw [hnil, splitOn_nil] at hall
        exact (p.isName [] (hall ▸ mem_cons_self)).1 rfl
      have hcomponents : components '/' m.path = m.path.dropLast.splitOn '/' := by
        rw [← components_of_clean hclean hdrop, ← components_concat '/' m.path.dropLast, hpath]
      refine ⟨⟨_, hcomponents ▸ hall⟩, .inr ⟨_, hpath.symm, hdrop, hclean, ?_⟩⟩
      rw [hcomponents]
      intro heq
      rw [heq] at hall
      exact splitOn_ne_nil '/' s (append_right_eq_self.mp hall)
    · have hall := splitOn_prefix p.isName hs
      have hclean : Clean '/' m.path := p.isName.clean_of_splitOn_prefix ⟨_, hall⟩
      exact ⟨by rw [components_of_clean hclean hne]; exact ⟨_, hall⟩, .inl hclean⟩
  · rintro ⟨hbelow, hclean | ⟨c, hpath, hc, hclean, hstrict⟩⟩
    · rcases (components_prefix_iff hclean hne p.isName).mp hbelow with heq | ⟨s, hs⟩
      · exact .inl heq
      · exact .inr (.inr ⟨s, hs⟩)
    · have hcomponents : components '/' m.path = components '/' c := by
        rw [hpath, components_concat]
      refine .inr (.inl ⟨by simp [hpath], ?_⟩)
      rw [hcomponents] at hbelow hstrict
      rcases (components_prefix_iff hclean hc p.isName).mp hbelow with heq | ⟨s, hs⟩
      · -- then the names are those of the path
        refine absurd ?_ hstrict
        have hnames : p.names ≠ [] := by
          intro hnil
          rw [hnil] at heq
          exact hc heq.symm
        rw [components_of_clean hclean hc, ← heq, splitOn_intercalate_names p.isName hnames]
      · refine ⟨s, ?_⟩
        rw [InodePath.text, hs, hpath, append_assoc, singleton_append]

/-! ## Groups -/

theorem MDSCapMatch.gidMatched_iff (caller : Caller) :
    m.gidMatched caller = true ↔ ∃ y ∈ m.gids, caller.InGroup y := by
  unfold gidMatched Caller.InGroup
  cases caller.gidList with
  | none => simp
  | some l =>
    simp only [Bool.or_eq_true, contains_iff_mem, any_eq_true, Option.some.injEq,
      exists_eq_left', mem_map]
    constructor
    · rintro (h | ⟨i, hi, h⟩)
      · exact ⟨_, h, .inl rfl⟩
      · exact ⟨_, h, .inr ⟨i, hi, rfl⟩⟩
    · rintro ⟨y, hy, rfl | ⟨i, hi, rfl⟩⟩
      · exact .inl hy
      · exact .inr ⟨i, hi, hy⟩

theorem mem_narrowGids {gids : List ℕ} {caller : Caller} {y : ℕ} :
    y ∈ narrowGids gids caller ↔ (caller.gid.toNat ∈ gids ∧ y = caller.gid.toNat) ∨
      ∃ l, caller.gidList = some l ∧ y ∈ setIntersection gids (l.map UInt64.toNat) := by
  unfold narrowGids
  cases caller.gidList with
  | none => simp
  | some l => simp [mem_insertionSort]

/-- **The narrowed groups** are those that the merge finds. -/
theorem mem_narrowGids_iff {gids : List ℕ} (hs : gids.Pairwise (· ≤ ·)) (c : Caller) (y : ℕ) :
    y ∈ narrowGids gids c ↔ y ∈ gids ∧ c.Finds y := by
  rw [mem_narrowGids]
  constructor
  · rintro (⟨hy, rfl⟩ | ⟨l, hl, hy⟩)
    · exact ⟨hy, .inl rfl⟩
    · obtain ⟨l₁, l₂, heq, hbefore⟩ := exists_of_mem_setIntersection hs hy
      exact ⟨(mem_of_mem_setIntersection hy).1, .inr ⟨l, l₁, l₂, hl, heq, hbefore⟩⟩
  · rintro ⟨hy, rfl | ⟨l, l₁, l₂, hl, heq, hbefore⟩⟩
    · exact .inl ⟨hy, rfl⟩
    · exact .inr ⟨l, hl, by rw [heq]; exact mem_setIntersection hs hy hbefore l₂⟩

theorem Caller.Finds.inGroup {c : Caller} {y : ℕ} (h : c.Finds y) : c.InGroup y := by
  rcases h with rfl | ⟨l, l₁, l₂, hl, heq, -⟩
  · exact .inl rfl
  · exact .inr ⟨l, hl, by rw [heq]; simp⟩

/-! ## Users -/

theorem toInt_toInt32 (u : UInt32) :
    u.toInt32.toInt = if u.toNat < 2 ^ 31 then (u.toNat : Int) else (u.toNat : Int) - 2 ^ 32 := by
  have h : u.toInt32.toInt = u.toBitVec.toInt := rfl
  have h' : u.toBitVec.toNat = u.toNat := rfl
  rw [h, BitVec.toInt_eq_toNat_cond, h']
  split <;> split <;> first | rfl | omega

/-- The caller as an `int` is the user of a grant. -/
theorem uid_eq_iff {uid : ℤ} (hany : uid ≠ mdsAuthUidAny) (hlt : -1 ≤ uid) (c : Caller) :
    uid = c.uid.toInt32.toInt ↔ uid = c.uid.toNat ∧ c.uid.toNat < 2 ^ 31 := by
  have hbound := c.uid.toNat_lt
  rw [toInt_toInt32]
  unfold mdsAuthUidAny at hany
  split <;> omega

/-! ## Parsed grants -/

variable (p : ParsedGrant)

theorem ParsedGrant.grant_gids_sorted : p.grant.capMatch.gids.Pairwise (· ≤ ·) :=
  pairwise_insertionSort (· ≤ ·) _

theorem ParsedGrant.grant_uid : -1 ≤ p.grant.capMatch.uid := by
  unfold grant capMatch
  cases p.uid with
  | none => exact le_refl (-1 : ℤ)
  | some u => exact (by omega : (-1 : ℤ) ≤ (u.1.toNat : ℤ))

/-! ## One grant -/

theorem modeAllows_iff (mask mode r w x : UInt32) :
    modeAllows mask mode r w x = true ↔ ModeAllows mask mode r w x := by
  unfold modeAllows ModeAllows
  simp only [Bool.and_eq_true, Bool.or_eq_true, decide_eq_true_eq, and_assoc, ne_eq,
    or_iff_not_imp_left]

theorem Inode.admits_iff (inode : Inode) (uid : UInt32) {gids : List ℕ} {groups : Set ℕ}
    (h : ∀ y, y ∈ gids ↔ y ∈ groups) (mask newUid newGid : UInt32) :
    inode.admits uid gids mask newUid newGid = true ↔
      inode.Admits uid groups mask newUid newGid := by
  unfold Inode.admits Inode.Admits
  simp only [← h, ← modeAllows_iff, Bool.if_false_left, Bool.and_eq_true, Bool.not_eq_true',
    decide_eq_false_iff_not, not_and, not_or, not_not]
  refine and_congr_right fun _ => and_congr_right fun _ => ?_
  by_cases howner : inode.uid = uid
  · simp [howner]
  · by_cases hgroup : inode.gid.toNat ∈ gids <;> simp [howner, hgroup]

theorem MDSCapSpec.and_ne_zero_of_allowAll (s : MDSCapSpec) (h : s.allowAll = true) (bit : UInt32)
    (hbit : capRWPS &&& bit = bit) (hne : bit ≠ 0) : s.caps &&& bit ≠ 0 := by
  have hall : s.caps &&& capRWPS = capRWPS := s.rwps_of_all (by simpa [allowAll] using h)
  rw [← hbit, ← UInt32.and_assoc, hall, hbit]
  exact hne

theorem MDSCapSpec.allows_iff (s : MDSCapSpec) (r w : Bool) :
    s.allows r w = true ↔ (r = true → s.caps &&& capRead ≠ 0) ∧
      (w = true → s.caps &&& capWrite ≠ 0) := by
  unfold allows allowRead allowWrite
  by_cases h : s.allowAll = true
  · have hr := s.and_ne_zero_of_allowAll h capRead (by decide) (by decide)
    have hw := s.and_ne_zero_of_allowAll h capWrite (by decide) (by decide)
    simp [h, hr, hw]
  · cases r <;> cases w <;> simp [h]

theorem MDSCapMatch.isMatch_iff (huid : -1 ≤ m.uid) (caller : Caller) (p : InodePath) :
    m.isMatch p.text caller = true ↔ (components '/' m.path <+: p.names ∧ m.Spelled p.names) ∧
      (m.uid = mdsAuthUidAny ∨ (m.IsFor caller ∧ caller.uid.toNat < 2 ^ 31)) := by
  rw [← m.matchPath_iff_spelled, isMatch, IsFor, ← m.gidMatched_iff]
  by_cases hany : m.uid = mdsAuthUidAny
  · simp [hany]
  · have hiff := uid_eq_iff hany huid caller
    by_cases heq : m.uid = caller.uid.toInt32.toInt
    · obtain ⟨hsame, hlt⟩ := hiff.mp heq
      rw [if_neg fun h => h.2 heq]
      by_cases hg : m.gids ≠ [] ∧ (!m.gidMatched caller) = true
      · rw [if_pos ⟨hany, hg⟩]
        simp only [Bool.false_eq_true, hany, false_or, false_iff, not_and]
        rintro - ⟨-, hfor⟩
        simp [hfor hg.1] at hg
      · have hfor : m.gids ≠ [] → m.gidMatched caller = true := fun hne =>
          by_contra fun hno => hg ⟨hne, by simpa using hno⟩
        rw [if_neg fun h => hg h.2, and_iff_left (.inr ⟨⟨hsame, hfor⟩, hlt⟩)]
    · rw [if_pos ⟨hany, heq⟩]
      simp only [Bool.false_eq_true, hany, false_or, false_iff, not_and]
      exact fun _ hfor hlt => heq (hiff.mpr ⟨hfor.1, hlt⟩)

theorem MDSCapGrant.isCapable_iff (g : MDSCapGrant) (inode : Inode) (caller : Caller)
    (mask newUid newGid : UInt32) (addr : EntityAddr) :
    g.isCapable inode caller mask newUid newGid addr = true ↔
      g.network.excludes addr = false ∧ g.capMatch.isMatch inode.path.text caller = true ∧
        g.spec.AllowsMask mask ∧
        (g.capMatch.uid = mdsAuthUidAny ∨
          inode.admits caller.uid (narrowGids g.capMatch.gids caller) mask newUid newGid =
            true) := by
  unfold MDSCapGrant.isCapable MDSCapSpec.AllowsMask
  simp only [Bool.if_false_left, Bool.if_true_left, Bool.if_false_right, Bool.and_eq_true,
    Bool.or_eq_true, Bool.not_eq_true', decide_eq_true_eq, decide_eq_false_iff_not,
    MDSCapSpec.allows_iff, MDSCapSpec.allowSetVxattr, MDSCapSpec.allowSnapshot, not_and, not_not,
    Bool.not_eq_true, and_assoc]

section Admits

variable {inode : Inode} {uid : UInt32} {groups : Set ℕ} {mask newUid newGid : UInt32}

theorem Inode.admits_owner (h : inode.uid = uid) : inode.Admits uid groups mask newUid newGid ↔
    (mask &&& mayChown ≠ 0 → newUid = uid) ∧ (mask &&& mayChgrp ≠ 0 → newGid.toNat ∈ groups) ∧
      ModeAllows mask inode.mode sIRUSR sIWUSR sIXUSR := by
  simp [Inode.Admits, h]

theorem Inode.admits_other (h : inode.uid ≠ uid) : inode.Admits uid groups mask newUid newGid ↔
    mask &&& mayChown = 0 ∧ mask &&& mayChgrp = 0 ∧
      (inode.gid.toNat ∈ groups → ModeAllows mask inode.mode sIRGRP sIWGRP sIXGRP) ∧
      (inode.gid.toNat ∉ groups → ModeAllows mask inode.mode sIROTH sIWOTH sIXOTH) := by
  simp [Inode.Admits, h]

end Admits

/-- **The permissions of an inode with the groups that are found**, instead of all groups of the caller
that the grant lists. -/
theorem Inode.admits_found_iff (inode : Inode) (m : MDSCapMatch) (c : Caller)
    (mask newUid newGid : UInt32) :
    inode.Admits c.uid {y | y ∈ m.gids ∧ c.Finds y} mask newUid newGid ↔
      (inode.Admits c.uid {y | y ∈ m.gids ∧ c.InGroup y} mask newUid newGid ∧
        ¬(mask &&& mayChgrp ≠ 0 ∧ m.Loses c newGid.toNat) ∧
        ¬(inode.uid ≠ c.uid ∧ m.Loses c inode.gid.toNat ∧
          ¬ModeAllows mask inode.mode sIROTH sIWOTH sIXOTH)) ∨
      (mask &&& mayChown = 0 ∧ mask &&& mayChgrp = 0 ∧ inode.uid ≠ c.uid ∧
        m.Loses c inode.gid.toNat ∧ ModeAllows mask inode.mode sIROTH sIWOTH sIXOTH ∧
        ¬ModeAllows mask inode.mode sIRGRP sIWGRP sIXGRP) := by
  have hfound : ∀ y, (y ∈ m.gids ∧ c.Finds y) ↔
      (y ∈ m.gids ∧ c.InGroup y) ∧ ¬m.Loses c y := by
    intro y
    constructor
    · rintro ⟨hy, hf⟩
      exact ⟨⟨hy, hf.inGroup⟩, fun h => h.2.2 hf⟩
    · rintro ⟨⟨hy, hg⟩, hnot⟩
      exact ⟨hy, by_contra fun hf => hnot ⟨hy, hg, hf⟩⟩
  by_cases howner : inode.uid = c.uid
  · rw [admits_owner howner, admits_owner howner]
    constructor
    · rintro ⟨hown, hnew, hmode⟩
      exact .inl ⟨⟨hown, fun h => ((hfound _).mp (hnew h)).1, hmode⟩,
        fun h => ((hfound _).mp (hnew h.1)).2 h.2, fun h => h.1 howner⟩
    · rintro (⟨⟨hown, hnew, hmode⟩, hkept, -⟩ | ⟨-, -, hne, -⟩)
      · exact ⟨hown, fun h => (hfound _).mpr ⟨hnew h, fun hl => hkept ⟨h, hl⟩⟩, hmode⟩
      · exact absurd howner hne
  · rw [admits_other howner, admits_other howner]
    have hgid := hfound inode.gid.toNat
    by_cases hlost : m.Loses c inode.gid.toNat
    · -- the others' bits count instead of those of the group
      have hnot : ¬(inode.gid.toNat ∈ m.gids ∧ c.Finds inode.gid.toNat) := fun h => hlost.2.2 h.2
      constructor
      · rintro ⟨hown, hgrp, -, hoth⟩
        by_cases hg : ModeAllows mask inode.mode sIRGRP sIWGRP sIXGRP
        · exact .inl ⟨⟨hown, hgrp, fun _ => hg, fun h => absurd ⟨hlost.1, hlost.2.1⟩ h⟩,
            fun h => h.1 hgrp, fun h => h.2.2 (hoth hnot)⟩
        · exact .inr ⟨hown, hgrp, howner, hlost, hoth hnot, hg⟩
      · rintro (⟨⟨hown, hgrp, -, -⟩, -, hkept⟩ | ⟨hown, hgrp, -, -, hoth, -⟩)
        · exact ⟨hown, hgrp, fun h => absurd h hnot,
            fun _ => by_contra fun hoth => hkept ⟨howner, hlost, hoth⟩⟩
        · exact ⟨hown, hgrp, fun h => absurd h hnot, fun _ => hoth⟩
    · rw [and_iff_left hlost] at hgid
      constructor
      · rintro ⟨hown, hgrp, hg, hoth⟩
        exact .inl ⟨⟨hown, hgrp, fun h => hg (hgid.mpr h), fun h => hoth fun h' => h (hgid.mp h')⟩,
          fun h => h.1 hgrp, fun h => hlost h.2.1⟩
      · rintro (⟨⟨hown, hgrp, hg, hoth⟩, -, -⟩ | ⟨-, -, -, hlost', -⟩)
        · exact ⟨hown, hgrp, fun h => hg (hgid.mp h), fun h => hoth fun h' => h (hgid.mpr h')⟩
        · exact absurd hlost' hlost

/-- **One grant**: the turn of the loop lets a request through if the grant permits it and is not
missed, or is misled. -/
theorem ParsedGrant.isCapable_iff (inode : Inode) (caller : Caller) (mask newUid newGid : UInt32)
    (addr : EntityAddr) :
    p.grant.isCapable inode caller mask newUid newGid addr = true ↔
      (p.grant.Permits inode caller mask newUid newGid addr ∧
        ¬p.grant.Missed inode caller mask newUid newGid addr) ∨
      p.grant.Misled inode caller mask addr := by
  have hadmits : inode.admits caller.uid (narrowGids p.grant.capMatch.gids caller) mask newUid
      newGid = true ↔ inode.Admits caller.uid {y | y ∈ p.grant.capMatch.gids ∧ caller.Finds y} mask
      newUid newGid :=
    inode.admits_iff caller.uid (mem_narrowGids_iff p.grant_gids_sorted caller) mask newUid newGid
  have hnotAny : p.grant.capMatch.IsFor caller → p.grant.capMatch.uid ≠ mdsAuthUidAny := by
    intro hfor hany
    have huid := hfor.1
    rw [hany] at huid
    unfold mdsAuthUidAny at huid
    omega
  rw [MDSCapGrant.isCapable_iff, CapNetwork.excludes_eq_false_iff, hadmits,
    p.grant.capMatch.isMatch_iff p.grant_uid]
  constructor
  · rintro ⟨hnet, ⟨⟨hpath, hspelled⟩, huser⟩, hspec, hunix⟩
    by_cases hany : p.grant.capMatch.uid = mdsAuthUidAny
    · refine .inl ⟨⟨⟨hnet, hpath, hspec⟩, .inl hany⟩, ?_⟩
      rintro ⟨-, hno | ⟨hno, -⟩⟩
      · exact hno hspelled
      · exact hno hany
    · obtain ⟨hfor, hlt⟩ := huser.resolve_left hany
      rcases (inode.admits_found_iff _ _ _ _ _).mp (hunix.resolve_left hany) with
        ⟨hadmits, hnew, hgroup⟩ | hmisled
      · refine .inl ⟨⟨⟨hnet, hpath, hspec⟩, .inr ⟨hfor, hadmits⟩⟩, ?_⟩
        rintro ⟨-, hno | ⟨-, hge | hno | hno⟩⟩
        · exact hno hspelled
        · omega
        · exact hnew hno
        · exact hgroup hno
      · exact .inr ⟨⟨hnet, hpath, hspec⟩, hspelled, hfor, hlt, hmisled⟩
  · rintro (⟨hpermits, hfound⟩ | ⟨⟨hnet, hpath, hspec⟩, hspelled, hfor, hlt, hmisled⟩)
    · have hspelled : p.grant.capMatch.Spelled inode.path.names :=
        by_contra fun hno => hfound ⟨hpermits, .inl hno⟩
      obtain ⟨⟨hnet, hpath, hspec⟩, huser⟩ := hpermits
      rcases huser with hany | ⟨hfor, hadmits⟩
      · exact ⟨hnet, ⟨⟨hpath, hspelled⟩, .inl hany⟩, hspec, .inl hany⟩
      · have hkept := fun hdiffers => hfound
          ⟨⟨⟨hnet, hpath, hspec⟩, .inr ⟨hfor, hadmits⟩⟩, .inr ⟨hnotAny hfor, hdiffers⟩⟩
        have hlt : caller.uid.toNat < 2 ^ 31 := not_le.mp fun hge => hkept (.inl hge)
        refine ⟨hnet, ⟨⟨hpath, hspelled⟩, .inr ⟨hfor, hlt⟩⟩, hspec, .inr ?_⟩
        exact (inode.admits_found_iff _ _ _ _ _).mpr (.inl ⟨hadmits,
          fun hno => hkept (.inr (.inl hno)), fun hno => hkept (.inr (.inr hno))⟩)
    · exact ⟨hnet, ⟨⟨hpath, hspelled⟩, .inr ⟨hfor, hlt⟩⟩, hspec,
        .inr ((inode.admits_found_iff _ _ _ _ _).mpr (.inr hmisled))⟩

/-- **`is_capable` decides a request as the grants permit it** exactly if a grant that permits it and
is missed is not the only one to let it through, and a grant that is misled is not the only one that
could permit it. -/
theorem MDSAuthCaps.isCapable_iff_permits_iff (l : List ParsedGrant) (inode : Inode) (caller : Caller)
    (mask newUid newGid : UInt32) (addr : EntityAddr) :
    ((MDSAuthCaps.parse l).isCapable inode caller mask newUid newGid addr = true ↔
        ∃ g ∈ (MDSAuthCaps.parse l).grants, g.Permits inode caller mask newUid newGid addr) ↔
      ((∃ g ∈ (MDSAuthCaps.parse l).grants, g.Missed inode caller mask newUid newGid addr) →
        ∃ g ∈ (MDSAuthCaps.parse l).grants,
          (g.Permits inode caller mask newUid newGid addr ∧
            ¬g.Missed inode caller mask newUid newGid addr) ∨ g.Misled inode caller mask addr) ∧
      ((∃ g ∈ (MDSAuthCaps.parse l).grants, g.Misled inode caller mask addr) →
        ∃ g ∈ (MDSAuthCaps.parse l).grants, g.Permits inode caller mask newUid newGid addr) := by
  have hone : (MDSAuthCaps.parse l).isCapable inode caller mask newUid newGid addr = true ↔
      ∃ g ∈ (MDSAuthCaps.parse l).grants,
        (g.Permits inode caller mask newUid newGid addr ∧
          ¬g.Missed inode caller mask newUid newGid addr) ∨ g.Misled inode caller mask addr := by
    simp only [MDSAuthCaps.isCapable, MDSAuthCaps.parse, any_map, any_eq_true, mem_map,
      exists_exists_and_eq_and, Function.comp_apply, ParsedGrant.isCapable_iff]
  rw [hone]
  constructor
  · intro h
    refine ⟨?_, ?_⟩
    · rintro ⟨g, hg, hmissed⟩
      exact h.mpr ⟨g, hg, hmissed.1⟩
    · rintro ⟨g, hg, hmisled⟩
      exact h.mp ⟨g, hg, .inr hmisled⟩
  · rintro ⟨hmissed, hmisled⟩
    refine ⟨?_, ?_⟩
    · rintro ⟨g, hg, hright | hwrong⟩
      · exact ⟨g, hg, hright.1⟩
      · exact hmisled ⟨g, hg, hwrong⟩
    · rintro ⟨g, hg, hpermits⟩
      by_cases hm : g.Missed inode caller mask newUid newGid addr
      · exact hmissed ⟨g, hg, hm⟩
      · exact ⟨g, hg, .inl ⟨hpermits, hm⟩⟩

/-- **A group is lost**: the caller sent the groups 200 and 100, and the inode of group 100 is
readable for its group. The grant is for the caller and both groups. -/
theorem MDSAuthCaps.isCapable_loses_group :
    let caller : Caller := ⟨1000, 1000, some [200, 100]⟩
    let inode : Inode := ⟨⟨["d".toList], by simp [Names]⟩, 0, 100, 0o040⟩
    let caps := MDSAuthCaps.parse [{ caps := capAll, uid := some (1000, [100, 200]) }]
    caps.isCapable inode caller mayRead 0 0 (.inet 0) = false ∧
      ∃ g ∈ caps.grants, g.Permits inode caller mayRead 0 0 (.inet 0) := by
  intro caller inode caps
  refine ⟨by decide +kernel, _, mem_singleton_self _, ⟨by simp [ParsedGrant.grant], ?_, ?_⟩,
    .inr ⟨⟨rfl, ?_⟩, ?_⟩⟩
  · exact nil_prefix
  · exact ⟨by decide, by decide, by decide, by decide⟩
  · exact fun _ => ⟨100, by decide, .inr ⟨_, rfl, by decide⟩⟩
  · refine ⟨by decide, fun h => absurd rfl h, fun h => absurd h (by decide), fun _ _ => ?_,
      fun _ h => ?_⟩
    · exact ⟨by decide, by decide, by decide⟩
    · exact absurd ⟨by decide, .inr ⟨_, rfl, by decide⟩⟩ h

end Ceph.Mds
