import Ceph.Lib.Transition
import Ceph.Osd.ScrubCompare

set_option autoImplicit false

/-! # The loops over the shards

The selection and the comparison are loops over the shards of an object. After the selection,
`shard_map` has the errors of every copy, and the selected copy has none. The comparison puts
every shard in one of four classes (`shardClass`), which depend on its record alone but for two
things: the first copy that is too large, and the selected copy if its digest is fixed.
-/

namespace Ceph.Osd

open OrdMap List

variable (env : ScrubEnv) (obj : Soid) {σ : Type} [LinearOrder σ] (maps : OrdMap σ ScrubMap)

theorem record_of_mem {j : σ} {m : ScrubMap} (h : (j, m) ∈ maps.entries) :
    record obj maps j = m.get obj := by
  rw [record, (mem_entries_iff maps j m).mp h, Option.bind_some]

variable {repair : Bool} {objectErrors : OrdSet σ} {o : ScrubObject} {s : Selection σ} {primary : σ}

theorem mem_of_record {j : σ} (h : record obj maps j = some o) : j ∈ maps := by
  obtain ⟨m, hm, _⟩ := Option.bind_eq_some_iff.mp h
  rw [mem_iff_isSome, hm]
  rfl

/-! ## The selection -/

/-- What holds after the shards `done` were scanned. -/
structure Scanned (done : List σ) (s : Selection σ) : Prop where
  inspects : ∀ l ∈ done, ∀ o, record obj maps l = some o → (inspect env obj o).isSome
  shardMap : ∀ l, s.shardMap.get l =
    if l ∈ done then (record obj maps l).map (inspectErrors env obj) else none
  auth : ∀ a, s.auth = some a →
    record obj maps a.shard = some a.object ∧ inspect env obj a.object = some (∅, some a.oi)

theorem scanShard_scanned {done : List σ} {s' : Selection σ} {l : σ}
    (hs : Scanned env obj maps done s) (h : scanShard env obj maps s l = some s') :
    Scanned env obj maps (done ++ [l]) s' := by
  unfold scanShard at h
  split at h
  · cases h
  cases hrec : record obj maps l with
  | none =>
    rw [hrec, Option.some_inj] at h
    subst h
    refine ⟨?_, ?_, hs.auth⟩
    · exact forall_mem_append.mpr ⟨hs.inspects, by simp [hrec]⟩
    · intro l'
      rw [hs.shardMap]
      by_cases hl' : l' = l
      · subst hl'
        simp [hrec]
      · simp [hl']
  | some o =>
    rw [hrec] at h
    obtain ⟨⟨errors, info⟩, hins, h⟩ := Option.map_eq_some_iff.mp h
    have herrors : inspectErrors env obj o = errors := by rw [inspectErrors, hins]; rfl
    have hinspects : ∀ l' ∈ done ++ [l], ∀ o', record obj maps l' = some o' →
        (inspect env obj o').isSome :=
      forall_mem_append.mpr ⟨hs.inspects, by simp [hrec, hins]⟩
    have hmap : ∀ l', (s.shardMap.insert l errors).get l' =
        if l' ∈ done ++ [l] then (record obj maps l').map (inspectErrors env obj) else none := by
      intro l'
      rw [get_insert, hs.shardMap]
      by_cases hl' : l' = l
      · subst hl'
        simp [hrec, herrors]
      · simp [hl']
    cases info with
    | none =>
      subst h
      exact ⟨hinspects, hmap, hs.auth⟩
    | some oi =>
      dsimp only at h
      split at h
      · rename_i hclean
        subst h
        refine ⟨hinspects, hmap, fun a ha => ?_⟩
        cases ha
        exact ⟨hrec, by rw [hins, hclean.1]⟩
      · subst h
        exact ⟨hinspects, hmap, hs.auth⟩

theorem mem_scanOrder {l : σ} (h : l ∈ maps) : l ∈ scanOrder maps primary := by
  rw [scanOrder, mem_cons]
  by_cases hl : l = primary
  · exact .inl hl
  · right
    rw [mem_filter, mem_keys_iff]
    exact ⟨h, by simpa using hl⟩

/-- What a selection ensures. -/
structure Selected (s : Selection σ) (a : AuthCopy σ) : Prop where
  inspects : ∀ l o, record obj maps l = some o →
    ∃ info, inspect env obj o = some (inspectErrors env obj o, info)
  shardMap : ∀ l, s.shardMap.get l = (record obj maps l).map (inspectErrors env obj)
  object : record obj maps a.shard = some a.object
  clean : inspect env obj a.object = some (∅, some a.oi)

theorem selected {a : AuthCopy σ} (h : selectAuthObject env obj maps primary = some s)
    (ha : s.auth = some a) : Selected env obj maps s a := by
  have hstart : Scanned env obj maps [] (⟨none, true, .empty⟩ : Selection σ) :=
    ⟨by simp, by simp, by simp⟩
  have hscan := Transition.history_of_run (P := Scanned env obj maps)
    (fun _ _ _ _ hs hstep => scanShard_scanned env obj maps hs hstep) h hstart
  rw [nil_append] at hscan
  refine ⟨?_, ?_, (hscan.auth a ha).1, (hscan.auth a ha).2⟩
  · intro l o ho
    obtain ⟨⟨errors, info⟩, hins⟩ := Option.isSome_iff_exists.mp
      (hscan.inspects l (mem_scanOrder maps (mem_of_record obj maps ho)) o ho)
    exact ⟨info, by rw [inspectErrors, hins]; rfl⟩
  · intro l
    rw [hscan.shardMap]
    by_cases hl : l ∈ scanOrder maps primary
    · rw [if_pos hl]
    · rw [if_neg hl]
      cases hrec : record obj maps l with
      | none => rfl
      | some o => exact absurd (mem_scanOrder maps (mem_of_record obj maps hrec)) hl

/-! ## The classes of the shards -/

/-- The first shard whose copy is too large. -/
def firstLarge : Option σ :=
  (maps.entries.find? fun e => (e.2.get obj).any (tooLarge env)).map Prod.fst

theorem firstLarge_eq_iff {done rest : List (σ × ScrubMap)} {j : σ} {m : ScrubMap}
    (h : maps.entries = done ++ (j, m) :: rest) :
    firstLarge env obj maps = some j ↔ (m.get obj).any (tooLarge env) = true ∧
      ∀ e ∈ done, (e.2.get obj).any (tooLarge env) = false := by
  obtain ⟨hbefore, hafter⟩ := lt_of_entries_eq h
  rw [firstLarge, h, find?_append]
  cases hfind : done.find? fun e => (e.2.get obj).any (tooLarge env) with
  | some e =>
    have hmem := mem_of_find?_eq_some hfind
    have hlarge := find?_some hfind
    rw [Option.some_or, Option.map_some, Option.some_inj]
    constructor
    · intro he
      exact absurd he (hbefore e hmem).ne
    · rintro ⟨_, hnone⟩
      rw [hnone e hmem] at hlarge
      cases hlarge
  | none =>
    have hnone : ∀ e ∈ done, (e.2.get obj).any (tooLarge env) = false := by
      simpa [find?_eq_none] using hfind
    rw [Option.none_or, find?_cons]
    cases hm : (m.get obj).any (tooLarge env) with
    | true => simpa using hnone
    | false =>
      simp only [Bool.false_eq_true, false_and, iff_false]
      intro hj
      obtain ⟨e, he, hej⟩ := Option.map_eq_some_iff.mp hj
      exact absurd hej (hafter e (mem_of_find?_eq_some he)).ne'

/-- The size of `shard_map` when it is the turn of a shard: the copies, and the shards so far. -/
def turnShards (l : σ) : ℕ :=
  (maps.filter fun k m => (m.get obj).isSome || k ≤ l).entries.length

/-- `fix_digest`. -/
def fixes (repair digestMatch : Bool) (a : AuthCopy σ) : Bool :=
  fixesDigest env repair true digestMatch a.object.digestPresent (turnShards obj maps a.shard)
    (copyErrors env obj a.oi a.object)

/-- The errors of a copy after the comparison. -/
def finalErrors (fix : Bool) (a : AuthCopy σ) (j : σ) (o : ScrubObject) : Finset ShardErr :=
  if fix = true ∧ j = a.shard then (copyErrors env obj a.oi o).erase .dataDigestMismatchInfo
  else copyErrors env obj a.oi o

inductive ShardClass
  | missing
  | inconsistent
  | objectError
  | good
deriving DecidableEq

/-- **The class of a shard.** -/
def shardClass (fix : Bool) (a : AuthCopy σ) (j : σ) : ShardClass :=
  match record obj maps j with
  | none => .missing
  | some o =>
    if finalErrors env obj fix a j o ≠ ∅ then .inconsistent
    else if copyDiffers env obj a.object a.oi o = true ∨ firstLarge env obj maps = some j then
      .objectError
    else .good

/-- The shards that the loop has put in a class. -/
def Tally.Member (t : Tally σ) (j : σ) : ShardClass → Prop
  | .missing => j ∈ t.curMissing
  | .inconsistent => j ∈ t.curInconsistent
  | .objectError => j ∈ t.objectErrors
  | .good => j ∈ t.authList

def Tally.put (t : Tally σ) (j : σ) : ShardClass → Tally σ
  | .missing => { t with curMissing := t.curMissing.insert j () }
  | .inconsistent => { t with curInconsistent := t.curInconsistent.insert j () }
  | .objectError => { t with objectErrors := t.objectErrors.insert j () }
  | .good => { t with authList := t.authList ++ [j] }

theorem Tally.member_put (t : Tally σ) (j j' : σ) (c c' : ShardClass) :
    (t.put j c).Member j' c' ↔ t.Member j' c' ∨ (j' = j ∧ c' = c) := by
  cases c <;> cases c' <;>
    simp [Tally.put, Tally.Member, mem_insert, or_comm]

/-! ## The comparison -/

/-- What holds after the shards `done` were compared. -/
structure Tallied (fix : Bool) (a : AuthCopy σ) (done : List (σ × ScrubMap)) (t : Tally σ) :
    Prop where
  member : ∀ j c, t.Member j c ↔
    j ∈ done.map Prod.fst ∧ shardClass env obj maps fix a j = c
  large : .sizeTooLarge ∈ t.objErrors ↔ ∃ e ∈ done, (e.2.get obj).any (tooLarge env) = true
  shards : ∀ j, j ∈ t.shardMap ↔ (record obj maps j).isSome ∨ j ∈ done.map Prod.fst
  fresh : ∀ j o, j ∉ done.map Prod.fst → record obj maps j = some o →
    errorsOf t.shardMap j = inspectErrors env obj o
  errors : ∀ j o, j ∈ done.map Prod.fst → record obj maps j = some o →
    errorsOf t.shardMap j = finalErrors env obj fix a j o
  fixed : t.fixDigest = (fix && a.shard ∈ done.map Prod.fst)

section Step

variable {env obj maps} {fix : Bool} {a : AuthCopy σ} {done rest : List (σ × ScrubMap)} {j : σ}
  {m : ScrubMap} {t : Tally σ}

section

variable (h : maps.entries = done ++ (j, m) :: rest)

include h

theorem not_mem_done : j ∉ done.map Prod.fst := by
  intro hmem
  obtain ⟨e, he, rfl⟩ := mem_map.mp hmem
  exact lt_irrefl _ ((lt_of_entries_eq h).1 e he)

theorem mem_done_iff {k : σ} (hk : k ∈ maps) : k ∈ (done ++ [(j, m)]).map Prod.fst ↔ k ≤ j := by
  obtain ⟨hbefore, hafter⟩ := lt_of_entries_eq h
  rw [map_append, mem_append, mem_map]
  constructor
  · rintro (⟨e, he, rfl⟩ | hkj)
    · exact (hbefore e he).le
    · simp at hkj
      exact hkj.le
  · intro hle
    rw [← mem_keys_iff, OrdMap.keys, h, map_append, map_cons, mem_append,
      mem_cons, mem_map, mem_map] at hk
    rcases hk with hk | rfl | ⟨e, he, rfl⟩
    · exact .inl hk
    · simp
    · exact absurd hle (not_le.mpr (hafter e he))

theorem length_shardMap {shardMap : OrdMap σ (Finset ShardErr)} (hmap : ∀ k, k ∈ shardMap ↔
      (record obj maps k).isSome ∨ k ∈ (done ++ [(j, m)]).map Prod.fst) :
    shardMap.entries.length = turnShards obj maps j := by
  apply length_entries_eq
  intro k
  rw [hmap, mem_iff_isSome, get_filter]
  cases hk : maps.get k with
  | some mk =>
    have hmem : k ∈ maps := by rw [mem_iff_isSome, hk]; rfl
    rw [mem_done_iff h hmem, record, hk, Option.bind_some, Option.filter_some]
    split_ifs with hc
    · simpa using hc
    · simpa using hc
  | none =>
    refine iff_of_false ?_ (by simp)
    rintro (hrec | hmem)
    · rw [record, hk] at hrec
      cases hrec
    · have hkeys := map_subset Prod.fst (subset_append_left _ rest) hmem
      rw [← append_cons, ← h, ← OrdMap.keys, mem_keys_iff, mem_iff_isSome, hk] at hkeys
      cases hkeys

end

theorem Tallied.put (ht : Tallied env obj maps fix a done t) (j : σ) (m : ScrubMap)
    (shardMap : OrdMap σ (Finset ShardErr)) (errors : Finset ShardErr)
    (objErrors : Finset ObjErr) (fixDigest : Bool) (hlarge : .sizeTooLarge ∈ objErrors ↔
      .sizeTooLarge ∈ t.objErrors ∨ (m.get obj).any (tooLarge env) = true)
    (hmap : ∀ k, shardMap.get k = if k = j then some errors else t.shardMap.get k)
    (herrors : ∀ o, record obj maps j = some o → errors = finalErrors env obj fix a j o)
    (hfix : fixDigest = (t.fixDigest || (fix && j = a.shard))) :
    Tallied env obj maps fix a (done ++ [(j, m)])
      (({ t with shardMap, objErrors, fixDigest } : Tally σ).put j
        (shardClass env obj maps fix a j)) := by
  have hkeys : ∀ k, k ∈ (done ++ [(j, m)]).map Prod.fst ↔ k ∈ done.map Prod.fst ∨ k = j := by
    intro k
    simp
  -- putting a shard in a class changes nothing else
  have hput : ∀ (t : Tally σ) c, (t.put j c).objErrors = t.objErrors ∧
      (t.put j c).shardMap = t.shardMap ∧ (t.put j c).fixDigest = t.fixDigest := by
    intro t c
    cases c <;> exact ⟨rfl, rfl, rfl⟩
  obtain ⟨hobj, hshard, hfixed⟩ := hput { t with shardMap, objErrors, fixDigest }
    (shardClass env obj maps fix a j)
  constructor
  · intro k c
    have hsame : ({ t with shardMap, objErrors, fixDigest } : Tally σ).Member k c ↔
        t.Member k c := by cases c <;> rfl
    rw [Tally.member_put, hsame, ht.member, hkeys, or_and_right]
    refine or_congr_right (and_congr_right ?_)
    rintro rfl
    exact eq_comm
  · rw [hobj, hlarge, ht.large]
    simp only [mem_append, mem_singleton, or_and_right, exists_or, exists_eq_left]
  · intro k
    rw [hshard, mem_iff_isSome, hmap, hkeys]
    by_cases hk : k = j
    · simp [hk]
    · rw [if_neg hk, ← mem_iff_isSome, ht.shards]
      simp [hk]
  · intro k o hk ho
    rw [hkeys, not_or] at hk
    rw [hshard, errorsOf, hmap, if_neg hk.2]
    exact ht.fresh k o hk.1 ho
  · intro k o hk ho
    rw [hshard, errorsOf, hmap]
    by_cases hkj : k = j
    · subst hkj
      rw [if_pos rfl]
      exact herrors o ho
    · rw [if_neg hkj]
      exact ht.errors k o (((hkeys k).mp hk).resolve_right hkj) ho
  · rw [hfixed, hfix, ht.fixed]
    have hmem : decide (a.shard ∈ (done ++ [(j, m)]).map Prod.fst) =
        (decide (a.shard ∈ done.map Prod.fst) || decide (j = a.shard)) := by
      rw [decide_eq_decide.mpr (hkeys a.shard), Bool.decide_or,
        decide_eq_decide.mpr (eq_comm (a := a.shard) (b := j))]
    rw [hmem, Bool.and_or_distrib_left]

/-- The digest is fixed in the turn of the selected copy, or not at all. -/
theorem fixesDigest_eq (env : ScrubEnv) (repair digestMatch : Bool)
    (hobject : record obj maps a.shard = some a.object) (ho : record obj maps j = some o)
    {shards : ℕ} (hshards : shards = turnShards obj maps j) :
    fixesDigest env repair (j = a.shard) digestMatch a.object.digestPresent shards
        (copyErrors env obj a.oi o) = (fixes env obj maps repair digestMatch a && j = a.shard) := by
  by_cases hj : j = a.shard
  · subst hj
    rw [hobject, Option.some_inj] at ho
    rw [hshards, ← ho, fixes, decide_eq_true rfl, Bool.and_true]
  · simp [fixesDigest, hj]

theorem shardClass_eq {c : Comparison} {objErrors : Finset ObjErr}
    (h : maps.entries = done ++ (j, m) :: rest) (hm : m.get obj = some o)
    (hlarge : .sizeTooLarge ∈ objErrors ↔ ∃ e ∈ done, (e.2.get obj).any (tooLarge env) = true)
    (hc : Compared env obj a.object a.oi o objErrors c) :
    shardClass env obj maps fix a j =
      if finalErrors env obj fix a j o ≠ ∅ then .inconsistent
      else if c.found = true then .objectError
      else .good := by
  have hrec : record obj maps j = some o := by
    rw [record_of_mem obj maps (m := m) (by rw [h]; simp), hm]
  have hfound : c.found = true ↔ copyDiffers env obj a.object a.oi o = true ∨
      firstLarge env obj maps = some j := by
    rw [hc.found, Bool.or_eq_true, Bool.and_eq_true, decide_eq_true_eq, hlarge,
      firstLarge_eq_iff env obj maps h, hm]
    simp
  simp only [shardClass, hrec, hfound]

/-- **One turn of the comparison**: no assertion fails, and the shard gets into its class. -/
theorem tallyShard_tallied (hfix : fixes env obj maps repair s.digestMatch a = fix)
    (hsel : Selected env obj maps s a) (h : maps.entries = done ++ (j, m) :: rest)
    (ht : Tallied env obj maps fix a done t) :
    ∃ t', tallyShard env obj repair a s.digestMatch t (j, m) = some t' ∧
      Tallied env obj maps fix a (done ++ [(j, m)]) t' := by
  have hnew := not_mem_done h
  have hrec : record obj maps j = m.get obj := by
    apply record_of_mem
    rw [h]
    simp
  unfold tallyShard
  cases hm : m.get obj with
  | none =>
    rw [hm] at hrec
    refine ⟨_, rfl, ?_⟩
    have hshard : j ≠ a.shard := by
      rintro rfl
      rw [hsel.object] at hrec
      cases hrec
    have hput := ht.put j m
      (t.shardMap.insert j (insert .shardMissing (errorsOf t.shardMap j)))
      (insert .shardMissing (errorsOf t.shardMap j)) t.objErrors t.fixDigest (by simp [hm])
      (get_insert _ _ · _) (by simp [hrec]) (by simp [hshard])
    rw [shardClass, hrec] at hput
    exact hput
  | some o =>
    rw [hm] at hrec
    obtain ⟨info, hins⟩ := hsel.inspects j o hrec
    obtain ⟨c, hc, hcompared⟩ := compareScrubObjects_spec env obj a.oi hsel.clean hins t.objErrors
    have hmap : ∀ e k, k ∈ t.shardMap.insert j e ↔
        (record obj maps k).isSome ∨ k ∈ (done ++ [(j, m)]).map Prod.fst := by
      intro e k
      rw [mem_insert, ht.shards]
      simp only [map_append, map_cons, map_nil, mem_append,
        mem_singleton, or_comm, or_left_comm]
    have hturn := fixesDigest_eq env repair s.digestMatch hsel.object hrec
      (length_shardMap h (hmap (copyErrors env obj a.oi o)))
    rw [hfix] at hturn
    dsimp only
    rw [ht.fresh j o hnew hrec, hc, Option.map_some]
    refine ⟨_, rfl, ?_⟩
    simp only [hcompared.shardErrors, hturn, Bool.and_eq_true, decide_eq_true_eq]
    have hput := ht.put j m
      ((t.shardMap.insert j (copyErrors env obj a.oi o)).insert j (finalErrors env obj fix a j o))
      (finalErrors env obj fix a j o) c.objErrors (t.fixDigest || (fix && j = a.shard))
      (by rw [hcompared.large, hm]; simp)
      (fun k => by rw [get_insert, get_insert]; split <;> rfl)
      (by rintro o' ho'; rw [hrec, Option.some_inj] at ho'; rw [ho']) rfl
    rw [shardClass_eq h hm ht.large hcompared] at hput
    show Tallied env obj maps _ a _ (if finalErrors env obj fix a j o ≠ ∅ then _ else _)
    by_cases herr : finalErrors env obj fix a j o ≠ ∅
    · rw [if_pos herr] at hput ⊢
      exact hput
    · rw [if_neg herr] at hput ⊢
      by_cases hfound : c.found = true
      · rw [if_pos hfound] at hput ⊢
        exact hput
      · rw [if_neg hfound] at hput ⊢
        exact hput

/-- **The comparison as a whole.** -/
theorem tally_total (repair : Bool) (hsel : Selected env obj maps s a) :
    ∃ t, maps.entries.foldlM (tallyShard env obj repair a s.digestMatch)
        ⟨s.shardMap, ∅, [], .empty, .empty, .empty, false⟩ = some t ∧
      Tallied env obj maps (fixes env obj maps repair s.digestMatch a) a maps.entries t := by
  refine Transition.run_total (P := Tallied env obj maps _ a)
    (fun done e rest t h ht => tallyShard_tallied (j := e.1) (m := e.2) rfl hsel h ht) ?_
  refine ⟨?_, by simp, ?_, ?_, by simp, by simp⟩
  · intro j c
    cases c <;> simp [Tally.Member, not_mem_empty]
  · intro j
    rw [mem_iff_isSome, hsel.shardMap, Option.isSome_map]
    simp
  · intro j o _ ho
    rw [errorsOf, hsel.shardMap, ho]
    rfl

end Step

/-! ## The outcome -/

section Outcome

variable (fix : Bool) (a : AuthCopy σ)

/-- The shards with errors that are of no particular shard. -/
def suspects : OrdSet σ :=
  OrdMap.empty.insertAll (maps.keys.filter (shardClass env obj maps fix a · = .objectError))

theorem mem_suspects {j : σ} :
    j ∈ suspects env obj maps fix a ↔
      j ∈ maps ∧ shardClass env obj maps fix a j = .objectError := by
  rw [suspects, mem_insertAll, mem_filter, mem_keys_iff, decide_eq_true_eq]
  simp [not_mem_empty]

/-- The copy that is taken if none is good. -/
def picked : Option σ :=
  if a.shard ∈ suspects env obj maps fix a then some a.shard
  else (suspects env obj maps fix a).keys.head?

/-- The shards that get into the list of good copies. -/
def Chosen (j : σ) : Prop :=
  j ∈ maps ∧ (shardClass env obj maps fix a j = .good ∨
    (∀ k ∈ maps, shardClass env obj maps fix a k ≠ .good) ∧ picked env obj maps fix a = some j)

theorem mem_suspects_of_picked {j : σ} (h : picked env obj maps fix a = some j) :
    j ∈ suspects env obj maps fix a := by
  unfold picked at h
  split at h
  · rename_i hmem
    rw [Option.some_inj] at h
    exact h ▸ hmem
  · rw [← mem_keys_iff]
    exact mem_of_mem_head? h

theorem Chosen.class_eq {j : σ} (h : Chosen env obj maps fix a j) :
    shardClass env obj maps fix a j = .good ∨ shardClass env obj maps fix a j = .objectError :=
  h.2.imp_right fun h => ((mem_suspects env obj maps fix a).mp
    (mem_suspects_of_picked env obj maps fix a h.2)).2

/-- What is known of the result for an object. -/
structure Outcome (r : ScrubResult σ) : Prop where
  missing : ∀ j, j ∈ r.missing ↔ j ∈ maps ∧ shardClass env obj maps fix a j = .missing
  inconsistent : ∀ j, j ∈ r.inconsistent ↔
    j ∈ maps ∧ shardClass env obj maps fix a j ≠ .missing ∧ ¬ Chosen env obj maps fix a j
  authList : ∀ j, j ∈ r.authList ↔ Chosen env obj maps fix a j
  nonempty : r.authList ≠ []
  errors : ∀ j o, record obj maps j = some o →
    errorsOf r.shardMap j = finalErrors env obj fix a j o
  digest : dataDigestWrong env a.oi a.object = true → (r.missingDigest.isSome = true ↔ fix = true)

variable {env obj maps fix a} {t : Tally σ}

section

variable (ht : Tallied env obj maps fix a maps.entries t)

include ht

theorem Tallied.member_iff (j : σ)
    (c : ShardClass) : t.Member j c ↔ j ∈ maps ∧ shardClass env obj maps fix a j = c := by
  rw [ht.member, ← OrdMap.keys, mem_keys_iff]

theorem Tallied.objectErrors_eq : t.objectErrors = suspects env obj maps fix a :=
  ext_mem fun j =>
    (ht.member_iff j .objectError).trans (mem_suspects env obj maps fix a).symm

theorem pickAuthList_spec {authList : List σ}
    (h : pickAuthList a t = some (authList, objectErrors)) :
    authList ≠ [] ∧ (∀ j, j ∈ authList ↔ Chosen env obj maps fix a j) ∧
      ∀ j, j ∈ objectErrors ↔ j ∈ maps ∧ shardClass env obj maps fix a j = .objectError ∧
        ¬ Chosen env obj maps fix a j := by
  have hgood : ∀ j, j ∈ t.authList ↔ j ∈ maps ∧ shardClass env obj maps fix a j = .good :=
    fun j => ht.member_iff j .good
  cases hlist : t.authList with
  | cons k l =>
    -- some copy is good
    have hk : k ∈ maps ∧ shardClass env obj maps fix a k = .good :=
      (hgood k).mp (by rw [hlist]; simp)
    have hchosen : ∀ j, Chosen env obj maps fix a j ↔
        j ∈ maps ∧ shardClass env obj maps fix a j = .good := by
      intro j
      refine and_congr_right fun _ => ⟨fun h => h.resolve_right fun h => h.1 k hk.1 hk.2, .inl⟩
    rw [pickAuthList, hlist] at h
    obtain ⟨rfl, rfl⟩ := h
    refine ⟨by simp, fun j => ?_, fun j => ?_⟩
    · rw [← hlist, hgood, hchosen]
    · rw [ht.objectErrors_eq, mem_suspects, hchosen]
      refine and_congr_right fun _ => ⟨fun hj => ⟨hj, fun h => ?_⟩, And.left⟩
      rw [hj] at h
      cases h.2
  | nil =>
    have hnone : ∀ k ∈ maps, shardClass env obj maps fix a k ≠ .good := by
      intro k hk hkgood
      have hmem := (hgood k).mpr ⟨hk, hkgood⟩
      rw [hlist] at hmem
      cases hmem
    cases hkeys : t.objectErrors.keys with
    | nil => simp [pickAuthList, hlist, hkeys] at h
    | cons first l =>
      -- the fallback takes one of the copies with errors of the object
      have hpicked : ∃ p, picked env obj maps fix a = some p ∧ authList = [p] ∧
          objectErrors = t.objectErrors.erase p := by
        simp only [pickAuthList, hlist, hkeys, Option.some.injEq, Prod.mk.injEq] at h
        rw [picked, ← ht.objectErrors_eq, hkeys]
        split_ifs at h ⊢ with hauth
        · exact ⟨a.shard, rfl, h.1.symm, h.2.symm⟩
        · exact ⟨first, rfl, h.1.symm, h.2.symm⟩
      obtain ⟨p, hp, rfl, rfl⟩ := hpicked
      have hmem := mem_suspects_of_picked env obj maps fix a hp
      have hchosen : ∀ j, Chosen env obj maps fix a j ↔ j = p := by
        intro j
        constructor
        · rintro ⟨hj, hjgood | ⟨_, hjp⟩⟩
          · exact absurd hjgood (hnone j hj)
          · rw [hp, Option.some_inj] at hjp
            exact hjp.symm
        · rintro rfl
          exact ⟨((mem_suspects env obj maps fix a).mp hmem).1, .inr ⟨hnone, hp⟩⟩
      refine ⟨by simp, fun j => ?_, fun j => ?_⟩
      · rw [hchosen, mem_singleton]
      · rw [hchosen, mem_iff_isSome, get_erase]
        by_cases hj : j = p
        · simp [hj]
        · rw [if_neg hj, ← mem_iff_isSome, ht.objectErrors_eq, mem_suspects]
          simp [hj]

theorem Tallied.mem_inconsistent_iff (hobj : ∀ j, j ∈ objectErrors ↔ j ∈ maps ∧
      shardClass env obj maps fix a j = .objectError ∧ ¬ Chosen env obj maps fix a j) (j : σ) :
    j ∈ t.curInconsistent.insertAll objectErrors.keys ↔
      j ∈ maps ∧ shardClass env obj maps fix a j ≠ .missing ∧ ¬ Chosen env obj maps fix a j := by
  have hclass := Chosen.class_eq env obj maps fix a (j := j)
  have hmember : j ∈ t.curInconsistent ↔
      j ∈ maps ∧ shardClass env obj maps fix a j = .inconsistent := ht.member_iff j .inconsistent
  rw [mem_insertAll, mem_keys_iff, hobj, hmember]
  cases hcl : shardClass env obj maps fix a j with
  | missing => simp
  | objectError => simp
  | inconsistent =>
    rw [hcl] at hclass
    have hno : ¬ Chosen env obj maps fix a j := by
      intro h
      rcases hclass h with h | h <;> cases h
    simp [hno]
  | good =>
    simp only [reduceCtorEq, and_false, false_and, or_self, ne_eq, not_false_eq_true, true_and,
      false_iff, not_and, not_not]
    exact fun hj => ⟨hj, .inl hcl⟩

end

/-- The digests that are entered: an assertion would need a wrong digest of the selected copy, which
is then inconsistent. -/
theorem missingDigest_spec (hfix : fixes env obj maps repair s.digestMatch a = fix)
    (hsel : Selected env obj maps s a) (ht : Tallied env obj maps fix a maps.entries t)
    (inconsistent : OrdSet σ)
    (hinc : shardClass env obj maps fix a a.shard = .inconsistent → a.shard ∈ inconsistent) :
    ∃ d, missingDigest env repair a t inconsistent = some d ∧
      (dataDigestWrong env a.oi a.object = true → (d.isSome = true ↔ fix = true)) := by
  have hauth : a.shard ∈ maps.entries.map Prod.fst :=
    (mem_keys_iff maps a.shard).mpr (mem_of_record obj maps hsel.object)
  have hfixed := ht.fixed
  rw [decide_eq_true hauth, Bool.and_true] at hfixed
  unfold missingDigest
  rw [hfixed]
  cases fix with
  | true =>
    have hpresent : a.object.digestPresent = true := by
      simp only [fixes, fixesDigest, Bool.and_eq_true] at hfix
      exact hfix.2
    rw [if_pos rfl, if_pos hpresent]
    exact ⟨_, rfl, by simp⟩
  | false =>
    rw [if_neg (by simp)]
    by_cases hbad : inconsistent.entries ≠ [] ∨ t.curMissing.entries ≠ []
    · rw [if_pos hbad]
      exact ⟨none, rfl, by simp⟩
    rw [if_neg hbad]
    rw [not_or, not_not] at hbad
    have hclean : copyErrors env obj a.oi a.object = ∅ := by
      by_contra herr
      apply not_mem_of_entries_eq_nil hbad.1 a.shard
      apply hinc
      simp [shardClass, hsel.object, finalErrors, herr]
    obtain ⟨hdata, homap⟩ := digestsWrong_of_copyErrors env obj hclean
    have hnowrong : dataDigestWrong env a.oi a.object = true → False := by simp [hdata]
    by_cases hpool : env.pool = .replicated
    · simp only [dataDigestWrong, hpool, decide_true, Bool.true_and] at hdata
      simp only [omapDigestWrong, hpool, decide_true, Bool.true_and] at homap
      rw [if_pos hpool, digestUpdate]
      simp only [hdata, homap, Bool.false_eq_true, if_false, Option.bind_eq_bind,
        Option.bind_some, Option.map_some]
      exact ⟨_, rfl, fun h => (hnowrong h).elim⟩
    · rw [if_neg hpool]
      exact ⟨none, rfl, fun h => (hnowrong h).elim⟩

/-- A digest is fixed on a copy whose only error is cleared, so that it can be taken. -/
theorem pickAuthList_ne_none (hfix : fixes env obj maps repair s.digestMatch a = true)
    (hsel : Selected env obj maps s a) (ht : Tallied env obj maps true a maps.entries t) :
    pickAuthList a t ≠ none := by
  have herrors : copyErrors env obj a.oi a.object = {.dataDigestMismatchInfo} := by
    simp only [fixes, fixesDigest, Bool.and_eq_true, decide_eq_true_eq] at hfix
    exact hfix.1.2
  have hclass : shardClass env obj maps true a a.shard = .objectError ∨
      shardClass env obj maps true a a.shard = .good := by
    simp only [shardClass, hsel.object, finalErrors, and_self, if_true, herrors,
      Finset.erase_singleton, ne_eq, not_true_eq_false, if_false]
    split
    · exact .inl rfl
    · exact .inr rfl
  have hmem := mem_of_record obj maps hsel.object
  intro hpick
  obtain ⟨hlist, hkeys⟩ : t.authList = [] ∧ t.objectErrors.keys = [] := by
    unfold pickAuthList at hpick
    split at hpick
    · rename_i hlist hkeys
      exact ⟨hlist, hkeys⟩
    · cases hpick
    · cases hpick
  rcases hclass with hclass | hclass
  · have hshard : a.shard ∈ t.objectErrors :=
      (ht.member_iff a.shard .objectError).mpr ⟨hmem, hclass⟩
    rw [← mem_keys_iff, hkeys] at hshard
    cases hshard
  · have hshard : a.shard ∈ t.authList := (ht.member_iff a.shard .good).mpr ⟨hmem, hclass⟩
    rw [hlist] at hshard
    cases hshard

/-- **No assertion fails in the comparison of an object**, and this is its outcome. The scrub does
not give up on an object whose digest it fixes. -/
theorem compareScrubmaps_spec (repair : Bool)
    (hsel : selectAuthObject env obj maps primary = some s) (ha : s.auth = some a) :
    ∃ outcome, compareScrubmaps env obj maps primary repair = some outcome ∧
      (∀ r, outcome = .compared r →
        Outcome env obj maps (fixes env obj maps repair s.digestMatch a) a r) ∧
      (fixes env obj maps repair s.digestMatch a = true → ∃ r, outcome = .compared r) := by
  have hselected := selected env obj maps hsel ha
  obtain ⟨t, hfold, ht⟩ := tally_total repair hselected
  unfold compareScrubmaps
  rw [hsel, Option.bind_eq_bind, Option.bind_some]
  rw [ha]
  dsimp only
  rw [hfold, Option.bind_eq_bind, Option.bind_some]
  cases hpick : pickAuthList a t with
  | none =>
    refine ⟨_, rfl, by simp, fun hfix => absurd hpick ?_⟩
    rw [hfix] at ht
    exact pickAuthList_ne_none hfix hselected ht
  | some pair =>
    obtain ⟨authList, objectErrors⟩ := pair
    obtain ⟨hne, hlist, hobj⟩ := pickAuthList_spec ht hpick
    have hinc := ht.mem_inconsistent_iff hobj
    obtain ⟨d, hd, hdigest⟩ := missingDigest_spec rfl hselected ht
      (t.curInconsistent.insertAll objectErrors.keys) (by
        intro hclass
        rw [mem_insertAll]
        exact .inl ((ht.member_iff a.shard .inconsistent).mpr
          ⟨mem_of_record obj maps hselected.object, hclass⟩))
    dsimp only
    rw [hd, Option.bind_eq_bind, Option.bind_some]
    refine ⟨_, rfl, ?_, fun _ => ⟨_, rfl⟩⟩
    rintro r hr
    cases hr
    refine ⟨fun j => ht.member_iff j .missing, hinc, hlist, hne, ?_, hdigest⟩
    intro j o ho
    exact ht.errors j o ((mem_keys_iff maps j).mpr (mem_of_record obj maps ho)) ho

end Outcome

end Ceph.Osd
