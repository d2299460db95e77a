import Ceph.Common.Scan
import Ceph.Lib.Transition
import Ceph.Osd.Placement
import Mathlib.Data.List.TakeWhile

set_option autoImplicit false

/-! # The names of collections

`coll_t` (`osd/osd_types.cc`): a collection is the one of the metadata, or that of a placement group
or of its temporary objects. It keeps its name in a buffer, which `calc_str` fills; `parse` reads a
name, and asserts that it is the one that `calc_str` writes. `decode` reads what `encode` writes, but
does not call `calc_str`.

The deprecated `removal_seq` is left out. A name that `sscanf` accepts and that is written otherwise
than `calc_str` writes it fails the assertion (`coll_names_iff`).
-/

namespace Ceph.Osd.CollName

open List Hobject Scan LexCode

/-! ## The model -/

/-- `spg_t`. The shard -1 is `NO_SHARD`. -/
structure Spg where
  pgid : Pg
  shard : Int8
  deriving DecidableEq

/-- `coll_t::type_t`. -/
inductive CollType
  | metaColl
  | legacyTemp
  | pg
  | pgTemp
  deriving DecidableEq

/-- `coll_t`, with the string in its buffer. -/
structure Coll where
  type : CollType
  pgid : Spg
  str : Bytes
  deriving DecidableEq

/-- A failed assertion, or an exception. -/
inductive Fault
  | abort
  | malformed
  deriving DecidableEq

/-- What `spg_t::calc_name` writes for the shard. -/
def shardText (shard : Int8) : Bytes :=
  if shard = -1 then [] else 0x73 :: ritoa 10 shard.toUInt8.toNat

/-- `spg_t::calc_name`, without the suffix. -/
def Spg.calcName (pg : Spg) : Bytes :=
  ritoa 10 pg.pgid.pool.toNat ++ 0x2e :: (ritoa 16 pg.pgid.seed.toNat ++ shardText pg.shard)

/-- `meta`. -/
def metaStr : Bytes := [0x6d, 0x65, 0x74, 0x61]

/-- `_head`. -/
def headStr : Bytes := [0x5f, 0x68, 0x65, 0x61, 0x64]

/-- `_TEMP`. -/
def tempStr : Bytes := [0x5f, 0x54, 0x45, 0x4d, 0x50]

/-- `calc_str`; it aborts for other types. -/
def calcStr : CollType → Spg → Option Bytes
  | .metaColl, _ => some metaStr
  | .pg, pgid => some (pgid.calcName ++ headStr)
  | .pgTemp, pgid => some (pgid.calcName ++ tempStr)
  | .legacyTemp, _ => none

/-- `sscanf` with `%llu.%x`. -/
def scanPg (s : Bytes) : Option Pg := do
  let (pool, rest) ← scanNumber 10 s
  if rest.head? = some 0x2e then
    let (seed, _) ← scanNumber 16 rest.tail
    some ⟨pool, seed.toUInt32⟩
  else none

/-- `spg_t::parse` of a C string: its answer, and what it leaves in the object. -/
def Spg.parse (pg : Spg) (s : Bytes) : Bool × Spg :=
  let s := s.takeWhile (· ≠ 0)
  match scanPg s with
  | none => (false, { pg with shard := -1 })
  | some pgid =>
    if s.dropWhile (· ≠ 0x73) = [] then (true, ⟨pgid, -1⟩)
    else
      match scanNumber 10 (s.dropWhile (· ≠ 0x73)).tail with
      | none => (false, ⟨pgid, -1⟩)
      | some (shard, _) => (true, ⟨pgid, shard.toUInt8.toInt8⟩)

def find (pat s : Bytes) : Option ℕ :=
  (List.range s.length).find? fun i => pat.isPrefixOf (s.drop i)

/-- `s.find(pat) == s.length() - 5`. Where nothing is found this is `npos`, which is also what
`4 - 5` is. -/
def endsWith (pat s : Bytes) : Bool :=
  match find pat s with
  | some i => i + 5 = s.length
  | none => s.length = 4

/-- `s.substr(0, s.length() - 5)`. -/
def body (s : Bytes) : Bytes := if s.length = 4 then s else s.take (s.length - 5)

/-- The end of `coll_t::parse`: `calc_str` and the assertion. -/
def accept (s : Bytes) (type : CollType) (pgid : Spg) : Except Fault (Bool × Coll) :=
  if calcStr type pgid = some s then .ok (true, ⟨type, pgid, s⟩) else .error .abort

/-- One of the tests of `coll_t::parse`, with what it leaves in the placement group. -/
def tryForm (pat : Bytes) (pgid : Spg) (s : Bytes) : Bool × Spg :=
  if endsWith pat s then pgid.parse (body s) else (false, pgid)

def Coll.parse (c : Coll) (s : Bytes) : Except Fault (Bool × Coll) :=
  if s = metaStr then accept s .metaColl ⟨⟨0, 0⟩, -1⟩
  else if (tryForm headStr c.pgid s).1 then accept s .pg (tryForm headStr c.pgid s).2
  else if (tryForm tempStr (tryForm headStr c.pgid s).2 s).1 then
    accept s .pgTemp (tryForm tempStr (tryForm headStr c.pgid s).2 s).2
  else .ok (false, { c with pgid := (tryForm tempStr (tryForm headStr c.pgid s).2 s).2 })

/-- `operator==`. -/
def Coll.eq (c c' : Coll) : Bool :=
  c.type = c'.type ∧ (c.type = .metaColl ∨ c.pgid = c'.pgid)

/-! ### The encoding -/

/-- A number of `k` bytes. -/
def putLe (k n : ℕ) : Bytes := (bigEndian k n).reverse

def CollType.toByte : CollType → UInt8
  | .metaColl => 0
  | .legacyTemp => 1
  | .pg => 2
  | .pgTemp => 3

/-- `spg_t::encode`: a header with the length, and the fields. -/
def Spg.encode (pg : Spg) : Bytes :=
  [1, 1] ++ putLe 4 18 ++ ([1] ++ putLe 8 pg.pgid.pool.toNat ++ putLe 4 pg.pgid.seed.toNat ++
    putLe 4 0xffffffff ++ [pg.shard.toUInt8])

def Coll.encode (c : Coll) : Bytes :=
  if c.type = .pgTemp then [3] ++ putLe 4 c.str.length ++ c.str
  else [2, c.type.toByte] ++ c.pgid.encode ++ putLe 8 noSnap.toNat

/-- Some bytes are read. -/
def getBytes (k : ℕ) (bl : Bytes) : Except Fault (Bytes × Bytes) :=
  if bl.length < k then .error .malformed else .ok (bl.take k, bl.drop k)

/-- A number of `k` bytes is read. -/
def getLe (k : ℕ) (bl : Bytes) : Except Fault (ℕ × Bytes) := do
  let (bytes, bl) ← getBytes k bl
  .ok (ofBigEndian bytes.reverse, bl)

def Spg.decode (bl : Bytes) : Except Fault (Spg × Bytes) := do
  let (_, bl) ← getLe 1 bl
  let (compat, bl) ← getLe 1 bl
  if 1 < compat then .error .malformed
  else
    let (len, bl) ← getLe 4 bl
    if bl.length < len then .error .malformed
    else
      let (_, fields) ← getLe 1 bl
      let (pool, fields) ← getLe 8 fields
      let (seed, fields) ← getLe 4 fields
      let (_, fields) ← getLe 4 fields
      let (shard, fields) ← getLe 1 fields
      if fields.length + len < bl.length then .error .malformed
      else .ok (⟨⟨UInt64.ofNat pool, UInt32.ofNat seed⟩, (UInt8.ofNat shard).toInt8⟩, bl.drop len)

/-- The type that a byte stands for; others are not values of the enumeration. -/
def typeOfByte : ℕ → Except Fault CollType
  | 0 => .ok .metaColl
  | 1 => .ok .legacyTemp
  | 2 => .ok .pg
  | 3 => .ok .pgTemp
  | _ => .error .malformed

/-- `coll_t::decode`. Only the third version comes to a call of `calc_str`. -/
def Coll.decode (c : Coll) (bl : Bytes) : Except Fault (Coll × Bytes) := do
  let (structV, bl) ← getLe 1 bl
  if structV = 1 then
    let (pgid, bl) ← Spg.decode bl
    let (snap, bl) ← getLe 8 bl
    .ok ({ c with pgid := pgid, type :=
      if pgid = ⟨⟨0, 0⟩, -1⟩ ∧ snap = 0 then .metaColl else .pg }, bl)
  else if structV = 2 then
    let (byte, bl) ← getLe 1 bl
    let (pgid, bl) ← Spg.decode bl
    let (_, bl) ← getLe 8 bl
    let type ← typeOfByte byte
    .ok ({ c with type := type, pgid := pgid }, bl)
  else if structV = 3 then
    let (len, bl) ← getLe 4 bl
    let (str, bl) ← getBytes len bl
    let (ok, c) ← c.parse str
    if ok then .ok (c, bl) else .error .malformed
  else .error .malformed

/-! ## Placement groups -/

theorem mem_calcName {pg : Spg} {c : UInt8} (hc : c ∈ pg.calcName) :
    (∃ i < 16, c = lowerHexDigit i) ∨ c = 0x2e ∨ c = 0x73 := by
  have hdigit : ∀ {base n : ℕ}, 1 < base → base ≤ 16 → c ∈ ritoa base n →
      ∃ i < 16, c = lowerHexDigit i := by
    intro base n hbase hle hc
    obtain ⟨i, hi, hc⟩ := mem_ritoa hbase hc
    exact ⟨i, by omega, hc⟩
  rw [Spg.calcName, mem_append, mem_cons, mem_append, shardText] at hc
  rcases hc with hc | hc | hc | hc
  · exact .inl (hdigit (by decide) (by decide) hc)
  · exact .inr (.inl hc)
  · exact .inl (hdigit (by decide) (by decide) hc)
  · split at hc
    · cases hc
    · rcases mem_cons.mp hc with hc | hc
      · exact .inr (.inr hc)
      · exact .inl (hdigit (by decide) (by decide) hc)

theorem ne_of_mem_calcName {pg : Spg} {c d : UInt8} (hc : c ∈ pg.calcName)
    (hd : d = 0 ∨ d = 0x5f) : c ≠ d := by
  have hdigit : ∀ i < 16, lowerHexDigit i ≠ 0 ∧ lowerHexDigit i ≠ 0x5f := by decide
  rcases mem_calcName hc with ⟨i, hi, rfl⟩ | rfl | rfl <;> rcases hd with rfl | rfl
  · exact (hdigit i hi).1
  · exact (hdigit i hi).2
  all_goals decide

theorem head?_shardText (shard : Int8) : ∀ c ∈ (shardText shard).head?, c = 0x73 := by
  rw [shardText]
  split
  · simp
  · simp

theorem scanPg_calcName (pg : Spg) : scanPg pg.calcName = some pg.pgid := by
  have hpool := scanNumber_ritoa (show 1 < 10 by decide) (by decide) pg.pgid.pool.toNat_lt
    (0x2e :: (ritoa 16 pg.pgid.seed.toNat ++ shardText pg.shard)) (by rintro c ⟨rfl⟩; decide)
  have hseed := scanNumber_ritoa (show 1 < 16 by decide) (by decide)
    (pg.pgid.seed.toNat_lt.trans (by decide)) (shardText pg.shard) (by
      intro c hc
      rw [head?_shardText pg.shard c hc]
      decide)
  rw [scanPg, Spg.calcName, hpool]
  simp only [Option.bind_eq_bind, Option.bind_some, head?_cons, if_pos, tail_cons, hseed]
  rw [UInt64.ofNat_toNat]
  have hcut : (UInt64.ofNat pg.pgid.seed.toNat).toUInt32 = pg.pgid.seed := by
    apply UInt32.toNat_inj.mp
    rw [UInt64.toNat_toUInt32, UInt64.toNat_ofNat']
    have := pg.pgid.seed.toNat_lt
    omega
  rw [hcut]

theorem dropWhile_calcName (pg : Spg) : pg.calcName.dropWhile (· ≠ 0x73) = shardText pg.shard := by
  have hdigit : ∀ i < 16, lowerHexDigit i ≠ 0x73 := by decide
  have hnot : ∀ c ∈ ritoa 10 pg.pgid.pool.toNat ++ 0x2e :: ritoa 16 pg.pgid.seed.toNat,
      decide (c ≠ 0x73) = true := by
    intro c hc
    rw [mem_append, mem_cons] at hc
    rw [decide_eq_true_eq]
    rcases hc with hc | rfl | hc
    · obtain ⟨i, hi, rfl⟩ := mem_ritoa (by decide) hc
      exact hdigit i (by omega)
    · decide
    · obtain ⟨i, hi, rfl⟩ := mem_ritoa (by decide) hc
      exact hdigit i hi
  rw [Spg.calcName, ← cons_append, ← append_assoc, dropWhile_append_of_pos hnot,
    shardText]
  split
  · rfl
  · exact dropWhile_cons_of_neg (by simp)

/-- **A placement group that was written is read back.** -/
theorem parse_calcName (old pg : Spg) : old.parse pg.calcName = (true, pg) := by
  have hself : pg.calcName.takeWhile (· ≠ 0) = pg.calcName :=
    takeWhile_eq_self_iff.mpr fun c hc =>
      decide_eq_true (ne_of_mem_calcName hc (.inl rfl))
  rw [Spg.parse, hself, scanPg_calcName]
  dsimp only
  rw [dropWhile_calcName, shardText]
  by_cases hshard : pg.shard = -1
  · rw [if_pos hshard, if_pos rfl, ← hshard]
  · have hlt := pg.shard.toUInt8.toNat_lt
    have hscan := scanNumber_ritoa (show 1 < 10 by decide) (by decide)
      (show pg.shard.toUInt8.toNat < 2 ^ 64 by omega) [] (by simp)
    rw [append_nil] at hscan
    rw [if_neg hshard, if_neg (cons_ne_nil _ _), tail_cons, hscan]
    dsimp only
    have hback : (UInt64.ofNat pg.shard.toUInt8.toNat).toUInt8.toInt8 = pg.shard := by
      have heq : (UInt64.ofNat pg.shard.toUInt8.toNat).toUInt8 = pg.shard.toUInt8 := by
        apply UInt8.toNat_inj.mp
        rw [UInt64.toNat_toUInt8, UInt64.toNat_ofNat']
        omega
      rw [heq]
      exact pg.shard.toInt8_toUInt8
    rw [hback]

theorem parse_fst (pg pg' : Spg) (s : Bytes) : (pg.parse s).1 = (pg'.parse s).1 := by
  rw [Spg.parse, Spg.parse]
  split
  · rfl
  · split
    · rfl
    · split <;> rfl

/-! ## Names -/

variable {pat s t : Bytes} {c : Coll} {type : CollType} {pgid : Spg}

/-- A suffix of five characters is found at its place only. -/
theorem isPrefixOf_drop_iff (hpat : pat.head? = some 0x5f) (hlen : pat.length = 5)
    (ht : t.length = 5) (hs : (0x5f : UInt8) ∉ s) (i : ℕ) :
    pat.isPrefixOf ((s ++ t).drop i) = true ↔ i = s.length ∧ pat = t := by
  rw [List.isPrefixOf_iff_prefix]
  constructor
  · intro h
    have hle := h.length_le
    rw [length_drop, length_append] at hle
    by_cases hi : i = s.length
    · subst hi
      rw [drop_left] at h
      exact ⟨rfl, h.eq_of_length (by omega)⟩
    · have hlt : i < s.length := by omega
      rw [drop_append_of_le_length hlt.le, drop_eq_getElem_cons hlt] at h
      cases pat with
      | nil => cases hpat
      | cons c pat =>
        cases hpat
        refine absurd ?_ hs
        rw [(cons_prefix_cons.mp h).1]
        exact getElem_mem hlt
  · rintro ⟨rfl, rfl⟩
    rw [drop_left]

theorem find_append (hpat : pat.head? = some 0x5f) (hlen : pat.length = 5) (ht : t.length = 5)
    (hs : (0x5f : UInt8) ∉ s) : find pat (s ++ t) = if pat = t then some s.length else none := by
  have hiff := isPrefixOf_drop_iff hpat hlen ht hs
  rw [find]
  split
  · rename_i heq
    rw [find?_range_eq_some]
    refine ⟨(hiff _).mpr ⟨rfl, heq⟩, mem_range.mpr (by rw [length_append]; omega), ?_⟩
    intro j hj
    rw [Bool.not_eq_true', Bool.eq_false_iff, ne_eq, hiff]
    omega
  · rename_i hne
    rw [find?_eq_none]
    intro i _
    rw [hiff]
    exact fun h => hne h.2

theorem body_append (pg : Spg) (ht : t.length = 5) : body (pg.calcName ++ t) = pg.calcName := by
  rw [body, if_neg (by rw [length_append]; omega), length_append, ht, Nat.add_sub_cancel,
    take_left]

theorem tryForm_calcName (pat t : Bytes) (hpat : pat.head? = some 0x5f) (hlen : pat.length = 5)
    (ht : t.length = 5) (old pg : Spg) :
    tryForm pat old (pg.calcName ++ t) = if pat = t then (true, pg) else (false, old) := by
  have hnot : (0x5f : UInt8) ∉ pg.calcName := fun h => ne_of_mem_calcName h (.inr rfl) rfl
  rw [tryForm, endsWith, find_append hpat hlen ht hnot]
  by_cases heq : pat = t
  · rw [if_pos heq, if_pos heq, body_append pg ht]
    rw [if_pos (by simp [ht]), parse_calcName]
  · rw [if_neg heq, if_neg heq]
    rw [if_neg (by simp [ht])]

theorem calcName_append_ne_meta (pg : Spg) (ht : t.length = 5) : pg.calcName ++ t ≠ metaStr := by
  intro h
  have hlen := congrArg List.length h
  rw [length_append, ht] at hlen
  have hmeta : metaStr.length = 4 := rfl
  omega

/-- **A name that was written is read back.** -/
theorem parse_of_calcStr (h : calcStr type pgid = some s) (c : Coll) :
    ∃ pgid', c.parse s = .ok (true, ⟨type, pgid', s⟩) ∧ (type = .metaColl ∨ pgid' = pgid) := by
  cases type with
  | metaColl =>
    cases h
    exact ⟨_, rfl, .inl rfl⟩
  | legacyTemp => cases h
  | pg =>
    cases h
    refine ⟨pgid, ?_, .inr rfl⟩
    have hhead := tryForm_calcName headStr headStr rfl rfl rfl c.pgid pgid
    rw [if_pos rfl] at hhead
    rw [Coll.parse, if_neg (calcName_append_ne_meta pgid rfl), hhead, if_pos rfl]
    exact if_pos rfl
  | pgTemp =>
    cases h
    refine ⟨pgid, ?_, .inr rfl⟩
    have hhead := tryForm_calcName headStr tempStr rfl rfl rfl c.pgid pgid
    have htemp := tryForm_calcName tempStr tempStr rfl rfl rfl c.pgid pgid
    rw [if_neg (by decide)] at hhead
    rw [if_pos rfl] at htemp
    rw [Coll.parse, if_neg (calcName_append_ne_meta pgid rfl), hhead, if_neg Bool.false_ne_true,
      htemp, if_pos rfl]
    exact if_pos rfl

theorem of_accept {b : Bool} (h : accept s type pgid = .ok (b, c)) :
    calcStr c.type c.pgid = some s ∧ c.str = s := by
  rw [accept] at h
  split at h
  · rename_i hstr
    cases h
    exact ⟨hstr, rfl⟩
  · cases h

/-- **What is accepted is a name.** -/
theorem of_parse {c' : Coll} (h : c.parse s = .ok (true, c')) :
    calcStr c'.type c'.pgid = some s ∧ c'.str = s := by
  rw [Coll.parse] at h
  split at h
  · exact of_accept h
  · split at h
    · exact of_accept h
    · split at h
      · exact of_accept h
      · cases h

/-- A string from which `sscanf` reads a placement group. -/
def Scans (s : Bytes) : Prop :=
  (endsWith headStr s ∨ endsWith tempStr s) ∧ (Spg.parse ⟨⟨0, 0⟩, -1⟩ (body s)).1 = true

/-- The name of some collection. -/
def IsName (s : Bytes) : Prop := ∃ type pgid, calcStr type pgid = some s

theorem tryForm_fst (pat : Bytes) (pgid : Spg) (s : Bytes) : (tryForm pat pgid s).1 = true ↔
    endsWith pat s = true ∧ (Spg.parse ⟨⟨0, 0⟩, -1⟩ (body s)).1 = true := by
  rw [tryForm]
  split
  · next h => simp [h, parse_fst pgid ⟨⟨0, 0⟩, -1⟩]
  · next h => simp [h]

/-- **`parse` does not abort** on names, and on strings from which nothing is read. -/
theorem parse_ok_iff (c : Coll) (s : Bytes) : (∃ r, c.parse s = .ok r) ↔ (Scans s → IsName s) := by
  constructor
  · rintro ⟨⟨b, c'⟩, h⟩ ⟨hend, hscan⟩
    have hname : b = true := by
      by_contra hb
      rw [Bool.not_eq_true] at hb
      subst hb
      rw [Coll.parse] at h
      split at h
      · rw [accept] at h
        split at h <;> cases h
      · split at h
        · rw [accept] at h
          split at h <;> cases h
        · rename_i hhead
          split at h
          · rw [accept] at h
            split at h <;> cases h
          · rename_i htemp
            rw [tryForm_fst] at hhead htemp
            exact hend.elim (fun he => hhead ⟨he, hscan⟩) (fun he => htemp ⟨he, hscan⟩)
    subst hname
    exact ⟨c'.type, c'.pgid, (of_parse h).1⟩
  · intro h
    by_cases hscan : Scans s
    · obtain ⟨type, pgid, hname⟩ := h hscan
      obtain ⟨pgid', hparse, -⟩ := parse_of_calcStr hname c
      exact ⟨_, hparse⟩
    · rw [Coll.parse]
      split
      · next hmeta => exact ⟨_, if_pos (by rw [hmeta]; rfl)⟩
      · have hform : ∀ pat, pat = headStr ∨ pat = tempStr → ∀ pgid,
            ¬ (tryForm pat pgid s).1 = true := by
          intro pat hpat pgid hok
          obtain ⟨hend, hread⟩ := (tryForm_fst pat pgid s).mp hok
          rcases hpat with rfl | rfl
          · exact hscan ⟨.inl hend, hread⟩
          · exact hscan ⟨.inr hend, hread⟩
        rw [if_neg (hform _ (.inl rfl) _), if_neg (hform _ (.inr rfl) _)]
        exact ⟨_, rfl⟩

/-! ## The encoding -/

@[simp] theorem length_putLe (k n : ℕ) : (putLe k n).length = k := by
  rw [putLe, length_reverse, bigEndian_length]

theorem getBytes_append (a b : Bytes) : getBytes a.length (a ++ b) = .ok (a, b) := by
  rw [getBytes, if_neg (by rw [length_append]; omega), take_left, drop_left]

theorem getLe_putLe (k : ℕ) {n : ℕ} (hn : n < 256 ^ k) (rest : Bytes) :
    getLe k (putLe k n ++ rest) = .ok (n, rest) := by
  have h := getBytes_append (putLe k n) rest
  rw [length_putLe] at h
  rw [getLe, h]
  show Except.ok (ofBigEndian (putLe k n).reverse, rest) = _
  rw [putLe, reverse_reverse, ofBigEndian_bigEndian k hn]

theorem getLe_cons (c : UInt8) (rest : Bytes) : getLe 1 (c :: rest) = .ok (c.toNat, rest) := by
  rw [getLe, getBytes, if_neg (by simp)]
  show Except.ok (ofBigEndian [c], rest) = _
  rw [ofBigEndian, foldl_cons, foldl_nil, Nat.zero_mul, Nat.zero_add]

/-- **`spg_t::decode` reads what `spg_t::encode` writes.** -/
theorem decode_encode_spg (pg : Spg) (rest : Bytes) :
    Spg.decode (pg.encode ++ rest) = .ok (pg, rest) := by
  have hpool := pg.pgid.pool.toNat_lt
  have hseed := pg.pgid.seed.toNat_lt
  set fields := [1] ++ putLe 8 pg.pgid.pool.toNat ++ putLe 4 pg.pgid.seed.toNat ++
    putLe 4 0xffffffff ++ [pg.shard.toUInt8] with hfields
  have hlen : fields.length = 18 := by simp [hfields]
  have htext : pg.encode ++ rest = 1 :: 1 :: (putLe 4 18 ++ (fields ++ rest)) := by
    simp [Spg.encode, hfields]
  have hread : fields ++ rest = 1 :: (putLe 8 pg.pgid.pool.toNat ++ (putLe 4 pg.pgid.seed.toNat ++
      (putLe 4 0xffffffff ++ pg.shard.toUInt8 :: rest))) := by
    simp [hfields]
  rw [Spg.decode, htext]
  simp only [getLe_cons, getLe_putLe 4 (show 18 < 256 ^ 4 by decide), bind, Except.bind]
  rw [if_neg (by decide), if_neg (by rw [length_append]; omega), hread]
  simp only [getLe_cons, getLe_putLe 8 (show _ < 256 ^ 8 from hpool),
    getLe_putLe 4 (show _ < 256 ^ 4 from hseed), getLe_putLe 4 (show 0xffffffff < 256 ^ 4 by decide)]
  rw [← hread, if_neg (by rw [length_append]; omega), ← hlen, drop_left, UInt64.ofNat_toNat,
    UInt32.ofNat_toNat, UInt8.ofNat_toNat, pg.shard.toInt8_toUInt8]

theorem length_of_calcStr (h : calcStr type pgid = some s) : s.length < 256 ^ 4 := by
  have hpool := length_ritoa_le (show 1 < 10 by decide) 20
    (pgid.pgid.pool.toNat_lt.trans (by decide))
  have hseed := length_ritoa_le (show 1 < 16 by decide) 8 pgid.pgid.seed.toNat_lt
  have hshard : (shardText pgid.shard).length ≤ 5 := by
    rw [shardText]
    split
    · exact Nat.zero_le _
    · have hlt : pgid.shard.toUInt8.toNat < 10 ^ 3 := pgid.shard.toUInt8.toNat_lt.trans (by decide)
      exact Nat.succ_le_succ (length_ritoa_le (by decide) 3 hlt)
  have hname : pgid.calcName.length ≤ 36 := by
    rw [Spg.calcName, length_append, length_cons, length_append]
    omega
  cases type with
  | metaColl =>
    cases h
    decide
  | legacyTemp => cases h
  | pg | pgTemp =>
    cases h
    rw [length_append]
    exact lt_of_le_of_lt (Nat.add_le_add_right hname _) (by decide)

theorem decode_encode_of_ne_temp (old : Coll) (h : c.type ≠ .pgTemp) :
    old.decode c.encode = .ok ({ old with type := c.type, pgid := c.pgid }, []) := by
  rw [Coll.encode, if_neg h, Coll.decode]
  simp only [cons_append, nil_append, getLe_cons, bind, Except.bind, decode_encode_spg]
  cases htype : c.type with
  | pgTemp => exact absurd htype h
  | metaColl | legacyTemp | pg => rfl

theorem decode_encode_of_temp (old : Coll) (h : c.type = .pgTemp)
    (hstr : calcStr c.type c.pgid = some c.str) : old.decode c.encode = .ok (c, []) := by
  obtain ⟨pgid', hparse, hpgid⟩ := parse_of_calcStr hstr old
  rw [h] at hpgid
  rw [hpgid.resolve_left (by decide)] at hparse
  have hbytes := getBytes_append c.str []
  rw [append_nil] at hbytes
  rw [Coll.encode, if_pos h, Coll.decode]
  simp only [cons_append, nil_append, getLe_cons, bind, Except.bind,
    getLe_putLe 4 (length_of_calcStr hstr), hbytes, hparse]
  rfl

/-! ## What holds -/

/-- A collection is what `parse` makes of its name, and `decode` of its encoding, in any object. -/
def RoundTrips (c : Coll) : Prop :=
  ∀ old : Coll, (∃ c', old.parse c.str = .ok (true, c') ∧ c'.eq c = true) ∧
    ∃ c', old.decode c.encode = .ok (c', []) ∧ c'.eq c = true

theorem roundTrips_iff (c : Coll) : RoundTrips c ↔ calcStr c.type c.pgid = some c.str := by
  constructor
  · intro h
    obtain ⟨⟨c', hparse, heq⟩, -⟩ := h c
    rw [Coll.eq, decide_eq_true_eq] at heq
    rw [← (of_parse hparse).1, ← heq.1]
    rcases heq.2 with hmeta | hpgid
    · rw [hmeta]
      rfl
    · rw [hpgid]
  · intro h old
    obtain ⟨pgid', hparse, hpgid⟩ := parse_of_calcStr h old
    refine ⟨⟨_, hparse, decide_eq_true ⟨rfl, hpgid⟩⟩, ?_⟩
    by_cases htemp : c.type = .pgTemp
    · exact ⟨c, decode_encode_of_temp old htemp h, decide_eq_true ⟨rfl, .inr rfl⟩⟩
    · exact ⟨_, decode_encode_of_ne_temp old htemp, decide_eq_true ⟨rfl, .inr rfl⟩⟩

/-- `parse` returns, and true only for the name of the collection it has read. -/
def ParsesNames (s : Bytes) : Prop :=
  ∀ old : Coll, ∃ b c, old.parse s = .ok (b, c) ∧
    (b = true → calcStr c.type c.pgid = some s ∧ c.str = s)

/-- **The names of collections** are read and written as they should be if the string of the
collection is up to date, and the string that is read is a name or nothing is read from it. -/
theorem coll_names_iff (c : Coll) (s : Bytes) : (RoundTrips c ∧ ParsesNames s) ↔
    calcStr c.type c.pgid = some c.str ∧ (Scans s → IsName s) := by
  rw [roundTrips_iff]
  refine and_congr_right fun _ => ⟨fun h => ?_, fun h old => ?_⟩
  · obtain ⟨b, c', hparse, -⟩ := h c
    exact (parse_ok_iff c s).mp ⟨_, hparse⟩
  · obtain ⟨⟨b, c'⟩, hparse⟩ := (parse_ok_iff old s).mpr h
    refine ⟨b, c', hparse, fun hb => ?_⟩
    subst hb
    exact of_parse hparse

/-- A default collection, and that of placement group 1.0. -/
def coll0 : Coll := ⟨.metaColl, ⟨⟨0, 0⟩, -1⟩, metaStr⟩

def coll1 : Coll := ⟨.pg, ⟨⟨1, 0⟩, -1⟩, [0x31, 0x2e, 0x30] ++ headStr⟩

/-- `1.00_head` and `1.23` are read as placement groups and fail the assertion, and a collection into
which `1.0_head` was decoded still has the name `meta`. -/
theorem coll_names_fail :
    coll0.parse ([0x31, 0x2e, 0x30, 0x30] ++ headStr) = .error .abort ∧
      coll0.parse [0x31, 0x2e, 0x32, 0x33] = .error .abort ∧
      ∃ c c', coll0.decode coll1.encode = .ok (c, []) ∧ c.eq coll1 = true ∧ c.str = metaStr ∧
        coll0.parse c.str = .ok (true, c') ∧ c'.eq c = false := by
  refine ⟨by decide, by decide, { coll0 with type := .pg, pgid := ⟨⟨1, 0⟩, -1⟩ }, coll0, ?_⟩
  decide

end Ceph.Osd.CollName
