import Ceph.Lib.OrdMap
import Mathlib.Algebra.Group.MinimalAxioms
import Mathlib.Data.BitVec
import Mathlib.Data.String.Basic
import Mathlib.Tactic

set_option autoImplicit false

/-! # The bucket index object class

The part of `cls/rgw/cls_rgw.cc` that keeps the index of a bucket shard and its statistics, for
a shard without versioned objects. An upload is prepared under a tag, which stays pending in the
entry until the upload is completed or cancelled. The header holds, for each category, how many
entries there are and how large they are.

A method of an object class reads the object as it was before the call: its writes are queued and
applied when it returns. A method that fails writes nothing.
-/

namespace Ceph.Cls.Rgw

/-! ## Statistics -/

@[ext]
structure CategoryStats where
  totalSize : BitVec 64 := 0
  totalSizeRounded : BitVec 64 := 0
  numEntries : BitVec 64 := 0
  actualSize : BitVec 64 := 0
deriving DecidableEq

namespace CategoryStats

instance : Zero CategoryStats := ⟨{}⟩

instance : Add CategoryStats := ⟨fun a b =>
  { totalSize := a.totalSize + b.totalSize
    totalSizeRounded := a.totalSizeRounded + b.totalSizeRounded
    numEntries := a.numEntries + b.numEntries
    actualSize := a.actualSize + b.actualSize }⟩

instance : Neg CategoryStats := ⟨fun a =>
  { totalSize := -a.totalSize
    totalSizeRounded := -a.totalSizeRounded
    numEntries := -a.numEntries
    actualSize := -a.actualSize }⟩

@[simp] theorem zero_numEntries : (0 : CategoryStats).numEntries = 0 := rfl

@[simp] theorem add_numEntries (a b : CategoryStats) :
    (a + b).numEntries = a.numEntries + b.numEntries := rfl

/-- The counters wrap, so what was added can be taken away again in any order. -/
instance : AddCommGroup CategoryStats :=
  { AddGroup.ofLeftAxioms
      (fun a b c => by ext1 <;> exact add_assoc _ _ _)
      (fun a => by ext1 <;> exact zero_add _)
      (fun a => by ext1 <;> exact neg_add_cancel _) with
    add_comm := fun a b => by ext1 <;> exact add_comm _ _ }

end CategoryStats

/-- `cls_rgw_get_rounded_size`: up to a multiple of 4096. -/
def getRoundedSize (size : BitVec 64) : BitVec 64 := (size + 4095) &&& ~~~4095#64

/-! ## Entries and header -/

structure EntryVer where
  pool : ℤ := -1
  epoch : ℕ := 0
deriving DecidableEq

/-- `rgw_bucket_dir_entry_meta`: the category and the two sizes. -/
structure EntryMeta where
  category : ℕ := 0
  size : BitVec 64 := 0
  accountedSize : BitVec 64 := 0
deriving DecidableEq

/-- What an object of this description adds to the statistics of its category. -/
def EntryMeta.stats (m : EntryMeta) : CategoryStats :=
  { numEntries := 1
    totalSize := m.accountedSize
    totalSizeRounded := getRoundedSize m.accountedSize
    actualSize := m.size }

/-- `RGWModifyOp`, as far as requests use it. -/
inductive ModifyOp
  | add
  | del
  | cancel
deriving DecidableEq

structure PendingInfo where
  timestamp : ℕ
  op : ModifyOp
deriving DecidableEq

/-- `rgw_bucket_dir_entry`. The pending operations are a multimap: a tag may be there twice. -/
structure DirEntry where
  ver : EntryVer := {}
  existsFlag : Bool := false
  entryMeta : EntryMeta := {}
  pendingMap : List (String × PendingInfo) := []
deriving DecidableEq

def DirEntry.isPending (e : DirEntry) (tag : String) : Bool := e.pendingMap.any (·.1 = tag)

/-- Erase one pending operation of a tag. -/
def DirEntry.erasePending (e : DirEntry) (tag : String) : DirEntry :=
  { e with pendingMap := e.pendingMap.eraseP (·.1 = tag) }

structure DirHeader where
  stats : OrdMap ℕ CategoryStats := OrdMap.empty
  tagTimeout : ℕ := 0
  ver : ℕ := 0
  syncstopped : Bool := false
deriving DecidableEq

namespace DirHeader

/-- The statistics of a category; one without a record has none. -/
def statsOf (h : DirHeader) (category : ℕ) : CategoryStats := (h.stats.get category).getD 0

/-- `stats[category]` is looked up, and created if need be, and changed. -/
def adjust (h : DirHeader) (category : ℕ) (change : CategoryStats) : DirHeader :=
  { h with stats := h.stats.insert category (h.statsOf category + change) }

theorem statsOf_adjust (h : DirHeader) (category category' : ℕ) (change : CategoryStats) :
    (h.adjust category change).statsOf category' =
      h.statsOf category' + if category = category' then change else 0 := by
  by_cases hc : category = category'
  · subst hc
    simp [statsOf, adjust, OrdMap.get_insert]
  · have hne : ¬ category' = category := fun h => hc h.symm
    simp [statsOf, adjust, OrdMap.get_insert, hc, hne]

/-- What completing an upload adds. -/
def accountEntry (h : DirHeader) (m : EntryMeta) : DirHeader := h.adjust m.category m.stats

def unaccountEntry (h : DirHeader) (e : DirEntry) : DirHeader :=
  h.adjust e.entryMeta.category (-e.entryMeta.stats)

/-- `write_bucket_header`. -/
def write (h : DirHeader) : DirHeader := { h with ver := h.ver + 1 }

end DirHeader

/-- A shard of a bucket index: the header of the object map and the entries of the objects. -/
structure Shard where
  index : OrdMap String DirEntry := OrdMap.empty
  header : DirHeader := {}
deriving DecidableEq

def einval : ℤ := -22

def enoent : ℤ := -2

/-! ## Preparing and completing -/

structure PrepareOp where
  op : ModifyOp
  name : String
  tag : String
  logOp : Bool := false
deriving DecidableEq

/-- `rgw_bucket_prepare_op`, at a time. -/
def bucketPrepareOp (s : Shard) (op : PrepareOp) (now : ℕ) : Except ℤ Shard :=
  if op.tag = "" then .error einval
  else
    let entry := (s.index.get op.name).getD {}
    let info : PendingInfo := { timestamp := now, op := op.op }
    let entry := { entry with pendingMap := entry.pendingMap ++ [(op.tag, info)] }
    .ok { index := s.index.insert op.name entry
          header := if op.logOp && !s.header.syncstopped then s.header.write else s.header }

structure CompleteOp where
  op : ModifyOp
  name : String
  ver : EntryVer := {}
  entryMeta : EntryMeta := {}
  tag : String := ""
  logOp : Bool := false
  removeObjs : List String := []
deriving DecidableEq

/-- The entry a completion works on: the one on disk, or a new one that does not exist. -/
def CompleteOp.entry (op : CompleteOp) (disk : Option DirEntry) : DirEntry :=
  let entry := disk.getD { ver := op.ver, entryMeta := op.entryMeta }
  if op.tag = "" then entry else entry.erasePending op.tag

/-- Whether a completion leaves the object alone: it cancels, or it is older than the entry. -/
def CompleteOp.cancels (op : CompleteOp) (entry : DirEntry) : Bool :=
  (op.tag ≠ "" && op.op = .cancel) ||
    (op.ver.pool = entry.ver.pool && op.ver.epoch ≠ 0 && op.ver.epoch ≤ entry.ver.epoch)

/-- The switch of `rgw_bucket_complete_op`. What is counted for the old entry has been taken off
the header already. -/
def CompleteOp.apply (op : CompleteOp) (s : Shard) (ondisk : Bool) (entry : DirEntry) :
    Except ℤ Shard :=
  let entry := { entry with ver := op.ver }
  match op.op with
  | .del =>
    let entry := { entry with entryMeta := op.entryMeta }
    if !ondisk then .error enoent
    else if entry.pendingMap = [] then .ok { s with index := s.index.erase op.name }
    else .ok { s with index := s.index.insert op.name { entry with existsFlag := false } }
  | .add =>
    let entry := { entry with entryMeta := op.entryMeta, existsFlag := true }
    .ok { index := s.index.insert op.name entry
          header := s.header.accountEntry op.entryMeta }
  | .cancel => .ok s

/-- The loop of `rgw_bucket_complete_op` over the further objects to remove. It reads the entries
from the index as it was before the call. -/
def removeLoop (disk : OrdMap String DirEntry) (logs : Bool) : List String → Shard → Shard
  | [], s => s
  | name :: names, s =>
    match disk.get name with
    | none => removeLoop disk logs names s
    | some entry =>
      let header := s.header.unaccountEntry entry
      removeLoop disk logs names
        { index := s.index.erase name
          header := if logs then header.write else header }

/-- `rgw_bucket_complete_op`. -/
def bucketCompleteOp (s : Shard) (op : CompleteOp) : Except ℤ Shard :=
  let disk := s.index.get op.name
  let entry := op.entry disk
  let logs := op.logOp && !s.header.syncstopped
  if op.tag ≠ "" ∧ ¬ ((disk.getD {}).isPending op.tag) then .error einval
  else if op.cancels entry then
    .ok { index := if op.tag = "" then s.index else s.index.insert op.name entry
          header := if logs then s.header.write else s.header }
  else
    let header := if entry.existsFlag then s.header.unaccountEntry entry else s.header
    (op.apply { s with header := header } disk.isSome entry).map fun t =>
      let t := removeLoop s.index logs op.removeObjs t
      { t with header := t.header.write }

/-! ## Suggested changes -/

/-- A change of `rgw_dir_suggest_changes`: the operation byte, and the entry to store. -/
structure Suggestion where
  op : BitVec 8
  name : String
  change : DirEntry
deriving DecidableEq

def cephRgwRemove : BitVec 8 := 0x72

def cephRgwUpdate : BitVec 8 := 0x75

/-- The operation without the flag that asks for logging, `CEPH_RGW_DIR_SUGGEST_OP_MASK`. -/
def Suggestion.action (c : Suggestion) : BitVec 8 := c.op &&& 0x7f

/-- How long an operation may be pending, in nanoseconds; 120 seconds if nothing is set. -/
def DirHeader.tagTimeoutNs (h : DirHeader) : ℕ :=
  (if h.tagTimeout = 0 then 120 else h.tagTimeout) * 1000000000

/-- Drop the pending operations that have timed out. -/
def DirEntry.expire (e : DirEntry) (timeout now : ℕ) : DirEntry :=
  { e with pendingMap := e.pendingMap.filter fun p => !(now > p.2.timestamp + timeout) }

/-- What the loop of `rgw_dir_suggest_changes` carries. -/
structure SuggestState where
  shard : Shard
  headerChanged : Bool := false

/-- The header with the entry on disk taken off, and the record of the new category looked up. -/
def Suggestion.takeOff (c : Suggestion) (curDisk : DirEntry) (h : DirHeader) : DirHeader :=
  (if curDisk.existsFlag then h.unaccountEntry curDisk else h).adjust
    c.change.entryMeta.category 0

/-- One change, for an entry without pending operations. -/
def Suggestion.apply (c : Suggestion) (curDisk : DirEntry) (t : SuggestState) : SuggestState :=
  let header := c.takeOff curDisk t.shard.header
  let changed := t.headerChanged || curDisk.existsFlag
  if c.action = cephRgwRemove then
    { shard := { index := t.shard.index.erase c.name, header := header }
      headerChanged := changed }
  else if c.action = cephRgwUpdate then
    { shard :=
        { index := t.shard.index.insert c.name c.change
          header := header.accountEntry c.change.entryMeta }
      headerChanged := true }
  else { shard := { index := t.shard.index, header := header }, headerChanged := changed }

/-- The loop of `rgw_dir_suggest_changes`. It reads the entries from the index as it was before
the call. -/
def suggestLoop (disk : OrdMap String DirEntry) (timeout now : ℕ) :
    List Suggestion → SuggestState → SuggestState
  | [], t => t
  | c :: cs, t =>
    match disk.get c.name with
    | none => suggestLoop disk timeout now cs t
    | some entry =>
      let curDisk := entry.expire timeout now
      if curDisk.pendingMap = [] then suggestLoop disk timeout now cs (c.apply curDisk t)
      else suggestLoop disk timeout now cs t

/-- `rgw_dir_suggest_changes`, at a time. -/
def dirSuggestChanges (s : Shard) (changes : List Suggestion) (now : ℕ) : Shard :=
  let t := suggestLoop s.index s.header.tagTimeoutNs now changes { shard := s }
  { index := t.shard.index
    header := if t.headerChanged then t.shard.header.write else s.header }

/-! ## Checking and rebuilding -/

/-- `get_obj_vals`: the next entries of objects after a name. The keys of logs and instances,
which begin with a byte no object name begins with, are skipped. -/
def getObjVals (index : OrdMap String DirEntry) (start : String) (num : ℕ) :
    List (String × DirEntry) :=
  (index.entries.filter fun e => start < e.1).take num

def checkChunkSize : ℕ := 1000

def countEntry (h : DirHeader) (e : String × DirEntry) : DirHeader :=
  h.accountEntry e.2.entryMeta

/-- The loop of `check_index`, over at most so many chunks. -/
def checkLoop (index : OrdMap String DirEntry) : ℕ → String → DirHeader → DirHeader
  | 0, _, calcHeader => calcHeader
  | fuel + 1, start, calcHeader =>
    let keys := getObjVals index start checkChunkSize
    let calcHeader := keys.foldl countEntry calcHeader
    let start := (keys.getLast?.map Prod.fst).getD start
    if keys.length = checkChunkSize then checkLoop index fuel start calcHeader else calcHeader

/-- `check_index`: the header as it should be. There are fewer full chunks than entries. -/
def checkIndex (s : Shard) : DirHeader :=
  checkLoop s.index (s.index.entries.length + 1) ""
    { tagTimeout := s.header.tagTimeout, ver := s.header.ver }

/-- `rgw_bucket_rebuild_index`. -/
def bucketRebuildIndex (s : Shard) : Shard := { s with header := (checkIndex s).write }

/-! ## Calls -/

/-- A call of one of the methods that change the entries, with what the clock says. -/
inductive Call
  | prepare (op : PrepareOp) (now : ℕ)
  | complete (op : CompleteOp)
  | suggest (changes : List Suggestion) (now : ℕ)
deriving DecidableEq

/-- What a call returns, and the shard if it succeeds. -/
def exec (s : Shard) : Call → Except ℤ Shard
  | .prepare op now => bucketPrepareOp s op now
  | .complete op => bucketCompleteOp s op
  | .suggest changes now => .ok (dirSuggestChanges s changes now)

/-- The shard after a call: one that fails changes nothing. -/
def step (s : Shard) (c : Call) : Option Shard :=
  match exec s c with
  | .ok t => some t
  | .error _ => some s

end Ceph.Cls.Rgw
