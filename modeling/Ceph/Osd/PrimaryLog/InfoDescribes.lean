import Ceph.Lib.Ensures
import Ceph.Lib.Transition
import Ceph.Osd.PrimaryLog.ObjectOps

set_option autoImplicit false

/-! # The object info and the bytes of an object

The object info should say how many bytes the store has of an object, and their checksum if it has
one. Two operations can make it wrong.

* A write that truncates the object first, or that makes it larger with no data, leaves the checksum of
  the bytes before. It is extended if the write then looks like an append, and it stays if the write
  is refused.
* A removal of an object that the transaction has made forgets that an older object was to be removed
  (`PGTransaction.bytes_remove`).

If no operation of a run does one of these (`Careful`), the object info is right after each operation
(`describes_of_run`).
-/

namespace Ceph.Osd.PrimaryLog

open ByteString Option List Transition

/-- **The object info describes the bytes**: their number, and their checksum if there is one. -/
structure Describes (oi : ObjectInfo) (b : List UInt8) : Prop where
  size : oi.size = b.length
  digest : ∀ d, oi.dataDigest = some d → d = crc32c (-1) b

/-- The bytes that the store would have of the head after the operations so far. -/
def OpContext.bytes (o : Object) (x : OpContext) : List UInt8 := x.opT.bytes o.cloneBytes o.stored

/-- After each operation: of the transaction that is prepared, and of the object. -/
def State.Described (st : State) : Prop :=
  Describes st.obj.obs.oi (st.obj.stored.getD []) ∧
    ∀ x, st.ctx = some x → Describes x.oi (x.bytes st.obj)

/-! ## The condition -/

/-- The size after the truncation of a write that arrives before its `trimtrunc`. -/
def truncatedSize (e : ExtentOp) (x : OpContext) : ℕ :=
  if e.truncateSeq > x.oi.truncateSeq ∧ x.visible then e.truncateSize else x.oi.size

/-- The size that a write of no data can leave. -/
def extendedSize (offset length size : ℕ) : ℕ := if length = 0 ∧ offset > size then offset else size

/-- The write takes the checksum of the bytes before it for that of the bytes it writes behind. -/
def extendsDigest (cfg : Config) (offset length size : ℕ) : Prop :=
  offset = size ∧ cfg.skipDataDigest = false ∧ ¬(offset = 0 ∧ length ≥ size)

/-- A write of an object with a checksum changes no byte before the check of its length if that fails
and the transaction goes on, and no byte before the data if it extends the checksum. -/
def CarefulWrite (cfg : Config) (e : ExtentOp) (indata : List UInt8) (failok : Bool)
    (x : OpContext) : Prop :=
  let length := (writeData e x.oi indata).length
  let size := truncatedSize e x
  x.oi.dataDigest ≠ none → e.length = indata.length →
    if checkOffsetAndLength cfg e.offset length then
      extendsDigest cfg e.offset length (extendedSize e.offset length size) →
        size = x.oi.size ∧ extendedSize e.offset length size = size
    else failok → size = x.oi.size

/-- An object that the transaction has made is not removed, unless the store had no bytes of it. A
deletion of what is deleted already is refused and removes nothing. -/
def CarefulRemove (o : Object) (x : OpContext) : Prop :=
  x.newObs.existing ∧ ¬(x.oi.whiteout ∧ x.willWhiteout o) → x.opT.op.isFreshObject →
    o.stored.getD [] = []

/-- A rollback deletes the object: there was none at the snapshot, and it has no watchers. -/
def RollbackDeletes (o : Object) (removed : OrdSet ℕ) (snapid : ℕ) (watched : Bool) : Prop :=
  ¬watched ∧ (findObjectContext true o removed snapid = some .enoent ∨
    (findObjectContext true o removed snapid = some .head ∧ o.obs.oi.whiteout))

/-- The condition on an operation. -/
def CarefulOp (cfg : Config) (o : Object) (removed : OrdSet ℕ) (x : OpContext) (failok : Bool) :
    OsdOp → Prop
  | .write e indata => CarefulWrite cfg e.munge indata failok x
  | .delete => CarefulRemove o x
  | .rollback snapid watched => RollbackDeletes o removed snapid watched → CarefulRemove o x
  | _ => True

/-- **The condition on an action**, by the state where it is taken. -/
def Careful (cfg : Config) (st : State) : Action → Prop
  | .op op failok =>
    match st.ctx with
    | none => True
    | some x => CarefulOp cfg st.obj st.removed x failok op
  | _ => True

instance (cfg : Config) (offset length size : ℕ) :
    Decidable (extendsDigest cfg offset length size) :=
  inferInstanceAs (Decidable (_ ∧ _ ∧ ¬_))

instance (cfg : Config) (e : ExtentOp) (indata : List UInt8) (failok : Bool) (x : OpContext) :
    Decidable (CarefulWrite cfg e indata failok x) :=
  inferInstanceAs (Decidable (_ → _ → ite _ (_ → _ ∧ _) (_ → _)))

instance (o : Object) (x : OpContext) : Decidable (CarefulRemove o x) :=
  inferInstanceAs (Decidable (_ ∧ ¬(_ ∧ _) → _ → _))

instance (o : Object) (removed : OrdSet ℕ) (snapid : ℕ) (watched : Bool) :
    Decidable (RollbackDeletes o removed snapid watched) :=
  inferInstanceAs (Decidable (¬_ ∧ (_ ∨ _)))

instance (cfg : Config) (o : Object) (removed : OrdSet ℕ) (x : OpContext) (failok : Bool) :
    ∀ op, Decidable (CarefulOp cfg o removed x failok op)
  | .write e indata => inferInstanceAs (Decidable (CarefulWrite cfg e.munge indata failok x))
  | .delete => inferInstanceAs (Decidable (CarefulRemove o x))
  | .rollback snapid watched =>
    inferInstanceAs (Decidable (RollbackDeletes o removed snapid watched → CarefulRemove o x))
  | .writefull _ _ | .zero _ | .truncate _ | .trimtrunc _ | .create _ _ =>
    inferInstanceAs (Decidable True)

instance (cfg : Config) (st : State) : ∀ a, Decidable (Careful cfg st a)
  | .op op failok =>
    match h : st.ctx with
    | none => isTrue (by simp [Careful, h])
    | some x =>
      decidable_of_iff (CarefulOp cfg st.obj st.removed x failok op) (by simp [Careful, h])
  | .start _ | .finish | .removeSnap _ | .trim _ => inferInstanceAs (Decidable True)

/-! ## The parts of the operations -/

/-- What is kept of a context: the object info is right, and of an object that is not there nothing is
recorded. -/
structure OpContext.Right (o : Object) (x : OpContext) : Prop where
  describes : Describes x.oi (x.bytes o)
  absent : x.newObs.existing = false → x.oi.size = 0 ∧ x.opT.Blank

open PGTransaction

section Parts

variable {cfg : Config} {o : Object} {x : OpContext} {e : ExtentOp}

@[simp] theorem setInfo_oi (x : OpContext) (oi : ObjectInfo) : (x.setInfo oi).oi = oi := rfl

@[simp] theorem setInfo_bytes (x : OpContext) (oi : ObjectInfo) :
    (x.setInfo oi).bytes o = x.bytes o := rfl

@[simp] theorem truncateUpdateSizeAndUsage_eq (oi : ObjectInfo) (n : ℕ) :
    truncateUpdateSizeAndUsage oi n = { oi with size := n } := by
  rw [truncateUpdateSizeAndUsage]
  by_cases h : oi.size = n
  · rw [if_neg (not_not.mpr h), ← h]
  · rw [if_pos h]

theorem truncateUpdateSizeAndUsage_ite (oi : ObjectInfo) (n : ℕ) :
    (if n ≠ oi.size then truncateUpdateSizeAndUsage oi n else oi) = { oi with size := n } := by
  by_cases h : n = oi.size
  · simp [h]
  · simp [h]

theorem maybeCreateNewObject_spec {ignoreTransaction : Bool} :
    Ensures (maybeCreateNewObject x ignoreTransaction) fun x' =>
      x'.newObs.existing = true ∧ x'.oi.size = x.oi.size ∧ x'.bytes o = x.bytes o ∧
        (x'.oi.dataDigest = x.oi.dataDigest ∨ x'.oi.dataDigest = none) := by
  unfold maybeCreateNewObject
  refine .ite (fun _ => .ite (fun _ => .none) fun _ => ?_) fun hex => ?_
  · refine .ite (fun _ => .some ⟨rfl, rfl, rfl, .inr rfl⟩) fun _ => .map fun t ht => ?_
    exact ⟨rfl, rfl, bytes_create ht, .inr rfl⟩
  · have hex : x.newObs.existing = true := by simpa using hex
    exact .ite (fun _ => .some ⟨hex, rfl, rfl, .inl rfl⟩) fun _ => .some ⟨hex, rfl, rfl, .inl rfl⟩

theorem writeTruncate_spec (hsize : x.oi.size = (x.bytes o).length) :
    Ensures (writeTruncate e x) fun x' =>
      x'.newObs.existing = x.newObs.existing ∧ x'.oi.size = truncatedSize e x ∧
        x'.bytes o = ByteString.resize 0 (truncatedSize e x) (x.bytes o) ∧
        x'.oi.dataDigest = x.oi.dataDigest ∧ (x.newObs.existing = false → x'.opT = x.opT) := by
  have hsame : ByteString.resize 0 x.oi.size (x.bytes o) = x.bytes o := by
    rw [hsize, resize_length]
  unfold writeTruncate
  refine .ite (fun hseq => .ite (fun hvis => .map fun t ht => ?_) fun hvis => .some ?_)
    fun hseq => .some ?_
  · have hinfo := truncateUpdateSizeAndUsage_ite
      { x.oi with truncateSeq := e.truncateSeq, truncateSize := e.truncateSize } e.truncateSize
    rw [show truncatedSize e x = e.truncateSize from if_pos ⟨hseq, hvis⟩]
    refine ⟨rfl, congrArg ObjectInfo.size hinfo, bytes_truncate ht,
      (congrArg ObjectInfo.dataDigest hinfo :), fun hex => ?_⟩
    rw [OpContext.visible, hex] at hvis
    cases hvis
  · rw [show truncatedSize e x = x.oi.size from if_neg fun hand => hvis hand.2, hsame]
    exact ⟨rfl, rfl, rfl, rfl, fun _ => rfl⟩
  · rw [show truncatedSize e x = x.oi.size from if_neg fun hand => hseq hand.1, hsame]
    exact ⟨rfl, rfl, rfl, rfl, fun _ => rfl⟩

theorem writeBuffer_spec {offset : ℕ} {data : List UInt8} (hsize : x.oi.size = (x.bytes o).length) :
    Ensures (writeBuffer x offset data) fun x' =>
      x'.newObs.existing = x.newObs.existing ∧
        x'.oi.size = extendedSize offset data.length x.oi.size ∧
        x'.bytes o = ByteString.overwrite 0 offset data
          (ByteString.resize 0 (extendedSize offset data.length x.oi.size) (x.bytes o)) ∧
        x'.oi.dataDigest = x.oi.dataDigest := by
  have hsame : ByteString.resize 0 x.oi.size (x.bytes o) = x.bytes o := by
    rw [hsize, resize_length]
  unfold writeBuffer extendedSize
  refine .ite (fun hdata => ?_) fun hdata => .map fun t ht => ?_
  · rw [eq_nil_of_length_eq_zero hdata, overwrite_nil]
    refine .ite (fun hoff => .map fun t ht => ?_) fun hoff => .map fun t ht => ?_
    · rw [if_pos ⟨rfl, hoff⟩, truncateUpdateSizeAndUsage_eq]
      exact ⟨rfl, rfl, bytes_truncate ht, rfl⟩
    · rw [if_neg fun hand => hoff hand.2, hsame]
      exact ⟨rfl, rfl, bytes_nop ht, rfl⟩
  · rw [if_neg fun hand => hdata hand.1, hsame]
    exact ⟨rfl, rfl, bytes_write ht, rfl⟩

/-- The sum of an offset and a length that were checked does not wrap around. -/
theorem lt_of_check {offset length : ℕ} (hmax : cfg.maxObjectSize ≤ 2 ^ 63)
    (h : checkOffsetAndLength cfg offset length = true) : offset + length < 2 ^ 64 := by
  simp only [checkOffsetAndLength, Bool.not_eq_true', Bool.or_eq_false_iff,
    decide_eq_false_iff_not] at h
  omega

/-- **The object info after a write**, if it was right for the bytes before the data, or the checksum
is not extended. -/
theorem describes_written {oi : ObjectInfo} {b data : List UInt8} {offset : ℕ}
    (hwrap : offset + data.length < 2 ^ 64) (hsize : oi.size = b.length)
    (hdigest : ∀ d, oi.dataDigest = some d → extendsDigest cfg offset data.length oi.size →
      d = crc32c (-1) b) :
    Describes (writeUpdateSizeAndUsage { oi with dataDigest := writeDigest cfg oi offset data }
      offset data.length false) (ByteString.overwrite 0 offset data b) := by
  constructor
  · rw [writeUpdateSizeAndUsage, Nat.mod_eq_of_lt hwrap]
    by_cases hdata : data = []
    · rw [hdata, overwrite_nil, if_neg (by simp)]
      exact hsize
    · have hlen : data.length ≠ 0 := fun h => hdata (eq_nil_of_length_eq_zero h)
      rw [length_overwrite 0 hdata]
      by_cases hlarger : offset + data.length > oi.size
      · rw [if_pos (.inr ⟨hlarger, hlen⟩)]
        show offset + data.length = _
        omega
      · rw [if_neg (by simpa using fun h => absurd h hlarger)]
        show oi.size = _
        omega
  · intro d hd
    have hd : writeDigest cfg oi offset data = some d := by
      rw [writeUpdateSizeAndUsage] at hd
      split at hd
      · exact hd
      · exact hd
    rw [writeDigest] at hd
    by_cases hfull : offset = 0 ∧ data.length ≥ oi.size ∧ (!cfg.skipDataDigest) = true
    · -- the whole object is written
      rw [if_pos hfull, some_inj] at hd
      rw [hfull.1, overwrite_zero 0 (hsize ▸ hfull.2.1)]
      exact hd.symm
    · rw [if_neg hfull] at hd
      cases hold : oi.dataDigest with
      | none =>
        rw [hold] at hd
        cases hd
      | some d₀ =>
        rw [hold] at hd
        by_cases hoff : offset = oi.size
        · cases hskip : cfg.skipDataDigest with
          | true => simp [hoff, hskip] at hd
          | false =>
            -- an append
            have happend : extendsDigest cfg offset data.length oi.size :=
              ⟨hoff, hskip, fun hand => hfull ⟨hand.1, hand.2, by rw [hskip]; rfl⟩⟩
            have hd : crc32c d₀ data = d := by simpa [hoff, hskip] using hd
            rw [hoff, hsize, overwrite_length, crc32c_append,
              ← hdigest d₀ hold happend]
            exact hd.symm
        · simp [hoff] at hd

end Parts

/-! ## The operations -/

section Operations

variable {cfg : Config} {o : Object} {removed : OrdSet ℕ} {x : OpContext} {e : ExtentOp}

theorem right_of_existing (hex : x.newObs.existing = true) (h : Describes x.oi (x.bytes o)) :
    x.Right o :=
  ⟨h, fun habsent => absurd habsent (by rw [hex]; simp)⟩

/-- **A write**, unless it is refused and ends the transaction. -/
theorem doWrite_right {indata : List UInt8} {failok : Bool} (hmax : cfg.maxObjectSize ≤ 2 ^ 63)
    (hx : x.Right o) (hcareful : CarefulWrite cfg e indata failok x) :
    Ensures (doWrite cfg e indata x) fun r =>
      (r.result.isSome → failok) → r.ctx.Right o := by
  unfold doWrite
  refine .ite (fun _ => .some fun _ => hx) fun hlen => (writeTruncate_spec hx.describes.size).bind ?_
  rw [not_not] at hlen
  rintro x₁ ⟨hex₁, hsize₁, hbytes₁, hdig₁, hblank₁⟩
  -- the bytes before the truncation, if it changes nothing
  have hsame₁ : truncatedSize e x = x.oi.size → x₁.bytes o = x.bytes o := by
    intro hsame
    rw [hbytes₁, hsame, hx.describes.size, resize_length]
  have hlen₁ : x₁.oi.size = (x₁.bytes o).length := by
    rw [hsize₁, hbytes₁, length_resize]
  refine .ite (fun hcheck => .some fun hok => ⟨⟨hlen₁, fun d hd => ?_⟩, fun habsent => ?_⟩)
    fun hcheck => ?_
  · rw [hdig₁] at hd
    have hcond := hcareful (by rw [hd]; simp) hlen
    rw [if_neg (by simpa using hcheck)] at hcond
    rw [hsame₁ (hcond (hok rfl))]
    exact hx.describes.digest d hd
  · rw [hex₁] at habsent
    obtain ⟨hzero, hblank⟩ := hx.absent habsent
    refine ⟨?_, by rw [hblank₁ habsent]; exact hblank⟩
    rw [hsize₁, truncatedSize, if_neg (by simp [OpContext.visible, habsent]), hzero]
  · have hcheck : checkOffsetAndLength cfg e.offset (writeData e x.oi indata).length = true := by
      simpa using hcheck
    refine (maybeCreateNewObject_spec (o := o)).bind ?_
    rintro x₂ ⟨hex₂, hsize₂, hbytes₂, hdig₂⟩
    refine (writeBuffer_spec (o := o) (by rw [hsize₂, hbytes₂, hlen₁])).bind ?_
    rintro x₃ ⟨hex₃, hsize₃, hbytes₃, hdig₃⟩
    refine .some fun _ => right_of_existing (hex₃.trans hex₂) ?_
    rw [setInfo_oi, setInfo_bytes, hbytes₃]
    apply describes_written (lt_of_check hmax hcheck)
    · rw [hsize₃, length_resize]
    · intro d hd happend
      have hold : x.oi.dataDigest = some d := by
        rcases hdig₂ with hdig₂ | hdig₂
        · rw [← hdig₁, ← hdig₂, ← hdig₃, hd]
        · rw [← hdig₃, hd] at hdig₂
          cases hdig₂
      have hcond := hcareful (by rw [hold]; simp) hlen
      rw [if_pos hcheck] at hcond
      rw [hsize₃, hsize₂, hsize₁] at happend
      obtain ⟨htrunc, hext⟩ := hcond happend
      rw [hsize₂, hsize₁, hext, htrunc, hbytes₂, hsame₁ htrunc, hx.describes.size,
        resize_length]
      exact hx.describes.digest d hold

theorem doWritefull_right {indata : List UInt8} (hmax : cfg.maxObjectSize ≤ 2 ^ 63)
    (hx : x.Right o) : Ensures (doWritefull cfg e indata x) fun r => r.ctx.Right o := by
  unfold doWritefull
  refine .ite (fun _ => .some hx) fun hlen => .ite (fun _ => .some hx) fun hcheck => ?_
  rw [not_not] at hlen
  have hwrap := lt_of_check hmax (by simpa using hcheck : checkOffsetAndLength cfg 0 e.length = true)
  refine (maybeCreateNewObject_spec (o := o)).bind ?_
  rintro x₁ ⟨hex₁, hsize₁, hbytes₁, -⟩
  -- not more bytes than the data
  refine .bind (Q := fun t => (t.bytes o.cloneBytes o.stored).length ≤ indata.length)
    (.ite (fun _ t ht => ?_) fun hshort => .some ?_) fun t₂ hle₂ => ?_
  · rw [bytes_truncate ht, length_resize, hlen]
  · have hlarge : x₁.oi.size ≤ e.length := not_lt.mp fun hlt => hshort ⟨hex₁, hlt⟩
    rwa [hsize₁, hx.describes.size, ← hbytes₁, hlen] at hlarge
  refine .bind (Q := fun t => t.bytes o.cloneBytes o.stored = indata)
    (.ite (fun _ t ht => ?_) fun hzero => .some ?_) fun t₃ hbytes₃ => .some ?_
  · rw [bytes_write ht, overwrite_zero 0 hle₂]
  · have hnil : indata = [] := eq_nil_of_length_eq_zero (hlen ▸ not_not.mp hzero)
    rw [hnil] at hle₂ ⊢
    exact eq_nil_of_length_eq_zero (Nat.le_zero.mp hle₂)
  · have hbytes : OpContext.bytes o (x₁.setTransaction t₃) = indata := hbytes₃
    refine right_of_existing hex₁ ?_
    rw [setInfo_oi, setInfo_bytes, hbytes, writeUpdateSizeAndUsage, if_pos (.inl rfl)]
    constructor
    · show (0 + e.length) % 2 ^ 64 = _
      rw [Nat.mod_eq_of_lt hwrap, Nat.zero_add, hlen]
    · intro d hd
      cases hskip : cfg.skipDataDigest with
      | true => simp [hskip] at hd
      | false =>
        have hd : crc32c (-1) indata = d := by simpa [hskip] using hd
        exact hd.symm

theorem truncated_right {t : PGTransaction} {n : ℕ} {oi : ObjectInfo}
    (hex : x.newObs.existing = true) (ht : x.opT.truncate n = some t) (hsize : oi.size = n)
    (hdigest : oi.dataDigest = none) : ((x.setTransaction t).setInfo oi).Right o := by
  have hbytes : OpContext.bytes o (x.setTransaction t) = ByteString.resize 0 n (x.bytes o) :=
    bytes_truncate ht
  refine right_of_existing hex ?_
  rw [setInfo_oi, setInfo_bytes, hbytes]
  constructor
  · rw [hsize, length_resize]
  · intro d hd
    rw [hdigest] at hd
    cases hd

theorem doTruncate_right (hx : x.Right o) :
    Ensures (doTruncate cfg e x) fun r => r.ctx.Right o := by
  unfold doTruncate
  refine .ite (fun _ => .some hx) fun _ => .ite (fun _ => .some hx) fun _ => ?_
  refine .ite (fun _ => .none) fun _ => .ite (fun _ => .some hx) fun _ => ?_
  refine (maybeCreateNewObject_spec (o := o)).bind fun x₁ h₁ => .bind (.eq _) fun t ht => .some ?_
  refine truncated_right h₁.1 ht ?_ rfl
  rw [truncateUpdateSizeAndUsage_ite]

theorem doZero_right (hmax : cfg.maxObjectSize ≤ 2 ^ 63) (hx : x.Right o) :
    Ensures (doZero cfg e x) fun r => r.ctx.Right o := by
  unfold doZero
  refine .ite (fun _ => .ite (fun _ => .some hx) fun _ => doTruncate_right hx) fun hend => ?_
  refine .ite (fun _ => .some hx) fun hcheck => .ite (fun _ => .none) fun hlen => ?_
  refine .ite (fun hvis => .bind (.eq _) fun t ht => .some ?_) fun _ => .some hx
  have hcheck : checkOffsetAndLength cfg e.offset e.length = true := by simpa using hcheck
  have hex : x.newObs.existing = true := by
    rw [OpContext.visible, Bool.and_eq_true] at hvis
    exact hvis.1
  have hwrap := lt_of_check hmax hcheck
  -- the zeros end before the object does
  have hinside : e.offset + e.length < x.oi.size := by
    simp only [checkOffsetAndLength, Bool.not_eq_true', Bool.or_eq_false_iff,
      decide_eq_false_iff_not] at hcheck
    by_contra hge
    refine hend ⟨hex, by omega, by omega, by omega, ?_⟩
    rw [Nat.mod_eq_of_lt hwrap]
    omega
  have hbytes : OpContext.bytes o (x.setTransaction t) =
      ByteString.overwrite 0 e.offset (List.replicate e.length 0) (x.bytes o) :=
    bytes_update ht
  have hne : (List.replicate e.length 0 : List UInt8) ≠ [] := by
    rwa [ne_eq, replicate_eq_nil_iff]
  have hsize := hx.describes.size
  refine right_of_existing hex ⟨?_, fun d hd => by cases hd⟩
  rw [setInfo_oi, setInfo_bytes, hbytes, length_overwrite 0 hne, length_replicate]
  show x.oi.size = _
  omega

theorem doCreate_right {excl decodes : Bool} (hx : x.Right o) :
    Ensures (doCreate excl decodes x) fun r => r.ctx.Right o := by
  unfold doCreate
  refine .ite (fun _ => .some hx) fun _ => .ite (fun _ => .some hx) fun _ => ?_
  refine (maybeCreateNewObject_spec (o := o)).bind ?_
  rintro x₁ ⟨hex₁, hsize₁, hbytes₁, hdig₁⟩
  refine .bind (Q := (·.Right o)) (.map fun t ht => ?_) fun x₂ hx₂ => .some hx₂
  have hbytes : OpContext.bytes o (x₁.setTransaction t) = x.bytes o :=
    (bytes_nop ht).trans hbytes₁
  refine right_of_existing hex₁ ?_
  rw [hbytes]
  refine ⟨hsize₁.trans hx.describes.size, fun d hd => ?_⟩
  rcases hdig₁ with hdig₁ | hdig₁
  · exact hx.describes.digest d (hdig₁ ▸ hd)
  · exact absurd (hdig₁.symm.trans hd) (by simp)

/-- **A deletion**: it is right if the removal empties the bytes. -/
theorem deleteOid_right (hx : x.Right o) (hcareful : CarefulRemove o x) :
    Ensures (deleteOid o x) fun r => r.ctx.Right o := by
  unfold deleteOid
  refine .ite (fun _ => .some hx) fun hthere => .bind (.eq _) fun t ht => ?_
  simp only [Bool.or_eq_true, not_or, Bool.and_eq_true, Bool.not_eq_true', Bool.not_eq_false]
    at hthere
  have hempty : t.bytes o.cloneBytes o.stored = [] := by
    rw [bytes_remove ht]
    split
    · rename_i hfresh
      exact hcareful hthere hfresh
    · rfl
  refine .ite (fun _ => .bind (.eq _) fun t₂ ht₂ => .some ?_) fun _ => .some ?_
  · -- the head stays as a whiteout
    have hbytes : OpContext.bytes o (x.setTransaction t₂) = [] :=
      (bytes_create ht₂).trans hempty
    refine right_of_existing hthere.1 ?_
    rw [setInfo_oi, setInfo_bytes, hbytes]
    exact ⟨rfl, fun d hd => by cases hd⟩
  · refine ⟨?_, fun _ => ⟨rfl, blank_remove ht⟩⟩
    have hbytes : OpContext.bytes o
        { x.setTransaction t with
          newObs := ⟨false, { { x.oi with size := 0 }.newObject with whiteout := false }⟩ } = [] :=
      hempty
    rw [hbytes]
    exact ⟨rfl, fun d hd => by cases hd⟩

/-- The clones of an object have an object info that is right, and are no whiteouts. -/
def Object.ClonesRight (o : Object) : Prop :=
  ∀ c k, o.cloneObjs.get c = some k → Describes k.oi k.bytes ∧ k.oi.whiteout = false

theorem rollbackTo_right {snapid : ℕ} {watched : Bool} (hclones : o.ClonesRight) (hx : x.Right o)
    (hcareful : RollbackDeletes o removed snapid watched → CarefulRemove o x) :
    Ensures (rollbackTo o removed snapid watched x) fun r => r.ctx.Right o := by
  unfold rollbackTo
  refine .bind (.eq _) fun found hfound => ?_
  -- the object is deleted, or has watchers
  have hdeletes : (findObjectContext true o removed snapid = some .enoent ∨
        (findObjectContext true o removed snapid = some .head ∧ o.obs.oi.whiteout)) →
      Ensures (if watched = true then x.refuse .EBUSY
        else (deleteOid o x).map fun r => ⟨none, r.ctx⟩) fun r => r.ctx.Right o := fun hdel =>
    .ite (fun _ => .some hx) fun hwatch => .map (deleteOid_right hx (hcareful ⟨hwatch, hdel⟩))
  cases found with
  | enoent => exact hdeletes (.inl hfound)
  | head =>
    exact .ite (fun hwhite => hdeletes (.inr ⟨hfound, hwhite⟩))
      fun _ => .some ⟨hx.describes, hx.absent⟩
  | clone c =>
    refine .bind (.eq _) fun k hk => ?_
    obtain ⟨hright, hwhite⟩ := hclones c k hk
    refine .ite (fun h => absurd h (by simp [hwhite])) fun _ => ?_
    refine .bind (Q := Blank) (.ite (fun _ t ht => blank_remove ht)
      fun hex => .some (hx.absent (by simpa using hex)).2) fun t₁ hblank => ?_
    refine .bind (.eq _) fun t₂ h₂ => (maybeCreateNewObject_spec (o := o)).bind ?_
    rintro x₃ ⟨hex₃, -, hbytes₃, -⟩
    have hbytes₃ : x₃.bytes o = k.bytes := by
      refine hbytes₃.trans ((bytes_clone hblank h₂).trans ?_)
      rw [Object.cloneBytes, hk]
      rfl
    refine .some (right_of_existing hex₃ ?_)
    rw [setInfo_oi, setInfo_bytes, hbytes₃]
    exact ⟨hright.size, hright.digest⟩

theorem doOsdOp_right {st : State} {op : OsdOp} {failok : Bool} (hmax : cfg.maxObjectSize ≤ 2 ^ 63)
    (hclones : st.obj.ClonesRight) (hctx : st.ctx = some x) (hx : x.Right st.obj)
    (hcareful : Careful cfg st (.op op failok)) :
    Ensures (doOsdOp cfg st.obj st.removed x op) fun r =>
      (r.result.isSome → failok) → r.ctx.Right st.obj := by
  have hcareful : CarefulOp cfg st.obj st.removed x failok op := by
    simpa [Careful, hctx] using hcareful
  cases op with
  | write e indata => exact doWrite_right hmax hx hcareful
  | writefull e indata => exact (doWritefull_right hmax hx).imp fun _ hr _ => hr
  | zero e => exact (doZero_right hmax hx).imp fun _ hr _ => hr
  | truncate e => exact (doTruncate_right hx).imp fun _ hr _ => hr
  | trimtrunc e => exact (doTruncate_right hx).imp fun _ hr _ => hr
  | create excl decodes => exact (doCreate_right hx).imp fun _ hr _ => hr
  | delete => exact (deleteOid_right hx hcareful).imp fun _ hr _ => hr
  | rollback snapid watched => exact (rollbackTo_right hclones hx hcareful).imp fun _ hr _ => hr

end Operations

/-! ## The object -/

section Objects

variable {o o' : Object}

/-- What is kept of the object between the transactions. -/
structure Object.Right (o : Object) : Prop where
  describes : Describes o.obs.oi (o.stored.getD [])
  absent : o.obs.existing = false → o.obs.oi.size = 0
  clones : o.ClonesRight

theorem makeWriteable_clonesRight (ho : o.Right) (snapc : SnapContext) {c : ℕ} {k : CloneObject}
    (h : (makeWriteable o snapc).2.get c = some k) :
    Describes k.oi k.bytes ∧ k.oi.whiteout = false := by
  rw [makeWriteable] at h
  by_cases hclones : PrimaryLog.clones o snapc = true
  · rw [if_pos hclones, OrdMap.get_insert] at h
    by_cases hc : c = snapc.seq
    · rw [if_pos hc, some_inj] at h
      rw [clones, Bool.and_eq_true, Bool.and_eq_true] at hclones
      rw [← h]
      exact ⟨ho.describes, by simpa using hclones.1.2⟩
    · rw [if_neg hc] at h
      exact ho.clones c k h
  · rw [if_neg hclones] at h
    exact ho.clones c k h

theorem finishCtx_right {x : OpContext} (ho : o.Right) (hx : x.Right o) :
    Ensures (finishCtx o x) Object.Right := by
  unfold finishCtx
  refine .ite (fun _ => .some ho) fun _ => .ite (fun hex => .map fun op _ => ?_) fun hex => .some ?_
  · exact ⟨hx.describes, fun habsent => absurd habsent (by rw [hex]; simp),
      fun c k hk => makeWriteable_clonesRight ho x.snapc hk⟩
  · -- the object is gone, with its bytes
    have hempty : x.bytes o = [] := by
      have hzero := (hx.absent (by simpa using hex)).1
      rw [hx.describes.size] at hzero
      exact eq_nil_of_length_eq_zero hzero
    refine ⟨?_, fun _ => rfl, fun c k hk => makeWriteable_clonesRight ho x.snapc hk⟩
    show Describes {} (x.bytes o)
    rw [hempty]
    exact ⟨rfl, fun d hd => by cases hd⟩

theorem saveHead_right (ho : o.Right) : (saveHead o).Right := by
  rw [saveHead]
  split
  · exact ⟨⟨rfl, fun d hd => by cases hd⟩, fun _ => rfl, ho.clones⟩
  · exact ho

theorem trimObject_right {removed : OrdSet ℕ} {coid : ℕ} (ho : o.Right)
    (h : trimObject o removed coid = .ok o') : o'.Right := by
  rw [trimObject] at h
  split at h
  · cases h
  split at h
  · cases h
  split at h
  · cases h
  dsimp only at h
  split at h
  · split at h
    · cases h
    rw [Except.ok.injEq] at h
    rw [← h]
    refine saveHead_right ⟨ho.describes, ho.absent, ?_⟩
    intro c k hk
    rw [OrdMap.get_erase] at hk
    split at hk
    · cases hk
    · exact ho.clones c k hk
  · rw [Except.ok.injEq] at h
    rw [← h]
    exact saveHead_right ⟨ho.describes, ho.absent, ho.clones⟩

end Objects

/-! ## The runs -/

/-- What is kept along a run. -/
structure State.Right (st : State) : Prop where
  obj : st.obj.Right
  ctx : ∀ x, st.ctx = some x → x.Right st.obj

theorem start_right : ({} : State).Right :=
  ⟨⟨⟨rfl, fun d hd => by cases hd⟩, fun _ => rfl, fun c k hk => by cases hk⟩,
    fun x hx => by cases hx⟩

theorem step_right {cfg : Config} (hmax : cfg.maxObjectSize ≤ 2 ^ 63) {st : State} {a : Action}
    (hst : st.Right) (hcareful : Careful cfg st a) : Ensures (step cfg st a) State.Right := by
  cases a with
  | start snapc =>
    simp only [step]
    split
    · exact .none
    · refine .ite (fun _ => .some ⟨hst.obj, ?_⟩) fun _ => .some hst
      rintro x ⟨⟩
      exact ⟨hst.obj.describes, fun habsent => ⟨hst.obj.absent habsent, rfl, rfl⟩⟩
  | op op failok =>
    refine .bind (.eq _) fun x hctx => .map fun r hr => ?_
    have hright := doOsdOp_right hmax hst.obj.clones hctx (hst.ctx x hctx) hcareful r hr
    dsimp only
    split
    · exact ⟨hst.obj, fun x hx => by cases hx⟩
    · rename_i hgoes
      refine ⟨hst.obj, ?_⟩
      rintro x ⟨⟩
      exact hright fun hrefused => by simpa [hrefused] using hgoes
  | finish =>
    refine .bind (.eq _) fun x hctx => .map ?_
    refine (finishCtx_right hst.obj (hst.ctx x hctx)).imp fun o ho => ?_
    exact ⟨ho, fun x hx => by cases hx⟩
  | removeSnap snap =>
    simp only [step]
    split
    · exact .none
    · exact .some ⟨hst.obj, hst.ctx⟩
  | trim coid =>
    simp only [step]
    split
    · exact .none
    · rename_i hctx
      split
      · exact .some hst
      · rename_i o ho
        refine .some ⟨trimObject_right hst.obj ho, fun x hx => ?_⟩
        rw [hctx] at hx
        cases hx

/-- **The object info is right after each operation** of a run of careful actions: of the object, and
of the transaction that is prepared. -/
theorem describes_of_run (cfg : Config) (hmax : cfg.maxObjectSize ≤ 2 ^ 63) (acts : List Action)
    (st : State) (hcareful : Along (step cfg) (Careful cfg) acts {})
    (hrun : run (step cfg) acts {} = some st) : st.Described := by
  have hright : st.Right := invariant_of_along
    (fun _ _ st' hst hcareful => step_right hmax hst hcareful st') hcareful hrun start_right
  exact ⟨hright.obj.describes, fun x hx => (hright.ctx x hx).describes⟩

/-- An object is written, appended to, truncated by a write, deleted, and made again. -/
def carefulActs : List Action :=
  [.start ⟨0, []⟩, .op (.write ⟨0, 3, 0, 0⟩ [97, 98, 99]) false, .finish,
    .start ⟨1, [1]⟩, .op (.write ⟨3, 1, 0, 0⟩ [100]) false,
    .op (.write ⟨0, 1, 2, 1⟩ [120]) false, .finish,
    .start ⟨1, [1]⟩, .op .delete false, .op (.rollback 1 false) false, .finish]

theorem describes_of_run_careful : ∃ st, run (step defaultConfig) carefulActs {} = some st ∧
    st.obj.stored = some [97, 98, 99] ∧ st.Described := by
  refine ⟨_, rfl, by decide +kernel, ?_⟩
  exact describes_of_run defaultConfig (by decide) carefulActs _ (by decide +kernel) rfl

/-- A write at offset 1 that truncates the object to one byte first. -/
def truncatingActs : List Action :=
  [.start ⟨0, []⟩, .op (.write ⟨0, 3, 0, 0⟩ [97, 98, 99]) false, .finish,
    .start ⟨0, []⟩, .op (.write ⟨1, 1, 1, 1⟩ [120]) false]

/-- **A wrong checksum**: the bytes are "ax", the checksum is that of "abcx". -/
theorem write_extends_old_digest : ∃ st x, run (step defaultConfig) truncatingActs {} = some st ∧
    st.ctx = some x ∧ x.bytes st.obj = [97, 120] ∧ x.oi.size = 2 ∧
    x.oi.dataDigest = some (crc32c (-1) [97, 98, 99, 120]) ∧ ¬st.Described := by
  refine ⟨_, _, rfl, rfl, by decide +kernel, by decide +kernel, by decide +kernel, ?_⟩
  intro h
  have hdigest := (h.2 _ rfl).digest _ rfl
  revert hdigest
  decide +kernel

end Ceph.Osd.PrimaryLog
