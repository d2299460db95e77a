import Ceph.Lib.OrdMap

set_option autoImplicit false

/-! # Striping files over objects

A file is cut into blocks of `stripe_unit` bytes. The blocks go round `stripe_count` objects, one
block of each object a stripe; when the objects of such a set are full, the next set follows.
`file_to_extents` finds the objects of a range of a file and where their bytes are in a buffer,
`extent_to_file` goes back, `object_truncate_size` and `get_num_objects` say what of the objects a
file of a given size uses.

Numbers are `uint64_t`. Sums that can go beyond are reduced; the others stay below the size of an
object or the position in the file.
-/

namespace Ceph.Osdc

/-- `file_layout_t`, of which the object size is a positive multiple of the stripe unit. The
fields are 32 bits wide. -/
structure FileLayout where
  stripeUnit : ℕ
  stripeCount : ℕ
  objectSize : ℕ
  stripeUnit_dvd : stripeUnit ∣ objectSize
  objectSize_pos : 0 < objectSize
  stripeCount_pos : 0 < stripeCount
  objectSize_lt : objectSize < 2 ^ 32
  stripeCount_lt : stripeCount < 2 ^ 32

namespace FileLayout

variable (layout : FileLayout)

theorem stripeUnit_pos : 0 < layout.stripeUnit :=
  Nat.pos_of_dvd_of_pos layout.stripeUnit_dvd layout.objectSize_pos

def getPeriod : ℕ := layout.stripeCount * layout.objectSize

/-- The stripe unit in `file_to_extents`: if there is one object in a set, its blocks need not be
told apart. -/
def su : ℕ := if layout.stripeCount = 1 then layout.objectSize else layout.stripeUnit

theorem su_pos : 0 < layout.su := by
  unfold su
  split
  · exact layout.objectSize_pos
  · exact layout.stripeUnit_pos

end FileLayout

/-! ## `object_truncate_size` and `get_num_objects` -/

def objectTruncateSize (layout : FileLayout) (objectno truncSize : ℕ) : ℕ :=
  if truncSize = 0 ∨ truncSize = 2 ^ 64 - 1 then truncSize
  else
    let su := layout.stripeUnit
    let stripesPerObject := layout.objectSize / su
    let objectsetno := objectno / layout.stripeCount
    let truncObjectsetno := truncSize / layout.objectSize / layout.stripeCount
    if objectsetno > truncObjectsetno then 0
    else if objectsetno < truncObjectsetno then layout.objectSize
    else
      let truncBlockno := truncSize / su
      let truncStripeno := truncBlockno / layout.stripeCount
      let truncStripepos := truncBlockno % layout.stripeCount
      let truncObjectno := truncObjectsetno * layout.stripeCount + truncStripepos
      if objectno < truncObjectno then (truncStripeno % stripesPerObject + 1) * su
      else if objectno > truncObjectno then truncStripeno % stripesPerObject * su
      else truncStripeno % stripesPerObject * su + truncSize % su

def getNumObjects (layout : FileLayout) (size : ℕ) : ℕ :=
  let period := layout.getPeriod
  let numPeriods := (size + period - 1) % 2 ^ 64 / period
  let remainderBytes := size % period
  let remainderObjs :=
    if remainderBytes > 0 ∧ remainderBytes < layout.stripeCount * layout.stripeUnit then
      layout.stripeCount - (remainderBytes + layout.stripeUnit - 1) / layout.stripeUnit
    else 0
  numPeriods * layout.stripeCount - remainderObjs

/-! ## `file_to_extents` -/

section FileToExtents

variable {ι : Type}

/-- `ObjectExtent`. The extents of the buffer are pairs of offset and length. -/
structure ObjectExtent (ι : Type) where
  oid : ι
  objectno : ℕ
  offset : ℕ
  length : ℕ
  truncateSize : ℕ
  bufferExtents : List (ℕ × ℕ)

/-- A piece of an object is added to the extents of the object: to the last extent, if that ends
where the piece starts. -/
def addToExtents (exv : List (ObjectExtent ι)) (oid : ι) (objectno truncateSize xOffset xLen : ℕ)
    (bufferOffset : ℕ) : List (ObjectExtent ι) :=
  let new : ObjectExtent ι := ⟨oid, objectno, xOffset, xLen, truncateSize, [(bufferOffset, xLen)]⟩
  match exv.getLast? with
  | none => exv ++ [new]
  | some ex =>
    if ex.offset + ex.length ≠ xOffset then exv ++ [new]
    else
      exv.dropLast ++
        [{ ex with
          length := ex.length + xLen
          bufferExtents := ex.bufferExtents ++ [(bufferOffset, xLen)] }]

/-- Where a block is: the number of the object, and the start of the block in it. -/
def blockPlace (su stripeCount stripesPerObject blockno : ℕ) : ℕ × ℕ :=
  -- which horizontal stripe (Y), which object in the object set (X), which object set
  let stripeno := blockno / stripeCount
  let stripepos := blockno % stripeCount
  let objectsetno := stripeno / stripesPerObject
  (objectsetno * stripeCount + stripepos, stripeno % stripesPerObject * su)

variable [LinearOrder ι]

/-- The loop of `file_to_extents`. `format` is `object_format` with a number put in. -/
def fileToExtentsLoop (layout : FileLayout) (format : ℕ → ι)
    (offset truncSize bufferOffset cur left : ℕ)
    (objectExtents : OrdMap ι (List (ObjectExtent ι))) :
    OrdMap ι (List (ObjectExtent ι)) :=
  if hleft : left = 0 then objectExtents
  else
    let su := layout.su
    let place := blockPlace su layout.stripeCount (layout.objectSize / su) (cur / su)
    let objectno := place.1
    let oid := format objectno
    -- map range into object
    let blockOff := cur % su
    let max := su - blockOff
    let xOffset := place.2 + blockOff
    let xLen := if left > max then max else left
    let exv := (objectExtents.get oid).getD []
    let objectExtents := objectExtents.insert oid
      (addToExtents exv oid objectno (objectTruncateSize layout objectno truncSize) xOffset xLen
        ((cur - offset + bufferOffset) % 2 ^ 64))
    fileToExtentsLoop layout format offset truncSize bufferOffset ((cur + xLen) % 2 ^ 64)
      (left - xLen) objectExtents
termination_by left
decreasing_by
  have hsu := layout.su_pos
  have hmod : cur % layout.su < layout.su := Nat.mod_lt _ hsu
  split <;> omega

/-- `file_to_extents` with `assimilate_extents`: the extents in the order of the object names. -/
def fileToExtents (layout : FileLayout) (format : ℕ → ι) (offset len truncSize bufferOffset : ℕ) :
    Option (List (ObjectExtent ι)) :=
  -- ceph_assert(len > 0)
  if len > 0 then
    let objectExtents :=
      fileToExtentsLoop layout format offset truncSize bufferOffset offset len .empty
    some (objectExtents.entries.flatMap (·.2))
  else none

end FileToExtents

/-! ## `extent_to_file` -/

/-- The loop of `extent_to_file`. -/
def extentToFileLoop (layout : FileLayout) (objectno off offInBlock len : ℕ)
    (_h : offInBlock < layout.stripeUnit) : List (ℕ × ℕ) :=
  if hlen : len = 0 then []
  else
    let su := layout.stripeUnit
    let stripepos := objectno % layout.stripeCount
    let objectsetno := objectno / layout.stripeCount
    let stripeno := off / su + objectsetno * (layout.objectSize / su)
    let blockno := stripeno * layout.stripeCount + stripepos
    let extentOff := (blockno * su + offInBlock) % 2 ^ 64
    let extentLen := min len (su - offInBlock)
    (extentOff, extentLen) ::
      extentToFileLoop layout objectno (off + extentLen) 0 (len - extentLen) layout.stripeUnit_pos
termination_by len
decreasing_by omega

def extentToFile (layout : FileLayout) (objectno off len : ℕ) : List (ℕ × ℕ) :=
  extentToFileLoop layout objectno off (off % layout.stripeUnit) len
    (Nat.mod_lt _ layout.stripeUnit_pos)

end Ceph.Osdc
