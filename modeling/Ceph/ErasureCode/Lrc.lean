import Ceph.Lib.RecoveryPass
import Mathlib.Data.Finset.Range
import Mathlib.Logic.Function.Basic

set_option autoImplicit false

/-! # Locally repairable codes

The chunks of an object are coded in layers (`ErasureCodeLrc`). Each layer is a code of its own
over some of the chunks; the coding chunks of one layer may be data for a later one. Encoding goes
through the layers in order, decoding and the plan for it (`_minimum_to_decode`) from the last to
the first.

The code of a layer is a parameter: it works on the buffers of the layer, data first. `none`
stands for an error. Sets of chunks are finite sets of numbers, and a map of buffers is a
function.
-/

namespace Ceph.ErasureCode

open RecoveryPass

/-! ## Layers -/

/-- What an `ErasureCodeInterface` does with the buffers of a layer: the buffers after an
encoding, and after a decoding from those that are known. -/
structure LayerCode (β : Type) where
  codingChunkCount : ℕ
  encodeChunks : Finset ℕ → List β → Option (List β)
  decodeChunks : Finset ℕ → List (Option β) → List β → Option (List β)

/-- The letters of a chunk map: `D`, `c` and any other. -/
inductive Slot
  | data
  | coding
  | unused
deriving DecidableEq

structure Layer (β : Type) where
  chunksMap : List Slot
  erasureCode : LayerCode β

variable {β : Type}

namespace Layer

def positions (l : Layer β) (s : Slot) : List ℕ :=
  (List.range l.chunksMap.length).filter (l.chunksMap[·]? = some s)

def data (l : Layer β) : List ℕ := l.positions .data

def coding (l : Layer β) : List ℕ := l.positions .coding

def chunks (l : Layer β) : List ℕ := l.data ++ l.coding

def chunksAsSet (l : Layer β) : Finset ℕ := l.chunks.toFinset

/-- The layer as a group that can restore its members. -/
def group (l : Layer β) : RecoveryPass.Group ℕ := ⟨l.chunksAsSet, l.erasureCode.codingChunkCount⟩

/-- The positions in the layer of the chunks in a set. -/
def localWant (l : Layer β) (want : Finset ℕ) : Finset ℕ :=
  (Finset.range l.chunks.length).filter fun j => (l.chunks[j]?).any (· ∈ want)

end Layer

/-- Put buffers back to the chunks of a layer. -/
def scatter : List ℕ → List β → (ℕ → β) → ℕ → β
  | c :: cs, v :: vs, f => scatter cs vs (Function.update f c v)
  | _, _, f => f

/-- The chunk maps of the layers that `parse_kml` generates: a global layer and one for each
group. -/
def parseKml (k m l : ℕ) : Option (List (List Slot)) :=
  let localGroupCount := (k + m) / l
  if l = 0 ∨ (k + m) % l ≠ 0 ∨ k % localGroupCount ≠ 0 ∨ m % localGroupCount ≠ 0 then none
  else
    let global := (List.replicate localGroupCount (List.replicate (k / localGroupCount) .data ++
      List.replicate (m / localGroupCount) .coding ++ [.unused])).flatten
    let localLayer := fun i => ((List.range localGroupCount).map fun j =>
      if i = j then List.replicate l .data ++ [.coding]
      else List.replicate (l + 1) .unused).flatten
    some (global :: (List.range localGroupCount).map localLayer)

/-! ## `encode_chunks` -/

/-- The layer to start with: the last one with all chunks that are wanted, or the first. The list is
in reverse order. -/
def encodeTop (want : Finset ℕ) : List (Layer β) → ℕ
  | [] => 0
  | l :: rest => if want ⊆ l.chunksAsSet then rest.length else encodeTop want rest

/-- One turn of the loop. -/
def encodeLayer (want : Finset ℕ) (encoded : ℕ → β) (l : Layer β) : Option (ℕ → β) :=
  (l.erasureCode.encodeChunks (l.localWant want) (l.chunks.map encoded)).map fun layerEncoded =>
    scatter l.chunks layerEncoded encoded

def encodeChunks (layers : List (Layer β)) (want : Finset ℕ) (encoded : ℕ → β) :
    Option (ℕ → β) :=
  (layers.drop (encodeTop want layers.reverse)).foldlM (encodeLayer want) encoded

/-! ## `_minimum_to_decode` -/

/-- The state of the plan. -/
structure Plan where
  erasuresNotRecovered : Finset ℕ
  erasuresWant : Finset ℕ
  minimum : Finset ℕ

/-- One turn of the loop of the second case. -/
def planLayer (wantToRead : Finset ℕ) (p : Plan) (l : Layer β) : Plan :=
  let layerWant := wantToRead ∩ l.chunksAsSet
  -- If this layer has no chunk that we want, skip it.
  if layerWant = ∅ then p
  -- Are some of the chunks we want missing ?
  else if layerWant ∩ p.erasuresWant = ∅ then { p with minimum := p.minimum ∪ layerWant }
  else
    let erasures := l.chunksAsSet ∩ p.erasuresNotRecovered
    -- There are too many erasures for this layer to recover: skip it
    if erasures.card > l.erasureCode.codingChunkCount then p
    else
      ⟨p.erasuresNotRecovered \ erasures, p.erasuresWant \ erasures,
        p.minimum ∪ (l.chunksAsSet \ p.erasuresNotRecovered)⟩

/-- The loop of the second case. -/
def plan (layers : List (Layer β)) (erasuresTotal wantToRead : Finset ℕ) : Plan :=
  layers.reverse.foldl (planLayer wantToRead) ⟨erasuresTotal, erasuresTotal ∩ wantToRead, ∅⟩

/-- One turn of the loop of the third case. -/
def recoverLayer (erasuresTotal : Finset ℕ) (l : Layer β) : Finset ℕ :=
  let layerErasures := l.chunksAsSet ∩ erasuresTotal
  -- If this layer has no erasure, skip it
  if layerErasures = ∅ then erasuresTotal
  else if 0 < layerErasures.card ∧ layerErasures.card ≤ l.erasureCode.codingChunkCount then
    erasuresTotal \ layerErasures
  else erasuresTotal

/-- `_minimum_to_decode`, with an empty `minimum` to start with. -/
def minimumToDecode (chunkCount : ℕ) (layers : List (Layer β)) (wantToRead available : Finset ℕ) :
    Option (Finset ℕ) :=
  let erasuresTotal := Finset.range chunkCount \ available
  -- Case 1: no chunk that is wanted is missing
  if erasuresTotal ∩ wantToRead = ∅ then some wantToRead
  else
    -- Case 2: try to recover erasures with as few chunks as possible
    let p := plan layers erasuresTotal wantToRead
    if p.erasuresWant = ∅ then some ((p.minimum ∪ wantToRead) \ erasuresTotal)
    -- Case 3: try to recover as many chunks as possible
    else if layers.reverse.foldl recoverLayer erasuresTotal = ∅ then some available
    else none

/-! ## `decode_chunks` -/

/-- The state of the loop. -/
structure Decoding (β : Type) where
  erasures : Finset ℕ
  decoded : ℕ → β
  wantToReadErasures : Finset ℕ

/-- The layer restores its chunks. -/
def decodeLayer (wantToRead : Finset ℕ) (s : Decoding β) (l : Layer β) : Option (Decoding β) :=
  -- Pick chunks from *decoded* instead of *chunks* to re-use chunks recovered by previous layers
  let layerChunks := l.chunks.map fun c => if c ∈ s.erasures then none else some (s.decoded c)
  (l.erasureCode.decodeChunks (l.localWant wantToRead) layerChunks (l.chunks.map s.decoded)).map
    fun layerDecoded =>
      let erasures := s.erasures \ l.chunksAsSet
      ⟨erasures, scatter l.chunks layerDecoded s.decoded, erasures ∩ wantToRead⟩

/-- The loop over the layers, in reverse order, until all that is wanted is there. -/
def decodeLoop (wantToRead : Finset ℕ) : List (Layer β) → Decoding β → Option (Decoding β)
  | [], s => some s
  | l :: rest, s =>
    let layerErasures := l.chunksAsSet ∩ s.erasures
    -- too many erasures for this layer to recover, or all chunks are already available
    if layerErasures.card > l.erasureCode.codingChunkCount ∨ layerErasures.card = 0 then
      decodeLoop wantToRead rest s
    else
      (decodeLayer wantToRead s l).bind fun s' =>
        if s'.wantToReadErasures.card = 0 then some s' else decodeLoop wantToRead rest s'

/-- `decode_chunks`. `present` are the chunks that are given, and `decoded` has their buffers. -/
def decodeChunks (chunkCount : ℕ) (layers : List (Layer β)) (wantToRead present : Finset ℕ)
    (decoded : ℕ → β) : Option (ℕ → β) :=
  (decodeLoop wantToRead layers.reverse ⟨Finset.range chunkCount \ present, decoded, ∅⟩).bind
    fun s => if s.wantToReadErasures.card > 0 then none else some s.decoded

end Ceph.ErasureCode
