import Zakura.Hints.Gcs

/-! # Receiver block hints

One set of receivers for each block that pays any, keyed by height, and ranges of consecutive blocks that carry
only the nonempty sets. -/

namespace Zakura.Hints

open Zakura.Filter (SipHash)
open Zakura.Receiver (Error Hash ReceiverBytes)

/-- The set of receivers seen so far; a set past the limit is refused at once. -/
def collectDistinct (max : Nat) : List ReceiverBytes → List ReceiverBytes → Except Error (List ReceiverBytes)
  | distinct, [] => .ok distinct
  | distinct, receiver :: receivers =>
    let distinct := distinct.insert receiver
    if max < distinct.length then .error .capacity else collectDistinct max distinct receivers

namespace Blocks

def maxRangeBytes : Nat := 4 * 1024 * 1024

def maxReceivers : Nat := 65536

def p : Nat := 20

def m : Nat := 1569792

def maxRangeBlocks : Nat := 2 ^ 20

def rangeMagic : Bytes := asciiBytes "IWRANGE2"

def rangeHeader : Nat := 8 + 8 + 4 + 4 + 32 + 32 + 4

end Blocks

def heightSalt (sha : Sha256) (genesis : Hash) (height : UInt32) : Hash :=
  sha (asciiBytes "ironwood-receiver/v2/height-hints\x00" ++ genesis.val ++ leBytes 4 height.toNat)

/-- `HeightSet`: one block's nonempty set of receivers. -/
structure HeightSet where
  height : UInt32
  filter : Filter
deriving DecidableEq, Repr

namespace HeightSet

def build (sha : Sha256) (sip : SipHash) (genesis : Hash) (height : UInt32) (receivers : List ReceiverBytes) :
    Checked Error (Option HeightSet) := do
  let distinct ← .done (collectDistinct Blocks.maxReceivers [] receivers)
  if distinct = [] ∨ height = 0 then pure none
  else
    let filter ← Filter.buildWith sha sip (heightSalt sha genesis height) distinct Blocks.p Blocks.m
    pure (some ⟨height, filter⟩)

def bytes (set : HeightSet) : Bytes := set.filter.bytes

end HeightSet

/-- `Range`: consecutive block hints, the nonempty sets only. -/
structure Range where
  revision : UInt64
  fromHeight : UInt32
  count : UInt32
  parent : Hash
  ending : Hash
  sets : List HeightSet
deriving DecidableEq

structure BlockId where
  height : Nat
  hash : Hash
deriving DecidableEq

namespace Range

/-- The bounds on a range's heights, and its last height. -/
def lastHeight (fromHeight count : UInt32) : Except Error Nat :=
  if fromHeight = 0 ∨ count = 0 ∨ Blocks.maxRangeBlocks < count.toNat then .error .capacity
  else if 2 ^ 32 ≤ fromHeight.toNat + (count.toNat - 1) then .error .malformed
  else .ok (fromHeight.toNat + (count.toNat - 1))

/-- The loop of `validate`: every set in the range, in strictly increasing order. -/
def checkSets (first last : Nat) : Option Nat → List HeightSet → Except Error Unit
  | _, [] => .ok ()
  | previous, set :: sets =>
    let height := set.height.toNat
    if height < first ∨ last < height ∨ previous.any (height ≤ ·) then .error .malformed
    else checkSets first last (some height) sets

def validate (range : Range) : Except Error Unit := do
  let last ← lastHeight range.fromHeight range.count
  checkSets range.fromHeight.toNat last none range.sets

def new (revision : UInt64) (fromHeight count : UInt32) (parent ending : Hash) (sets : List HeightSet) :
    Except Error Range := do
  let range : Range := ⟨revision, fromHeight, count, parent, ending, sets⟩
  range.validate
  pure range

/-- The loop of `write`: the entries written so far and the output. -/
def writeSets (last : Nat) : Nat → Nat → Bytes → List (UInt32 × Bytes) → Except Error (Nat × Bytes)
  | _, entries, out, [] => .ok (entries, out)
  | next, entries, out, (height, set) :: sets =>
    let height := height.toNat
    if height < next ∨ last < height then .error .malformed
    else
      let out := out ++ compactSizeBytes (height - next) ++ set
      if Blocks.maxRangeBytes < out.length then .error .capacity
      else writeSets last (min (height + 1) (2 ^ 32 - 1)) (entries + 1) out sets

def write (revision : UInt64) (fromHeight count : UInt32) (parent ending : Hash) (sets : List (UInt32 × Bytes)) :
    Except Error Bytes := do
  let last ← lastHeight fromHeight count
  let out := Blocks.rangeMagic ++ leBytes 8 revision.toNat ++ leBytes 4 fromHeight.toNat ++
    leBytes 4 count.toNat ++ parent.val ++ ending.val ++ leBytes 4 0
  let (entries, out) ← writeSets last fromHeight.toNat 0 out sets
  -- The entry count, once the sets are written.
  pure (out.take (Blocks.rangeHeader - 4) ++ leBytes 4 entries ++ out.drop Blocks.rangeHeader)

def encode (range : Range) : Except Error Bytes :=
  write range.revision range.fromHeight range.count range.parent range.ending
    (range.sets.map fun set => (set.height, set.bytes))

/-- The header of an encoding, as a range without sets, and the entry count. -/
def parseHeader : Reader Error (Range × Nat) := do
  let tag ← Reader.takeBytes 8 fun _ => .malformed
  Reader.failIf (tag.val ≠ Blocks.rangeMagic) .malformed
  let revision ← Reader.word64 fun _ => .malformed
  let fromHeight ← Reader.word32 fun _ => .malformed
  let count ← Reader.word32 fun _ => .malformed
  let parent ← Reader.takeBytes 32 fun _ => .malformed
  let ending ← Reader.takeBytes 32 fun _ => .malformed
  let entries ← Reader.leNumber 4 fun _ => .malformed
  pure (⟨revision, fromHeight, count, parent, ending, []⟩, entries)

/-- The loop of `parse` over the entries left. -/
def parseSets : Nat → Nat → Bytes → Checked Error (List (UInt32 × Bytes) × Bytes)
  | 0, _, rest => pure ([], rest)
  | entries + 1, next, rest => do
    let (gap, rest) ← .done ((Reader.compactSize (fun _ => Error.malformed) fun _ => .malformed).run rest)
    let height := next + gap
    if 2 ^ 32 ≤ height then .fails .malformed
    else
      let (set, rest) ← Gcs.split rest Blocks.p Blocks.m Blocks.maxReceivers
      let (sets, rest) ← parseSets entries (height + 1) rest
      pure ((.ofNat height, set) :: sets, rest)

/-- `parse`: the header, as a range without sets, and the encoded sets. -/
def parse (bytes : Bytes) : Checked Error (Range × List (UInt32 × Bytes)) := do
  if Blocks.maxRangeBytes < bytes.length then .fails .capacity
  else
    let ((range, entries), rest) ← .done (parseHeader.run bytes)
    if range.count.toNat < entries ∨ rest.length / 2 < entries then .fails .capacity
    else
      let (sets, rest) ← parseSets entries range.fromHeight.toNat rest
      if rest ≠ [] then .fails .malformed else pure (range, sets)

/-- One set of `decode`. -/
def decodeSet (entry : UInt32 × Bytes) : Except Error HeightSet := do
  let filter ← Filter.decodeWith entry.2 Blocks.p Blocks.m
  if filter.isEmpty then .error .malformed else .ok ⟨entry.1, filter⟩

def decode (bytes : Bytes) : Checked Error Range := do
  let (range, raw) ← parse bytes
  .done do
    let sets ← raw.mapM decodeSet
    let range : Range := { range with sets }
    range.validate
    pure range

/-- `end`: the last block covered. -/
def endBlock (range : Range) : BlockId := ⟨range.fromHeight.toNat + (range.count.toNat - 1), range.ending⟩

def rawSets (bytes : Bytes) : Checked Error (List (UInt32 × Bytes)) := do
  let (range, sets) ← parse bytes
  .done do
    range.validate
    if sets.getLast?.any fun entry => range.endBlock.height < entry.1.toNat then .error .malformed else .ok sets

def follows (range previous : Range) : Bool :=
  previous.endBlock.height + 1 = range.fromHeight.toNat ∧ previous.endBlock.hash = range.parent

/-- `matches`: the height and the receiver's index of each match. -/
def matchReceivers (sha : Sha256) (sip : SipHash) (range : Range) (genesis : Hash) (receivers : List ReceiverBytes) :
    List (UInt32 × Nat) :=
  range.sets.flatMap fun set =>
    let found := set.filter.matchReceivers sha sip (heightSalt sha genesis set.height) receivers
    (found.zipIdx.filter (·.1)).map fun hit => (set.height, hit.2)

end Range

end Zakura.Hints
