import Zakura.Lib.BinarySearch
import Zakura.Receiver.Paths
import Zakura.Receiver.Table

/-! # The inventory of receiver shards and its capture

`receiver/inventory.rs`: a head commits to an ordered list of shards, which is fetched in chunks. Each chunk is checked
against the head and the shards before it, and the whole list against the head's identity. -/

namespace Zakura.ShardInventory

open Zakura.Receiver (Hash Coverage isFinal)

/-- `PROTOCOL`. -/
def protocolName : String := "ironwood-receiver-inventory-v1"

def maxSegments : Nat := 8

def maxShards : Nat := 2 ^ 17

def chunkShards : Nat := 16

def maxChunkBytes : Nat := 1024 * 1024

def maxFilterBytes : Nat := 24 * 1024 * 1024

def maxReceivers : Nat := 2 ^ 23

/-- `usize::MAX`. -/
def usizeMax : Nat := 2 ^ 64 - 1

/-- `session::Error`, as far as a capture returns it. -/
inductive SessionError
  | directory (error : Receiver.Error)
  | unsupported
  | malformed
  | revision
  | json
deriving DecidableEq

structure FilterRef where
  digest : Hash
  bytes : UInt32
  receivers : UInt32
deriving DecidableEq

/-- The filter's part of what a shard's digest hashes. -/
def filterBytes : Option FilterRef → Bytes
  | none => [0]
  | some filter => [1] ++ filter.digest.val ++ leBytes 4 filter.bytes.toNat ++ leBytes 4 filter.receivers.toNat

/-- One shard, with segments of a type that a `Protocol` reads. -/
structure Shard (P : Type) where
  index : UInt32
  sealed : Bool
  startHeight : UInt32
  startParent : Hash
  startPosition : UInt64
  endHeight : UInt32
  endHash : Hash
  endPosition : UInt64
  segments : List P
  filter : Option FilterRef
deriving DecidableEq

structure Head where
  protocol : String
  genesis : Hash
  historyRevision : UInt64
  inventory : Hash
  shards : UInt32
  startHeight : UInt32
  startPosition : UInt64
  endHeight : UInt32
  endHash : Hash
  endPosition : UInt64
deriving DecidableEq

structure Chunk (P : Type) where
  inventory : Hash
  index : UInt32
  shards : List (Shard P)
deriving DecidableEq

/-- What the inventory reads of a segment, the hash and the serialized form of a chunk. -/
structure Protocol (P : Type) where
  /-- `Publication::validate`. -/
  validate : P → Except SessionError Unit
  /-- The coverage of its directory's manifest. -/
  coverage : P → Coverage
  /-- The size of the tree its companion was built at. -/
  treeSize : P → Nat
  directoryId : P → Except SessionError Hash
  companionId : P → Except SessionError Hash
  sha256 : Bytes → Hash
  parse : Bytes → Option (Chunk P)
  size : Chunk P → Nat

variable {P : Type} (π : Protocol P)

namespace Shard

def coverage (shard : Shard P) (head : Head) : Coverage where
  genesis := head.genesis
  historyRevision := head.historyRevision
  startHeight := shard.startHeight
  startParent := shard.startParent
  startPosition := shard.startPosition
  endHeight := shard.endHeight
  endHash := shard.endHash
  endPosition := shard.endPosition

def checkFilter (shard : Shard P) : Bool :=
  shard.filter.all fun filter => shard.sealed ∧ filter.bytes.toNat ≤ maxFilterBytes ∧ filter.receivers.toNat ≤ maxReceivers

def validate (shard : Shard P) (head : Head) : Except SessionError Unit :=
  if shard.endHeight < shard.startHeight ∨ shard.endPosition < shard.startPosition ∨ shard.segments = [] ∨
      maxSegments < shard.segments.length ∨ shard.checkFilter = false then .error .malformed
  else shard.segments.forM fun segment => do
    π.validate segment
    if π.coverage segment ≠ shard.coverage head then .error .malformed else .ok ()

/-- What the digest of a shard hashes, given the ids of its segments. -/
def preimage (shard : Shard P) (ids : List (Hash × Hash)) : Bytes :=
  asciiBytes "ironwood-receiver-inventory/v1/shard" ++ [0] ++ leBytes 4 shard.index.toNat ++
    [if shard.sealed then 1 else 0] ++ leBytes 4 shard.startHeight.toNat ++ shard.startParent.val ++
    leBytes 8 shard.startPosition.toNat ++ leBytes 4 shard.endHeight.toNat ++ shard.endHash.val ++
    leBytes 8 shard.endPosition.toNat ++ leBytes 4 shard.segments.length ++
    (ids.flatMap fun id => id.1.val ++ id.2.val) ++ filterBytes shard.filter

def ids (shard : Shard P) : Except SessionError (List (Hash × Hash)) :=
  shard.segments.mapM fun segment => do
    let directory ← π.directoryId segment
    let companion ← π.companionId segment
    pure (directory, companion)

def digest (shard : Shard P) : Except SessionError Hash := do
  let ids ← shard.ids π
  pure (π.sha256 (shard.preimage ids))

end Shard

namespace Head

/-- `validate`, for the head's own network. -/
def validate (head : Head) (genesis : Hash) : Except SessionError Unit :=
  if head.protocol ≠ protocolName then .error .unsupported
  else if head.genesis ≠ genesis ∨ head.shards = 0 ∨ maxShards < head.shards.toNat ∨ head.endHeight < head.startHeight ∨
      head.endPosition < head.startPosition then .error .malformed
  else .ok ()

def chunks (head : Head) : Nat := (head.shards.toNat + chunkShards - 1) / chunkShards

/-- The head's fields in front of the shards' digests. -/
def preimage (head : Head) : Bytes :=
  asciiBytes "ironwood-receiver-inventory/v1/inventory" ++ [0] ++ leBytes 8 head.protocol.toUTF8.size ++
    head.protocol.toUTF8.toList ++ head.genesis.val ++ leBytes 8 head.historyRevision.toNat ++
    leBytes 4 head.shards.toNat ++ leBytes 4 head.startHeight.toNat ++ leBytes 8 head.startPosition.toNat ++
    leBytes 4 head.endHeight.toNat ++ head.endHash.val ++ leBytes 8 head.endPosition.toNat

def identity (head : Head) (shards : List (Shard P)) : Except SessionError Hash := do
  let digests ← shards.mapM (Shard.digest π)
  pure (π.sha256 (head.preimage ++ digests.flatMap Subtype.val))

end Head

def checkNext (head : Head) (previous : Option (Shard P)) (i : Nat) (shard : Shard P) : Except SessionError Unit := do
  shard.validate π head
  let continues : Bool :=
    match previous with
    | none => shard.startHeight = head.startHeight ∧ shard.startPosition = head.startPosition
    | some previous =>
      previous.sealed ∧ previous.endHeight.toNat + 1 = shard.startHeight.toNat ∧ previous.endHash = shard.startParent ∧
        previous.endPosition = shard.startPosition
  if shard.index.toNat ≠ i ∨ continues = false then .error .malformed else .ok ()

def checkEnd (head : Head) (shards : List (Shard P)) : Except SessionError Unit :=
  match shards.getLast? with
  | none => .error .malformed
  | some last =>
    if last.endHeight ≠ head.endHeight ∨ last.endHash ≠ head.endHash ∨ last.endPosition ≠ head.endPosition then
      .error .malformed
    else .ok ()

/-! ## Capturing -/

structure Capture (P : Type) where
  head : Head
  shards : List (Shard P)
  retained : Nat
  budget : Nat
deriving DecidableEq

structure Inventory (P : Type) where
  head : Head
  shards : List (Shard P)
deriving DecidableEq

namespace Capture

def new (head : Head) (budget : Nat) : Except SessionError (Capture P) := do
  head.validate head.genesis
  pure ⟨head, [], 0, budget⟩

def nextChunk (capture : Capture P) : Option Nat :=
  let next := (capture.shards.length + chunkShards - 1) / chunkShards
  if next < capture.head.chunks then some next else none

/-- The loop of `push_chunk` over a chunk's shards; those before a refused one stay. -/
def pushShards (head : Head) : List (Shard P) → List (Shard P) → List (Shard P) × Except SessionError Unit
  | shards, [] => (shards, .ok ())
  | shards, shard :: rest =>
    match checkNext π head shards.getLast? shards.length shard with
    | .error error => (shards, .error error)
    | .ok () => pushShards head (shards ++ [shard]) rest

/-- `push_chunk`, with the capture it leaves. -/
def pushChunk (capture : Capture P) (chunk : Chunk P) (bytes : Nat) : Capture P × Except SessionError Unit :=
  match capture.nextChunk with
  | none => (capture, .error .malformed)
  | some index =>
    let expected := min (capture.head.shards.toNat - capture.shards.length) chunkShards
    let capture := { capture with retained := min (capture.retained + bytes) usizeMax }
    if capture.budget < capture.retained then (capture, .error .malformed)
    else if chunk.inventory ≠ capture.head.inventory ∨ chunk.index.toNat ≠ index ∨ chunk.shards.length ≠ expected then
      (capture, .error .malformed)
    else
      let pushed := pushShards π capture.head capture.shards chunk.shards
      ({ capture with shards := pushed.1 }, pushed.2)

def pushCached (capture : Capture P) (shards : List (Shard P)) : Capture P × Except SessionError Unit :=
  match capture.nextChunk with
  | none => (capture, .error .malformed)
  | some index =>
    let chunk : Chunk P := ⟨capture.head.inventory, UInt32.ofNat index, shards⟩
    capture.pushChunk π chunk (π.size chunk)

def push (capture : Capture P) (bytes : Bytes) : Capture P × Except SessionError Unit :=
  if maxChunkBytes < bytes.length then (capture, .error .malformed)
  else
    match π.parse bytes with
    | none => (capture, .error .json)
    | some chunk => capture.pushChunk π chunk bytes.length

def finish (capture : Capture P) : Except SessionError (Inventory P) :=
  if capture.nextChunk.isSome then .error .malformed
  else do
    checkEnd capture.head capture.shards
    let identity ← capture.head.identity π capture.shards
    if identity ≠ capture.head.inventory then .error .revision else pure ⟨capture.head, capture.shards⟩

inductive Call (P : Type)
  | push (bytes : Bytes)
  | pushCached (shards : List (Shard P))

/-- The capture after a call, whether or not it failed. -/
def call (capture : Capture P) : Call P → Capture P
  | .push bytes => (capture.push π bytes).1
  | .pushCached shards => (capture.pushCached π shards).1

def callAll (capture : Capture P) (calls : List (Call P)) : Capture P := calls.foldl (call π) capture

end Capture

namespace Inventory

/-- The loop of `check` over the shards. -/
def checkShards (head : Head) : Option (Shard P) → Nat → List (Shard P) → Except SessionError Unit
  | _, _, [] => .ok ()
  | previous, i, shard :: shards => do
    checkNext π head previous i shard
    checkShards head (some shard) (i + 1) shards

def check (head : Head) (shards : List (Shard P)) : Except SessionError Unit := do
  head.validate head.genesis
  if shards.length ≠ head.shards.toNat then .error .malformed
  else do
    checkShards π head none 0 shards
    checkEnd head shards

def build (genesis : Hash) (historyRevision : UInt64) (shards : List (Shard P)) : Except SessionError (Inventory P) :=
  match shards.head?, shards.getLast? with
  | some first, some last =>
    if 2 ^ 32 ≤ shards.length then .error .malformed
    else do
      let head : Head :=
        ⟨protocolName, genesis, historyRevision, .zero 32, UInt32.ofNat shards.length, first.startHeight,
          first.startPosition, last.endHeight, last.endHash, last.endPosition⟩
      let shards := shards.mapIdx fun index shard => { shard with index := UInt32.ofNat index }
      check π head shards
      let inventory ← head.identity π shards
      pure ⟨{ head with inventory }, shards⟩
  | _, _ => .error .malformed

/-- The loop of `from_chunks`. -/
def pushAll (capture : Capture P) : List (Chunk P) → Except SessionError (Capture P)
  | [] => .ok capture
  | chunk :: chunks => do
    let pushed := capture.pushChunk π chunk 0
    pushed.2
    pushAll pushed.1 chunks

def fromChunks (head : Head) (chunks : List (Chunk P)) : Except SessionError (Inventory P) := do
  let capture ← Capture.new head usizeMax
  let capture ← pushAll π capture chunks
  capture.finish π

def chunkAt (inventory : Inventory P) (index : Nat) : Chunk P :=
  ⟨inventory.head.inventory, UInt32.ofNat index, (inventory.shards.drop (index * chunkShards)).take chunkShards⟩

def chunks (inventory : Inventory P) : Except SessionError (List (Chunk P)) :=
  (List.range ((inventory.shards.length + chunkShards - 1) / chunkShards)).mapM fun index =>
    if maxChunkBytes < π.size (inventory.chunkAt index) then .error .malformed else .ok (inventory.chunkAt index)

end Inventory

/-! ## Saved descriptors -/

/-- `DescriptorCache`, as far as a capture reads it. -/
structure DescriptorCache (P : Type) where
  shards : List (Shard P)

/-- `chunk`: the saved shards of a chunk, if every one is saved. -/
def DescriptorCache.chunk (cache : DescriptorCache P) (head : Head) (index : UInt32) : Option (List (Shard P)) := do
  let start := index.toNat * chunkShards
  guard (start + chunkShards < 2 ^ 32)
  let stop := min (start + chunkShards) head.shards.toNat
  let first ← (binarySearchBy (fun shard => compare shard.index.toNat start) cache.shards).toOption
  guard (start ≤ stop ∧ first + (stop - start) ≤ cache.shards.length)
  let shards := (cache.shards.drop first).take (stop - start)
  let last ← shards.getLast?
  guard (last.index.toNat + 1 = stop)
  pure shards

/-- The loop of `fetch`: each chunk comes from the saved descriptors if they hold it whole, and else from the server. The
first failed push ends it. -/
def fetch (get : Nat → Bytes) (cache : Option (DescriptorCache P)) : Nat → Capture P → Except SessionError (Capture P)
  | 0, capture => .ok capture
  | fuel + 1, capture =>
    match capture.nextChunk with
    | none => .ok capture
    | some index => do
      let pushed :=
        match cache.bind fun cache => cache.chunk capture.head (UInt32.ofNat index) with
        | some shards => capture.pushCached π shards
        | none => capture.push π (get index)
      pushed.2
      fetch get cache fuel pushed.1

end Zakura.ShardInventory
