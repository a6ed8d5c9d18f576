import Zakura.Display.Map

/-! # The split display map

The same shards as a recent map, which changes with every block, and immutable index chunks of archives, which start
at absolute shard ids that are multiples of 32. -/

namespace Zakura.Display

def indexChunkShards : Nat := 32

def chunkBase (shardId : Nat) : Nat := shardId - shardId % indexChunkShards

structure DisplayChunkRef where
  startHeight : UInt64
  sha256 : String
deriving DecidableEq

structure DisplayRecentMap where
  schema : String
  network : String
  genesisHash : String
  sealParams : DisplaySealParams
  startHeight : UInt64
  firstShardId : UInt64
  archives : UInt64
  unsealedStart : UInt64
  chunkShards : UInt64
  chunks : List DisplayChunkRef
  recent : Option DisplayMapEntry
deriving DecidableEq

structure DisplayIndexChunk where
  schema : String
  baseShardId : UInt64
  shards : List DisplayMapEntry
deriving DecidableEq

/-- `shard_for_height` of a chunk. -/
def DisplayIndexChunk.shardForHeight (chunk : DisplayIndexChunk) (height : Nat) : Option DisplayMapEntry :=
  findByHeight chunk.shards height

namespace DisplayRecentMap

variable {ε : Type}

def chunkBaseId (map : DisplayRecentMap) (index : Nat) : Checked ε Nat := do
  let offset ← .mulWord index indexChunkShards
  .addWord (chunkBase map.firstShardId.toNat) offset

/-- `chunk_ids`: the first id a chunk must list, and the id after the last. -/
def chunkIds (map : DisplayRecentMap) (index : Nat) : Checked ε (Nat × Nat) := do
  let base ← map.chunkBaseId index
  let stop ← .addWord map.firstShardId.toNat map.archives.toNat
  let left ← .subWord stop base
  let next ← .addWord base (min left indexChunkShards)
  pure (max base map.firstShardId.toNat, next)

def chunkForHeight (map : DisplayRecentMap) (height : Nat) : Option Nat :=
  if height < map.startHeight.toNat ∨ map.unsealedStart.toNat ≤ height then none
  else
    let point := partitionPoint (fun chunk => chunk.startHeight.toNat ≤ height) map.chunks
    if point = 0 then none else some (point - 1)

/-- The client's lookup: the chunk and its shard below the unsealed heights, otherwise the recent shard. -/
def route (map : DisplayRecentMap) (chunks : List DisplayIndexChunk) (height : Nat) : Option DisplayMapEntry :=
  if height < map.startHeight.toNat then none
  else
    match map.chunkForHeight height with
    | some index => chunks[index]?.bind (·.shardForHeight height)
    | none => map.recent.filter fun recent => height ≤ recent.endHeight.toNat

/-! ## Checks -/

/-- The height after a chunk at the earliest, since every archive covers at least one block. -/
def chunkFloor (map : DisplayRecentMap) (index : Nat) : Checked String Nat := do
  let (start, stop) ← map.chunkIds index
  let reference ← .expect map.chunks[index]?
  let count ← .subWord stop start
  let floor := reference.startHeight.toNat + count
  if 2 ^ 64 ≤ floor then .fails "index chunk height range" else pure floor

/-- The least height at which the chunk of an index, or behind the last the unsealed range, can start. -/
def floorAt (map : DisplayRecentMap) : Nat → Checked String Nat
  | 0 => pure map.startHeight.toNat
  | before + 1 => map.chunkFloor before

/-- The loop of `check_structure` over the chunk references. -/
def checkRefs (map : DisplayRecentMap) : Nat → List DisplayChunkRef → Checked String Unit
  | _, [] => pure ()
  | index, chunk :: chunks =>
    if ¬ isDigest chunk.sha256 then .fails s!"index chunk {index} digest"
    else do
      let floor ← map.floorAt index
      if (index = 0 ∧ chunk.startHeight.toNat ≠ floor) ∨ chunk.startHeight.toNat < floor then
        .fails s!"index chunk {index} start"
      else map.checkRefs (index + 1) chunks

/-- How many chunks hold the listed archives. -/
def expectedChunks (map : DisplayRecentMap) (archiveEnd : Nat) : Checked String Nat :=
  if map.archives = 0 then pure 0
  else do
    let last ← .subWord archiveEnd 1
    let span ← .subWord (chunkBase last) (chunkBase map.firstShardId.toNat)
    .addWord (span / indexChunkShards) 1

def checkStructure (map : DisplayRecentMap) : Checked String Unit :=
  let schema := map.schema.quote
  let perChunk := map.chunkShards.toNat
  let archives := map.archives.toNat
  let first := map.firstShardId.toNat
  let listed := map.chunks.length
  if map.schema ≠ displaySchema then .fails s!"unsupported recent display map schema {schema}"
  else if perChunk ≠ indexChunkShards then .fails s!"{perChunk} archives per index chunk"
  else do
    .done map.sealParams.check
    if archives = 0 ∧ map.recent = none then .fails "display map is empty"
    else if 2 ^ 64 ≤ first + archives then .fails "archive id range"
    else
      let archiveEnd := first + archives
      let expected ← map.expectedChunks archiveEnd
      if listed ≠ expected then .fails s!"{listed} index chunks for {archives} archives from shard {first}"
      else
        map.checkRefs 0 map.chunks
        let floor ← map.floorAt map.chunks.length
        if (archives = 0 ∧ map.unsealedStart ≠ map.startHeight) ∨ map.unsealedStart.toNat < floor then
          .fails "display map sealed height"
        else
          match map.recent with
          | none => pure ()
          | some recent =>
            .done (checkEntryStructure map.sealParams recent)
            if recent.sealed ∨ recent.shardId.toNat ≠ archiveEnd then .fails "recent display shard id or seal"
            else .done (checkRecent map.sealParams map.startHeight.toNat map.unsealedStart.toNat recent)

def checkShape (map : DisplayRecentMap) : Checked String Unit := do
  map.checkStructure
  match map.recent with
  | none => pure ()
  | some recent => .done (checkEntry map.sealParams recent)

/-- The loop of `check_chunk_structure` over a chunk's shards: the id of the next, and the one before it. -/
def checkListed (map : DisplayRecentMap) (index : Nat) :
    Nat → Option DisplayMapEntry → List DisplayMapEntry → Except String Unit
  | _, _, [] => .ok ()
  | id, previous, shard :: shards => do
    let found := shard.shardId.toNat
    if found ≠ id ∨ ¬ shard.sealed then
      .error s!"index chunk {index} lists shard {found} where sealed shard {id} belongs"
    else
      checkEntryStructure map.sealParams shard
      previous.forM fun previous => checkChain previous shard
      map.checkListed index (id + 1) (some shard) shards

/-- Where the chunk after `index` starts, or the unsealed heights do. -/
def nextStart (map : DisplayRecentMap) (index : Nat) : Nat :=
  match map.chunks[index + 1]? with
  | some next => next.startHeight.toNat
  | none => map.unsealedStart.toNat

def checkChunkStructure (map : DisplayRecentMap) (index : Nat) (chunk : DisplayIndexChunk) : Checked String Unit :=
  match map.chunks[index]? with
  | none => .fails s!"no index chunk {index}"
  | some reference =>
    if chunk.schema ≠ displaySchema then .fails s!"index chunk {index} schema or address"
    else do
      let base ← map.chunkBaseId index
      if chunk.baseShardId.toNat ≠ base then .fails s!"index chunk {index} schema or address"
      else
        let (start, stop) ← map.chunkIds index
        let count ← .subWord stop start
        if chunk.shards.length ≠ count then .fails s!"index chunk {index} length"
        else
          .done (map.checkListed index start none chunk.shards)
          let first ← .expect chunk.shards.head?
          let last ← .expect chunk.shards.getLast?
          if first.startHeight ≠ reference.startHeight then .fails s!"index chunk {index} start"
          else if last.endHeight.toNat + 1 ≠ map.nextStart index then
            .fails s!"index chunk {index} does not reach the next start"
          else
            match map.recent with
            | none => pure ()
            | some recent => .done (chunk.shards.forM fun shard => checkRecentParent shard recent)

def checkChunk (map : DisplayRecentMap) (index : Nat) (chunk : DisplayIndexChunk) : Checked String Unit := do
  map.checkChunkStructure index chunk
  .done (chunk.shards.forM fun shard => checkEntry map.sealParams shard)

end DisplayRecentMap

/-! ## Splitting -/

/-- The canonical encodings and SHA-256. -/
structure Encoding where
  chunkBytes : DisplayIndexChunk → Bytes
  recentBytes : DisplayRecentMap → Bytes
  sha256 : Bytes → FixedBytes 32

structure SplitChunk where
  chunk : DisplayIndexChunk
  bytes : Bytes
  sha256 : String

structure SplitMap where
  recent : DisplayRecentMap
  recentBytes : Bytes
  recentSha256 : String
  chunks : List SplitChunk

def SplitChunk.new (encoding : Encoding) (chunk : DisplayIndexChunk) : SplitChunk :=
  let bytes := encoding.chunkBytes chunk
  ⟨chunk, bytes, hexEncode (encoding.sha256 bytes).val⟩

/-- `group_by_chunk`: the runs of archives that share a chunk base. Every round takes at least one archive, so the
fuel is their number. -/
def groupByChunk : Nat → List DisplayMapEntry → List (Nat × List DisplayMapEntry)
  | 0, _ => []
  | _, [] => []
  | fuel + 1, first :: rest =>
    let base := chunkBase first.shardId.toNat
    let length := ((first :: rest).takeWhile fun shard => chunkBase shard.shardId.toNat = base).length
    (base, (first :: rest).take length) :: groupByChunk fuel ((first :: rest).drop length)

namespace DisplayMap

/-- The chunks of `split`. -/
def splitChunks (encoding : Encoding) (map : DisplayMap) : List SplitChunk :=
  (groupByChunk map.archives.length map.archives).map fun (base, group) =>
    SplitChunk.new encoding ⟨displaySchema, .ofNat base, group⟩

def chunkRef (chunk : SplitChunk) : Checked String DisplayChunkRef := do
  let first ← .expect chunk.chunk.shards.head?
  pure ⟨first.startHeight, chunk.sha256⟩

/-- `check_chunk` of the chunks from an index on. -/
def checkChunks (recent : DisplayRecentMap) : Nat → List SplitChunk → Checked String Unit
  | _, [] => pure ()
  | index, chunk :: chunks => do
    recent.checkChunk index chunk.chunk
    checkChunks recent (index + 1) chunks

def split (encoding : Encoding) (map : DisplayMap) : Checked String SplitMap := do
  map.checkShape
  let archives := map.archives.length
  let chunks := map.splitChunks encoding
  let unsealed ← map.unsealedStart
  let refs ← chunks.mapM chunkRef
  let recent : DisplayRecentMap :=
    ⟨map.schema, map.network, map.genesisHash, map.sealParams, map.startHeight, map.firstShardId, .ofNat archives,
      .ofNat unsealed, .ofNat indexChunkShards, refs, map.shards[archives]?⟩
  recent.checkShape
  checkChunks recent 0 chunks
  let recentBytes := encoding.recentBytes recent
  pure ⟨recent, recentBytes, hexEncode (encoding.sha256 recentBytes).val, chunks⟩

end DisplayMap

end Zakura.Display
