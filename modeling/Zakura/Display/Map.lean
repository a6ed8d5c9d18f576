import Zakura.Lib.BinarySearch
import Zakura.Lib.Slice

/-! # The display map

The shards currently served, oldest first: sealed archives and at most one recent shard after them, which may start
below the archives' end. -/

namespace Zakura.Display

def displaySchema : String := "transparent-txid-display-shard-v3"

def maxBuckets : Nat := 64

def maxPlacementSeeds : Nat := 64

/-- The names of `DISPLAY_PROFILES`. -/
def displayProfiles : List String := ["txid-2k8", "txid-4k8"]

structure DisplaySealParams where
  nArchive : Nat
  nRecent : Nat
  archiveTarget : Nat
  recentWindow : Nat
  reorgMargin : Nat
deriving DecidableEq

def DisplaySealParams.check (sealParams : DisplaySealParams) : Except String Unit :=
  let archive := sealParams.nArchive
  let recent := sealParams.nRecent
  if archive < 1 ∨ maxBuckets < archive then .error s!"{archive} archive display buckets"
  else if recent < 1 ∨ maxBuckets < recent then .error s!"{recent} recent display buckets"
  else .ok ()

structure DisplayMapEntry where
  shardId : UInt64
  startHeight : UInt64
  endHeight : UInt64
  parentBlockHash : String
  terminalBlockHash : String
  geometry : String
  nBuckets : Nat
  directorySegments : List Nat
  placementSeeds : List Nat
  records : Nat
  minBucketRecords : Nat
  manifestDigest : String
  revision : Nat
  sealed : Bool
deriving DecidableEq

/-! ## Entries -/

/-- `is_digest`: 64 lower-case hexadecimal digits. -/
def isDigest (text : String) : Bool :=
  text.toList.length = 64 ∧ text.toList.all fun c => c.isDigit || 'a' ≤ c && c ≤ 'f'

def checkEntryStructure (sealParams : DisplaySealParams) (shard : DisplayMapEntry) : Except String Unit :=
  let id := shard.shardId.toNat
  let expectedBuckets := if shard.sealed then sealParams.nArchive else sealParams.nRecent
  if shard.endHeight < shard.startHeight then .error s!"display shard {id} ends before it starts"
  else if shard.nBuckets ≠ expectedBuckets ∨ ¬ (1 ≤ shard.nBuckets ∧ shard.nBuckets ≤ maxBuckets) ∨
      shard.directorySegments.length ≠ shard.nBuckets ∨ 0 ∈ shard.directorySegments ∨
      shard.placementSeeds.length ≠ shard.nBuckets ∨ shard.placementSeeds.any (maxPlacementSeeds ≤ ·) then
    .error s!"display shard {id} tables"
  else if ¬ isDigest shard.manifestDigest then .error s!"display shard {id} digest"
  else if shard.sealed ∧ (shard.revision ≠ 0 ∨ shard.minBucketRecords < sealParams.archiveTarget) then
    .error s!"sealed display shard {id} is below its bucket target or not content-pure"
  else .ok ()

/-- `check_entry`: the structure, and a known geometry. -/
def checkEntry (sealParams : DisplaySealParams) (shard : DisplayMapEntry) : Except String Unit := do
  checkEntryStructure sealParams shard
  let id := shard.shardId.toNat
  if shard.geometry ∉ displayProfiles then .error s!"display shard {id} geometry" else .ok ()

def checkRecent (sealParams : DisplaySealParams) (startHeight unsealedStart : Nat) (recent : DisplayMapEntry) :
    Except String Unit :=
  let id := recent.shardId.toNat
  let least := recent.minBucketRecords
  let window := sealParams.recentWindow
  if recent.startHeight.toNat < startHeight ∨ unsealedStart < recent.startHeight.toNat ∨
      recent.endHeight.toNat < unsealedStart then
    .error s!"recent display shard {id} does not cover the unsealed range"
  else if recent.startHeight.toNat ≠ startHeight ∧ least < window then
    .error s!"recent display shard {id} holds {least} txids in a bucket, below the window of {window}"
  else .ok ()

def checkRecentParent (archive recent : DisplayMapEntry) : Except String Unit :=
  let archiveId := archive.shardId.toNat
  let recentId := recent.shardId.toNat
  let nextHeight := archive.endHeight.toNat + 1
  if 2 ^ 64 ≤ nextHeight then .error s!"display archive {archiveId} height range overflows"
  else
    let parent := if recent.startHeight.toNat = nextHeight then some archive.terminalBlockHash
      else if recent.startHeight = archive.startHeight then some archive.parentBlockHash
      else none
    if parent.any (recent.parentBlockHash ≠ ·) then
      .error s!"recent display shard {recentId} does not chain to archive {archiveId}"
    else .ok ()

def checkChain (previous shard : DisplayMapEntry) : Except String Unit :=
  let id := shard.shardId.toNat
  let previousId := previous.shardId.toNat
  if previous.endHeight.toNat + 1 ≠ shard.startHeight.toNat ∨ shard.parentBlockHash ≠ previous.terminalBlockHash then
    .error s!"display shard {id} does not chain to {previousId}"
  else .ok ()

/-- Where a shard lies from a height, for the search. -/
def compareHeight (height : Nat) (shard : DisplayMapEntry) : Ordering :=
  if shard.endHeight.toNat < height then .lt
  else if height < shard.startHeight.toNat then .gt
  else .eq

def findByHeight (shards : List DisplayMapEntry) (height : Nat) : Option DisplayMapEntry := do
  let index ← (binarySearchBy (compareHeight height) shards).toOption
  shards[index]?

/-! ## The map -/

structure DisplayMap where
  schema : String
  network : String
  genesisHash : String
  sealParams : DisplaySealParams
  startHeight : UInt64
  firstShardId : UInt64
  shards : List DisplayMapEntry
deriving DecidableEq

namespace DisplayMap

def archives (map : DisplayMap) : List DisplayMapEntry := map.shards.takeWhile (·.sealed)

def recent (map : DisplayMap) : Option DisplayMapEntry := map.shards.getLast?.filter fun shard => !shard.sealed

/-- `unsealed_start`: the first height no archive holds. -/
def unsealedStart {ε : Type} (map : DisplayMap) : Checked ε Nat :=
  match map.archives.getLast? with
  | none => pure map.startHeight.toNat
  | some archive => .addWord archive.endHeight.toNat 1

def shardForHeight {ε : Type} (map : DisplayMap) (height : Nat) : Checked ε (Option DisplayMapEntry) := do
  let unsealed ← map.unsealedStart
  if height < unsealed then pure (findByHeight map.archives height)
  else pure (map.recent.filter fun recent => height ≤ recent.endHeight.toNat)

/-- The loop of `check_shape` over the shards: their ids, and that only the last may be unsealed. -/
def checkPositions (map : DisplayMap) : Nat → List DisplayMapEntry → Except String Unit
  | _, [] => .ok ()
  | index, shard :: shards => do
    let id := shard.shardId.toNat
    if map.firstShardId.toNat + index ≠ id then .error s!"display shard at position {index} claims id {id}"
    else
      checkEntry map.sealParams shard
      if ¬ shard.sealed ∧ index + 1 ≠ map.shards.length then .error s!"unsealed display shard {id} is not last"
      else map.checkPositions (index + 1) shards

/-- `check_chain` of every two neighbours. -/
def checkChains : List DisplayMapEntry → Except String Unit
  | previous :: shard :: shards => do
    checkChain previous shard
    checkChains (shard :: shards)
  | _ => .ok ()

def checkShape (map : DisplayMap) : Checked String Unit :=
  let schema := map.schema.quote
  if map.schema ≠ displaySchema then .fails s!"unsupported display map schema {schema}"
  else do
    .done map.sealParams.check
    match map.shards.head? with
    | none => .fails "display map is empty"
    | some first =>
      if first.startHeight ≠ map.startHeight ∨ first.shardId ≠ map.firstShardId then .fails "display map start"
      else do
        .done (map.checkPositions 0 map.shards)
        if map.archives.getLast?.any fun last => 2 ^ 64 ≤ last.endHeight.toNat + 1 then
          .fails "display archive height range overflows"
        else do
          .done (checkChains map.archives)
          match map.recent with
          | none => pure ()
          | some recent => do
            let unsealed ← map.unsealedStart
            .done (checkRecent map.sealParams map.startHeight.toNat unsealed recent)
            .done (map.archives.forM fun archive => checkRecentParent archive recent)

end DisplayMap

end Zakura.Display
