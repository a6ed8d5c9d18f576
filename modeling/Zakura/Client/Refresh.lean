import Zakura.Filter.ShardMap

/-! # Refreshing the shard map

`sync/manifest.rs`: a map fetched in the middle of a sync has to continue the map the sync started from. -/

namespace Zakura.Client

open Zakura.Filter

structure SealParameters where
  maxScripts : UInt64
  maxPageRows : UInt64
  maxTxids : UInt64
deriving DecidableEq

/-- An entry of the published map with all its fields. -/
structure PublishedEntry extends Filter.ShardMapEntry where
  filterHash : String
  scripts : UInt64
  pageRows : UInt64
  txids : UInt64
deriving DecidableEq

/-- `ShardMap` with all its fields. -/
structure PublishedMap where
  genesisHash : String
  network : String
  profile : String
  rangeEnvelopeVersion : UInt16
  startHeight : UInt64
  /-- `seal`, in the order of the geometries' names. -/
  sealParams : List (String × SealParameters)
  shards : List PublishedEntry
  recuts : List Recut
deriving DecidableEq

namespace PublishedMap

/-- The part of the map whose shape is checked. -/
def shape (map : PublishedMap) : ShardMap where
  startHeight := map.startHeight
  sealKeys := map.sealParams.map Prod.fst
  shards := map.shards.map PublishedEntry.toShardMapEntry
  recuts := map.recuts

def checkShape (map : PublishedMap) : Except String Unit := map.shape.checkShape

def shardForHeight (map : PublishedMap) (height : UInt64) : Option PublishedEntry := do
  let index ← (binarySearchBy (fun shard => ShardMap.compareHeight height shard.toShardMapEntry) map.shards).toOption
  map.shards[index]?

def recutEpoch (map : PublishedMap) : UInt32 := map.recuts.getLast?.elim 0 Recut.epoch

end PublishedMap

/-- The loop of `check_continuation` over the seal parameters. -/
def checkSeals (fresh : List (String × SealParameters)) : List (String × SealParameters) → Except String Unit
  | [] => .ok ()
  | (name, sealParams) :: rest =>
    match fresh.lookup name with
    | some refreshed => if refreshed ≠ sealParams then .error s!"it reseals geometry {name}" else checkSeals fresh rest
    | none => checkSeals fresh rest

/-- The loop of `check_continuation` over the entries, up to the first that is not covered. -/
def checkCovered (fresh : List PublishedEntry) (coveredThrough : UInt64) :
    Nat → List PublishedEntry → Except String Unit
  | _, [] => .ok ()
  | index, before :: rest =>
    let id := before.shardId.toNat
    let last := before.endHeight.toNat
    if coveredThrough < before.endHeight then .ok ()
    else match fresh[index]? with
      | some after =>
        if after = before then checkCovered fresh coveredThrough (index + 1) rest
        else .error s!"shard {id} covers height {last} but is not the shard this sync read"
      | none => .error s!"it withdraws shard {id}, whose range this sync already covered"

/-- The end of the refreshed map against what is covered. -/
def checkReach (startedFrom fresh : PublishedMap) (coveredThrough : UInt64) : Except String Unit :=
  match fresh.shards.getLast? with
  | some last =>
    let reached := last.endHeight.toNat
    let covered := coveredThrough.toNat
    if last.endHeight < coveredThrough then
      .error s!"its coverage ends at {reached}, below the {covered} this sync already read"
    else .ok ()
  | none =>
    if startedFrom.startHeight ≤ coveredThrough then .error "it publishes no shards at all" else .ok ()

def checkContinuation (startedFrom fresh : PublishedMap) (coveredThrough : UInt64) : Except String Unit :=
  let epoch := fresh.recutEpoch.toNat
  let startedEpoch := startedFrom.recutEpoch.toNat
  if fresh.genesisHash ≠ startedFrom.genesisHash then .error "it names a different genesis block"
  else if fresh.network ≠ startedFrom.network then .error "it names a different network"
  else if fresh.profile ≠ startedFrom.profile then .error "it names a different filter profile"
  else if fresh.rangeEnvelopeVersion ≠ startedFrom.rangeEnvelopeVersion then
    .error "it names a different range envelope version"
  else if fresh.startHeight ≠ startedFrom.startHeight then .error "its coverage begins at a different height"
  else if fresh.recutEpoch ≠ startedFrom.recutEpoch then
    .error s!"it is re-cut epoch {epoch}, this sync started from epoch {startedEpoch}"
  else do
    checkSeals fresh.sealParams startedFrom.sealParams
    checkCovered fresh.shards coveredThrough 0 startedFrom.shards
    checkReach startedFrom fresh coveredThrough

def checkResume (resumed withdrawn : PublishedEntry) : Except String Unit :=
  let id := withdrawn.shardId.toNat
  let before := withdrawn.startHeight.toNat
  let after := resumed.startHeight.toNat
  if resumed.startHeight ≠ withdrawn.startHeight then .error s!"it moves shard {id} from height {before} to {after}"
  else .ok ()

end Zakura.Client
