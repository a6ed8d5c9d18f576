import Zakura.Client.Refresh
import Zakura.Filter.Envelope
import Zakura.Filter.Matching
import Zakura.Lib.Batches

/-! # Filter synchronization

`filter/client.rs`: the shards of a map, or the blocks of a range, are fetched in batches from any transport, checked
against the map and the accepted chain, and matched with the wallet's scripts. -/

namespace Zakura.Client

open Zakura.Filter
open Envelope (maxRecordsPerBatch maxRangeRecordsPerBatch rangeEnvelopeVersion)

/-- The hashes, and the coding of the `hex` crate. -/
structure FilterTools where
  sha256 : Bytes → FixedBytes 32
  sip : SipHash
  hexDecode : String → Option Bytes
  hexEncode : Bytes → String

structure AcceptedChain where
  blockHash : UInt64 → Option BlockHash
  heightOf : BlockHash → Option UInt64

structure ByteCharges where
  received : Nat := 0
  sent : Nat := 0
  requests : Nat := 0
deriving DecidableEq

def ByteCharges.add (a b : ByteCharges) : ByteCharges := ⟨a.received + b.received, a.sent + b.sent, a.requests + b.requests⟩

structure RangeRequest where
  genesis : BlockHash
  profile : String
  startHeight : UInt64
  stopBlockHash : BlockHash

structure ShardRangeRequest where
  genesis : BlockHash
  profile : String
  startShard : UInt64
  count : UInt64

variable (tools : FilterTools)

/-! ## Hashes and keys -/

/-- `BlockHash::from_display_hex`. -/
def fromDisplayHex (text : String) : Except FilterError BlockHash :=
  match tools.hexDecode text with
  | none => .error (.blockHash "block hash is not hexadecimal")
  | some bytes =>
    if h : bytes.length = 32 then .ok ⟨bytes.reverse, by rw [List.length_reverse, h]⟩
    else .error (.blockHash "block hash is not 32 bytes")

/-- `FilterHash::to_display_hex` of `filter_hash`, a double SHA-256. -/
def filterHashHex (bytes : Bytes) : String := tools.hexEncode (tools.sha256 (tools.sha256 bytes).val).val.reverse

/-- `FilterKeys::from_prefix`. -/
def filterKeys (bytes : Bytes) : FilterKeys :=
  ⟨UInt64.ofNat (leNat (bytesAt bytes 0 8)), UInt64.ofNat (leNat (bytesAt bytes 8 8))⟩

/-- `ShardKey::derive`, with the keys it gives. -/
def shardKey (profile : String) (genesis : BlockHash) (shardId startHeight endHeight : UInt64) (terminal : BlockHash) :
    FilterKeys :=
  filterKeys (tools.sha256 (Envelope.utf8 profile ++ [0] ++ genesis.val ++ leBytes 8 shardId.toNat ++
    leBytes 8 startHeight.toNat ++ leBytes 8 endHeight.toNat ++ terminal.val)).val

/-! ## Blocks -/

structure CheckedRecord where
  height : UInt64
  blockHash : BlockHash
  filter : ValidatedFilter

def admitRange (request : RangeRequest) (chain : AcceptedChain) : Except FilterError UInt64 :=
  let profile := request.profile.quote
  if request.profile ≠ blockProfile.name then .error (.response s!"unsupported per-block filter profile {profile}")
  else match chain.heightOf request.stopBlockHash with
    | none => .error (.response "terminal block is not on the accepted chain")
    | some stopHeight =>
      if stopHeight < request.startHeight then .error (.response "terminal block is below the requested start")
      else .ok stopHeight

/-- One record of `check_batch`. -/
def checkRecord (chain : AcceptedChain) (limits : FilterLimits) (expectedHeight : UInt64) (offset : Nat)
    (record : FilterRecord) : Except FilterError CheckedRecord :=
  let height := record.height.toNat
  let expected := expectedHeight.toNat
  if record.height ≠ expectedHeight then
    .error (.response s!"record {offset} is at height {height}, expected {expected}")
  else match chain.blockHash record.height with
    | none => .error (.response s!"wallet has not accepted a block at height {height}")
    | some accepted =>
      if accepted ≠ record.blockHash then .error (.response s!"record at height {height} is on a different branch")
      else (validateFilter record.filter limits).map fun filter => ⟨record.height, record.blockHash, filter⟩

def checkBatch (chain : AcceptedChain) (limits : FilterLimits) (batch : FilterBatch) (request : RangeRequest) :
    Except FilterError (List CheckedRecord) := do
  let stopHeight ← admitRange request chain
  let wanted := min (stopHeight - request.startHeight + 1) (UInt64.ofNat maxRecordsPerBatch)
  let profile := batch.profile.quote
  let requested := request.profile.quote
  let start := batch.startHeight.toNat
  let requestedStart := request.startHeight.toNat
  let count := batch.records.length
  let expected := wanted.toNat
  if batch.genesis ≠ request.genesis then .error (.response "batch is for a different chain")
  else if batch.profile ≠ request.profile then
    .error (.response s!"batch profile {profile} is not the requested {requested}")
  else if batch.startHeight ≠ request.startHeight then
    .error (.response s!"batch starts at {start}, requested {requestedStart}")
  else if batch.stopBlockHash ≠ request.stopBlockHash then .error (.response "batch terminates at a different block")
  else if count ≠ expected then .error (.response s!"batch has {count} records, expected exactly {expected}")
  else batch.records.zipIdx.mapM fun record =>
    checkRecord chain limits (request.startHeight + UInt64.ofNat record.2) record.2 record.1

structure BlockMatch where
  height : UInt64
  blockHash : BlockHash
  scriptIndices : List Nat

/-- `SyncOutcome`. The records validated on the way, `checked`, are a trace the code does not keep. -/
structure SyncOutcome where
  checked : List CheckedRecord := []
  blocks : List BlockMatch := []
  coveredThrough : UInt64
  coveredBlockHash : BlockHash
  charges : ByteCharges := {}
  filtersChecked : Nat := 0

def matchRecord (walletScripts : List Bytes) (record : CheckedRecord) : List Nat :=
  matchKeyed tools.sip record.filter (filterKeys record.blockHash.val) walletScripts

def SyncOutcome.visit (walletScripts : List Bytes) (sync : SyncOutcome) (record : CheckedRecord) : SyncOutcome :=
  let indices := matchRecord tools walletScripts record
  { sync with
    checked := sync.checked ++ [record]
    blocks := if indices.isEmpty then sync.blocks else sync.blocks ++ [⟨record.height, record.blockHash, indices⟩]
    coveredThrough := record.height
    coveredBlockHash := record.blockHash
    filtersChecked := sync.filtersChecked + 1 }

def SyncOutcome.charge (sync : SyncOutcome) (answer : FilterBatch × ByteCharges) : SyncOutcome :=
  { sync with charges := sync.charges.add answer.2 }

/-- `sync_range`, over at most the given rounds. The transport is any function of its own state. -/
def syncRange {T : Type} (fetchRange : RangeRequest → T → Except FilterError (FilterBatch × ByteCharges) × T)
    (request : RangeRequest) (chain : AcceptedChain) (walletScripts : List Bytes) (limits : FilterLimits) (rounds : Nat)
    (transport : T) : Option (Except FilterError SyncOutcome × T) :=
  match admitRange request chain with
  | .error error => some (.error error, transport)
  | .ok stopHeight =>
    fetchLoop fetchRange (fun next => { request with startHeight := UInt64.ofNat next })
      (fun answer request => checkBatch chain limits answer.1 request)
      (fun sync answer items => items.foldl (SyncOutcome.visit tools walletScripts) (sync.charge answer))
      (stopHeight.toNat + 1) rounds request.startHeight.toNat
      { coveredThrough := UInt64.ofNat (request.startHeight.toNat - 1), coveredBlockHash := request.stopBlockHash }
      transport

/-! ## Shards -/

structure CheckedShard where
  shardId : UInt64
  startHeight : UInt64
  endHeight : UInt64
  terminalBlockHash : BlockHash
  key : FilterKeys
  filter : ValidatedFilter

namespace PublishedMap

def checkSupportedFormat (map : PublishedMap) : Except String RangeProfile :=
  let version := map.rangeEnvelopeVersion
  let profile := map.profile.quote
  if map.rangeEnvelopeVersion ≠ Envelope.rangeEnvelopeVersion then .error s!"unsupported range envelope version {version}"
  else match rangeProfile map.profile with
    | none => .error s!"unsupported shard filter profile {profile}"
    | some found => .ok found

def validateSupported (map : PublishedMap) : Except String RangeProfile := do
  map.checkShape
  map.checkSupportedFormat

end PublishedMap

/-- The accepted block at a height is the given one; `place` says how the shard lies on it. -/
def checkAccepted (chain : AcceptedChain) (shardId : Nat) (place : String) (height : UInt64) (hash : BlockHash) :
    Except FilterError Unit :=
  let at_ := height.toNat
  match chain.blockHash height with
  | none => .error (.response s!"wallet has not accepted a block at height {at_}")
  | some accepted =>
    if accepted ≠ hash then .error (.response s!"shard {shardId} {place} on a different branch") else .ok ()

/-- The `checked_sub` of `check_range_batch`: a shard from height zero on has no parent to check. -/
def checkParent (chain : AcceptedChain) (shardId : Nat) (startHeight : UInt64) (parent : BlockHash) :
    Except FilterError Unit :=
  if startHeight = 0 then .ok () else checkAccepted chain shardId "starts" (startHeight - 1) parent

/-- One record of `check_range_batch`. -/
def checkShardRecord (map : PublishedMap) (genesis : BlockHash) (profile : RangeProfile) (chain : AcceptedChain)
    (limits : FilterLimits) (expectedId : UInt64) (offset : Nat) (record : RangeFilterRecord) :
    Except FilterError CheckedShard := do
  let id := record.shardId.toNat
  let expected := expectedId.toNat
  if record.shardId ≠ expectedId then .error (.response s!"record {offset} is shard {id}, expected {expected}")
  else match map.shards[expectedId.toNat]? with
    | none => .error (.response s!"shard {expected} is not in the map")
    | some entry => do
      let parent ← fromDisplayHex tools entry.parentBlockHash
      let terminal ← fromDisplayHex tools entry.terminalBlockHash
      if record.startHeight ≠ entry.startHeight ∨ record.endHeight ≠ entry.endHeight ∨
          record.parentBlockHash ≠ parent ∨ record.terminalBlockHash ≠ terminal then
        .error (.response s!"shard {expected} does not match its published map entry")
      else if filterHashHex tools record.filter ≠ entry.filterHash then
        .error (.response s!"shard {expected} filter does not match its published digest")
      else do
        checkAccepted chain expected "terminates" record.endHeight record.terminalBlockHash
        checkParent chain expected record.startHeight record.parentBlockHash
        let filter ← validateRangeFilter record.filter limits profile
        .ok
          { shardId := record.shardId
            startHeight := record.startHeight
            endHeight := record.endHeight
            terminalBlockHash := record.terminalBlockHash
            key := shardKey tools map.profile genesis record.shardId record.startHeight record.endHeight
              record.terminalBlockHash
            filter }

def checkRangeBatch (map : PublishedMap) (chain : AcceptedChain) (limits : FilterLimits) (batch : RangeFilterBatch)
    (request : ShardRangeRequest) : Except FilterError (List CheckedShard) := do
  let profile ← map.checkSupportedFormat.mapError .response
  let name := batch.profile.quote
  let requested := request.profile.quote
  let start := batch.startShard.toNat
  let requestedStart := request.startShard.toNat
  let available := map.shards.length - request.startShard.toNat
  let wanted := min (min request.count.toNat available) maxRangeRecordsPerBatch
  let count := batch.records.length
  if map.profile ≠ request.profile then .error (.response "requested profile differs from the shard map")
  else if batch.genesis ≠ request.genesis then .error (.response "batch is for a different chain")
  else if batch.profile ≠ request.profile then
    .error (.response s!"batch profile {name} is not the requested {requested}")
  else if batch.startShard ≠ request.startShard then
    .error (.response s!"batch starts at shard {start}, requested {requestedStart}")
  else do
    let genesis ← fromDisplayHex tools map.genesisHash
    if genesis ≠ request.genesis then .error (.response "shard map is for a different chain")
    else if count ≠ wanted then .error (.response s!"batch has {count} records, expected exactly {wanted}")
    else batch.records.zipIdx.mapM fun record =>
      checkShardRecord tools map genesis profile chain limits (request.startShard + UInt64.ofNat record.2) record.2 record.1

structure ShardMatch where
  shardId : UInt64
  startHeight : UInt64
  endHeight : UInt64
  scriptIndices : List Nat

/-- `ShardSyncOutcome`. The shards validated on the way, `checked`, are a trace the code does not keep. -/
structure ShardSyncOutcome where
  checked : List CheckedShard := []
  shards : List ShardMatch := []
  coveredThroughShard : Option UInt64 := none
  coveredThroughHeight : Option UInt64 := none
  charges : ByteCharges := {}
  shardsChecked : Nat := 0

def matchShard (walletScripts : List Bytes) (shard : CheckedShard) : List Nat :=
  matchKeyed tools.sip shard.filter shard.key walletScripts

def ShardSyncOutcome.visit (walletScripts : List Bytes) (sync : ShardSyncOutcome) (shard : CheckedShard) :
    ShardSyncOutcome :=
  let indices := matchShard tools walletScripts shard
  { sync with
    checked := sync.checked ++ [shard]
    shards := if indices.isEmpty then sync.shards
      else sync.shards ++ [⟨shard.shardId, shard.startHeight, shard.endHeight, indices⟩]
    coveredThroughShard := some shard.shardId
    coveredThroughHeight := some shard.endHeight
    shardsChecked := sync.shardsChecked + 1 }

def ShardSyncOutcome.charge (sync : ShardSyncOutcome) (answer : RangeFilterBatch × ByteCharges) : ShardSyncOutcome :=
  { sync with charges := sync.charges.add answer.2 }

/-- What `sync_shards` checks before it asks for a batch. -/
def admitShards (map : PublishedMap) (startShard : UInt64) : Except FilterError BlockHash := do
  let _ ← map.validateSupported.mapError fun why => .response s!"shard map is malformed: {why}"
  let genesis ← fromDisplayHex tools map.genesisHash
  let total := map.shards.length
  let start := startShard.toNat
  if total < start then .error (.response s!"shard {start} is beyond the map's {total} shards") else .ok genesis

/-- `sync_shards`, over at most the given rounds. The transport is any function of its own state. -/
def syncShards {T : Type}
    (fetchShards : ShardRangeRequest → T → Except FilterError (RangeFilterBatch × ByteCharges) × T) (map : PublishedMap)
    (chain : AcceptedChain) (startShard : UInt64) (walletScripts : List Bytes) (limits : FilterLimits) (rounds : Nat)
    (transport : T) : Option (Except FilterError ShardSyncOutcome × T) :=
  match admitShards tools map startShard with
  | .error error => some (.error error, transport)
  | .ok genesis =>
    fetchLoop fetchShards
      (fun next =>
        { genesis
          profile := map.profile
          startShard := UInt64.ofNat next
          count := UInt64.ofNat (min (map.shards.length - next) maxRangeRecordsPerBatch) })
      (fun answer request => do
        let checked ← checkRangeBatch tools map chain limits answer.1 request
        if checked.isEmpty then .error (.response "batch returned no shards, which cannot make progress")
        else .ok checked)
      (fun sync answer items => items.foldl (ShardSyncOutcome.visit tools walletScripts) (sync.charge answer))
      map.shards.length rounds startShard.toNat {} transport

end Zakura.Client
