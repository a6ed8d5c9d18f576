import Zakura.Client.FilterSync
import Zakura.Client.Lemmas.Refresh
import Zakura.Filter.Lemmas.Matching

/-! # What a filter sync has checked -/

namespace Zakura.Client

open Zakura.Filter Zakura.Except

variable {tools : FilterTools} {chain : AcceptedChain} {limits : FilterLimits} {scripts : List Bytes}

/-- The indices of the wallet's nonempty scripts whose keyed value occurs in a filter. -/
def KeyedMatch (tools : FilterTools) (keys : FilterKeys) (filter : ValidatedFilter) (scripts : List Bytes) (index : Nat) :
    Prop :=
  ∃ script, scripts[index]? = some script ∧ script ≠ [] ∧
    hashToRange tools.sip keys.k0 keys.k1 filter.range script ∈ filter.values

theorem mapM_zipIdx_ok {α β ε : Type} {f : α × Nat → Except ε β} {xs : List α} {ys : List β}
    (h : xs.zipIdx.mapM f = .ok ys) :
    ys.length = xs.length ∧ ∀ i y, ys[i]? = some y → ∃ x, xs[i]? = some x ∧ f (x, i) = .ok y := by
  have hrel := mapM_eq_ok.mp h
  refine ⟨by rw [← hrel.length_eq, List.length_zipIdx], fun i y hy => ?_⟩
  rcases forall₂_getElem? hrel i with ⟨-, hnone⟩ | ⟨x, found, hx, hfound, hok⟩
  · rw [hy] at hnone
    cases hnone
  · cases hy.symm.trans hfound
    rw [List.getElem?_zipIdx, Nat.zero_add, Option.map_eq_some_iff] at hx
    obtain ⟨x', hx', rfl⟩ := hx
    exact ⟨x', hx', hok⟩

/-! ## Blocks -/

/-- A record that is the accepted block at a height, with a filter that validates. -/
structure CheckedRecord.At (chain : AcceptedChain) (limits : FilterLimits) (height : Nat)
    (record : CheckedRecord) : Prop where
  height : record.height.toNat = height
  accepted : chain.blockHash record.height = some record.blockHash
  filter : validateFilter record.filter.bytes limits = .ok record.filter

variable {expected : UInt64} {offset : Nat}

theorem checkRecord_ok {record : FilterRecord} {checked : CheckedRecord}
    (h : checkRecord chain limits expected offset record = .ok checked) : checked.At chain limits expected.toNat := by
  rw [checkRecord] at h
  obtain ⟨hheight, h⟩ := ite_error_eq_ok.mp h
  rw [not_not] at hheight
  cases haccepted : chain.blockHash record.height with
  | none =>
    rw [haccepted] at h
    cases h
  | some accepted =>
    rw [haccepted] at h
    obtain ⟨hsame, h⟩ := ite_error_eq_ok.mp h
    rw [not_not] at hsame
    obtain ⟨filter, hfilter, rfl⟩ := map_eq_ok.mp h
    have hbytes : filter.bytes = record.filter := (validateRangeFilter_values hfilter).1
    refine ⟨by rw [← hheight], by rw [← hsame]; exact haccepted, ?_⟩
    rw [hbytes]
    exact hfilter

variable {request : RangeRequest} {stop : UInt64}

theorem admitRange_ok (h : admitRange request chain = .ok stop) :
    chain.heightOf request.stopBlockHash = some stop ∧ request.startHeight ≤ stop := by
  rw [admitRange] at h
  obtain ⟨-, h⟩ := ite_error_eq_ok.mp h
  cases hstop : chain.heightOf request.stopBlockHash with
  | none =>
    rw [hstop] at h
    cases h
  | some found =>
    rw [hstop] at h
    obtain ⟨hle, h⟩ := ite_error_eq_ok.mp h
    cases h
    exact ⟨rfl, UInt64.not_lt.mp hle⟩

/-- A batch has no more records than blocks are left, each at its place. -/
theorem checkBatch_ok {batch : FilterBatch} {items : List CheckedRecord}
    (hstop : chain.heightOf request.stopBlockHash = some stop) (h : checkBatch chain limits batch request = .ok items) :
    request.startHeight.toNat + items.length ≤ stop.toNat + 1 ∧
      ∀ i (record : CheckedRecord), items[i]? = some record → record.At chain limits (request.startHeight.toNat + i) := by
  rw [checkBatch] at h
  obtain ⟨found, hadmitted, h⟩ := bind_eq_ok.mp h
  obtain ⟨hfound, hle⟩ := admitRange_ok hadmitted
  cases hstop.symm.trans hfound
  simp only [ite_error_eq_ok] at h
  obtain ⟨-, -, -, -, hcount, h⟩ := h
  rw [not_not] at hcount
  obtain ⟨hlength, hitems⟩ := mapM_zipIdx_ok h
  have hwanted : items.length ≤ stop.toNat - request.startHeight.toNat + 1 := by
    rw [hlength, hcount]
    refine Nat.le_trans (UInt64.le_iff_toNat_le.mp (Std.min_le_left ..)) ?_
    rw [UInt64.toNat_add, UInt64.toNat_sub_of_le _ _ hle]
    exact Nat.mod_le _ _
  have hlow := UInt64.le_iff_toNat_le.mp hle
  refine ⟨by omega, fun i record hrecord => ?_⟩
  obtain ⟨raw, -, hraw⟩ := hitems i record hrecord
  have hi := (List.getElem?_eq_some_iff.mp hrecord).1
  have hat := checkRecord_ok hraw
  have hstopWord := stop.toNat_lt
  rwa [UInt64.toNat_add, UInt64.toNat_ofNat_of_lt' (show i < 2 ^ 64 by omega), Nat.mod_eq_of_lt (by omega)] at hat

def blockOf (tools : FilterTools) (scripts : List Bytes) (record : CheckedRecord) : Option BlockMatch :=
  if (matchRecord tools scripts record).isEmpty then none
  else some ⟨record.height, record.blockHash, matchRecord tools scripts record⟩

theorem visits_range (tools : FilterTools) (scripts : List Bytes) :
    Visits (SyncOutcome.visit tools scripts) SyncOutcome.checked SyncOutcome.blocks SyncOutcome.filtersChecked
      (blockOf tools scripts) where
  trace _ _ := rfl
  found s a := by
    rw [SyncOutcome.visit, blockOf]
    split_ifs <;> simp
  count _ _ := rfl

def RangeReport (tools : FilterTools) (chain : AcceptedChain) (limits : FilterLimits) (scripts : List Bytes) :
    Nat → Nat → SyncOutcome → Prop :=
  Reports SyncOutcome.checked SyncOutcome.blocks SyncOutcome.filtersChecked (blockOf tools scripts)
    fun height record => record.At chain limits height

variable {T : Type} {rounds : Nat} {transport last : T} {outcome : SyncOutcome}

theorem syncRange_ok {fetch : RangeRequest → T → Except FilterError (FilterBatch × ByteCharges) × T}
    (h : syncRange tools fetch request chain scripts limits rounds transport = some (.ok outcome, last)) :
    ∃ stop, chain.heightOf request.stopBlockHash = some stop ∧ request.startHeight ≤ stop ∧
      RangeReport tools chain limits scripts request.startHeight.toNat (stop.toNat + 1) outcome := by
  rw [syncRange] at h
  cases hadmitted : admitRange request chain with
  | error error =>
    rw [hadmitted] at h
    cases h
  | ok stop =>
    rw [hadmitted] at h
    obtain ⟨hstop, hle⟩ := admitRange_ok hadmitted
    have hlow := UInt64.le_iff_toNat_le.mp hle
    have hword := stop.toNat_lt
    have hcharge : ∀ (s : SyncOutcome) answer, (s.charge answer).checked = s.checked ∧
        (s.charge answer).blocks = s.blocks ∧ (s.charge answer).filtersChecked = s.filtersChecked :=
      fun _ _ => ⟨rfl, rfl, rfl⟩
    refine ⟨stop, hstop, hle, ?_⟩
    dsimp only at h
    refine fetchLoop_reports (visits_range tools scripts) hcharge hword (fun next answer items hnext hcheck => ?_)
      (by omega) (by omega) ⟨rfl, fun _ _ hnone => absurd hnone (by simp), rfl, rfl⟩ h
    let asked : RangeRequest := { request with startHeight := UInt64.ofNat next }
    have hbatch : asked.startHeight.toNat + items.length ≤ stop.toNat + 1 ∧ _ := checkBatch_ok hstop hcheck
    rwa [show (UInt64.ofNat next).toNat = next from UInt64.toNat_ofNat_of_lt' (show next < 2 ^ 64 by omega)] at hbatch

theorem blockOf_spec {height : Nat} {record : CheckedRecord} (h : record.At chain limits height) (pair : UInt64 × Nat) :
    (∃ found, blockOf tools scripts record = some found ∧ found.height = pair.1 ∧ pair.2 ∈ found.scriptIndices) ↔
      record.height = pair.1 ∧ KeyedMatch tools (filterKeys record.blockHash.val) record.filter scripts pair.2 := by
  have hmem : pair.2 ∈ matchRecord tools scripts record ↔ _ := mem_matchKeyed (validateRangeFilter_values h.filter).2
  rw [KeyedMatch, ← hmem, blockOf]
  cases hindices : matchRecord tools scripts record <;> simp

/-! ## Shards -/

/-- A shard that is the map's entry of a number on the accepted chain, with the published filter. -/
structure CheckedShard.At (tools : FilterTools) (map : PublishedMap) (chain : AcceptedChain) (limits : FilterLimits)
    (number : Nat) (shard : CheckedShard) : Prop where
  id : shard.shardId.toNat = number
  bound : ∃ (entry : PublishedEntry) (parent genesis : BlockHash) (profile : RangeProfile),
    map.shards[number]? = some entry ∧
    (shard.startHeight = entry.startHeight ∧ shard.endHeight = entry.endHeight) ∧
    fromDisplayHex tools entry.terminalBlockHash = .ok shard.terminalBlockHash ∧
    chain.blockHash shard.endHeight = some shard.terminalBlockHash ∧
    fromDisplayHex tools entry.parentBlockHash = .ok parent ∧
    (shard.startHeight ≠ 0 → chain.blockHash (shard.startHeight - 1) = some parent) ∧
    filterHashHex tools shard.filter.bytes = entry.filterHash ∧
    map.checkSupportedFormat = .ok profile ∧ validateRangeFilter shard.filter.bytes limits profile = .ok shard.filter ∧
    fromDisplayHex tools map.genesisHash = .ok genesis ∧
    shard.key = shardKey tools map.profile genesis shard.shardId shard.startHeight shard.endHeight shard.terminalBlockHash

theorem checkAccepted_ok {id : Nat} {place : String} {height : UInt64} {hash : BlockHash}
    (h : checkAccepted chain id place height hash = .ok ()) : chain.blockHash height = some hash := by
  rw [checkAccepted] at h
  cases haccepted : chain.blockHash height with
  | none =>
    rw [haccepted] at h
    cases h
  | some accepted =>
    rw [haccepted] at h
    obtain ⟨hsame, -⟩ := ite_error_eq_ok.mp h
    rw [not_not.mp hsame]

variable {map : PublishedMap}

variable {genesis : BlockHash} {shard : CheckedShard}

theorem checkShardRecord_ok {profile : RangeProfile} {record : RangeFilterRecord}
    (hprofile : map.checkSupportedFormat = .ok profile) (hgenesis : fromDisplayHex tools map.genesisHash = .ok genesis)
    (h : checkShardRecord tools map genesis profile chain limits expected offset record = .ok shard) :
    shard.At tools map chain limits expected.toNat := by
  rw [checkShardRecord] at h
  obtain ⟨hid, h⟩ := ite_error_eq_ok.mp h
  rw [not_not] at hid
  cases hentry : map.shards[expected.toNat]? with
  | none =>
    rw [hentry] at h
    cases h
  | some entry =>
    rw [hentry] at h
    obtain ⟨parent, hparent, h⟩ := bind_eq_ok.mp h
    obtain ⟨terminal, hterminal, h⟩ := bind_eq_ok.mp h
    obtain ⟨hsame, h⟩ := ite_error_eq_ok.mp h
    simp only [not_or, ne_eq, not_not] at hsame
    obtain ⟨hstart, hend, hparentHash, hterminalHash⟩ := hsame
    obtain ⟨hdigest, h⟩ := ite_error_eq_ok.mp h
    rw [not_not] at hdigest
    obtain ⟨hends, h⟩ := check_bind_eq_ok.mp h
    obtain ⟨hstarts, h⟩ := check_bind_eq_ok.mp h
    obtain ⟨filter, hfilter, h⟩ := bind_eq_ok.mp h
    cases h
    have hbytes := (validateRangeFilter_values hfilter).1
    refine ⟨by rw [← hid], entry, record.parentBlockHash, genesis, profile, hentry, ⟨hstart, hend⟩,
      by rw [hterminal, hterminalHash], checkAccepted_ok hends, by rw [hparent, hparentHash],
      fun hne => ?_, by rw [hbytes, hdigest], hprofile, by rw [hbytes]; exact hfilter, hgenesis, rfl⟩
    rw [checkParent, if_neg hne] at hstarts
    exact checkAccepted_ok hstarts

/-- A batch has no more records than shards are left, each of its number. -/
theorem checkRangeBatch_ok {batch : RangeFilterBatch} {request : ShardRangeRequest} {items : List CheckedShard}
    (hlength : map.shards.length ≤ 2 ^ 64) (hstart : request.startShard.toNat ≤ map.shards.length)
    (h : checkRangeBatch tools map chain limits batch request = .ok items) :
    request.startShard.toNat + items.length ≤ map.shards.length ∧
      ∀ i (shard : CheckedShard), items[i]? = some shard →
        shard.At tools map chain limits (request.startShard.toNat + i) := by
  rw [checkRangeBatch] at h
  obtain ⟨profile, hprofile, h⟩ := bind_eq_ok.mp h
  rw [mapError_eq_ok] at hprofile
  simp only [ite_error_eq_ok, bind_eq_ok] at h
  obtain ⟨-, -, -, -, genesis, hgenesis, -, hcount, h⟩ := h
  rw [not_not] at hcount
  obtain ⟨hitemsLength, hitems⟩ := mapM_zipIdx_ok h
  have hle : request.startShard.toNat + items.length ≤ map.shards.length := by
    rw [hitemsLength, hcount]
    omega
  refine ⟨hle, fun i shard hshard => ?_⟩
  obtain ⟨raw, -, hraw⟩ := hitems i shard hshard
  have hi := (List.getElem?_eq_some_iff.mp hshard).1
  have hat := checkShardRecord_ok hprofile hgenesis hraw
  rwa [UInt64.toNat_add, UInt64.toNat_ofNat_of_lt' (show i < 2 ^ 64 by omega), Nat.mod_eq_of_lt (by omega)] at hat

def shardOf (tools : FilterTools) (scripts : List Bytes) (shard : CheckedShard) : Option ShardMatch :=
  if (matchShard tools scripts shard).isEmpty then none
  else some ⟨shard.shardId, shard.startHeight, shard.endHeight, matchShard tools scripts shard⟩

theorem visits_shards (tools : FilterTools) (scripts : List Bytes) :
    Visits (ShardSyncOutcome.visit tools scripts) ShardSyncOutcome.checked ShardSyncOutcome.shards
      ShardSyncOutcome.shardsChecked (shardOf tools scripts) where
  trace _ _ := rfl
  found s a := by
    rw [ShardSyncOutcome.visit, shardOf]
    split_ifs <;> simp
  count _ _ := rfl

def ShardReport (tools : FilterTools) (map : PublishedMap) (chain : AcceptedChain) (limits : FilterLimits)
    (scripts : List Bytes) : Nat → Nat → ShardSyncOutcome → Prop :=
  Reports ShardSyncOutcome.checked ShardSyncOutcome.shards ShardSyncOutcome.shardsChecked (shardOf tools scripts)
    fun id shard => shard.At tools map chain limits id

theorem shardOf_spec {number : Nat} (h : shard.At tools map chain limits number) (pair : UInt64 × Nat) :
    (∃ found, shardOf tools scripts shard = some found ∧ found.shardId = pair.1 ∧ pair.2 ∈ found.scriptIndices) ↔
      shard.shardId = pair.1 ∧ KeyedMatch tools shard.key shard.filter scripts pair.2 := by
  obtain ⟨entry, parent, genesis, profile, -, -, -, -, -, -, -, -, hfilter, -, -⟩ := h.bound
  have hmem : pair.2 ∈ matchShard tools scripts shard ↔ _ := mem_matchKeyed (validateRangeFilter_values hfilter).2
  rw [KeyedMatch, ← hmem, shardOf]
  cases hindices : matchShard tools scripts shard <;> simp

variable {startShard : UInt64}

theorem admitShards_ok (h : admitShards tools map startShard = .ok genesis) :
    map.checkShape = .ok () ∧ startShard.toNat ≤ map.shards.length := by
  rw [admitShards] at h
  obtain ⟨profile, hvalid, h⟩ := bind_eq_ok.mp h
  rw [mapError_eq_ok, PublishedMap.validateSupported] at hvalid
  obtain ⟨hshape, -⟩ := check_bind_eq_ok.mp hvalid
  obtain ⟨found, -, h⟩ := bind_eq_ok.mp h
  obtain ⟨hle, -⟩ := ite_error_eq_ok.mp h
  exact ⟨hshape, Nat.not_lt.mp hle⟩

/-- The ids of a map's shards are words and count them. -/
theorem length_shards_le (h : map.checkShape = .ok ()) : map.shards.length ≤ 2 ^ 64 := by
  by_contra hlong
  have hlt : 2 ^ 64 < map.shards.length := Nat.not_le.mp hlong
  have hid := PublishedMap.checkShape_id h (List.getElem?_eq_getElem hlt)
  have hword := (map.shards[2 ^ 64]).shardId.toNat_lt
  omega

theorem syncShards_ok {fetch : ShardRangeRequest → T → Except FilterError (RangeFilterBatch × ByteCharges) × T}
    {outcome : ShardSyncOutcome}
    (h : syncShards tools fetch map chain startShard scripts limits rounds transport = some (.ok outcome, last)) :
    map.checkShape = .ok () ∧ startShard.toNat ≤ map.shards.length ∧
      ShardReport tools map chain limits scripts startShard.toNat map.shards.length outcome := by
  rw [syncShards] at h
  cases hadmitted : admitShards tools map startShard with
  | error error =>
    rw [hadmitted] at h
    cases h
  | ok genesis =>
    rw [hadmitted] at h
    obtain ⟨hshape, hle⟩ := admitShards_ok hadmitted
    have hlength := length_shards_le hshape
    have hcharge : ∀ (s : ShardSyncOutcome) answer, (s.charge answer).checked = s.checked ∧
        (s.charge answer).shards = s.shards ∧ (s.charge answer).shardsChecked = s.shardsChecked :=
      fun _ _ => ⟨rfl, rfl, rfl⟩
    refine ⟨hshape, hle, ?_⟩
    dsimp only at h
    refine fetchLoop_reports (visits_shards tools scripts) hcharge hlength (fun next answer items hnext hcheck => ?_)
      hle startShard.toNat_lt ⟨rfl, fun _ _ hnone => absurd hnone (by simp), rfl, rfl⟩ h
    obtain ⟨checked, hbatch, hcheck⟩ := bind_eq_ok.mp hcheck
    obtain ⟨-, hcheck⟩ := ite_error_eq_ok.mp hcheck
    cases hcheck
    have hstart : (UInt64.ofNat next).toNat = next := UInt64.toNat_ofNat_of_lt' (show next < 2 ^ 64 by omega)
    have hrange := checkRangeBatch_ok hlength (show (UInt64.ofNat next).toNat ≤ _ by omega) hbatch
    dsimp only at hrange
    rwa [hstart] at hrange

end Zakura.Client
