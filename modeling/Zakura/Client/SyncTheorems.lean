import Zakura.Client.Lemmas.EntrySearch
import Zakura.Client.Lemmas.FilterSync
import Zakura.Client.Lemmas.Progress
import Zakura.Client.Theorems
import Zakura.Transparent.Lemmas.Packing

/-! # What a wallet's sync guarantees -/

namespace Zakura.Client

open List Zakura.Transparent

/-! ## The search for a directory entry -/

/-- An entry the search returns is the only one under its tag exactly when no row number shows the tag with two
entries. -/
theorem entry_unambiguous_iff (entry : ShardMapEntry) (manifest : ShardManifest) (geometry : Geometry) (wanted : Tag)
    (replies : List (Nat × Reply)) (found : DirectoryEntry)
    (h : entryIn entry manifest geometry wanted replies = .ok (some found)) :
    (∀ row held, Sighted manifest.pageChildren.length wanted replies row held → held = found) ↔
      ∀ row held held', Sighted manifest.pageChildren.length wanted replies row held →
        Sighted manifest.pageChildren.length wanted replies row held' → held = held' := by
  obtain ⟨row, hfound, hone⟩ := entryIn_eq_some h
  constructor
  · intro hall at' held held' hheld hheld'
    rw [hall at' held hheld, hall at' held' hheld']
  · intro hsame at' held hheld
    -- The search keeps to one row number, so the condition is only needed there.
    obtain rfl := hone at' held hheld
    exact hsame at' held found hheld hfound

/-- A coinbase output of the given value, under the tag of zeros and without pages. -/
def paying (value : UInt64) : DirectoryEntry where
  script := []
  tag := .zero 14
  eventCount := 1
  inline := [.receive
    { metadata := none, height := 5, txid := .zero, transactionIndex := 0, outputIndex := 0, value, coinbase := true }]
  headChild := 0
  headRow := 0

def rowPaying (value : UInt64) : Bytes := (encodeDirectoryRow [paying value]).toOption.getD []

def mapEntry : ShardMapEntry where
  shardId := 1
  geometry := "decoupled-2k-8k"
  startHeight := 5
  endHeight := 9
  parentBlockHash := .zero 32
  terminalBlockHash := .zero 32
  filterHash := .zero 32
  directorySegments := 2
  manifestDigest := []
  sealed := true

def pageless : ShardManifest where
  shardId := 1
  startHeight := 5
  endHeight := 9
  parentBlockHash := .zero 32
  terminalBlockHash := .zero 32
  tagSaltCounter := 0
  parentManifestDigest := []
  sealed := true
  pageChildren := []

/-- A row with an entry under another tag. -/
def otherRow : Bytes :=
  (encodeDirectoryRow [{ paying 3 with tag := ⟨List.replicate 14 1, length_replicate⟩ }]).toOption.getD []

/-- The replies of two segments for the candidate rows 0 and 4. -/
def twoSegments : List (Nat × Reply) := [(0, [otherRow, rowPaying 1]), (4, [otherRow, otherRow])]

theorem rowPaying_read :
    entryIn mapEntry pageless decoupled2k8k (.zero 14) twoSegments = .ok (some (paying 1)) ∧
      entryIn mapEntry pageless decoupled2k8k (.zero 14) [(0, [rowPaying 1, rowPaying 2])] = .ok (some (paying 1)) ∧
      decodeDirectoryRow (rowPaying 2) 0 = .ok [paying 2] := by
  decide +kernel

theorem entry_unambiguous_two_segments :
    (∀ row held, Sighted 0 (.zero 14) twoSegments row held → held = paying 1) ↔
      ∀ row held held', Sighted 0 (.zero 14) twoSegments row held → Sighted 0 (.zero 14) twoSegments row held' →
        held = held' :=
  entry_unambiguous_iff mapEntry pageless decoupled2k8k (.zero 14) twoSegments (paying 1) rowPaying_read.1

theorem entry_search_ambiguous :
    entryIn mapEntry pageless decoupled2k8k (.zero 14) [(0, [rowPaying 1, rowPaying 2])] = .ok (some (paying 1)) ∧
      Sighted 0 (.zero 14) [(0, [rowPaying 1, rowPaying 2])] 0 (paying 2) ∧ paying 2 ≠ paying 1 := by
  have hrow : rowPaying 2 ∈ [rowPaying 1, rowPaying 2] := mem_cons_of_mem _ (mem_singleton_self _)
  refine ⟨rowPaying_read.2.1, ⟨_, mem_singleton_self _, rfl, _, hrow, _, rowPaying_read.2.2, ?_, rfl⟩, by decide⟩
  exact mem_singleton_self _

/-! ## Progress -/

/-- The reported heights are the greatest through which every script is covered and settled, and the gaps they rest on
are exactly the maximal uncovered intervals, computed without overflow. -/
theorem progress_exact {S : Type} [BoundStore S] (store : S) (set : SetIdentity) (anchor : Option Anchor)
    (entries : List ScriptEntry) (ranges : Bytes → List CoverageRange) (target : Nat)
    (hset : BoundStore.setIdentity store = .ok (some set)) (hanchor : WalletStore.anchor store = .ok anchor)
    (hscripts : WalletStore.scripts store = .ok entries)
    (hranges : ∀ entry ∈ entries, WalletStore.coverage store entry.script = .ok (ranges entry.script))
    (hstart : 1 ≤ set.startHeight) (htarget : set.startHeight - 1 ≤ target) :
    (∃ covered settled, coverage store (some target) = .ok (covered, settled) ∧
      IsGreatest {v | set.startHeight - 1 ≤ v ∧ v ≤ target ∧ ∀ entry ∈ entries, ∀ height,
        max entry.requiredFrom set.startHeight ≤ height → height ≤ v → height ∈ heights (ranges entry.script)} covered ∧
      IsGreatest {v | set.startHeight - 1 ≤ v ∧ v ≤ target ∧ ∀ entry ∈ entries, ∀ height,
        max entry.requiredFrom set.startHeight ≤ height → height ≤ v → height ∈ settledHeights (ranges entry.script)}
        settled) ∧
    ∀ saved start through,
      (∀ gap, gap ∈ uncovered saved start through ↔ IsGap (heights saved) start through gap) ∧
      (uncovered saved start through).Pairwise (fun a b => a.2 < b.1) ∧
      (through < 2 ^ 64 → checkedUncovered saved start through = some (uncovered saved start through)) := by
  refine ⟨?_, fun saved start through => ⟨fun gap => (gaps_uncovered saved start through).mem_iff, ?_, ?_⟩⟩
  · obtain ⟨hcovered, hsettled⟩ := isGreatest_foldl_narrow hstart (entries.map fun entry => (entry, ranges entry.script))
    obtain ⟨hmax, hcovered⟩ := isGreatest_max_floor hcovered hstart htarget
    obtain ⟨hmax', hsettled⟩ := isGreatest_max_floor hsettled hstart htarget
    have hreturns : coverage store (some target) = _ := coverage_eq_ok hset hanchor hscripts hranges
    rw [hmax, hmax'] at hreturns
    refine ⟨_, _, hreturns, ?_, ?_⟩
    · simpa only [coveredThrough, forall_mem_map, Set.mem_ofPred_eq] using hcovered
    · simpa only [coveredThrough, forall_mem_map, Set.mem_ofPred_eq] using hsettled
  · exact (gaps_uncovered saved start through).separated.imp fun h => (Nat.lt_succ_self _).trans h
  · exact checkedUncovered_eq saved start

/-- A script covered from 5 to 9 by a settled range and from 10 to 12 by a provisional one, and one that is required
from 20 on. -/
def progressing : BoundMemoryStore where
  toMemoryStore := MemoryStore.callAll {}
    [.addScripts [⟨[0x51], .derived, 0⟩, ⟨[0x52], .derived, 20⟩], .commitShard (MemoryStore.covering 1 5 9 true),
      .commitShard (MemoryStore.covering 2 10 12 false)]
  identity := some ⟨5⟩

theorem progress_exact_progressing :
    ∃ covered settled, coverage progressing (some 15) = .ok (covered, settled) ∧
      IsGreatest {v | 4 ≤ v ∧ v ≤ 15 ∧ ∀ entry ∈ progressing.scripts.vals, ∀ height, max entry.requiredFrom 5 ≤ height →
        height ≤ v → height ∈ heights (progressing.rangesOf entry.script)} covered ∧
      IsGreatest {v | 4 ≤ v ∧ v ≤ 15 ∧ ∀ entry ∈ progressing.scripts.vals, ∀ height, max entry.requiredFrom 5 ≤ height →
        height ≤ v → height ∈ settledHeights (progressing.rangesOf entry.script)} settled :=
  (progress_exact progressing ⟨5⟩ progressing.anchor progressing.scripts.vals progressing.rangesOf 15 rfl rfl rfl
    (fun _ _ => rfl) (by decide) (by decide)).1

/-! ## Refreshing the map -/

/-- A map of a sealed shard of the heights 1 to 5 and a tail from 6 on. -/
def growingMap (tailEnd : UInt64) : PublishedMap where
  genesisHash := "genesis"
  network := "main"
  profile := "zcash-transparent-range-v1"
  rangeEnvelopeVersion := 1
  startHeight := 1
  sealParams := [("narrow", ⟨10, 10, 0⟩)]
  shards := [
    { shardId := 0, geometry := "narrow", startHeight := 1, endHeight := 5, parentBlockHash := "a",
      terminalBlockHash := "b", directorySegments := 1, pageSegments := 1,
      manifestDigest := String.ofList (List.replicate 64 'a'), revision := 0, sealed := true, filterHash := "f",
      scripts := 1, pageRows := 1, txids := 1 },
    { shardId := 1, geometry := "narrow", startHeight := 6, endHeight := tailEnd, parentBlockHash := "b",
      terminalBlockHash := "c", directorySegments := 1, pageSegments := 1,
      manifestDigest := String.ofList (List.replicate 64 'b'), revision := 0, sealed := false, filterHash := "f",
      scripts := 1, pageRows := 1, txids := 1 }]
  recuts := []

theorem growingMap_accepted : (growingMap 9).checkShape = .ok () ∧ (growingMap 12).checkShape = .ok () ∧
    checkContinuation (growingMap 9) (growingMap 12) 5 = .ok () := by
  decide +kernel

/-- Whatever the transport answers, a sync that succeeds has validated every shard or block of the span once, in order,
bound to the map and to the accepted chain, and reports the nonempty scripts whose keyed value occurs in a filter. -/
theorem filter_sync_complete :
    (∀ (T : Type) (tools : FilterTools)
      (fetch : ShardRangeRequest → T → Except Filter.FilterError (Filter.RangeFilterBatch × ByteCharges) × T)
      (map : PublishedMap) (chain : AcceptedChain) (startShard : UInt64) (scripts : List Bytes)
      (limits : Filter.FilterLimits)
      (rounds : Nat) (transport last : T) (outcome : ShardSyncOutcome),
      syncShards tools fetch map chain startShard scripts limits rounds transport = some (.ok outcome, last) →
        map.checkShape = .ok () ∧ startShard.toNat + outcome.checked.length = map.shards.length ∧
        outcome.shardsChecked = outcome.checked.length ∧
        (∀ (i : Nat) (shard : CheckedShard), outcome.checked[i]? = some shard →
          shard.At tools map chain limits (startShard.toNat + i)) ∧
        ∀ id index, (∃ found ∈ outcome.shards, found.shardId = id ∧ index ∈ found.scriptIndices) ↔
          ∃ shard ∈ outcome.checked, shard.shardId = id ∧ KeyedMatch tools shard.key shard.filter scripts index) ∧
    ∀ (T : Type) (tools : FilterTools)
      (fetch : RangeRequest → T → Except Filter.FilterError (Filter.FilterBatch × ByteCharges) × T) (request : RangeRequest)
      (chain : AcceptedChain) (scripts : List Bytes) (limits : Filter.FilterLimits) (rounds : Nat) (transport last : T)
      (outcome : SyncOutcome),
      syncRange tools fetch request chain scripts limits rounds transport = some (.ok outcome, last) →
        ∃ stop, chain.heightOf request.stopBlockHash = some stop ∧ request.startHeight ≤ stop ∧
          request.startHeight.toNat + outcome.checked.length = stop.toNat + 1 ∧
          outcome.filtersChecked = outcome.checked.length ∧
          (∀ (i : Nat) (record : CheckedRecord), outcome.checked[i]? = some record →
            record.At chain limits (request.startHeight.toNat + i)) ∧
          ∀ height index, (∃ found ∈ outcome.blocks, found.height = height ∧ index ∈ found.scriptIndices) ↔
            ∃ record ∈ outcome.checked, record.height = height ∧
              KeyedMatch tools (filterKeys record.blockHash.val) record.filter scripts index := by
  refine ⟨fun T tools fetch map chain startShard scripts limits rounds transport last outcome h => ?_,
    fun T tools fetch request chain scripts limits rounds transport last outcome h => ?_⟩
  · obtain ⟨hshape, -, hreport⟩ := syncShards_ok h
    exact ⟨hshape, hreport.length, hreport.count, hreport.holds,
      fun id index => Reports.mem_found hreport (fun _ _ hat => shardOf_spec hat) (id, index)⟩
  · obtain ⟨stop, hstop, hle, hreport⟩ := syncRange_ok h
    exact ⟨stop, hstop, hle, hreport.length, hreport.count, hreport.holds,
      fun height index => Reports.mem_found hreport (fun _ _ hat => blockOf_spec hat) (height, index)⟩

def zeroTools : FilterTools where
  sha256 _ := .zero 32
  sip _ _ _ := 0
  hexDecode _ := some (.replicate 32 0)
  hexEncode _ := "f"

def zeroChain : AcceptedChain where
  blockHash _ := some (.zero 32)
  heightOf _ := some 5

/-- The answer for the two shards of `growingMap`, filters with the one value zero. -/
def filterShards : Filter.RangeFilterBatch where
  version := 1
  genesis := .zero 32
  profile := (growingMap 9).profile
  startShard := 0
  records := [⟨0, 1, 5, .zero 32, .zero 32, [1, 0, 0, 0]⟩, ⟨1, 6, 9, .zero 32, .zero 32, [1, 0, 0, 0]⟩]

def syncTwo : Option (Except Filter.FilterError ShardSyncOutcome × Unit) :=
  syncShards zeroTools (fun _ source => (.ok (filterShards, {}), source)) (growingMap 9) zeroChain 0 [[7]]
    .zcashMainnet 2 ()

theorem filter_sync_complete_shards : ∃ outcome, syncTwo = some (.ok outcome, ()) ∧ outcome.checked.length = 2 ∧
    ∃ shard ∈ outcome.checked, shard.shardId = 1 ∧ KeyedMatch zeroTools shard.key shard.filter [[7]] 0 := by
  have hrun : (syncTwo.map fun run => run.1.toOption.map fun outcome =>
      decide (∃ found ∈ outcome.shards, found.shardId = 1 ∧ 0 ∈ found.scriptIndices)) = some (some true) := by
    decide +kernel
  rw [Option.map_eq_some_iff] at hrun
  obtain ⟨⟨result, source⟩, hsync, hresult⟩ := hrun
  cases result with
  | error error => cases hresult
  | ok outcome =>
    have hfound := of_decide_eq_true (Option.some_inj.mp hresult)
    obtain ⟨-, hlength, -, -, hreport⟩ := filter_sync_complete.1 _ _ _ _ _ _ _ _ _ _ _ _ hsync
    exact ⟨outcome, hsync, (Nat.zero_add _).symm.trans hlength, (hreport 1 0).mp hfound⟩

def blockFive : RangeRequest where
  genesis := .zero 32
  profile := Filter.blockProfile.name
  startHeight := 5
  stopBlockHash := .zero 32

/-- The answer for block 5, a filter with the one value zero. -/
def filterFive : Filter.FilterBatch where
  version := 1
  genesis := .zero 32
  profile := Filter.blockProfile.name
  startHeight := 5
  stopBlockHash := .zero 32
  records := [{ height := 5, blockHash := .zero 32, filter := [1, 0, 0, 0] }]

/-- The sync of block 5 for a wallet with the empty script alone. -/
def syncFive : Option (Except Filter.FilterError SyncOutcome × Unit) :=
  syncRange zeroTools (fun _ source => (.ok (filterFive, {}), source)) blockFive zeroChain [[]] .zcashMainnet 2 ()

theorem syncFive_checked : (syncFive.map fun run => run.1.toOption.map fun outcome =>
    (outcome.blocks.length, outcome.checked.map fun record =>
      decide (Filter.hashToRange zeroTools.sip (filterKeys record.blockHash.val).k0 (filterKeys record.blockHash.val).k1
        record.filter.range [] ∈ record.filter.values))) = some (some (0, [true])) := by
  decide +kernel

/-- The empty script is not looked up, though its keyed value is in the filter. -/
theorem empty_script_unreported : ∃ outcome, syncFive = some (.ok outcome, ()) ∧ outcome.blocks = [] ∧
    ∃ record ∈ outcome.checked, Filter.hashToRange zeroTools.sip (filterKeys record.blockHash.val).k0
      (filterKeys record.blockHash.val).k1 record.filter.range [] ∈ record.filter.values := by
  have hrun := syncFive_checked
  rw [Option.map_eq_some_iff] at hrun
  obtain ⟨⟨result, source⟩, hsync, hresult⟩ := hrun
  cases result with
  | error error => cases hresult
  | ok outcome =>
    rw [Except.toOption, Option.map_some, Option.some_inj, Prod.mk.injEq, length_eq_zero_iff] at hresult
    obtain ⟨hblocks, hchecked⟩ := hresult
    obtain ⟨record, hrecord, hmem⟩ := mem_map.mp (hchecked ▸ mem_singleton.mpr rfl)
    exact ⟨outcome, hsync, hblocks, record, hrecord, of_decide_eq_true hmem⟩

/-! ## Fragments and page boundaries -/

def boundaryOf (events : List TransparentEvent) (h : events ≠ []) : PageBoundary :=
  { eventBytes := Compact.encodedLen events, lastEvent := events.getLast h }

/-- The boundary check along the fragments of a run. -/
def validatePages (previous : Option PageBoundary) (parts : List (List TransparentEvent)) :
    Except SyncError (Option PageBoundary) :=
  parts.foldlM (fun previous events => (validatePageBoundary previous events).map some) previous

theorem validatePageBoundary_some {previous events : List TransparentEvent} (hprevious : previous ≠ []) (h : events ≠ [])
    (hsorted : ∀ a ∈ previous, ∀ b ∈ events, a.sortKey ≤ b.sortKey) :
    (BoundaryAfter previous events →
        validatePageBoundary (some (boundaryOf previous hprevious)) events = .ok (boundaryOf events h)) ∧
      (¬ BoundaryAfter previous events →
        ∃ error, validatePageBoundary (some (boundaryOf previous hprevious)) events = .error error) := by
  cases events with
  | nil => exact absurd rfl h
  | cons first rest =>
    have hle := hsorted _ (getLast_mem hprevious) first mem_cons_self
    rw [BoundaryAfter, getLast?_eq_some_getLast hprevious]
    constructor
    · intro hafter
      refine if_neg ?_
      rintro (hgt | hfits)
      · exact absurd hle (not_le.mpr hgt)
      · exact absurd (hafter first rfl) (not_lt.mpr hfits)
    · intro hafter
      refine ⟨_, if_pos (.inr (not_lt.mp fun hlt => hafter ?_))⟩
      rintro event hevent
      obtain rfl := Option.some_inj.mp hevent
      exact hlt

/-- By induction on the fragments to come, the boundary being that of the one before. -/
theorem validatePages_some {previous : List TransparentEvent} {parts : List (List TransparentEvent)}
    (hprevious : previous ≠ []) (hparts : ∀ part ∈ parts, part ≠ [])
    (hsorted : (previous ++ parts.flatten).Pairwise fun a b => a.sortKey ≤ b.sortKey) :
    (∃ last, validatePages (some (boundaryOf previous hprevious)) parts = .ok last) ↔
      (previous :: parts).IsChain BoundaryAfter := by
  induction parts generalizing previous with
  | nil => exact iff_of_true ⟨_, rfl⟩ (List.IsChain.singleton _)
  | cons part parts ih =>
    obtain ⟨hpart, hparts⟩ := forall_mem_cons.mp hparts
    rw [flatten_cons] at hsorted
    obtain ⟨-, hrest, hacross⟩ := pairwise_append.mp hsorted
    obtain ⟨haccept, hreject⟩ := validatePageBoundary_some hprevious hpart fun a ha b hb =>
      hacross a ha b (mem_append_left _ hb)
    rw [isChain_cons_cons, ← ih hpart hparts hrest, validatePages, foldlM_cons]
    by_cases hafter : BoundaryAfter previous part
    · rw [haccept hafter]
      exact (and_iff_right hafter).symm
    · obtain ⟨error, herror⟩ := hreject hafter
      rw [herror]
      refine iff_of_false ?_ fun h => hafter h.1
      rintro ⟨last, hlast⟩
      cases hlast

theorem validatePages_none {parts : List (List TransparentEvent)} (hparts : ∀ part ∈ parts, part ≠ [])
    (hsorted : parts.flatten.Pairwise fun a b => a.sortKey ≤ b.sortKey) :
    (∃ last, validatePages none parts = .ok last) ↔ parts.IsChain BoundaryAfter := by
  cases parts with
  | nil => exact iff_of_true ⟨_, rfl⟩ List.IsChain.nil
  | cons part parts =>
    obtain ⟨hpart, hparts⟩ := forall_mem_cons.mp hparts
    rw [← validatePages_some hpart hparts hsorted]
    obtain ⟨first, rest, rfl⟩ := exists_cons_of_ne_nil hpart
    rfl

/-- A run's fragments concatenate to it, are nonempty and within the payload, hold at most 86 events and end where the
next event would not fit; the summary built event by event counts the events, the fragments and their bytes; and over
events in order, the boundary check accepts a split into pieces that fit exactly when it is this one. -/
theorem fragmentation_exact (events : List TransparentEvent) :
    (fragments events).flatten = events ∧
      (∀ fragment ∈ fragments events, fragment ≠ [] ∧ Compact.encodedLen fragment ≤ fragmentPayload ∧
        (∀ bytes, Compact.encode fragment = .ok bytes → bytes.length ≤ fragmentPayload) ∧ fragment.length ≤ 86) ∧
      (fragments events).IsChain BoundaryAfter ∧
      ((HistoryLayout.summarize events).events = events.length ∧
        (HistoryLayout.summarize events).fragments = (fragments events).length ∧
        (HistoryLayout.summarize events).pagedBytes = ((fragments events).map Compact.encodedLen).sum ∧
        (HistoryLayout.summarize events).tailBytes = ((fragments events).getLast?.map Compact.encodedLen).getD 0) ∧
      (events.Pairwise (fun a b => a.sortKey ≤ b.sortKey) → ∀ parts : List (List TransparentEvent),
        parts.flatten = events → (∀ part ∈ parts, part ≠ [] ∧ Compact.encodedLen part ≤ fragmentPayload) →
          ((∃ last, validatePages none parts = .ok last) ↔ parts = fragments events)) := by
  have hgreedy := fragments_greedy events
  have hsummary := HistoryLayout.summarize_fragments events
  rw [hgreedy.flatten] at hsummary
  refine ⟨hgreedy.flatten, fun fragment hfragment => ?_, hgreedy.boundary, hsummary, ?_⟩
  · obtain ⟨hne, hfits⟩ := hgreedy.fits fragment hfragment
    refine ⟨hne, hfits, fun bytes hbytes => ?_, Compact.length_le_of_fits hfits⟩
    obtain ⟨-, rfl⟩ := Compact.encode_ok.mp hbytes
    rw [Compact.length_encodingFrom]
    exact hfits
  · rintro hsorted parts rfl hparts
    rw [validatePages_none (fun part hpart => (hparts part hpart).1) hsorted]
    exact ⟨fun hchain => Greedy.eq_fragments ⟨rfl, hparts, hchain⟩, fun heq => heq ▸ hgreedy.boundary⟩

end Zakura.Client
