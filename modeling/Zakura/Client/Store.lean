import Zakura.Ledger.Basic
import Zakura.Transparent.Manifest

/-! # The wallet's store

What a wallet keeps between syncs: the events and coverage it has, the page work it still owes and the runs
it has cached. Everything one shard yields changes the store in one commit. -/

namespace Zakura.Client

open Zakura.Transparent Zakura.Ledger

/-- The block a wallet has accepted as the end of its coverage. -/
structure Anchor where
  height : Nat
  hash : BlockHash
deriving DecidableEq

inductive ScriptOrigin where
  | derived
  | imported
deriving DecidableEq

/-- A script the wallet is responsible for, and the first height it needs covered. -/
structure ScriptEntry where
  script : Bytes
  origin : ScriptOrigin
  requiredFrom : Nat
deriving DecidableEq

inductive CoverageKind where
  | settled
  | provisional
deriving DecidableEq

/-- One script's coverage over one shard's range. -/
structure CoverageRange where
  script : Bytes
  startHeight : Nat
  endHeight : Nat
  kind : CoverageKind
  shardId : Nat
  revisionDigest : Bytes
  terminalBlockHash : BlockHash
  sourceAnchor : Option Anchor
deriving DecidableEq

structure StoredEvent where
  script : Bytes
  event : TransparentEvent
  shardId : Nat
  revisionDigest : Bytes
deriving DecidableEq

/-- The end of the last fragment read, against which the next one's start is checked. -/
structure PageBoundary where
  eventBytes : Nat
  lastEvent : TransparentEvent
deriving DecidableEq

/-- The run a walk reads next: its page shard, its zero-based first row and the older runs it must report,
which the directory entry does not say of the newest run. -/
structure RunCursor where
  child : UInt8
  row : UInt32
  olderRuns : Option UInt8
deriving DecidableEq

/-- Page queries still owed after an entry's content failed. -/
structure DummyQueries where
  child : UInt8
  remaining : Nat
deriving DecidableEq

/-- The rest of one script's chain of runs in one shard revision. -/
structure PendingPages where
  id : Option Nat
  shardId : Nat
  revisionDigest : Bytes
  script : Bytes
  cursor : RunCursor
  /-- The two oldest events read so far. -/
  carried : List TransparentEvent
  /-- The checked fragments of the run at the cursor, each as a page row of its own. -/
  fragments : List Bytes
  attempts : Nat
  dummyQueries : Option DummyQueries
  targetAnchor : Option Anchor
deriving DecidableEq

/-- A script's run in a sealed page shard, under that page shard's chained identity. -/
structure CachedRun where
  childDigest : FixedBytes 32
  script : Bytes
  shardId : Nat
  events : List TransparentEvent
  /-- The identity of the page shard that holds the run before it. -/
  older : Option (FixedBytes 32)
deriving DecidableEq

/-- What one shard's retrieval commits, all at once. -/
structure ShardCommit where
  sourceAnchor : Option Anchor
  shardId : Nat
  revisionDigest : Bytes
  sealed : Bool
  startHeight : Nat
  endHeight : Nat
  terminalBlockHash : BlockHash
  events : List StoredEvent := []
  coveredScripts : List Bytes := []
  pendingUpsert : List PendingPages := []
  pendingComplete : List Nat := []
  cachedRuns : List CachedRun := []
  failedEntries : List Bytes := []
deriving DecidableEq

inductive StoreError where
  | io (why : String)
  | corrupt (why : String)
  | contradiction (error : LedgerError)
  | setMismatch (stored offered : Bytes)
  | anchorRegressed (stored offered : Nat)
  | pendingLimit (limit : Nat)
deriving DecidableEq

def encodeEvent (event : TransparentEvent) : Except StoreError Bytes :=
  event.toBytes.mapError fun error => .corrupt error.message

/-- `encode_events`: a version tag, and each event after its length. -/
def encodeEvents (events : List TransparentEvent) : Except StoreError Bytes := do
  let raws ← events.mapM encodeEvent
  pure (asciiBytes "EV3" ++ [0] ++ raws.flatMap fun raw => leBytes 2 raw.length ++ raw)

namespace ShardCommit

/-- Whether a pending item's cover obligation is one a store may keep. -/
def coverValid (pending : PendingPages) : Bool :=
  match pending.dummyQueries with
  | none => true
  | some cover => cover.remaining ≠ 0 && pending.targetAnchor.isSome

/-- One pending item of `encode_events`. -/
def encodePending (pending : PendingPages) : Except StoreError Bytes :=
  if coverValid pending then encodeEvents pending.carried
  else .error (.corrupt "invalid pending cover obligation")

/-- `encode_events`: every staged event, checked before the store changes. -/
def encodeEvents (commit : ShardCommit) : Except StoreError (List Bytes × List Bytes × List Bytes) := do
  let events ← commit.events.mapM fun stored => encodeEvent stored.event
  let pending ← commit.pendingUpsert.mapM encodePending
  let runs ← commit.cachedRuns.mapM fun run => Client.encodeEvents run.events
  pure (events, pending, runs)

def finishesShard (commit : ShardCommit) : Bool :=
  commit.sealed && commit.sourceAnchor.all fun source => source.height == commit.endHeight

end ShardCommit

/-! ## Coverage -/

/-- `merge_coverage`: sorted by range, neighbouring repeats dropped. -/
def mergeCoverage (ranges : List CoverageRange) : List CoverageRange :=
  (ranges.insertionSort fun a b => toLex (a.startHeight, a.endHeight) ≤ toLex (b.startHeight, b.endHeight)).destutter
    (· ≠ ·)

/-- The loop of `uncovered` from the next height not yet covered, over ranges sorted by start. -/
def uncoveredFrom (through : Nat) : List CoverageRange → Nat → List (Nat × Nat)
  | [], next => [(next, through)]
  | range :: ranges, next =>
    if range.endHeight < next ∨ range.endHeight < range.startHeight then uncoveredFrom through ranges next
    else if through < range.startHeight then [(next, through)]
    else
      let gap := if next < range.startHeight then [(next, range.startHeight - 1)] else []
      if through ≤ range.endHeight then gap
      else gap ++ uncoveredFrom through ranges (max next (range.endHeight + 1))

/-- `uncovered`: the gaps the ranges leave in `[start, through]`. -/
def uncovered (ranges : List CoverageRange) (start through : Nat) : List (Nat × Nat) :=
  if through < start then []
  else uncoveredFrom through (ranges.insertionSort fun a b => a.startHeight ≤ b.startHeight) start

/-! ## The interface -/

/-- `WalletStore`, as far as syncing uses it. A method that changes the store returns the changed one. -/
class WalletStore (S : Type) where
  anchor : S → Except StoreError (Option Anchor)
  scripts : S → Except StoreError (List ScriptEntry)
  coverage : S → Bytes → Except StoreError (List CoverageRange)
  provisional : S → Except StoreError (List CoverageRange)
  events : S → Except StoreError (List StoredEvent)
  commitShard : S → ShardCommit → Except StoreError S
  commitAnchor : S → Anchor → Nat → Nat → Except StoreError S
  rollbackAbove : S → Anchor → Except StoreError S
  promoteProvisional : S → Nat → Bytes → Except StoreError S
  pending : S → Except StoreError (List PendingPages)
  cachedRun : S → FixedBytes 32 → Bytes → Except StoreError (Option CachedRun)
  pendingLimit : S → Nat
  entryFailures : S → Nat → Bytes → Bytes → Except StoreError Nat

end Zakura.Client
