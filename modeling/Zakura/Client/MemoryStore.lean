import Zakura.Client.Store
import Zakura.Lib.Except
import Zakura.Lib.Sorted

/-! # The store in memory

The reference semantics every other store has to match. A commit is checked against the state as it stands before
anything is written. -/

namespace Zakura.Client

open Zakura.Transparent Zakura.Ledger

/-- The identity a spend is keyed by: the input that spends and the output it consumes. -/
abbrev SpendKey := Outpoint ×ₗ Outpoint

instance : @Std.TransOrd SpendKey LinearOrder.toOrd := inferInstance

def spendKey (event : SpendEvent) : SpendKey := toLex (event.input, event.spent)

def SpendKey.outpoint (key : SpendKey) : Outpoint := (ofLex key).2

/-- What a cached run is keyed by: the page shard's identity and the script. -/
abbrev RunKey := FixedBytes 32 ×ₗ Bytes

instance : @Std.TransOrd RunKey LinearOrder.toOrd := inferInstance

instance : @Std.TransOrd (Nat ×ₗ Bytes) LinearOrder.toOrd := inferInstance

def CachedRun.key (run : CachedRun) : RunKey := toLex (run.childDigest, run.script)

def defaultPendingLimit : Nat := 4096

/-! ## Coverage -/

namespace CoverageRange

def bounds (range : CoverageRange) : Nat ×ₗ Nat := toLex (range.startHeight, range.endHeight)

def Inside (old range : CoverageRange) : Prop :=
  range.startHeight ≤ old.startHeight ∧ old.endHeight ≤ range.endHeight

instance (old range : CoverageRange) : Decidable (old.Inside range) := inferInstanceAs (Decidable (_ ∧ _))

end CoverageRange

def holder (ranges : List CoverageRange) (range : CoverageRange) : Option CoverageRange :=
  maxByKey (·.bounds) (ranges.filter fun old => old.startHeight ≤ range.startHeight)

def held (ranges : List CoverageRange) (range : CoverageRange) : Bool :=
  (holder ranges range).any fun old => range.endHeight ≤ old.endHeight ∧ old.bounds ≠ range.bounds

/-- One script's ranges with a new one: nothing changes if it is held, otherwise it replaces those inside it. -/
def coverRange (ranges : List CoverageRange) (range : CoverageRange) : List CoverageRange :=
  if held ranges range then ranges
  else
    let kept := ranges.filter fun old => ¬ old.Inside range
    mergeCoverage (if range ∈ kept then kept else kept ++ [range])

def ShardCommit.range (commit : ShardCommit) (script : Bytes) : CoverageRange where
  script
  startHeight := commit.startHeight
  endHeight := commit.endHeight
  kind := if commit.sealed then .settled else .provisional
  shardId := commit.shardId
  revisionDigest := commit.revisionDigest
  terminalBlockHash := commit.terminalBlockHash
  sourceAnchor := commit.sourceAnchor

/-- A range after a rollback: gone if it starts above the height, and cut off there. -/
def cutRange (accepted : Anchor) (range : CoverageRange) : Option CoverageRange :=
  if accepted.height < range.startHeight then none
  else if accepted.height < range.endHeight then
    some { range with endHeight := accepted.height, terminalBlockHash := accepted.hash }
  else some range

/-- A range after its revision was sealed. -/
def promoteRange (shardId : Nat) (revisionDigest : Bytes) (range : CoverageRange) : CoverageRange :=
  if range.shardId = shardId ∧ range.revisionDigest = revisionDigest ∧ range.kind = .provisional then
    { range with kind := .settled }
  else range

/-! ## The state -/

/-- `State` and `MemoryStore`, without the set identity and the caches of setups and filters. -/
structure MemoryStore where
  anchor : Option Anchor := none
  settledThrough : Option Nat := none
  coveredThrough : Option Nat := none
  scripts : OrderedMap Bytes ScriptEntry := ∅
  coverage : OrderedMap Bytes (List CoverageRange) := ∅
  receives : OrderedMap Outpoint StoredEvent := ∅
  spends : OrderedMap SpendKey StoredEvent := ∅
  spentBy : OrderedMap Outpoint SpendKey := ∅
  pending : OrderedMap Nat PendingPages := ∅
  nextPending : Nat := 0
  runs : OrderedMap RunKey CachedRun := ∅
  failures : OrderedMap (Nat ×ₗ Bytes) Nat := ∅
  failureRevisions : OrderedMap Nat Bytes := ∅
  commits : Nat := 0
  limit : Option Nat := none

namespace MemoryStore

def withPendingLimit (limit : Nat) : MemoryStore := { limit := some limit }

def pendingLimit (store : MemoryStore) : Nat := store.limit.getD defaultPendingLimit

def stored (store : MemoryStore) : List StoredEvent := store.receives.vals ++ store.spends.vals

def events (store : MemoryStore) : List StoredEvent :=
  store.stored.insertionSort fun a b => a.event.sortKey ≤ b.event.sortKey

def entry (stored : StoredEvent) : Entry := (stored.script, stored.event)

def ledger (store : MemoryStore) : Except StoreError Ledger :=
  match Ledger.new.replay (store.events.map entry) with
  | (.ok (), ledger) => .ok ledger
  | (.error error, _) => .error (.contradiction error)

def rangesOf (store : MemoryStore) (script : Bytes) : List CoverageRange := store.coverage[script]?.getD []

def provisional (store : MemoryStore) : List CoverageRange :=
  store.coverage.vals.flatten.filter fun range => range.kind = .provisional

def entryFailures (store : MemoryStore) (shardId : Nat) (revision script : Bytes) : Nat :=
  if store.failureRevisions[shardId]? ≠ some revision then 0
  else store.failures[(toLex (shardId, script) : Nat ×ₗ Bytes)]?.getD 0

/-- One entry of `add_scripts`: what a script once required stays required. -/
def addScript (store : MemoryStore) (entry : ScriptEntry) : MemoryStore :=
  { store with
    scripts := store.scripts.upsert entry.script entry fun existing =>
      { existing with requiredFrom := min existing.requiredFrom entry.requiredFrom } }

/-- `add_scripts`: the store after it and how many scripts were new. -/
def addScripts (store : MemoryStore) : List ScriptEntry → MemoryStore × Nat
  | [] => (store, 0)
  | entry :: entries =>
    let (after, added) := (store.addScript entry).addScripts entries
    (after, added + if entry.script ∈ store.scripts then 0 else 1)

/-! ## The checks of a commit -/

/-- One event against the stored ones: `none` if it is stored already. -/
def checkEvent (store : MemoryStore) (stored : StoredEvent) : Except StoreError (Option StoredEvent) :=
  match stored.event with
  | .receive receive =>
    match store.receives[receive.outpoint]? with
    | some existing =>
      if existing.event ≠ stored.event ∨ existing.script ≠ stored.script then
        .error (.contradiction (.conflictingReceive receive.txid.toDisplayHex receive.outputIndex))
      else .ok none
    | none => .ok (some stored)
  | .spend spend =>
    let conflict : StoreError := .contradiction (.doubleSpend spend.spentTxid.toDisplayHex spend.spentOutputIndex)
    match store.spends[spendKey spend]? with
    | some existing =>
      if existing.event ≠ stored.event ∨ existing.script ≠ stored.script then .error conflict else .ok none
    | none =>
      if store.spentBy[spend.spent]?.any (· ≠ spendKey spend) then .error conflict else .ok (some stored)

/-- How many items a commit is expected to leave pending. -/
def pendingAfter (store : MemoryStore) (commit : ShardCommit) : Nat :=
  store.pending.size + (commit.pendingUpsert.filter fun p => p.id.isNone).length -
    min commit.pendingComplete.length store.pending.size

/-- A cached run against the one held for its page shard and script. -/
def checkRun (store : MemoryStore) (run : CachedRun) : Except StoreError Unit :=
  if store.runs[run.key]?.any (· ≠ run) then
    let digest := hexEncode run.childDigest.val
    .error (.corrupt s!"page shard {digest} holds two histories for one script")
  else .ok ()

/-- The offered events replayed after the stored ones. -/
def checkReplay (store : MemoryStore) (commit : ShardCommit) : Except StoreError Unit := do
  let ledger ← store.ledger
  (ledger.replay (commit.events.map entry)).1.mapError .contradiction

/-- Everything `commit_shard` checks; the events it has to store. -/
def checkCommit (store : MemoryStore) (commit : ShardCommit) : Except StoreError (List StoredEvent) := do
  let _ ← commit.encodeEvents
  (checkTransactionConsistency ((store.stored ++ commit.events).map (·.event))).mapError fun error =>
    .corrupt error.message
  (checkEventIdentities (commit.events.map entry)).mapError .contradiction
  store.checkReplay commit
  let new ← commit.events.mapM store.checkEvent
  if store.pendingLimit < store.pendingAfter commit then .error (.pendingLimit store.pendingLimit)
  else
    commit.cachedRuns.forM store.checkRun
    pure new.reduceOption

/-! ## What a commit writes -/

def addEvent (store : MemoryStore) (stored : StoredEvent) : MemoryStore :=
  match stored.event with
  | .receive receive => { store with receives := store.receives.insert receive.outpoint stored }
  | .spend spend =>
    { store with
      spentBy := store.spentBy.insert spend.spent (spendKey spend)
      spends := store.spends.insert (spendKey spend) stored }

def coverScripts (coverage : OrderedMap Bytes (List CoverageRange)) (commit : ShardCommit) :
    OrderedMap Bytes (List CoverageRange) :=
  commit.coveredScripts.foldl (fun coverage script =>
    coverage.insert script (coverRange (coverage[script]?.getD []) (commit.range script))) coverage

/-- One item written to the pending ones; an item without an id takes the next. -/
def upsertPending (state : OrderedMap Nat PendingPages × Nat) (pending : PendingPages) :
    OrderedMap Nat PendingPages × Nat :=
  match pending.id with
  | some id => (state.1.insert id pending, state.2)
  | none => (state.1.insert (state.2 + 1) { pending with id := some (state.2 + 1) }, state.2 + 1)

/-- The pending items and the last id given out after a commit. -/
def updatePending (pending : OrderedMap Nat PendingPages) (next : Nat) (commit : ShardCommit) :
    OrderedMap Nat PendingPages × Nat :=
  commit.pendingUpsert.foldl upsertPending
    (commit.pendingComplete.foldl (fun pending id => pending.erase id) pending, next)

def updateRuns (runs : OrderedMap RunKey CachedRun) (commit : ShardCommit) : OrderedMap RunKey CachedRun :=
  let runs := commit.cachedRuns.foldl (fun runs run => runs.insert run.key run) runs
  if commit.finishesShard then
    runs.filter fun key run => ¬ (run.shardId = commit.shardId ∧ (ofLex key).2 ∈ commit.coveredScripts)
  else runs

/-- The failure counts after a commit: another revision of the shard starts over. -/
def updateFailures (failures : OrderedMap (Nat ×ₗ Bytes) Nat) (revisions : OrderedMap Nat Bytes)
    (commit : ShardCommit) : OrderedMap (Nat ×ₗ Bytes) Nat × OrderedMap Nat Bytes :=
  let (failures, revisions) :=
    if commit.revisionDigest ≠ [] ∧ revisions[commit.shardId]? ≠ some commit.revisionDigest then
      (failures.filter fun key _ => (ofLex key).1 ≠ commit.shardId,
        revisions.insert commit.shardId commit.revisionDigest)
    else (failures, revisions)
  (commit.failedEntries.foldl (fun failures script =>
    failures.upsert (toLex (commit.shardId, script)) 0 (· + 1)) failures, revisions)

/-- Everything `commit_shard` writes. -/
def applyCommit (store : MemoryStore) (commit : ShardCommit) (new : List StoredEvent) : MemoryStore :=
  let store := new.foldl addEvent store
  let (pending, nextPending) := updatePending store.pending store.nextPending commit
  let (failures, failureRevisions) := updateFailures store.failures store.failureRevisions commit
  { store with
    coverage := coverScripts store.coverage commit
    pending, nextPending, failures, failureRevisions
    runs := updateRuns store.runs commit
    commits := store.commits + 1 }

def commitShard (store : MemoryStore) (commit : ShardCommit) : Except StoreError MemoryStore := do
  let new ← store.checkCommit commit
  pure (store.applyCommit commit new)

/-! ## The other calls -/

def commitAnchor (store : MemoryStore) (anchor : Anchor) (settledThrough coveredThrough : Nat) : MemoryStore :=
  { store with
    anchor := some anchor
    settledThrough := some settledThrough
    coveredThrough := some coveredThrough
    commits := store.commits + 1 }

def rollbackAbove (store : MemoryStore) (accepted : Anchor) : MemoryStore :=
  let height := accepted.height
  let removed := store.spends.toList.filter fun spend => height < spend.2.event.height.toNat
  { store with
    receives := store.receives.filter fun _ stored => stored.event.height.toNat ≤ height
    spends := store.spends.filter fun _ stored => stored.event.height.toNat ≤ height
    spentBy := removed.foldl (fun spentBy spend => spentBy.erase (SpendKey.outpoint spend.1)) store.spentBy
    coverage := store.coverage.map fun _ ranges => ranges.filterMap (cutRange accepted)
    pending := ∅
    anchor := store.anchor.map fun anchor => if height < anchor.height then accepted else anchor
    settledThrough := store.settledThrough.map (min · height)
    coveredThrough := store.coveredThrough.map (min · height)
    commits := store.commits + 1 }

def promoteProvisional (store : MemoryStore) (shardId : Nat) (revisionDigest : Bytes) : MemoryStore :=
  { store with
    coverage := store.coverage.map fun _ ranges =>
      mergeCoverage (ranges.map (promoteRange shardId revisionDigest)) }

/-! ## Runs of calls -/

/-- The calls that change what a store has recovered. -/
inductive Call where
  | addScripts (entries : List ScriptEntry)
  | commitShard (commit : ShardCommit)
  | commitAnchor (anchor : Anchor) (settledThrough coveredThrough : Nat)
  | rollbackAbove (accepted : Anchor)
  | promoteProvisional (shardId : Nat) (revisionDigest : Bytes)

/-- What a call returns, up to its counts and ids. -/
def result (store : MemoryStore) : Call → Except StoreError MemoryStore
  | .addScripts entries => .ok (store.addScripts entries).1
  | .commitShard commit => store.commitShard commit
  | .commitAnchor anchor settledThrough coveredThrough => .ok (store.commitAnchor anchor settledThrough coveredThrough)
  | .rollbackAbove accepted => .ok (store.rollbackAbove accepted)
  | .promoteProvisional shardId revisionDigest => .ok (store.promoteProvisional shardId revisionDigest)

/-- One call; one that is refused leaves the store as it was. -/
def call (store : MemoryStore) : Call → MemoryStore
  | .addScripts entries => (store.addScripts entries).1
  | .commitShard commit => (store.commitShard commit).toOption.getD store
  | .commitAnchor anchor settledThrough coveredThrough => store.commitAnchor anchor settledThrough coveredThrough
  | .rollbackAbove accepted => store.rollbackAbove accepted
  | .promoteProvisional shardId revisionDigest => store.promoteProvisional shardId revisionDigest

def callAll (store : MemoryStore) (calls : List Call) : MemoryStore := calls.foldl call store

end MemoryStore

instance : WalletStore MemoryStore where
  anchor store := .ok store.anchor
  scripts store := .ok store.scripts.vals
  coverage store script := .ok (store.rangesOf script)
  provisional store := .ok store.provisional
  events store := .ok store.events
  commitShard := MemoryStore.commitShard
  commitAnchor store anchor settledThrough coveredThrough := .ok (store.commitAnchor anchor settledThrough coveredThrough)
  rollbackAbove store accepted := .ok (store.rollbackAbove accepted)
  promoteProvisional store shardId revisionDigest := .ok (store.promoteProvisional shardId revisionDigest)
  pending store := .ok store.pending.vals
  cachedRun store childDigest script := .ok store.runs[(toLex (childDigest, script) : RunKey)]?
  pendingLimit := MemoryStore.pendingLimit
  entryFailures store shardId revision script := .ok (store.entryFailures shardId revision script)

end Zakura.Client
