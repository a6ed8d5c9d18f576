import Zakura.Client.MemoryStore

/-! # The store in SQLite

Tables are maps from their primary keys. A call runs in one transaction, so a refused one leaves every table as it
was. Texts that hold an anchor or a pending context are read as the value they were written from. -/

namespace Zakura.Client

open Zakura.Transparent Zakura.Ledger

/-! ## Rows -/

/-- A row of `receives` or `spends`, without the columns of the key. -/
structure EventRow where
  script : Bytes
  height : Nat
  event : Bytes
  shardId : Nat
  revisionDigest : Bytes
deriving DecidableEq

structure PendingContext where
  anchor : Anchor
  dummyQueries : Option DummyQueries
deriving DecidableEq

/-- A row of `pending_work`. -/
structure PendingRow where
  shardId : Nat
  revisionDigest : Bytes
  script : Bytes
  cursor : RunCursor
  carried : Bytes
  fragments : Bytes
  targetAnchor : Option PendingContext
  attempts : Nat
deriving DecidableEq

/-- A row of `run_cache`. -/
structure RunRow where
  shardId : Nat
  events : Bytes
  older : Option (FixedBytes 32)
deriving DecidableEq

/-- The primary key of `coverage`. -/
abbrev CoverageKey := Bytes ×ₗ Nat

instance : @Std.TransOrd CoverageKey LinearOrder.toOrd := inferInstance

def CoverageRange.key (range : CoverageRange) : CoverageKey := toLex (range.script, range.startHeight)

/-- A number of 64 bits cast to a signed one. -/
def asI64 (n : Nat) : Int := if n < 2 ^ 63 then n else n - 2 ^ 64

/-! ## Reading -/

def decodeEvent (bytes : Bytes) : Except StoreError TransparentEvent :=
  if bytes.length < eventBytes ∨ maxEventBytes < bytes.length then .error (.corrupt "event record has the wrong length")
  else (TransparentEvent.fromBytes bytes).mapError fun error => .corrupt error.message

/-- The loop of `decode_events`; each round takes two bytes or more, so the length bounds the rounds. -/
def decodeEventsLoop (limit : Option Nat) : Nat → Bytes → List TransparentEvent → Except StoreError (List TransparentEvent)
  | _, [], events => .ok events
  | 0, _ :: _, events => .ok events
  | fuel + 1, remaining, events =>
    if remaining.length < 2 then .error (.corrupt "truncated event framing")
    else
      let length := leNat (remaining.take 2)
      if remaining.length < 2 + length then .error (.corrupt "truncated event")
      else do
        let event ← decodeEvent (bytesAt remaining 2 length)
        if limit.any (· < events.length + 1) then .error (.corrupt "too many events")
        else decodeEventsLoop limit fuel (remaining.drop (2 + length)) (events ++ [event])

/-- `decode_events`, without a limit for `usize::MAX`. -/
def decodeEvents (bytes : Bytes) (limit : Option Nat) : Except StoreError (List TransparentEvent) :=
  if (asciiBytes "EV3" ++ [0]).isPrefixOf bytes then decodeEventsLoop limit (bytes.drop 4).length (bytes.drop 4) []
  else .error (.corrupt "unknown event framing")

def chunksExact (width : Nat) (bytes : Bytes) : List Bytes :=
  (List.range (bytes.length / width)).map fun i => bytesAt bytes (i * width) width

/-- An event as `events` reads it. -/
def EventRow.read (row : EventRow) : Except StoreError StoredEvent := do
  let event ← decodeEvent row.event
  pure ⟨row.script, event, row.shardId, row.revisionDigest⟩

/-- An item as `pending` reads it. -/
def PendingRow.read (id : Nat) (row : PendingRow) : Except StoreError PendingPages :=
  if row.fragments.length % pageRowBytes ≠ 0 then .error (.corrupt "saved run fragment has the wrong width")
  else do
    let carried ← decodeEvents row.carried (some inlineEvents)
    pure {
      id := some id
      shardId := row.shardId
      revisionDigest := row.revisionDigest
      script := row.script
      cursor := row.cursor
      carried
      fragments := chunksExact pageRowBytes row.fragments
      attempts := row.attempts
      dummyQueries := row.targetAnchor.bind (·.dummyQueries)
      targetAnchor := row.targetAnchor.map (·.anchor) }

/-- A run as `cached_run` reads it. -/
def RunRow.read (key : RunKey) (row : RunRow) : Except StoreError CachedRun :=
  if asI64 row.shardId < 0 then .error (.corrupt "a cached run's shard id is negative")
  else do
    let events ← decodeEvents row.events none
    pure ⟨(ofLex key).1, (ofLex key).2, row.shardId, events, row.older⟩

/-! ## The tables -/

/-- `SqliteStore`, without the set identity and the caches of setups and filters. -/
structure SqliteStore where
  anchor : Option Anchor := none
  settledThrough : Option Nat := none
  coveredThrough : Option Nat := none
  scripts : OrderedMap Bytes ScriptEntry := ∅
  coverage : OrderedMap CoverageKey CoverageRange := ∅
  receives : OrderedMap Outpoint EventRow := ∅
  spends : OrderedMap SpendKey EventRow := ∅
  pendingWork : OrderedMap Nat PendingRow := ∅
  /-- The largest id `pending_work` ever had, from which AUTOINCREMENT goes on. -/
  pendingSequence : Nat := 0
  runCache : OrderedMap RunKey RunRow := ∅
  failedEntries : OrderedMap (Nat ×ₗ Bytes) Nat := ∅
  failureRevisions : OrderedMap Nat Bytes := ∅
  commits : Nat := 0
  pendingLimit : Nat := defaultPendingLimit

namespace SqliteStore

def eventRows (store : SqliteStore) : List EventRow := store.receives.vals ++ store.spends.vals

def events (store : SqliteStore) : Except StoreError (List StoredEvent) := do
  let events ← store.eventRows.mapM EventRow.read
  pure (events.insertionSort fun a b => a.event.sortKey ≤ b.event.sortKey)

def coverageOf (coverage : OrderedMap CoverageKey CoverageRange) (script : Bytes) : List CoverageRange :=
  OrderedMap.vals (coverage.filter fun key _ => (ofLex key).1 = script)

def pending (store : SqliteStore) : Except StoreError (List PendingPages) :=
  store.pendingWork.toList.mapM fun row => row.2.read row.1

/-- `cached_run_in`. -/
def cachedRun (store : SqliteStore) (key : RunKey) : Except StoreError (Option CachedRun) :=
  store.runCache[key]?.mapM (RunRow.read key)

def entryFailures (store : SqliteStore) (shardId : Nat) (revision script : Bytes) : Nat :=
  if store.failureRevisions[shardId]? ≠ some revision then 0
  else store.failedEntries[(toLex (shardId, script) : Nat ×ₗ Bytes)]?.getD 0

def addScripts (store : SqliteStore) : List ScriptEntry → SqliteStore × Nat
  | [] => (store, 0)
  | entry :: entries =>
    let (after, added) := { store with
      scripts := store.scripts.upsert entry.script entry fun known =>
        { known with requiredFrom := min known.requiredFrom entry.requiredFrom } }.addScripts entries
    (after, added + if entry.script ∈ store.scripts then 0 else 1)

/-! ## The checks of a commit -/

/-- The rows of a transaction in both event tables. -/
def rowsOf (store : SqliteStore) (txid : Txid) : List EventRow :=
  OrderedMap.vals (store.receives.filter fun key _ => key.txid = txid) ++
    OrderedMap.vals (store.spends.filter fun key _ => (ofLex key).1.txid = txid)

/-- The events whose facts have to agree: those of the commit, and the stored ones of their transactions. -/
def assertions (store : SqliteStore) (commit : ShardCommit) : Except StoreError (List TransparentEvent) := do
  let txids := ((commit.events.map fun stored => stored.event.txid).insertionSort (· ≤ ·)).dedup
  let held ← (txids.flatMap store.rowsOf).mapM fun row => decodeEvent row.event
  pure (commit.events.map (·.event) ++ held)

/-- The events of the commit and all stored ones, as the ledger replays them. -/
def history (store : SqliteStore) (commit : ShardCommit) : Except StoreError (List Entry) := do
  let held ← store.eventRows.mapM EventRow.read
  pure ((commit.events ++ held).map MemoryStore.entry)

/-- One event of a commit, with its bytes, against the row of its output. -/
def checkEvent (store : SqliteStore) (stored : StoredEvent) (encoded : Bytes) : Except StoreError Unit :=
  match stored.event with
  | .receive receive =>
    if store.receives[receive.outpoint]?.any fun row => row.script ≠ stored.script ∨ row.event ≠ encoded then
      .error (.contradiction (.conflictingReceive receive.txid.toDisplayHex receive.outputIndex))
    else .ok ()
  | .spend spend =>
    let existing := store.spends.toList.find? fun row => SpendKey.outpoint row.1 = spend.spent
    if existing.any fun row => (ofLex row.1).1 ≠ spend.input ∨ row.2.event ≠ encoded ∨ row.2.script ≠ stored.script then
      .error (.contradiction (.doubleSpend spend.spentTxid.toDisplayHex spend.spentOutputIndex))
    else .ok ()

/-- A cached run against the one held for its page shard and script. -/
def checkRun (store : SqliteStore) (run : CachedRun) : Except StoreError Unit := do
  let held ← store.cachedRun run.key
  if held.any (· ≠ run) then
    let digest := hexEncode run.childDigest.val
    .error (.corrupt s!"page shard {digest} holds two histories for one script")
  else .ok ()

def pendingAfter (store : SqliteStore) (commit : ShardCommit) : Int :=
  store.pendingWork.size + (commit.pendingUpsert.filter fun p => p.id.isNone).length - commit.pendingComplete.length

/-- Everything `commit_shard` checks; the bytes of the events it stores. -/
def checkCommit (store : SqliteStore) (commit : ShardCommit) :
    Except StoreError (List Bytes × List Bytes × List Bytes) := do
  let encoded ← commit.encodeEvents
  let assertions ← store.assertions commit
  (checkTransactionConsistency assertions).mapError fun error => .corrupt error.message
  (checkEventIdentities (commit.events.map MemoryStore.entry)).mapError .contradiction
  let history ← store.history commit
  (Ledger.new.replay history).1.mapError .contradiction
  (commit.events.zip encoded.1).forM fun event => store.checkEvent event.1 event.2
  if asI64 store.pendingLimit < store.pendingAfter commit then .error (.pendingLimit store.pendingLimit)
  else
    commit.cachedRuns.forM store.checkRun
    pure encoded

/-! ## What a commit writes -/

/-- `INSERT OR IGNORE INTO receives` or `spends`; the latter has each spent output once. -/
def insertEvent (store : SqliteStore) (stored : StoredEvent) (encoded : Bytes) : SqliteStore :=
  let row : EventRow := ⟨stored.script, stored.event.height.toNat, encoded, stored.shardId, stored.revisionDigest⟩
  match stored.event with
  | .receive receive =>
    if receive.outpoint ∈ store.receives then store
    else { store with receives := store.receives.insert receive.outpoint row }
  | .spend spend =>
    if spendKey spend ∈ store.spends ∨ store.spends.keys.any fun key => SpendKey.outpoint key = spend.spent then store
    else { store with spends := store.spends.insert (spendKey spend) row }

def insertCoverage (coverage : OrderedMap CoverageKey CoverageRange) (range : CoverageRange) :
    Except StoreError (OrderedMap CoverageKey CoverageRange) :=
  if range.key ∈ coverage then .error (.io "UNIQUE constraint failed: coverage.script, coverage.start_height")
  else .ok (coverage.insert range.key range)

/-- Whether the row that starts nearest at or below a range already covers it. -/
def held (coverage : OrderedMap CoverageKey CoverageRange) (range : CoverageRange) : Bool :=
  let holder := ((coverageOf coverage range.script).filter fun old => old.startHeight ≤ range.startHeight).getLast?
  holder.any fun old => range.endHeight ≤ old.endHeight ∧ old.bounds ≠ range.bounds

def coverRange (coverage : OrderedMap CoverageKey CoverageRange) (range : CoverageRange) :
    Except StoreError (OrderedMap CoverageKey CoverageRange) :=
  if held coverage range then .ok coverage
  else insertCoverage (coverage.filter fun key old => ¬ ((ofLex key).1 = range.script ∧ old.Inside range)) range

/-- The columns of `pending_work` that a commit writes. -/
def pendingRow (pending : PendingPages) (carried : Bytes) : PendingRow where
  shardId := pending.shardId
  revisionDigest := pending.revisionDigest
  script := pending.script
  cursor := pending.cursor
  carried
  fragments := pending.fragments.flatten
  targetAnchor := pending.targetAnchor.map fun anchor => ⟨anchor, pending.dummyQueries⟩
  attempts := pending.attempts

/-- One item written to `pending_work`: an update of the row with its id, which keeps what names the work, or a new
row. -/
def upsertPending (state : OrderedMap Nat PendingRow × Nat) (pending : PendingPages) (carried : Bytes) :
    OrderedMap Nat PendingRow × Nat :=
  let row := pendingRow pending carried
  match pending.id with
  | some id =>
    match state.1[id]? with
    | some old =>
      (state.1.insert id { row with
        shardId := old.shardId, revisionDigest := old.revisionDigest, script := old.script }, state.2)
    | none => state
  | none => (state.1.insert (state.2 + 1) row, state.2 + 1)

/-- `INSERT OR IGNORE INTO run_cache`. -/
def insertRun (runs : OrderedMap RunKey RunRow) (run : CachedRun) (encoded : Bytes) : OrderedMap RunKey RunRow :=
  if run.key ∈ runs then runs else runs.insert run.key ⟨run.shardId, encoded, run.older⟩

def updateRuns (runs : OrderedMap RunKey RunRow) (commit : ShardCommit) (encoded : List Bytes) :
    OrderedMap RunKey RunRow :=
  let runs := (commit.cachedRuns.zip encoded).foldl (fun runs run => insertRun runs run.1 run.2) runs
  if commit.finishesShard then
    commit.coveredScripts.foldl (fun runs script =>
      runs.filter fun key row => ¬ (row.shardId = commit.shardId ∧ (ofLex key).2 = script)) runs
  else runs

/-- `INSERT INTO failed_entries`, which adds to the count of an entry that has a row. -/
def countFailure (failed : OrderedMap (Nat ×ₗ Bytes) Nat) (key : Nat ×ₗ Bytes) : OrderedMap (Nat ×ₗ Bytes) Nat :=
  match failed[key]? with
  | some failures => failed.insert key (failures + 1)
  | none => failed.insert key 1

/-- The rows on failed entries. A revision is written even where it is the one held, whose counts stay. -/
def updateFailures (failed : OrderedMap (Nat ×ₗ Bytes) Nat) (revisions : OrderedMap Nat Bytes) (commit : ShardCommit) :
    OrderedMap (Nat ×ₗ Bytes) Nat × OrderedMap Nat Bytes :=
  let (failed, revisions) :=
    if commit.revisionDigest = [] then (failed, revisions)
    else
      (if revisions[commit.shardId]? = some commit.revisionDigest then failed
        else failed.filter fun key _ => (ofLex key).1 ≠ commit.shardId,
        revisions.insert commit.shardId commit.revisionDigest)
  (commit.failedEntries.foldl (fun failed script => countFailure failed (toLex (commit.shardId, script))) failed,
    revisions)

/-- Everything `commit_shard` writes. -/
def applyCommit (store : SqliteStore) (commit : ShardCommit) (encoded : List Bytes × List Bytes × List Bytes) :
    Except StoreError SqliteStore := do
  let (events, carried, runs) := encoded
  let store := (commit.events.zip events).foldl (fun store event => store.insertEvent event.1 event.2) store
  let coverage ← commit.coveredScripts.foldlM (fun coverage script => coverRange coverage (commit.range script))
    store.coverage
  let (pendingWork, pendingSequence) := (commit.pendingUpsert.zip carried).foldl (fun state item =>
    upsertPending state item.1 item.2)
    (commit.pendingComplete.foldl (fun pending id => pending.erase id) store.pendingWork, store.pendingSequence)
  let (failedEntries, failureRevisions) := updateFailures store.failedEntries store.failureRevisions commit
  pure { store with
    coverage, pendingWork, pendingSequence, failedEntries, failureRevisions
    runCache := updateRuns store.runCache commit runs
    commits := store.commits + 1 }

def commitShard (store : SqliteStore) (commit : ShardCommit) : Except StoreError SqliteStore := do
  let encoded ← store.checkCommit commit
  store.applyCommit commit encoded

/-! ## The other calls -/

def commitAnchor (store : SqliteStore) (anchor : Anchor) (settledThrough coveredThrough : Nat) : SqliteStore :=
  { store with
    anchor := some anchor
    settledThrough := some settledThrough
    coveredThrough := some coveredThrough
    commits := store.commits + 1 }

def rollbackAbove (store : SqliteStore) (accepted : Anchor) : SqliteStore :=
  let height := accepted.height
  { store with
    receives := store.receives.filter fun _ row => row.height ≤ height
    spends := store.spends.filter fun _ row => row.height ≤ height
    coverage := (store.coverage.filter fun key _ => (ofLex key).2 ≤ height).map fun _ range =>
      if height < range.endHeight then { range with endHeight := height, terminalBlockHash := accepted.hash } else range
    pendingWork := ∅
    anchor := store.anchor.map fun anchor => if height < anchor.height then accepted else anchor
    settledThrough := store.settledThrough.map fun through => if height < through then height else through
    coveredThrough := store.coveredThrough.map fun through => if height < through then height else through
    commits := store.commits + 1 }

def writeCoverage (coverage : OrderedMap CoverageKey CoverageRange) (script : Bytes) (ranges : List CoverageRange) :
    Except StoreError (OrderedMap CoverageKey CoverageRange) :=
  ranges.foldlM insertCoverage (coverage.filter fun key _ => (ofLex key).1 ≠ script)

def promoteProvisional (store : SqliteStore) (shardId : Nat) (revisionDigest : Bytes) :
    Except StoreError SqliteStore := do
  let promoted := store.coverage.map fun _ range => promoteRange shardId revisionDigest range
  let scripts := (promoted.keys.map fun key => (ofLex key).1).dedup
  let coverage ← scripts.foldlM (fun coverage script =>
    writeCoverage coverage script (mergeCoverage (coverageOf coverage script))) promoted
  pure { store with coverage }

/-- What a call returns, up to its counts and ids. -/
def result (store : SqliteStore) : MemoryStore.Call → Except StoreError SqliteStore
  | .addScripts entries => .ok (store.addScripts entries).1
  | .commitShard commit => store.commitShard commit
  | .commitAnchor anchor settledThrough coveredThrough => .ok (store.commitAnchor anchor settledThrough coveredThrough)
  | .rollbackAbove accepted => .ok (store.rollbackAbove accepted)
  | .promoteProvisional shardId revisionDigest => store.promoteProvisional shardId revisionDigest

def call (store : SqliteStore) (next : MemoryStore.Call) : SqliteStore := (store.result next).toOption.getD store

end SqliteStore

end Zakura.Client
