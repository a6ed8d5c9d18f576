import Zakura.Client.Store

/-! # What a walk checks

Where a pointer may lead, which fragment a reply holds, and what a run must satisfy against the cursor that
led to it, its page shard and the history after it. -/

namespace Zakura.Client

open Zakura.Transparent

inductive IncompleteReason where
  | queryBudget
  | byteBudget
  | pendingLimit
  | overloaded (shardId : Nat)
  | chainUnknown (height : Nat)
  | discoveryUnbounded
  | contentFailed
  | publicationBehind (height : Nat)
  | unresolvedSpends
deriving DecidableEq

inductive ClientError where
  | session (why : String)
  | response (why : String)
  | transport (why : String)
  | pir (why : String)
  | stale
  | overloaded
  | budgetStop (reason : IncompleteReason)
  | setupMismatch
deriving DecidableEq

inductive SyncError where
  | client (error : ClientError)
  | filter (why : String)
  | record (error : RecordError)
  | transport (why : String)
  | store (error : StoreError)
  | anchorRegressed (stored offered : Nat)
  | invalid (why : String)
  /-- A row of a private reply failed on content: it fails its directory entry, not the sync. -/
  | content (why : String)
  | unknownGeometry (name : String)
  | unknownProfile (name : String)
  | staleRevision (shardId : Nat)
  | manifestMismatch (shardId : Nat) (field : String)
  | mapDiverged (why : String)
  | sealedRewrite (startHeight : Nat) (revisionDigest : Bytes)
deriving DecidableEq

/-- A shard of the map, as far as reading it goes. -/
structure ShardMapEntry where
  shardId : Nat
  geometry : String
  startHeight : Nat
  endHeight : Nat
  parentBlockHash : BlockHash
  terminalBlockHash : BlockHash
  filterHash : FixedBytes 32
  directorySegments : Nat
  manifestDigest : Bytes
  sealed : Bool
deriving DecidableEq

/-- One page row a walk asks for, over its page shard's logical row space. -/
structure RowRequest where
  child : Nat
  row : Nat
deriving DecidableEq

/-- One private reply: the row from every table segment. -/
abbrev Reply := List Bytes

def pageChild (manifest : ShardManifest) (shardId : Nat) (child : UInt8) : Except SyncError PageChild :=
  match manifest.child child.toNat with
  | some page => .ok page
  | none => .error (.content s!"shard {shardId} names page shard {child}, which it does not declare")

/-- `locate`: the request for a row, if a query of that table can select it. -/
def locate (manifest : ShardManifest) (geometry : Geometry) (shardId : Nat) (child : UInt8) (row : Nat) :
    Except SyncError RowRequest := do
  let page ← pageChild manifest shardId child
  if page.pageSegments.isEmpty then
    .error (.content s!"shard {shardId} points into page shard {child}, which holds no rows")
  else
    let space := geometry.pageRows * page.pageSegments.length
    let within := (splitRow row geometry.pageRows).2
    if space ≤ row ∨ page.queryRows ≤ within then
      .error (.content s!"shard {shardId} page {row} is outside page shard {child}'s table")
    else pure { child := child.toNat, row }

/-- `check_head`: the older runs a run reports and the page shard it links to. -/
def checkHead (head : PageEntry) (cursor : RunCursor) : Except SyncError Unit := do
  let child := cursor.child
  let older := head.link.olderRuns
  match cursor.olderRuns with
  | some expected =>
    if older ≠ expected then
      .error (.content
        s!"a run in page shard {child} reports {older} older runs where its chain promised {expected}")
    else if cursor.child < older then
      .error (.content s!"a run in page shard {child} reports {older} older runs")
    else .ok ()
  | none =>
    if cursor.child < older then .error (.content s!"a run in page shard {child} reports {older} older runs")
    else .ok ()
  match head.link.previous with
  | some (previous, _) =>
    if cursor.child ≤ previous then
      .error (.content s!"a run in page shard {child} links to page shard {previous}, which is not earlier")
    else .ok ()
  | none => .ok ()

def increases (events : List TransparentEvent) : Bool :=
  (events.zip events.tail).all fun pair => decide (pair.1.sortKey < pair.2.sortKey)

/-- `check_run`: a run against the two events after it and its page shard. Each event was pushed out when the
event two places after it arrived, into the page shard that was open then. -/
def checkRun (child : PageChild) (run carried : List TransparentEvent) : Except SyncError Unit :=
  let index := child.index
  if run.isEmpty ∨ carried.length ≠ inlineEvents then
    .error (.content s!"a run in page shard {index} cannot be checked")
  else
    let following := run ++ carried
    if increases following = false then
      .error (.content s!"a run in page shard {index} is not older than the history after it")
    else
      let pushers := (following.drop inlineEvents).map fun event => event.height.toNat
      match pushers.find? fun height => decide (height < child.startHeight ∨ child.endHeight < height) with
      | some height => .error (.content
          s!"an event in page shard {index} was pushed out at height {height}, when that page shard was not open")
      | none => .ok ()

/-- `validate_page_boundary`: the next fragment starts only where the one before it was full. -/
def validatePageBoundary (previous : Option PageBoundary) (events : List TransparentEvent) :
    Except SyncError PageBoundary :=
  match events with
  | [] => .error (.content "empty fragment")
  | first :: rest =>
    let boundary : PageBoundary :=
      { eventBytes := Compact.encodedLen events, lastEvent := (first :: rest).getLast (List.cons_ne_nil _ _) }
    match previous with
    | none => .ok boundary
    | some previous =>
      if previous.lastEvent.sortKey > first.sortKey ∨
          previous.eventBytes + Compact.eventLen first (some previous.lastEvent) ≤ fragmentPayload then
        .error (.content "noncanonical fragment boundary")
      else .ok boundary

/-- What a walk checks against, for one shard revision. -/
structure Walker where
  entry : ShardMapEntry
  manifest : ShardManifest
  geometry : Geometry
  identities : List (FixedBytes 32)
  salts : List (FixedBytes 32)
  targetAnchor : Anchor

namespace Walker

def child (walker : Walker) (child : UInt8) : Except SyncError PageChild :=
  pageChild walker.manifest walker.entry.shardId child

def locate (walker : Walker) (child : UInt8) (row : Nat) : Except SyncError RowRequest :=
  Client.locate walker.manifest walker.geometry walker.entry.shardId child row

/-- The link of a run's first fragment: what its chain promised, and a run to link to that can be read. -/
def checkLink (walker : Walker) (head : PageEntry) (cursor : RunCursor) : Except SyncError Unit := do
  checkHead head cursor
  match head.link.previous with
  | some (child, row) => (walker.locate child row.toNat).map fun _ => ()
  | none => .ok ()

def lastRow (head : PageEntry) (cursor : RunCursor) : Nat :=
  cursor.row.toNat + max head.fragmentCount.toNat 1 - 1

/-- The candidates of one row in `fragment`. -/
def scanEntries (walker : Walker) (child : UInt8) (wanted : Tag) (ordinal : UInt32) (count : Option UInt32) :
    List PageEntry → Option PageEntry → Except SyncError (Option PageEntry)
  | [], found => .ok found
  | candidate :: entries, found =>
    let shardId := walker.entry.shardId
    if candidate.tag ≠ wanted ∨ candidate.ordinal ≠ ordinal then
      walker.scanEntries child wanted ordinal count entries found
    else if count.any (· ≠ candidate.fragmentCount) then
      .error (.content
        s!"shard {shardId} page shard {child}: fragment {ordinal} disagrees with its run's fragment count")
    else if found.isSome then
      .error (.content s!"shard {shardId} page shard {child} holds fragment {ordinal} twice")
    else walker.scanEntries child wanted ordinal count entries (some candidate)

/-- The loop of `fragment` over every segment's row. -/
def scanRows (walker : Walker) (child : UInt8) (wanted : Tag) (ordinal : UInt32) (count : Option UInt32) :
    Reply → Option PageEntry → Except SyncError (Option PageEntry)
  | [], found => .ok found
  | raw :: rows, found => do
    let shardId := walker.entry.shardId
    let decoded ← (decodePageRow raw).mapError fun error =>
      let why := error.message
      .content s!"shard {shardId} page shard {child}: {why}"
    let found ← walker.scanEntries child wanted ordinal count decoded found
    walker.scanRows child wanted ordinal count rows found

def salt (walker : Walker) (child : UInt8) : FixedBytes 32 :=
  (walker.salts[child.toNat]?).getD ⟨List.replicate 32 0, by simp⟩

/-- `fragment`: the one fragment of a script's run with this ordinal among every segment's row. -/
def fragment (walker : Walker) (sha256 : Bytes → FixedBytes 32) (script : Bytes) (child : UInt8)
    (answers : Reply) (ordinal : UInt32) (count : Option UInt32) : Except SyncError PageEntry := do
  let wanted := scriptTag sha256 (walker.salt child) script
  let found ← walker.scanRows child wanted ordinal count answers none
  match found with
  | some fragment => pure fragment
  | none =>
    let shardId := walker.entry.shardId
    .error (.content (s!"shard {shardId} page shard {child}: the row a link located does not hold " ++
      s!"fragment {ordinal} of the run"))

end Walker

end Zakura.Client
