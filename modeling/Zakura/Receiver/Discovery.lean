import Zakura.Receiver.Lookup
import Zakura.Recovery.Step

/-! # Bounded network steps

One step of a request against a captured inventory. A sealed shard whose filter excludes the receiver is covered
without a query; any other required shard is read in every segment. -/

namespace Zakura.Receiver

open Recovery (LookupCursor LookupPage LookupRecord LookupWork RecoveryPublication StepShard recoveryPageLimit)

/-- Why a network step failed, `session::Error`. -/
inductive DirectoryError
  | directory (error : Error)
  | unsupported
  | malformed
  | revision
deriving DecidableEq

/-- A directory format a newer client supports is one outcome, however it was met. -/
def DirectoryError.ofError : Error → DirectoryError
  | .unsupported => .unsupported
  | e => .directory e

def filterStepLimit : Nat := 256

/-- A segment as an inventory lists it: its tables and its two session ids. -/
structure Publication where
  tables : Segment
  directoryId : Hash
  companionId : Hash

/-- One shard of an inventory: contiguous coverage, its segments, and whether it names a filter. -/
structure Shard where
  startHeight : Nat
  endHeight : Nat
  segments : List Publication
  filter : Bool

/-- A captured inventory: the head's fields, and its shards in chain order. -/
structure Inventory where
  inventory : Hash
  historyRevision : Nat
  startHeight : Nat
  endHeight : Nat
  endHash : Hash
  endPosition : Nat
  shards : List Shard

/-- `publication`: the wallet's view of a captured inventory. -/
def Inventory.publication (inventory : Inventory) : RecoveryPublication where
  id := inventory.inventory
  historyRevision := inventory.historyRevision
  startHeight := inventory.startHeight
  ending := ⟨inventory.endHeight, inventory.endHash, inventory.endPosition⟩

/-- An inventory's client. `screen` answers whether a shard's filter may hold a receiver, if the shard has a usable
filter. -/
structure Client where
  inventory : Inventory
  usesFilters : Bool
  screen : Nat → ReceiverBytes → Option Bool

def checkedStep (page : LookupPage) (work : LookupWork) : Except DirectoryError LookupPage :=
  if page.validStep work then .ok page else .error .malformed

variable (sha256 : Bytes → FixedBytes 32)

/-- A record continues the one read before it, if any. -/
def checkPrevious (previous : Option RawRecord) (record : RawRecord) : Except DirectoryError Unit :=
  match previous with
  | some previous => (checkNext previous record).mapError .ofError
  | none => .ok ()

/-- Reads pages of an entry in order, after a previous record. -/
def readPages (segment : Segment) (entry : Entry) (receiver : ReceiverBytes) :
    List Nat → Option RawRecord → List LookupRecord → Except DirectoryError (Option RawRecord × List LookupRecord)
  | [], previous, records => .ok (previous, records)
  | p :: pages, previous, records => do
    let (record, payload) ← (readSlot sha256 segment entry (entry.first + p)).mapError .ofError
    if record.receiver ≠ receiver then .error .malformed
    else do
      checkPrevious previous record
      readPages segment entry receiver pages (some record) (records ++ [⟨record, payload⟩])

/-- The entry a step reads pages of. One that resumes must hold the pages left; otherwise a hit below the floor is a
miss. -/
def usableEntry (shard : Shard) (floor : Nat) (last : Option RawRecord) (entry : Option Entry) :
    Except DirectoryError (Option Entry) :=
  match last with
  | some prior =>
    match entry.filter fun e => e.count = prior.total ∧ prior.page + 1 < prior.total with
    | some e => .ok (some e)
    | none => .error .malformed
  | none => .ok (entry.filter fun e => floor ≤ shard.startHeight + e.last)

/-- What every shard of one step shares: the request, the most records to read, and where the request stopped. -/
structure StepContext where
  client : Client
  work : LookupWork
  limit : Nat
  segment : Nat
  last : Option RawRecord

namespace StepContext

def receiver (ctx : StepContext) : ReceiverBytes := ctx.work.work.receiver

def floor (ctx : StepContext) : Nat := max ctx.work.fromHeight ctx.work.birthday

def cursor (ctx : StepContext) (shard segment : Nat) (last : Option RawRecord) : Option LookupCursor :=
  ctx.client.inventory.shards[shard]?.map fun _ => ⟨ctx.client.inventory.inventory, shard, segment, last⟩

/-- The shard's filter excludes the receiver, from the shard's start. -/
def excludes (ctx : StepContext) (shard : Nat) (descriptor : Shard) : Prop :=
  ctx.segment = 0 ∧ ctx.last = none ∧ ctx.client.usesFilters = true ∧ descriptor.filter = true ∧
    ctx.client.screen shard ctx.receiver = some false

instance (ctx : StepContext) (shard : Nat) (descriptor : Shard) : Decidable (ctx.excludes shard descriptor) := by
  unfold excludes
  infer_instance

def visited (shard : Nat) (descriptor : Shard) (excluded : Bool) : StepShard :=
  ⟨shard, descriptor.startHeight, descriptor.endHeight, descriptor.segments.length, excluded⟩

/-- Reads an entry's next records, at most as many as the step may. -/
def readRecords (ctx : StepContext) (read : Publication) (entry : Option Entry) :
    Except DirectoryError (Option RawRecord × List LookupRecord) :=
  match entry with
  | none => .ok (ctx.last, [])
  | some e =>
    let start := (ctx.last.map (·.page + 1)).getD 0
    readPages sha256 read.tables e ctx.receiver (List.range' start (min (start + ctx.limit) e.count - start)) ctx.last []

/-- The page of a step that read a segment, up to the record `previous`. -/
def segmentPage (ctx : StepContext) (shard : Nat) (descriptor : Shard) (read : Publication) (page : LookupPage)
    (entry : Option Entry) (previous : Option RawRecord) (records : List LookupRecord) : LookupPage :=
  let tree := read.tables.companion.manifest.tree
  let page :=
    { page with
      shards := page.shards ++ [visited shard descriptor false]
      segment := some ⟨shard, ctx.segment, read.directoryId, read.companionId,
        tree.height.toNat, tree.hash, tree.size.toNat⟩
      records := page.records ++ records }
  let finished := entry.all fun e => previous.any fun r => r.page + 1 = e.count
  if !finished then { page with next := ctx.cursor shard ctx.segment previous }
  else if ctx.segment + 1 < descriptor.segments.length then { page with next := ctx.cursor shard (ctx.segment + 1) none }
  else { page with checkedThrough := some descriptor.endHeight, next := ctx.cursor (shard + 1) 0 none }

def readSegment (ctx : StepContext) (shard : Nat) (descriptor : Shard) (read : Publication) (page : LookupPage) :
    Except DirectoryError LookupPage := do
  let entry ← (readEntry sha256 read.tables ctx.receiver).mapError .ofError
  let entry ← usableEntry descriptor ctx.floor ctx.last entry
  let (previous, records) ← ctx.readRecords sha256 read entry
  checkedStep (ctx.segmentPage shard descriptor read page entry previous records) ctx.work

/-- The loop over the shards from a step's first. -/
def visitShards (ctx : StepContext) : List Shard → Nat → Nat → LookupPage → Except DirectoryError LookupPage
  | [], _, _, page => checkedStep page ctx.work
  | descriptor :: shards, shard, filtered, page =>
    if ctx.excludes shard descriptor then
      let page :=
        { page with
          shards := page.shards ++ [visited shard descriptor true]
          checkedThrough := some descriptor.endHeight }
      if filtered + 1 = filterStepLimit then checkedStep { page with next := ctx.cursor (shard + 1) 0 none } ctx.work
      else ctx.visitShards shards (shard + 1) (filtered + 1) page
    else match descriptor.segments[ctx.segment]? with
      | none => .error .malformed
      | some read => ctx.readSegment sha256 shard descriptor read page

end StepContext

/-- `partition_point`: the shards before the first that reaches a height. -/
def firstRequired (shards : List Shard) (height : Nat) : Nat := (shards.takeWhile (·.endHeight < height)).length

/-- Where a step starts: at its cursor, or at the first required shard if the cursor is of another inventory. -/
def startOf (inventory : Inventory) (work : LookupWork) : Nat × Nat × Option RawRecord :=
  match work.cursor.filter (·.inventory = inventory.inventory) with
  | some c => (c.shard, c.segment, c.last)
  | none => (firstRequired inventory.shards work.fromHeight, 0, none)

/-- `lookup_with`, at a pace of at most `records` records. `isReceiver` is `Receiver::from_bytes`. -/
def lookupWith (isReceiver : ReceiverBytes → Bool) (client : Client) (work : LookupWork) (records : Nat) :
    Except DirectoryError LookupPage :=
  let inventory := client.inventory
  if inventory.historyRevision ≠ work.token.historyRevision ∨ inventory.endHeight < work.through then .error .revision
  else if !isReceiver work.work.receiver then .error (.directory .malformed)
  else
    let (shard, segment, last) := startOf inventory work
    let ctx : StepContext := { client, work, limit := min records recoveryPageLimit, segment, last }
    let page : LookupPage :=
      { publication := inventory.publication
        inventoryShards := inventory.shards.length
        shards := []
        segment := none
        records := []
        checkedThrough := none
        next := none }
    ctx.visitShards sha256 (inventory.shards.drop shard) shard 0 page

end Zakura.Receiver
