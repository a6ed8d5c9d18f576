import Zakura.Receiver.Record

/-! # Lookup steps

A wallet reads a receiver's history in bounded steps against one captured inventory: shards a negative filter
excluded, then consecutive pages of at most one segment. -/

namespace Zakura.Recovery

open Receiver (Hash ReceiverBytes RawRecord payloadBytes)

inductive Purpose
  | receive
  | refund
deriving DecidableEq

structure KeyId where
  purpose : Purpose
  index : Nat
deriving DecidableEq

def recoveryPageLimit : Nat := 32

/-- Account-local cancellation and same-chain correction fence. -/
structure RecoveryToken where
  generation : Nat
  historyRevision : Nat
deriving DecidableEq

/-- The locally checked end of a receiver publication. -/
structure PublicationEnd where
  height : Nat
  hash : Hash
  treeSize : Nat
deriving DecidableEq

/-- One captured inventory: its identity and the history it covers. -/
structure RecoveryPublication where
  id : Hash
  historyRevision : Nat
  startHeight : Nat
  ending : PublicationEnd
deriving DecidableEq

structure DiscoveryWork where
  key : KeyId
  receiver : ReceiverBytes
deriving DecidableEq

/-- Where a request stopped inside one captured inventory. -/
structure LookupCursor where
  inventory : Hash
  shard : Nat
  segment : Nat
  last : Option RawRecord
deriving DecidableEq

structure LookupWork where
  token : RecoveryToken
  work : DiscoveryWork
  fromHeight : Nat
  through : Nat
  birthday : Nat
  cursor : Option LookupCursor
deriving DecidableEq

/-- The sessions of the segment a step read, and the tree of its payloads. -/
structure SegmentRef where
  shard : Nat
  segment : Nat
  directory : Hash
  companion : Hash
  tree : PublicationEnd
deriving DecidableEq

structure LookupRecord where
  record : RawRecord
  payload : FixedBytes payloadBytes
deriving DecidableEq

/-- One shard a step visited, as the captured inventory lists it. -/
structure StepShard where
  index : Nat
  startHeight : Nat
  endHeight : Nat
  segments : Nat
  excluded : Bool
deriving DecidableEq

structure LookupPage where
  publication : RecoveryPublication
  inventoryShards : Nat
  shards : List StepShard
  segment : Option SegmentRef
  records : List LookupRecord
  checkedThrough : Option Nat
  next : Option LookupCursor
deriving DecidableEq

namespace LookupPage

def cursorOf (page : LookupPage) (work : LookupWork) : Option LookupCursor :=
  work.cursor.filter (·.inventory = page.publication.id)

def resumes (page : LookupPage) (work : LookupWork) (index : Nat) : Option LookupCursor :=
  (page.cursorOf work).filter (·.shard = index)

/-- The index the visited shards start at: the cursor's, or that of the shard holding the start height. -/
def first (page : LookupPage) (work : LookupWork) : Option Nat :=
  match page.cursorOf work, page.shards with
  | some c, _ => some c.shard
  | none, [] => none
  | none, start :: _ =>
    if start.endHeight < work.fromHeight ∨ (0 < start.index ∧ work.fromHeight < start.startHeight) then none
    else some start.index

/-- The visited shards continue each other from an index, all but the last covered by filter. -/
def Ordered (page : LookupPage) (first : Nat) : Prop :=
  (∀ x ∈ page.shards.zipIdx first, x.1.index = x.2 ∧ x.2 < page.inventoryShards ∧ 0 < x.1.segments ∧
    x.1.endHeight ≤ page.publication.ending.height) ∧
  (∀ s ∈ page.shards, s.startHeight ≤ s.endHeight) ∧
  page.shards.IsChain fun a b => a.endHeight + 1 = b.startHeight ∧ a.excluded = true

instance (page : LookupPage) (first : Nat) : Decidable (page.Ordered first) := by
  unfold Ordered
  infer_instance

def excludedEnd (page : LookupPage) : Option Nat := (page.shards.reverse.find? (·.excluded)).map (·.endHeight)

def continueAt (page : LookupPage) (shard segment : Nat) (last : Option RawRecord) : LookupCursor :=
  { inventory := page.publication.id, shard, segment, last }

/-- What a step that completes a shard reports. -/
def completes (page : LookupPage) (shard : StepShard) : Option Nat × Option LookupCursor :=
  (some shard.endHeight,
    if shard.index + 1 < page.inventoryShards then some (page.continueAt (shard.index + 1) 0 none) else none)

/-- The segment a step reads in its last shard, and the last record read there before it. -/
def readingAt (page : LookupPage) (work : LookupWork) (index : Nat) : Nat × Option RawRecord :=
  ((page.resumes work index).map fun c => (c.segment, c.last)).getD (0, none)

/-- What a step that finishes a segment reports. -/
def finishes (page : LookupPage) (shard : StepShard) (segment : Nat) : Option Nat × Option LookupCursor :=
  if segment + 1 < shard.segments then (page.excludedEnd, some (page.continueAt shard.index (segment + 1) none))
  else page.completes shard

/-- The coverage and the cursor that the visited shards and the records justify. -/
def expected (page : LookupPage) (work : LookupWork) (lastShard : StepShard) :
    Option (Option Nat × Option LookupCursor) :=
  if lastShard.excluded then
    if page.segment.isSome ∨ page.records ≠ [] then none else some (page.completes lastShard)
  else
    let (segment, prior) := page.readingAt work lastShard.index
    if (page.segment.all fun s => (s.shard, s.segment) ≠ (lastShard.index, segment)) ∨ lastShard.segments ≤ segment then
      none
    else match (page.records.getLast?.map (·.record)).or prior with
      | some record =>
        if record.page + 1 ≠ record.total then
          some (page.excludedEnd, some (page.continueAt lastShard.index segment (some record)))
        else some (page.finishes lastShard segment)
      | none => some (page.finishes lastShard segment)

/-- `valid_step`: whether this step is the only one the work can take from its position. -/
def validStep (page : LookupPage) (work : LookupWork) : Bool :=
  match page.shards.getLast? with
  | none =>
    decide (page.publication.ending.height < work.fromHeight) && page.segment.isNone && page.records.isEmpty &&
      page.checkedThrough.isNone && page.next.isNone
  | some lastShard =>
    match page.first work with
    | none => false
    | some first =>
      decide (page.Ordered first) &&
        !(page.shards.any fun s => s.excluded && (page.resumes work s.index).any fun c => 0 < c.segment || c.last.isSome) &&
        match page.expected work lastShard with
        | none => false
        | some expected =>
          !(expected.2.isNone && decide (lastShard.endHeight ≠ page.publication.ending.height)) &&
            decide ((page.checkedThrough, page.next) = expected)

end LookupPage

end Zakura.Recovery
