import Zakura.Directory.FixedRows
import Zakura.Receiver.Table

/-! # Segment construction

Blocks are projected into a segment's directory under its tag salt, and the segment's tables are built from its
payments and the projection. -/

namespace Zakura.Receiver

open Directory (ChoiceTable FixedRows)

variable (sha256 : Bytes → FixedBytes 32)

/-! ## Projection -/

/-- A segment's directory as blocks are projected into it. The placed tags stand in insertion order; the tags
taken are those placed. -/
structure Projection where
  salt : Hash
  tags : OrderedMap ReceiverBytes Tag
  order : List Tag
  placed : FixedRows
  rows : Nat
  entries : Nat

/-- A block that fails under all of its attempts: the segment seals before it. -/
inductive SealBefore
  | sealBefore
deriving DecidableEq

/-- `tagged`: receivers and their tags, sorted by tag. -/
def tagged (salt : Hash) (receivers : List ReceiverBytes) : List (Tag × ReceiverBytes) :=
  (receivers.map fun r => (tag sha256 salt r, r)).insertionSort fun a b => toLex a ≤ toLex b

namespace Projection

def withRows (salt : Hash) (rows entries : Nat) : Projection :=
  { salt
    tags := ∅
    order := []
    placed := FixedRows.new (bucketSalts sha256 salt) rows (entries * entryBytes)
    rows
    entries }

def new (salt : Hash) : Projection := withRows sha256 salt directoryRows rowEntries

/-- `insert`: places tagged receivers after the placed ones, or changes nothing. -/
def insert (p : Projection) (tagged : List (Tag × ReceiverBytes)) : Bool × Projection :=
  match p.placed.insert sha256 (tagged.map fun t => (t.1.val, entryBytes)) with
  | (.error _, placed) => (false, { p with placed })
  | (.ok (), placed) =>
    (true,
      { p with
        placed
        order := p.order ++ tagged.map Prod.fst
        tags := tagged.foldl (fun tags t => tags.insert t.2 t.1) p.tags })

/-- The first retry whose tags are distinct and fit. -/
def retryFrom (p : Projection) (all : List ReceiverBytes) (block : Hash) : List Nat → Option (Nat × Projection)
  | [] => none
  | retry :: retries =>
    let salt := retrySalt sha256 p.salt retry block
    if (all.map (tag sha256 salt)).Nodup then
      match (withRows sha256 salt p.rows p.entries).insert sha256 (tagged sha256 salt all) with
      | (true, next) => some (retry, next)
      | (false, _) => p.retryFrom all block retries
    else p.retryFrom all block retries

def newReceivers (p : Projection) (paid : List ReceiverBytes) : List ReceiverBytes :=
  ((paid.filter (· ∉ p.tags)).dedup).insertionSort (· ≤ ·)

/-- `project`: the retry used, or nothing changes. -/
def project (p : Projection) (paid : List ReceiverBytes) (block : Hash) : Except SealBefore Nat × Projection :=
  let receivers := p.newReceivers paid
  let fresh := tagged sha256 p.salt receivers
  let distinct := fresh.IsChain (fun a b => a.1 ≠ b.1) ∧ ∀ t ∈ fresh, t.1 ∉ p.order
  let attempt := if distinct then p.insert sha256 fresh else (false, p)
  if attempt.1 then (.ok 0, attempt.2)
  else match p.retryFrom sha256 (p.tags.keys ++ receivers) block (List.range' 1 maxSaltRetries) with
    | some (retry, next) => (.ok retry, next)
    | none => (.error .sealBefore, attempt.2)

end Projection

/-! ## Tables -/

/-- One payment a segment holds, with its witness payload. -/
structure Paid where
  receiver : ReceiverBytes
  payment : Payment
  payload : FixedBytes payloadBytes
deriving DecidableEq

structure Segment where
  directory : DirectoryTable
  companion : CompanionTable

/-- `copy_from_slice` at an offset. -/
def writeAt (bytes : Bytes) (offset : Nat) (chunk : Bytes) : Bytes :=
  bytes.take offset ++ chunk ++ bytes.drop (offset + chunk.length)

def slotOffset (slot : Nat) : Nat := slotRow slot * rowBytes + slot % rowSlots * slotBytes

/-- The tables while extents are added: the next slot, each directory row's entries, and the companion. -/
structure Draft where
  slot : Nat
  directoryRows : List (List Entry)
  companion : Bytes

/-- Writes a receiver's payments into the next slots. -/
def Draft.addRecords (first count : Nat) : List Paid → Draft → Except Error Draft
  | [], draft => .ok draft
  | paid :: rest, draft => do
    let record : RawRecord :=
      { receiver := paid.receiver
        page := draft.slot - first
        total := count
        payment := paid.payment
        ordinal := draft.slot }
    let slot ← encodeSlot record paid.payload
    addRecords first count rest
      { draft with slot := draft.slot + 1, companion := writeAt draft.companion (slotOffset draft.slot) slot }

def Draft.addExtents (coverage : Coverage) (rowOf : Tag → Nat) :
    List (Tag × List Paid) → Draft → Except Error Draft
  | [], draft => .ok draft
  | (tag, paid) :: extents, draft => do
    let height := (paid.getLast?.map fun p => p.payment.height.toNat).getD 0
    if height < coverage.startHeight.toNat then .error .malformed
    else do
      let entry : Entry :=
        { tag, first := draft.slot, count := paid.length, last := height - coverage.startHeight.toNat }
      let draft := { draft with directoryRows := draft.directoryRows.modify (rowOf tag) (· ++ [entry]) }
      let draft ← Draft.addRecords draft.slot paid.length paid draft
      addExtents coverage rowOf extents draft

def byReceiver (payments : List Paid) : OrderedMap ReceiverBytes (List Paid) :=
  payments.foldl (fun m paid => m.upsert paid.receiver [] (· ++ [paid])) ∅

/-- A receiver's tag and its payments by position. Positions are distinct, so any sort gives one result. -/
def extentOf (p : Projection) (entry : ReceiverBytes × List Paid) : Except Error (Tag × List Paid) :=
  match p.tags[entry.1]? with
  | none => .error .malformed
  | some tag => .ok (tag, entry.2.insertionSort fun a b => a.payment.position.toNat ≤ b.payment.position.toNat)

/-- `placement` by tag. -/
def rowOf (p : Projection) : OrderedMap Tag Nat :=
  (p.order.zip p.placed.assignment).foldl (fun m x => m.insert x.1 x.2) ∅

/-- `build_with`: `fails` forces the seeds it names to fail. -/
def buildWith (p : Projection) (coverage : Coverage) (seedBlock : Hash) (seedAttempts rows : Nat) (tree : Tree)
    (payments : List Paid) (fails : UInt32 → Bool) : Except Error Segment := do
  validateCompanionRows rows
  let byReceiver := byReceiver payments
  if rows * rowSlots < payments.length ∨ byReceiver.vals.any (fun paid => maxReceiverPayments < paid.length) then
    .error .capacity
  else if byReceiver.size ≠ p.tags.size then .error .malformed
  else do
    let extents ← byReceiver.toList.mapM (extentOf p)
    let extents := extents.insertionSort fun a b => a.1 ≤ b.1
    let draft ← Draft.addExtents coverage (fun tag => (rowOf p)[tag]?.getD 0) extents
      { slot := 0, directoryRows := List.replicate directoryRows [], companion := List.replicate (rows * rowBytes) 0 }
    let encoded ← draft.directoryRows.mapM encodeRow
    let data := encoded.flatten
    let bits := Directory.choiceBits sha256 (bucketSalts sha256 p.salt) (p.order.map Subtype.val) p.placed.assignment
      directoryRows
    let seeds := (candidateSeeds sha256 p.salt seedBlock seedAttempts).filter fun seed => !fails seed
    let table ← (ChoiceTable.build sha256 choiceDomain p.salt.val seeds bits).mapError fun _ => Error.choice
    let choice := table.encode
    let keys := extents.length
    let directory : DirectoryManifest :=
      { schema
        coverage
        salt := p.salt
        entries := keys
        payments := draft.slot
        choice := { digest := sha256 choice, bytes := choice.length, keys }
        dataSha256 := sha256 data }
    let revision ← directory.revision sha256
    let companion : CompanionManifest :=
      { schema
        coverage
        directory := revision
        rows
        queryRows := queryRows draft.slot
        payments := draft.slot
        tree
        dataSha256 := sha256 draft.companion }
    let segment : Segment := ⟨⟨directory, data, choice⟩, ⟨companion, draft.companion⟩⟩
    let entries ← segment.directory.validate sha256
    segment.companion.validate sha256 segment.directory.manifest entries
    .ok segment

def build (p : Projection) (coverage : Coverage) (seedBlock : Hash) (seedAttempts rows : Nat) (tree : Tree)
    (payments : List Paid) : Except Error Segment :=
  buildWith sha256 p coverage seedBlock seedAttempts rows tree payments fun _ => false

end Zakura.Receiver
