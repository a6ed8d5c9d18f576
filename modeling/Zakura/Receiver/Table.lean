import Mathlib.Data.Prod.Lex
import Zakura.Receiver.Segment

/-! # Segment manifests and the checks on them

The checks a publisher, a server's preparation and a wallet apply to a segment's directory and companion. -/

namespace Zakura.Receiver

open Directory (ChoiceTable SeedPolicy)

instance : @Std.TransOrd Tag LinearOrder.toOrd := inferInstance

instance : @Std.TransOrd ReceiverBytes LinearOrder.toOrd := inferInstance

structure Coverage where
  genesis : Hash
  historyRevision : UInt64
  startHeight : UInt32
  startParent : Hash
  startPosition : UInt64
  endHeight : UInt32
  endHash : Hash
  endPosition : UInt64
deriving DecidableEq

namespace Coverage

def validate (c : Coverage) : Except Error Unit :=
  if c.endHeight.toNat < c.startHeight.toNat ∨ maxHeightOffset < c.endHeight.toNat - c.startHeight.toNat ∨
      c.endPosition.toNat < c.startPosition.toNat ∨ treeSize < c.endPosition.toNat then .error .malformed
  else .ok ()

/-- `Coverage::hash`: every field at fixed width. -/
def bytes (c : Coverage) : Bytes :=
  c.genesis.val ++ leBytes 8 c.historyRevision.toNat ++ leBytes 4 c.startHeight.toNat ++ c.startParent.val ++
    leBytes 8 c.startPosition.toNat ++ leBytes 4 c.endHeight.toNat ++ c.endHash.val ++ leBytes 8 c.endPosition.toNat

/-- `Coverage::contains`: in these blocks and positions, outside coinbase. -/
def Contains (c : Coverage) (p : Payment) : Prop :=
  p.txIndex ≠ 0 ∧ (c.startHeight.toNat ≤ p.height.toNat ∧ p.height.toNat ≤ c.endHeight.toNat) ∧
    (c.startPosition.toNat ≤ p.position.toNat ∧ p.position.toNat < c.endPosition.toNat) ∧
    (p.height = c.endHeight → p.blockHash = c.endHash)

instance (c : Coverage) (p : Payment) : Decidable (c.Contains p) := by
  unfold Contains
  infer_instance

end Coverage

/-- The commitment tree a companion's payloads were built at. -/
structure Tree where
  height : UInt32
  hash : Hash
  size : UInt64
deriving DecidableEq

structure ChoiceRef where
  digest : Hash
  bytes : Nat
  keys : Nat
deriving DecidableEq

/-- A segment's directory manifest, `Directory`. -/
structure DirectoryManifest where
  schema : String
  coverage : Coverage
  salt : Hash
  entries : Nat
  payments : Nat
  choice : ChoiceRef
  dataSha256 : Hash
deriving DecidableEq

/-- A segment's companion manifest, `Companion`. -/
structure CompanionManifest where
  schema : String
  coverage : Coverage
  directory : Hash
  rows : Nat
  queryRows : Nat
  payments : Nat
  tree : Tree
  dataSha256 : Hash
deriving DecidableEq

def checkSchema (name : String) : Except Error Unit := if name ≠ schema then .error .unsupported else .ok ()

/-- `hasher`: the domain and the length-prefixed schema. -/
def hasher (domain : Bytes) (name : String) : Bytes :=
  domain ++ leBytes 8 (asciiBytes name).length ++ asciiBytes name

variable (sha256 : Bytes → FixedBytes 32)

namespace DirectoryManifest

def validate (m : DirectoryManifest) : Except Error Unit := do
  checkSchema m.schema
  m.coverage.validate
  if capacity < m.payments ∨ m.payments < m.entries ∨ m.entries * maxReceiverPayments < m.payments ∨
      m.coverage.endPosition.toNat - m.coverage.startPosition.toNat < m.payments ∨ m.choice.keys ≠ m.entries ∨
      m.choice.bytes ≠ choiceBytes m.entries then .error .malformed
  else .ok ()

def revision (m : DirectoryManifest) : Except Error Hash := do
  m.validate
  .ok (sha256 (hasher (asciiBytes "ironwood-receiver/v1/directory" ++ [0]) m.schema ++ m.coverage.bytes ++ m.salt.val ++
    leBytes 4 m.entries ++ leBytes 4 m.payments ++ m.choice.digest.val ++ leBytes 4 m.choice.bytes ++
    leBytes 4 m.choice.keys ++ m.dataSha256.val))

end DirectoryManifest

namespace CompanionManifest

def validate (m : CompanionManifest) : Except Error Unit := do
  checkSchema m.schema
  m.coverage.validate
  validateCompanionRows m.rows
  if m.rows * rowSlots < m.payments ∨ m.queryRows ≠ Receiver.queryRows m.payments ∨ m.rows < m.queryRows ∨
      treeSize < m.tree.size.toNat then .error .malformed
  else .ok ()

/-- `check_directory`: the companion serves the directory, at a tree at or after the coverage end. -/
def checkDirectory (m : CompanionManifest) (directory : DirectoryManifest) : Except Error Unit := do
  m.validate
  let c := directory.coverage
  let t := m.tree
  if m.coverage ≠ c then .error .coverage
  else do
    let revision ← directory.revision sha256
    if m.directory ≠ revision ∨ m.payments ≠ directory.payments ∨
        t.height.toNat < c.endHeight.toNat ∨ t.size.toNat < c.endPosition.toNat ∨
        (t.height = c.endHeight ∧ (t.hash ≠ c.endHash ∨ t.size ≠ c.endPosition)) then .error .coverage
    else .ok ()

end CompanionManifest

/-- `decode_choice`: refuses a digest, length or key count other than the manifest's. -/
def decodeChoice (m : DirectoryManifest) (bytes : Bytes) : Except Error ChoiceTable :=
  if bytes.length ≠ m.choice.bytes ∨ sha256 bytes ≠ m.choice.digest then .error .malformed
  else do
    let table ← (ChoiceTable.decode bytes .any).mapError fun _ => .malformed
    if table.keys ≠ m.choice.keys then .error .malformed else .ok table

/-- `lookup_entry`: the entry for a tag in a retrieved directory row. -/
def lookupEntry (m : DirectoryManifest) (row : Bytes) (tag : Tag) : Except Error (Option Entry) := do
  let entries ← decodeRow row
  let found := entries.find? (·.tag = tag)
  if found.any fun e => m.payments < e.first + e.count ∨
      m.coverage.endHeight.toNat - m.coverage.startHeight.toNat < e.last then .error .malformed
  else .ok found

/-- What `check_record` requires of a record read from a slot of an entry. -/
def RecordFits (m : DirectoryManifest) (entry : Entry) (slot : Nat) (record : RawRecord) : Prop :=
  (entry.first ≤ slot ∧ slot - entry.first < entry.count ∧ record.page = slot - entry.first) ∧
    tag sha256 m.salt record.receiver = entry.tag ∧ record.total = entry.count ∧ record.ordinal = slot ∧
    m.coverage.Contains record.payment ∧ m.coverage.startHeight.toNat + entry.last < 2 ^ 32 ∧
    record.payment.height.toNat ≤ m.coverage.startHeight.toNat + entry.last ∧
    (record.page + 1 = record.total → record.payment.height.toNat = m.coverage.startHeight.toNat + entry.last)

instance (m : DirectoryManifest) (entry : Entry) (slot : Nat) (record : RawRecord) :
    Decidable (RecordFits sha256 m entry slot record) := by
  unfold RecordFits
  infer_instance

def checkRecord (m : DirectoryManifest) (entry : Entry) (slot : Nat) (record : RawRecord) : Except Error Unit :=
  if RecordFits sha256 m entry slot record then .ok () else .error .malformed

/-- `lookup_slot`: the record and payload in a slot of a retrieved companion row. -/
def lookupSlot (directory : DirectoryManifest) (companion : CompanionManifest) (entry : Entry) (slot : Nat)
    (row : Bytes) : Except Error (RawRecord × FixedBytes payloadBytes) :=
  if row.length ≠ rowBytes ∨ companion.payments ≤ slot then .error .malformed
  else do
    match ← decodeSlot (bytesAt row (slot % rowSlots * slotBytes) slotBytes) with
    | none => .error .malformed
    | some (record, payload) =>
      checkRecord sha256 directory entry slot record
      match decodePayload payload.val record.payment.position.toNat companion.tree.size.toNat with
      | none => .error .malformed
      | some _ => .ok (record, payload)

/-! ## Whole tables -/

structure DirectoryTable where
  manifest : DirectoryManifest
  data : Bytes
  choice : Bytes

def rowAt (data : Bytes) (row : Nat) : Bytes := bytesAt data (row * rowBytes) rowBytes

/-- Adds a row's entries, each routed there by the choice. -/
def addRouted (m : DirectoryManifest) (choice : ChoiceTable) (row : Nat) :
    List Entry → List Entry → Except Error (List Entry)
  | [], entries => .ok entries
  | entry :: rest, entries =>
    if chooseRow sha256 m.salt choice entry.tag ≠ row ∨ entries.length = m.entries then .error .malformed
    else addRouted m choice row rest (entries ++ [entry])

def readRows (m : DirectoryManifest) (choice : ChoiceTable) (data : Bytes) :
    List Nat → List Entry → Except Error (List Entry)
  | [], entries => .ok entries
  | row :: rows, entries => do
    let read ← decodeRow (rowAt data row)
    let entries ← addRouted sha256 m choice row read entries
    readRows m choice data rows entries

/-- The extents tile the slots in tag order. Returns the slot after the last. -/
def checkExtents (span : Nat) : List Entry → Nat → Except Error Nat
  | [], next => .ok next
  | e :: entries, next =>
    if e.first ≠ next ∨ span < e.last then .error .malformed else checkExtents span entries (next + e.count)

/-- `DirectoryTable::validate`: the entries in tag order. -/
def DirectoryTable.validate (table : DirectoryTable) : Except Error (List Entry) := do
  let m := table.manifest
  m.validate
  if table.data.length ≠ directoryRows * rowBytes ∨ sha256 table.data ≠ m.dataSha256 then .error .malformed
  else do
    let choice ← decodeChoice sha256 m table.choice
    let entries ← readRows sha256 m choice table.data (List.range directoryRows) []
    let entries := entries.insertionSort fun a b => a.tag ≤ b.tag
    let next ← checkExtents (m.coverage.endHeight.toNat - m.coverage.startHeight.toNat) entries 0
    if entries.length ≠ m.entries ∨ next ≠ m.payments then .error .malformed else .ok entries

/-! ## Records across a segment -/

/-- The block and transaction identities named so far. -/
structure Identities where
  blocks : OrderedMap Nat Hash := ∅
  transactions : OrderedMap (Nat ×ₗ Nat) Hash := ∅
  locations : OrderedMap Hash (Nat ×ₗ Nat) := ∅

def Payment.location (p : Payment) : Nat ×ₗ Nat := toLex (p.height.toNat, p.txIndex.toNat)

def Identities.add (ids : Identities) (p : Payment) : Except Error Identities :=
  if ids.blocks.disagrees p.height.toNat p.blockHash ∨ ids.transactions.disagrees p.location p.txid ∨
      ids.locations.disagrees p.txid p.location then .error .malformed
  else .ok
    { blocks := ids.blocks.insert p.height.toNat p.blockHash
      transactions := ids.transactions.insert p.location p.txid
      locations := ids.locations.insert p.txid p.location }

/-- A later output by height, transaction index and action index. -/
def Payment.Before (p q : Payment) : Prop :=
  p.height.toNat < q.height.toNat ∨ p.height = q.height ∧ (p.txIndex.toNat < q.txIndex.toNat ∨
    p.txIndex = q.txIndex ∧ p.actionIndex.toNat < q.actionIndex.toNat)

instance (p q : Payment) : Decidable (p.Before q) := by
  unfold Payment.Before
  infer_instance

/-- `continues`: one record can be the same receiver's next page after another. -/
def RawRecord.Continues (prev next : RawRecord) : Prop :=
  next.receiver = prev.receiver ∧ prev.page + 1 = next.page ∧ next.total = prev.total ∧
    prev.payment.position.toNat < next.payment.position.toNat ∧ prev.payment.Before next.payment ∧
    (next.payment.height = prev.payment.height → next.payment.blockHash = prev.payment.blockHash) ∧
    (next.payment.height = prev.payment.height → next.payment.txIndex = prev.payment.txIndex →
      next.payment.txid = prev.payment.txid)

instance (prev next : RawRecord) : Decidable (prev.Continues next) := by
  unfold RawRecord.Continues
  infer_instance

def checkNext (prev next : RawRecord) : Except Error Unit :=
  if prev.Continues next then .ok () else .error .malformed

/-- A record may follow another in a segment's list: the next page, or a receiver's first page after another
receiver's last. -/
def RawRecord.Follows (prev : Option RawRecord) (next : RawRecord) : Prop :=
  match prev with
  | some p => if p.receiver = next.receiver then p.Continues next else next.page = 0 ∧ p.page + 1 = p.total
  | none => next.page = 0

instance (prev : Option RawRecord) (next : RawRecord) : Decidable (RawRecord.Follows prev next) := by
  unfold RawRecord.Follows
  cases prev <;> infer_instance

def checkPages : List RawRecord → Option RawRecord → List (Hash × UInt32) → List UInt64 → Except Error Unit
  | [], previous, _, _ => if previous.any fun r => r.page + 1 ≠ r.total then .error .malformed else .ok ()
  | record :: records, previous, outputs, positions =>
    let output := (record.payment.txid, record.payment.actionIndex)
    if ¬ RawRecord.Follows previous record ∨ output ∈ outputs ∨ record.payment.position ∈ positions then
      .error .malformed
    else checkPages records (some record) (output :: outputs) (record.payment.position :: positions)

structure CompanionTable where
  manifest : CompanionManifest
  data : Bytes

/-- The record of every slot of the entries, with the identities they name. -/
def readSlots (directory : DirectoryManifest) (m : CompanionManifest) (data : Bytes) :
    List (Entry × Nat) → Identities → List RawRecord → Except Error (List RawRecord)
  | [], _, pages => .ok pages
  | (entry, slot) :: slots, ids, pages => do
    let (record, _) ← lookupSlot sha256 directory m entry slot (rowAt data (slotRow slot))
    let ids ← ids.add record.payment
    readSlots directory m data slots ids (pages ++ [record])

/-- No byte of a row past its occupied slots is set. -/
def clearPast (payments : Nat) (data : Bytes) (row : Nat) : Bool :=
  let used := min (payments - row * rowSlots) rowSlots
  ((rowAt data row).drop (used * slotBytes)).all (· == 0)

def CompanionTable.validate (table : CompanionTable) (directory : DirectoryManifest) (entries : List Entry) :
    Except Error Unit := do
  let m := table.manifest
  m.checkDirectory sha256 directory
  let queryEnd := m.queryRows * rowBytes
  if table.data.length ≠ m.rows * rowBytes ∨ sha256 table.data ≠ m.dataSha256 ∨
      (table.data.drop queryEnd).any (· ≠ 0) then .error .malformed
  else do
    let slots := entries.flatMap fun entry => entry.slots.map (entry, ·)
    let pages ← readSlots sha256 directory m table.data slots {} []
    if pages.length ≠ m.payments ∨ ¬ (List.range m.queryRows).all (clearPast m.payments table.data) then
      .error .malformed
    else checkPages pages none [] []

end Zakura.Receiver
