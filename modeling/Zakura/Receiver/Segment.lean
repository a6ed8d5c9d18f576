import Zakura.Directory.Choice
import Zakura.Receiver.Record

/-! # Receiver segments

A segment is a directory of 2,048 rows of salted receiver tags and a companion of records and payloads. A
directory entry names a receiver's consecutive companion slots. -/

namespace Zakura.Receiver

open Directory (ChoiceTable)

def schema : String := "ironwood-zero-ovk-receiver-v1"

def rowBytes : Nat := 4096

/-- `ENTRY_BYTES`: tag, first slot, count and last height offset. -/
def entryBytes : Nat := 14 + 3 + 2 + 3

def rowEntries : Nat := rowBytes / entryBytes

def directoryRows : Nat := 2048

/-- `SLOT_BYTES`: the record, then its payload. -/
def slotBytes : Nat := recordBytes + payloadBytes

def rowSlots : Nat := rowBytes / slotBytes

def queryBlockRows : Nat := 2048

def maxCompanionRows : Nat := 65536

def capacity : Nat := maxCompanionRows * rowSlots

def maxReceiverPayments : Nat := 2 ^ 16 - 1

def maxHeightOffset : Nat := 2 ^ 24 - 1

def maxSaltRetries : Nat := 8

def retryDomain : Bytes := asciiBytes "ironwood-receiver/v1/tag-salt-retry" ++ [0]

def tagDomain : Bytes := asciiBytes "ironwood-receiver/v1/tag" ++ [0]

def bucketDomain : Bytes := asciiBytes "ironwood-receiver/v1/bucket" ++ [0]

def choiceDomain : Bytes := asciiBytes "ironwood-receiver/v1/choice" ++ [0]

def seedDomain : Bytes := asciiBytes "ironwood-receiver/v1/choice-seed" ++ [0]

abbrev Tag := FixedBytes 14

section

variable (sha256 : Bytes → FixedBytes 32)

def retrySalt (committed : Hash) (retry : Nat) (block : Hash) : Hash :=
  sha256 (retryDomain ++ committed.val ++ leBytes 4 retry ++ block.val)

def tag (salt : Hash) (receiver : ReceiverBytes) : Tag :=
  ⟨(sha256 (tagDomain ++ salt.val ++ receiver.val)).val.take 14, by simp⟩

def bucketSalts (salt : Hash) : Hash × Hash := Directory.bucketSalts sha256 bucketDomain salt.val

def seedAt (salt block : Hash) (attempt : Nat) : UInt32 :=
  UInt32.ofNat (leNat (bytesAt (sha256 (seedDomain ++ salt.val ++ block.val ++ leBytes 4 attempt)).val 0 4))

/-- `candidate_seeds`, each seed once. -/
def candidateSeeds (salt block : Hash) (attempts : Nat) : List UInt32 :=
  (List.range attempts).foldl (fun seen attempt =>
    let seed := seedAt sha256 salt block attempt
    if seed ∈ seen then seen else seen ++ [seed]) []

def chooseRow (salt : Hash) (choice : ChoiceTable) (tag : Tag) : Nat :=
  let rows := Directory.candidates sha256 (bucketSalts sha256 salt) tag.val directoryRows
  if choice.choice sha256 choiceDomain salt.val tag.val = 0 then rows.1 else rows.2

end

def choiceBytes (keys : Nat) : Nat := Directory.choiceHeaderBytes + Directory.bitBytes (Directory.segmentLength keys)

def queryRows (payments : Nat) : Nat :=
  max (((payments + (rowSlots - 1)) / rowSlots + (queryBlockRows - 1)) / queryBlockRows) 1 * queryBlockRows

def validateCompanionRows (rows : Nat) : Except Error Unit :=
  if rows = 0 ∨ rows % queryBlockRows ≠ 0 ∨ maxCompanionRows < rows then .error .unsupported else .ok ()

/-! ## Entries and rows -/

structure Entry where
  tag : Tag
  first : Nat
  count : Nat
  last : Nat
deriving DecidableEq

namespace Entry

/-- `slots`: the companion slots in page order. -/
def slots (entry : Entry) : List Nat := List.range' entry.first entry.count

def bytes (entry : Entry) : Bytes :=
  entry.tag.val ++ (leBytes 3 entry.first ++ (leBytes 2 entry.count ++ leBytes 3 entry.last))

def encode (entry : Entry) : Except Error Bytes :=
  if entry.count = 0 ∨ 2 ^ 24 ≤ entry.first ∨ maxHeightOffset < entry.last then .error .malformed
  else .ok entry.bytes

def decode (bytes : Bytes) : Except Error (Option Entry) :=
  let entry : Entry :=
    { tag := fixedAt bytes 0 14
      first := leNat (bytesAt bytes 14 3)
      count := leNat (bytesAt bytes 17 2)
      last := leNat (bytesAt bytes 19 3) }
  if bytes.all (· == 0) then .ok none
  else if entry.count = 0 then .error .malformed
  else .ok (some entry)

end Entry

/-- `encode_row`: at most `ROW_ENTRIES` entries, sorted by tag. -/
def encodeRow (entries : List Entry) : Except Error Bytes :=
  if rowEntries < entries.length ∨ ¬ entries.IsChain (fun a b => a.tag < b.tag) then .error .capacity
  else do
    let encoded ← entries.mapM Entry.encode
    .ok (encoded.flatten ++ List.replicate (rowBytes - entries.length * entryBytes) 0)

/-- The loop of `decode_row`: the entries so far, and whether an empty one was met. -/
def decodeEntries : List Bytes → List Entry → Bool → Except Error (List Entry)
  | [], entries, _ => .ok entries
  | raw :: raws, entries, ended => do
    match ← Entry.decode raw with
    | none => decodeEntries raws entries true
    | some entry =>
      if !ended ∧ entries.getLast?.all (·.tag < entry.tag) then decodeEntries raws (entries ++ [entry]) ended
      else .error .malformed

def decodeRow (bytes : Bytes) : Except Error (List Entry) :=
  if bytes.length ≠ rowBytes ∨ (bytes.drop (rowEntries * entryBytes)).any (· ≠ 0) then .error .malformed
  else decodeEntries ((List.range rowEntries).map fun i => bytesAt bytes (i * entryBytes) entryBytes) [] false

/-! ## Companion slots -/

def encodeSlot (record : RawRecord) (payload : FixedBytes payloadBytes) : Except Error Bytes :=
  record.encode.map (· ++ payload.val)

def decodeSlot (bytes : Bytes) : Except Error (Option (RawRecord × FixedBytes payloadBytes)) :=
  if bytes.length ≠ slotBytes then .error .malformed
  else do
    match ← RawRecord.decode (bytes.take recordBytes) with
    | some record => .ok (some (record, fixedAt bytes recordBytes payloadBytes))
    | none => if bytes.all (· == 0) then .ok none else .error .malformed

def slotRow (slot : Nat) : Nat := slot / rowSlots

end Zakura.Receiver
