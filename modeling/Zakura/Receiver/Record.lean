import Zakura.Lib.Bytes

/-! # Receiver records and witness payloads

A record is one payment page of a receiver in 289 bytes. Its witness payload holds the sixteen sibling nodes of
the note inside its shard, those that are complete subtrees at the tree's size. -/

namespace Zakura.Receiver

/-- A 32-byte hash in protocol byte order. -/
abbrev Hash := FixedBytes 32

abbrev ReceiverBytes := FixedBytes 43

inductive Error
  | malformed
  | coverage
  | capacity
  | choice
  | unsupported
deriving DecidableEq

structure Payment where
  height : UInt32
  blockHash : Hash
  txid : Hash
  txIndex : UInt32
  actionIndex : UInt32
  position : UInt64
  actionNullifier : FixedBytes 32
  cmx : FixedBytes 32
  ephemeralKey : FixedBytes 32
  ciphertextPrefix : FixedBytes 52
deriving DecidableEq

/-- One payment page, `RawRecord`. -/
structure RawRecord where
  receiver : ReceiverBytes
  page : Nat
  total : Nat
  payment : Payment
  ordinal : Nat
deriving DecidableEq

def recordBytes : Nat := 289

def payloadBytes : Nat := 512

def lowerLevels : Nat := 16

def treeSize : Nat := 2 ^ 32

namespace RawRecord

/-- `check`: the page bounds. -/
def Pages (record : RawRecord) : Prop := record.page < record.total

instance (record : RawRecord) : Decidable record.Pages := inferInstanceAs (Decidable (_ < _))

def bytes (record : RawRecord) : Bytes :=
  let p := record.payment
  1 :: (record.receiver.val ++ (leBytes 4 record.page ++ (leBytes 4 record.total ++ (1 :: (leBytes 4 p.height.toNat ++
    (p.blockHash.val ++ (p.txid.val ++ (leBytes 4 p.txIndex.toNat ++ (leBytes 4 p.actionIndex.toNat ++
    (leBytes 8 p.position.toNat ++ (p.actionNullifier.val ++ (p.cmx.val ++ (p.ephemeralKey.val ++
    (p.ciphertextPrefix.val ++ leBytes 4 record.ordinal))))))))))))))

def encode (record : RawRecord) : Except Error Bytes :=
  if record.Pages then .ok record.bytes else .error .malformed

def unknownVersion (bytes : Bytes) : Bool :=
  bytes.length = recordBytes ∧ bytes.any (· ≠ 0) ∧ (bytes[0]?.any (1 < ·) ∨ bytes[52]?.any (1 < ·))

/-- The record in a slot's bytes, before its pages are checked. -/
def parse (bytes : Bytes) : RawRecord where
  receiver := fixedAt bytes 1 43
  page := leNat (bytesAt bytes 44 4)
  total := leNat (bytesAt bytes 48 4)
  payment :=
    { height := UInt32.ofNat (leNat (bytesAt bytes 53 4))
      blockHash := fixedAt bytes 57 32
      txid := fixedAt bytes 89 32
      txIndex := UInt32.ofNat (leNat (bytesAt bytes 121 4))
      actionIndex := UInt32.ofNat (leNat (bytesAt bytes 125 4))
      position := UInt64.ofNat (leNat (bytesAt bytes 129 8))
      actionNullifier := fixedAt bytes 137 32
      cmx := fixedAt bytes 169 32
      ephemeralKey := fixedAt bytes 201 32
      ciphertextPrefix := fixedAt bytes 233 52 }
  ordinal := leNat (bytesAt bytes 285 4)

/-- `record::decode`: only an entirely zero slot is empty. -/
def decode (bytes : Bytes) : Except Error (Option RawRecord) :=
  let refused := if unknownVersion bytes then Error.unsupported else .malformed
  if bytes.length ≠ recordBytes then .error refused
  else if bytes.all (· == 0) then .ok none
  else if bytes[0]? ≠ some 1 ∨ bytes[52]? ≠ some 1 then .error refused
  else if (parse bytes).Pages then .ok (some (parse bytes)) else .error refused

end RawRecord

/-! ## Witness payloads -/

/-- `supplied`: the sibling at a level is a complete subtree of the tree. -/
def supplied (position treeSize level : Nat) : Bool := (((position >>> level) ^^^ 1) + 1) <<< level ≤ treeSize

abbrev Siblings := { siblings : List (Option Hash) // siblings.length = lowerLevels }

/-- One sibling's 32 bytes, zero where the tree supplies none. -/
def encodeSibling (position size : Nat) (sibling : Option Hash × Nat) : Option Bytes :=
  match sibling.1, supplied position size sibling.2 with
  | some hash, true => some hash.val
  | none, false => some (List.replicate 32 0)
  | _, _ => none

def encodePayload (siblings : Siblings) (position size : Nat) : Option Bytes :=
  if size ≤ position ∨ treeSize < size then none
  else (siblings.val.zipIdx.mapM (encodeSibling position size)).map List.flatten

def decodeSibling (bytes : Bytes) (position size level : Nat) : Option (Option Hash) :=
  if supplied position size level then some (some (fixedAt bytes (level * 32) 32))
  else if (bytesAt bytes (level * 32) 32).any (· ≠ 0) then none
  else some none

def decodePayload (bytes : Bytes) (position size : Nat) : Option (List (Option Hash)) :=
  if bytes.length ≠ payloadBytes ∨ size ≤ position ∨ treeSize < size then none
  else (List.range lowerLevels).mapM (decodeSibling bytes position size)

end Zakura.Receiver
