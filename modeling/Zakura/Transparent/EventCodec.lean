import Zakura.Lib.CompactSize
import Zakura.Transparent.Event

/-! # The event record

Variable-length integers, transaction metadata and the fixed 87-byte record of an event. -/

namespace Zakura.Transparent

/-! ## Variable-length integers -/

/-- The loop of `varint_len`; a 64-bit value has at most ten groups of seven bits. -/
def varintLenFrom : Nat → Nat → Nat
  | 0, _ => 0
  | groups + 1, value => if 128 ≤ value then 1 + varintLenFrom groups (value / 128) else 1

def varintLen (value : UInt64) : Nat := varintLenFrom 10 value.toNat

/-- The loop of `encode_varint`. -/
def encodeVarintFrom : Nat → Nat → Bytes
  | 0, _ => []
  | groups + 1, value =>
    if value / 128 = 0 then [UInt8.ofNat (value % 128)]
    else UInt8.ofNat (value % 128 + 128) :: encodeVarintFrom groups (value / 128)

def encodeVarint (value : UInt64) : Bytes := encodeVarintFrom 10 value.toNat

/-- The loop of `decode_varint`, with `left` rounds to go and `i` behind it. -/
def decodeVarintLoop (maximum : Nat) : Nat → Nat → Nat → Reader EventError Nat
  | 0, _, _ => .fail (.metadata "overflowing varint")
  | left + 1, i, value => do
    let byte ← .byte fun _ => .metadata "truncated varint"
    if i = 9 ∧ 1 < byte.toNat then
      .fail (.metadata "overflowing varint")
    else
      let value := value ||| (byte.toNat % 128) <<< (7 * i)
      if byte.toNat < 128 then
        if i ≠ 0 ∧ byte = 0 then .fail (.metadata "noncanonical varint")
        else if maximum < value then .fail (.metadata "varint exceeds bound")
        else pure value
      else decodeVarintLoop maximum left (i + 1) value

def decodeVarint (maximum : Nat) : Reader EventError Nat := decodeVarintLoop maximum 10 0 0

/-! ## Metadata -/

namespace TransactionMetadata

def flags (metadata : TransactionMetadata) : UInt8 :=
  32 ||| (match metadata.fee with | .exact _ => 8 | _ => 0) |||
    (if metadata.hasShieldedComponents then 16 else 0)

def encodedLen (metadata : TransactionMetadata) : Nat :=
  varintLen metadata.transparentInputCount.toUInt64 +
    match metadata.fee with
    | .exact fee => varintLen fee
    | _ => 0

def encode (metadata : TransactionMetadata) : Bytes :=
  encodeVarint metadata.transparentInputCount.toUInt64 ++
    match metadata.fee with
    | .exact fee => encodeVarint fee
    | _ => []

/-- The fee of `decode`: written when its flag is set, otherwise said by the kind of transaction. -/
def decodeFee (flags : UInt8) (coinbase : Bool) : Reader EventError FeeState :=
  if flags &&& 8 ≠ 0 then do
    let fee ← decodeVarint maxMoney
    pure (.exact (UInt64.ofNat fee))
  else if coinbase then pure .notApplicable
  else pure .unknown

def decode (flags : UInt8) (coinbase : Bool) : Reader EventError (Option TransactionMetadata) :=
  if flags &&& ~~~56 ≠ 0 ∨ (flags &&& 32 = 0 ∧ flags ≠ 0) then .fail (.flags flags)
  else if flags = 0 then pure none
  else do
    let count ← decodeVarint 0xFFFFFFFF
    let fee ← decodeFee flags coinbase
    let metadata : TransactionMetadata :=
      { fee, transparentInputCount := UInt32.ofNat count, hasShieldedComponents := flags &&& 16 ≠ 0 }
    Reader.ofExcept (metadata.validate coinbase)
    pure (some metadata)

end TransactionMetadata

/-! ## The fixed record -/

def eventBytes : Nat := 87

def TransparentEvent.legacyBytes : TransparentEvent → Bytes
  | .receive e =>
    [if e.coinbase then 2 else 0] ++ leBytes 2 e.transactionIndex.toNat ++ leBytes 4 e.height.toNat ++
      leBytes 8 e.value.toNat ++ e.txid.bytes.val ++ leBytes 4 e.outputIndex.toNat ++ List.replicate 36 0
  | .spend e =>
    [1] ++ leBytes 2 e.transactionIndex.toNat ++ leBytes 4 e.height.toNat ++ List.replicate 8 0 ++
      e.spendingTxid.bytes.val ++ leBytes 4 e.inputIndex.toNat ++ e.spentTxid.bytes.val ++
      leBytes 4 e.spentOutputIndex.toNat

/-- The 32 bytes at an offset of a record, as a transaction id. -/
def txidAt (bytes : Bytes) (offset : Nat) : Txid :=
  if h : (bytesAt bytes offset 32).length = 32 then ⟨⟨bytesAt bytes offset 32, h⟩⟩ else .zero

def TransparentEvent.fromLegacyBytes (bytes : Bytes) : Except EventError TransparentEvent :=
  if bytes.length ≠ eventBytes then .error (.length bytes.length)
  else if bytes.all (· == 0) then .error .empty
  else
    let flags := bytes.headD 0
    if flags &&& ~~~3 ≠ 0 then .error (.flags flags)
    else
      let transactionIndex := UInt16.ofNat (leNat (bytesAt bytes 1 2))
      let height := UInt32.ofNat (leNat (bytesAt bytes 3 4))
      let value := UInt64.ofNat (leNat (bytesAt bytes 7 8))
      let txid := txidAt bytes 15
      let index := UInt32.ofNat (leNat (bytesAt bytes 47 4))
      let spentTxid := txidAt bytes 51
      let spentOutputIndex := UInt32.ofNat (leNat (bytesAt bytes 83 4))
      if flags &&& 1 = 0 then
        if spentTxid ≠ .zero ∨ spentOutputIndex ≠ 0 then
          .error (.unusedField "receive" "the consumed outpoint")
        else .ok (.receive { metadata := none, height, txid, transactionIndex, outputIndex := index, value,
                             coinbase := flags &&& 2 ≠ 0 })
      else if value ≠ 0 then .error (.unusedField "spend" "a value")
      else if flags &&& 2 ≠ 0 then .error (.unusedField "spend" "the coinbase flag")
      else .ok (.spend { metadata := none, height, spendingTxid := txid, transactionIndex,
                         inputIndex := index, spentTxid, spentOutputIndex })

/-- `MAX_EVENT_BYTES`: a record, the flags and two integers. -/
def maxEventBytes : Nat := eventBytes + 1 + 5 + 10

def TransparentEvent.toBytes (event : TransparentEvent) : Except EventError Bytes := do
  event.validateMetadata
  let legacy := event.legacyBytes
  if legacy.all (· == 0) then .error .empty
  else pure (legacy ++ event.metadata.elim [] fun metadata => metadata.flags :: metadata.encode)

/-- The metadata `from_bytes` reads behind a record, which must end where the input does. -/
def TransparentEvent.readMetadata (event : TransparentEvent) : Bytes → Except EventError TransparentEvent
  | [] => .ok event
  | flags :: bytes => do
    let (metadata, rest) ← (TransactionMetadata.decode flags event.coinbase).run bytes
    if metadata = none ∨ rest ≠ [] then .error (.metadata "invalid metadata framing")
    else pure (event.withMetadata metadata)

def TransparentEvent.fromBytes (bytes : Bytes) : Except EventError TransparentEvent :=
  if bytes.length < eventBytes ∨ maxEventBytes < bytes.length then .error (.length bytes.length)
  else do
    let record ← fromLegacyBytes (bytes.take eventBytes)
    let event ← record.readMetadata (bytes.drop eventBytes)
    event.validateMetadata
    pure event

end Zakura.Transparent
