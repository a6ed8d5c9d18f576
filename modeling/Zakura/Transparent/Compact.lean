import Zakura.Transparent.EventCodec

/-! # The compact event codec

A receive is written in 51 bytes and a spend in 79, or in 43 when it consumes the receive written just before
it. Metadata follows the event it belongs to. -/

namespace Zakura.Transparent

inductive RecordError where
  | length (got want : Nat)
  | scriptTooLong (length : Nat)
  | reserved
  | malformed (message : String)
  | event (error : EventError)
  | tooManyEntries (count : Nat)
  | tooManyEvents (count : Nat)
deriving DecidableEq

def eventsPerPage : Nat := 86

def RecordError.message : RecordError → String
  | .length got want => s!"record is {got} bytes, expected {want}"
  | .scriptTooLong bytes => s!"script is {bytes} bytes, more than a private table can hold"
  | .reserved => "reserved bytes are not zero"
  | .malformed message => message
  | .event error =>
    let why := error.message
    s!"event: {why}"
  | .tooManyEntries count => s!"too many entries: {count}"
  | .tooManyEvents count => s!"a fragment holds at most {eventsPerPage} events, was given {count}"

namespace Compact

def receiveBytes : Nat := 51

def spendBytes : Nat := 79

def localSpendBytes : Nat := 43

def localOutpoint : UInt8 := 4

/-- `local`: a spend of the very output the previous event received. -/
def isLocal (event : TransparentEvent) (previous : Option TransparentEvent) : Bool :=
  match previous, event with
  | some (.receive r), .spend s => r.outpoint = s.spent
  | _, _ => false

def eventLen (event : TransparentEvent) (previous : Option TransparentEvent) : Nat :=
  (match event with
    | .receive _ => receiveBytes
    | .spend _ => if isLocal event previous then localSpendBytes else spendBytes) +
    event.metadata.elim 0 TransactionMetadata.encodedLen

/-- The sum of `encoded_len`, each event after the one before it. -/
def encodedLenFrom : Option TransparentEvent → List TransparentEvent → Nat
  | _, [] => 0
  | previous, event :: events => eventLen event previous + encodedLenFrom (some event) events

def encodedLen (events : List TransparentEvent) : Nat := encodedLenFrom none events

/-- The one receive whose record would be all zero. -/
def isEmptySentinel : TransparentEvent → Bool
  | .receive r => r.height == 0 && r.transactionIndex == 0 && r.value == 0 && r.txid == .zero &&
      r.outputIndex == 0 && !r.coinbase
  | .spend _ => false

/-- The bytes `encode` writes for an event it accepts. -/
def eventEncoding (event : TransparentEvent) (previous : Option TransparentEvent) : Bytes :=
  let raw := event.legacyBytes
  let flags := raw.headD 0 ||| event.metadata.elim 0 TransactionMetadata.flags
  (match event with
    | .receive _ => flags :: bytesAt raw 1 50
    | .spend _ =>
      let reference := isLocal event previous
      [flags ||| (if reference then localOutpoint else 0)] ++ bytesAt raw 1 6 ++ bytesAt raw 15 36 ++
        (if reference then [] else raw.drop 51)) ++
    event.metadata.elim [] TransactionMetadata.encode

/-- The loop of `encode`, after the given event. -/
def encodeFrom : Option TransparentEvent → List TransparentEvent → Except RecordError Bytes
  | _, [] => .ok []
  | previous, event :: events => do
    event.validateMetadata.mapError .event
    if isEmptySentinel event then
      .error (.event .empty)
    else
      let rest ← encodeFrom (some event) events
      pure (eventEncoding event previous ++ rest)

/-- `encode`: the bytes it appends. -/
def encode (events : List TransparentEvent) : Except RecordError Bytes := encodeFrom none events

/-- The fixed record behind a compact body, the flags byte included in the body. -/
def rawRecord (flags : UInt8) (body : Bytes) (previous : Option TransparentEvent) : Except RecordError Bytes :=
  if flags &&& 1 = 0 then
    .ok ((body.headD 0 &&& 3) :: body.drop 1 ++ List.replicate 36 0)
  else do
    let outpoint ← (if flags &&& localOutpoint ≠ 0 then
        match previous with
        | some (.receive r) => .ok (r.txid.bytes.val ++ leBytes 4 r.outputIndex.toNat)
        | _ => .error (.malformed "local outpoint without preceding receive")
      else .ok (body.drop 43))
    pure ([1] ++ bytesAt body 1 6 ++ List.replicate 8 0 ++ bytesAt body 7 36 ++ outpoint)

/-- One round of `decode`, after the given event. -/
def decodeEvent (previous : Option TransparentEvent) : Reader RecordError TransparentEvent := do
  let flags ← .peek (.malformed "truncated compact event")
  if flags &&& ~~~63 ≠ 0 ∨ (flags &&& 1 = 0 ∧ flags &&& localOutpoint ≠ 0) ∨ flags &&& 3 = 3 then
    .fail (.event (.flags flags))
  else
    let len :=
      if flags &&& 1 = 0 then receiveBytes
      else if flags &&& localOutpoint ≠ 0 then localSpendBytes
      else spendBytes
    let body ← .takeBytes len fun _ => .malformed "truncated compact event"
    let raw ← .ofExcept (rawRecord flags body.val previous)
    let before ← .remaining
    let metadata ← .mapError .event (TransactionMetadata.decode (flags &&& 56) (flags &&& 2 ≠ 0))
    let after ← .remaining
    let event ← .ofExcept ((TransparentEvent.fromLegacyBytes raw).mapError .event)
    let event := event.withMetadata metadata
    .ofExcept (event.validateMetadata.mapError .event)
    if eventLen event previous ≠ len + (before - after) then
      .fail (.malformed "noncanonical full outpoint after its receive")
    else
      pure event

/-- The loop of `decode`, after the given event. -/
def decodeFrom : Nat → Option TransparentEvent → Reader RecordError (List TransparentEvent)
  | 0, _ => pure []
  | count + 1, previous => do
    let event ← decodeEvent previous
    let events ← decodeFrom count (some event)
    pure (event :: events)

/-- `decode`: reads exactly `count` events. -/
def decode (count : Nat) : Reader RecordError (List TransparentEvent) :=
  if eventsPerPage < count then .fail (.tooManyEvents count) else decodeFrom count none

end Compact

end Zakura.Transparent
