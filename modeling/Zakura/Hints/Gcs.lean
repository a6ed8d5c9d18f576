import Zakura.Filter.Writer
import Zakura.Lib.BinarySearch
import Zakura.Lib.Slice
import Zakura.Receiver.Record

/-! # Golomb-coded sets of receivers

The receiver formats decode sets with a reader of their own, which visits the values one by one and may stop
early. Words are natural numbers; where the code drops high bits, the model reduces explicitly. -/

namespace Zakura.Hints

open Zakura.Filter (SipHash GcsFilterWriter hashToRange)
open Zakura.Receiver (Error Hash ReceiverBytes)

abbrev Sha256 := Bytes → Hash

/-! ## The bit reader -/

/-- `BitStreamReader`: the byte being read, how many of its bits are used up, and the bytes after it. -/
structure BitStreamReader where
  buffer : UInt8
  offset : Nat
  reader : Bytes
deriving DecidableEq, Repr

namespace BitStreamReader

def new (reader : Bytes) : BitStreamReader := ⟨0, 8, reader⟩

/-- Takes the next byte once the buffer is used up. -/
def refill (r : BitStreamReader) : Except String BitStreamReader :=
  if r.offset = 8 then
    match r.reader with
    | [] => .error "unexpected end of file"
    | byte :: reader => .ok ⟨byte, 0, reader⟩
  else .ok r

/-- The loop of `read`; every round takes at least one bit, so the fuel is the number of bits. -/
def readLoop : Nat → BitStreamReader → Nat → Nat → Except String (Nat × BitStreamReader)
  | 0, r, data, _ => .ok (data, r)
  | fuel + 1, r, data, nbits =>
    if 0 < nbits then do
      let r ← r.refill
      let bits := min (8 - r.offset) nbits
      let data := data * 2 ^ bits % 2 ^ 64 ||| r.buffer.toNat * 2 ^ r.offset % 2 ^ 8 / 2 ^ (8 - bits)
      readLoop fuel { r with offset := r.offset + bits } data (nbits - bits)
    else .ok (data, r)

/-- `read`: the next `nbits` bits as a word. -/
def read (r : BitStreamReader) (nbits : Nat) : Except String (Nat × BitStreamReader) :=
  if 64 < nbits then .error "can not read more than 64 bits at once"
  else readLoop nbits r 0 nbits

end BitStreamReader

/-! ## Walking a set -/

namespace Gcs

/-- The `read` of `walk`. -/
def read (r : BitStreamReader) (n : Nat) : Except Error (Nat × BitStreamReader) :=
  (r.read n).mapError fun _ => .malformed

/-- The unary run of one value. Every round reads a bit, so the fuel is more than the bits left. -/
def readQuotient : Nat → Nat → BitStreamReader → Except Error (Nat × BitStreamReader)
  | 0, _, _ => .error .malformed
  | fuel + 1, quotient, r => do
    let (bit, r) ← read r 1
    if bit = 1 then readQuotient fuel (quotient + 1) r else .ok (quotient, r)

/-- The values of `walk`, each passed to `each`, which keeps a state and says whether to break; then the bits
used and the reader after them, unless it broke. -/
def walkValues {σ : Type} (p range : Nat) (each : σ → Nat → σ × Bool) :
    Nat → σ → Nat → Nat → BitStreamReader → Except Error (σ × Option (Nat × BitStreamReader))
  | 0, state, used, _, r => .ok (state, some (used, r))
  | count + 1, state, used, value, r => do
    let (quotient, r) ← readQuotient (8 * r.reader.length + 9) 0 r
    let (remainder, r) ← read r p
    let used := used + (quotient + 1 + p)
    -- The shift drops the bits of a quotient above the word.
    let value := value + (quotient * 2 ^ p % 2 ^ 64 + remainder)
    if 2 ^ 64 ≤ value ∨ range ≤ value then .error .malformed
    else
      let (state, breaks) := each state value
      if breaks then .ok (state, none) else walkValues p range each count state used value r

/-- `walk`: the count, and the bytes after the padding unless `each` broke. -/
def walk {σ : Type} (bytes : Bytes) (p m max : Nat) (each : σ → Nat → σ × Bool) (state : σ) :
    Except Error (σ × Nat × Option Bytes) := do
  let (count, rest) ← (Reader.compactSize (fun _ => Error.malformed) fun _ => .malformed).run bytes
  if max < count ∨ rest.length * 8 < count * (p + 1) then .error .malformed
  else
    let range := count * m
    let (state, after) ← walkValues p range each count state 0 0 (.new rest)
    match after with
    | none => .ok (state, count, none)
    | some (used, r) =>
      let padding := (8 - used % 8) % 8
      if 0 < padding then do
        let (bits, r) ← read r padding
        if bits ≠ 0 then .error .malformed else .ok (state, count, some r.reader)
      else .ok (state, count, some r.reader)

/-- `visit`: the state after the values, and the count. -/
def visit {σ : Type} (bytes : Bytes) (p m max : Nat) (each : σ → Nat → σ × Bool) (state : σ) :
    Except Error (σ × Nat) := do
  let (state, count, rest) ← walk bytes p m max each state
  if rest.any fun rest => !rest.isEmpty then .error .malformed else .ok (state, count)

/-- `split`: the set at the front, and what follows it. -/
def split (bytes : Bytes) (p m max : Nat) : Checked Error (Bytes × Bytes) := do
  let (_, _, rest) ← .done (walk bytes p m max (fun _ _ => ((), false)) ())
  let rest ← .expect rest
  pure (bytes.splitAt (bytes.length - rest.length))

/-- The visitor of `decode_with`, which keeps every value. -/
def push (values : List Nat) (value : Nat) : List Nat × Bool := (values ++ [value], false)

/-- `keys`: the SipHash keys of a set coded under a key. -/
def keys (sha : Sha256) (key : Hash) : UInt64 × UInt64 :=
  let digest := (sha (asciiBytes "ironwood-receiver/v1/filter\x00" ++ key.val)).val
  (.ofNat (leNat (bytesAt digest 0 8)), .ofNat (leNat (bytesAt digest 8 8)))

/-- `value`: what a receiver hashes to in a set of `count` values. -/
def value (sip : SipHash) (keys : UInt64 × UInt64) (count m : Nat) (receiver : ReceiverBytes) : Nat :=
  hashToRange sip keys.1 keys.2 (count * m) receiver.val

end Gcs

/-! ## Filters -/

/-- `Filter`: the encoded set and its decoded values. -/
structure Filter where
  bytes : Bytes
  values : List Nat
  m : Nat
deriving DecidableEq, Repr

namespace Filter

def decodeWith (bytes : Bytes) (p m : Nat) : Except Error Filter := do
  let (values, _) ← Gcs.visit bytes p m (2 ^ 32 - 1) Gcs.push []
  pure ⟨bytes, values, m⟩

/-- The encoded set of receivers under the writer's keys; an error of the writer is a panic. -/
def writeSet {ε : Type} (sip : SipHash) (keys : UInt64 × UInt64) (receivers : List ReceiverBytes) (p m : Nat) :
    Checked ε Bytes := do
  let writer := receivers.foldl (fun w receiver => w.addElement receiver.val)
    (GcsFilterWriter.new keys.1 keys.2 m p)
  let (bytes, _) ← .expect (writer.finish sip).toOption
  pure bytes

def buildWith {ε : Type} (sha : Sha256) (sip : SipHash) (key : Hash) (receivers : List ReceiverBytes) (p m : Nat) :
    Checked ε Filter := do
  let bytes ← writeSet sip (Gcs.keys sha key) receivers p m
  .expect (decodeWith bytes p m).toOption

def isEmpty (filter : Filter) : Bool := filter.values.isEmpty

/-- `matches`: which of the receivers may be in the set. -/
def matchReceivers (sha : Sha256) (sip : SipHash) (filter : Filter) (key : Hash) (receivers : List ReceiverBytes) :
    List Bool :=
  let keys := Gcs.keys sha key
  let count := filter.values.length
  receivers.map fun receiver =>
    let value := Gcs.value sip keys count filter.m receiver
    (binarySearchBy (compare · value) filter.values).toOption.isSome

end Filter

end Zakura.Hints
