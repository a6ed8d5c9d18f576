import Zakura.Lib.CompactSize
import Mathlib.Data.List.Sort

/-! # Writing Golomb-coded sets

The bit writer, the Golomb-Rice code and the filter writer. Words are natural numbers; where the code
drops high bits, the model reduces explicitly. -/

namespace Zakura.Filter

/-- SipHash-2-4: two keys and a message. -/
abbrev SipHash := UInt64 → UInt64 → Bytes → UInt64

/-- `hash_to_range`: the high word of the product of the hash and the range. -/
def hashToRange (sip : SipHash) (k0 k1 : UInt64) (range : Nat) (element : Bytes) : Nat :=
  (sip k0 k1 element).toNat * range / 2 ^ 64

/-! ## The bit writer -/

/-- `BitStreamWriter`: the byte being filled, how many of its bits are used, and what was written out. -/
structure BitStreamWriter where
  buffer : Nat
  offset : Nat
  out : Bytes
deriving DecidableEq, Repr

namespace BitStreamWriter

def new (out : Bytes) : BitStreamWriter := ⟨0, 0, out⟩

/-- `flush`, with the number of bytes written. -/
def flush (w : BitStreamWriter) : BitStreamWriter × Nat :=
  if 0 < w.offset then (⟨0, 0, w.out ++ [UInt8.ofNat w.buffer]⟩, 1) else (w, 0)

/-- One round of `write`: fills the buffer from the remaining bits. -/
def writeStep (w : BitStreamWriter) (data nbits : Nat) : BitStreamWriter × Nat :=
  let bits := min (8 - w.offset) nbits
  let shifted := data * 2 ^ (64 - nbits) % 2 ^ 64 / 2 ^ (64 - 8 + w.offset)
  let w : BitStreamWriter := ⟨w.buffer ||| shifted % 2 ^ 8, w.offset + bits, w.out⟩
  if w.offset = 8 then w.flush else (w, 0)

/-- The loop of `write`; every round takes at least one bit, so the fuel is the number of bits. -/
def writeLoop : Nat → BitStreamWriter → Nat → Nat → BitStreamWriter × Nat
  | 0, w, _, _ => (w, 0)
  | fuel + 1, w, data, nbits =>
    if 0 < nbits then
      let bits := min (8 - w.offset) nbits
      let (w, wrote) := w.writeStep data nbits
      let (w, more) := writeLoop fuel w data (nbits - bits)
      (w, wrote + more)
    else (w, 0)

/-- `write`: the low `nbits` bits of the word, and how many bytes that completed. -/
def write (w : BitStreamWriter) (data nbits : Nat) : Except String (BitStreamWriter × Nat) :=
  if 64 < nbits then .error "can not write more than 64 bits at once"
  else .ok (writeLoop nbits w data nbits)

end BitStreamWriter

/-! ## The filter writer -/

/-- The run of set bits for a quotient, at most 64 in one write. -/
def writeQuotient : Nat → BitStreamWriter → Nat → Except String (BitStreamWriter × Nat)
  | 0, w, _ => .ok (w, 0)
  | fuel + 1, w, q =>
    if 0 < q then do
      let nbits := min q 64
      let (w, wrote) ← w.write (2 ^ 64 - 1) nbits
      let (w, more) ← writeQuotient fuel w (q - nbits)
      pure (w, wrote + more)
    else pure (w, 0)

def golombRiceEncode (p : Nat) (w : BitStreamWriter) (n : Nat) : Except String (BitStreamWriter × Nat) := do
  let q := n / 2 ^ p
  let (w, wrote) ← writeQuotient q w q
  let (w, more) ← w.write 0 1
  let wrote := wrote + more
  let (w, more) ← w.write n p
  pure (w, wrote + more)

/-- `GcsFilterWriter`. The elements are a set; the values they map to are sorted before use. -/
structure GcsFilterWriter where
  k0 : UInt64
  k1 : UInt64
  m : Nat
  p : Nat
  elements : List Bytes

namespace GcsFilterWriter

def new (k0 k1 : UInt64) (m p : Nat) : GcsFilterWriter := ⟨k0, k1, m, p, []⟩

/-- `add_element`: empty items are ignored, equal ones merged. -/
def addElement (w : GcsFilterWriter) (element : Bytes) : GcsFilterWriter :=
  if element = [] then w else { w with elements := w.elements.insert element }

def writeDeltas (p : Nat) : List Nat → BitStreamWriter → Nat → Except String (BitStreamWriter × Nat)
  | [], w, _ => pure (w, 0)
  | data :: mapped, w, last => do
    let (w, wrote) ← golombRiceEncode p w (data - last)
    let (w, more) ← writeDeltas p mapped w data
    pure (w, wrote + more)

/-- `finish`: the bytes written to an empty writer, and their count. -/
def finish (sip : SipHash) (w : GcsFilterWriter) : Except String (Bytes × Nat) :=
  if w.m = 0 ∨ 63 < w.p then .error "invalid GCS parameters"
  else
    let nm := w.elements.length * w.m
    if 2 ^ 64 ≤ nm then .error "GCS hash range overflows"
    else do
      let mapped := (w.elements.map (hashToRange sip w.k0 w.k1 nm)).insertionSort (· ≤ ·)
      let header := compactSizeBytes mapped.length
      let (writer, wrote) ← writeDeltas w.p mapped (.new header) 0
      let (writer, more) := writer.flush
      pure (writer.out, header.length + wrote + more)

end GcsFilterWriter

end Zakura.Filter
