import Zakura.Lib.CompactSize

/-! # Strict decoding of a filter -/

namespace Zakura.Filter

/-- The errors of filter decoding and of filter responses. -/
inductive FilterError where
  | blockHash (message : String)
  | encoding (message : String)
  | truncated (message : String)
  | notCanonical (message : String)
  | limitExceeded (message : String)
  | trailingBytes (count : Nat)
  | nonZeroPadding
  | envelope (message : String)
  | response (message : String)
deriving DecidableEq, Repr

/-- Caps applied before allocation and during decoding. -/
structure FilterLimits where
  maxBytes : Nat
  maxElements : Nat

def FilterLimits.zcashMainnet : FilterLimits := ⟨2 * 1024 * 1024, 1000000⟩

/-- A filter whose entire byte stream has been decoded and checked. -/
structure ValidatedFilter where
  bytes : Bytes
  values : List Nat
  range : Nat
deriving DecidableEq, Repr

/-! ## The bit reader -/

/-- `BitReader`: the bytes and the position of the next bit. -/
structure BitReader where
  bytes : Bytes
  bit : Nat

namespace BitReader

def readBit (r : BitReader) : Except FilterError (Nat × BitReader) :=
  match r.bytes[r.bit / 8]? with
  | none => .error (.truncated "bit stream ended mid-value")
  | some byte => .ok (byte.toNat / 2 ^ (7 - r.bit % 8) % 2, { r with bit := r.bit + 1 })

/-- The loop of `read_bits`, with the value read so far. -/
def readBitsLoop : Nat → Nat → BitReader → Except FilterError (Nat × BitReader)
  | 0, value, r => .ok (value, r)
  | count + 1, value, r => do
    let (bit, r) ← r.readBit
    readBitsLoop count (value * 2 % 2 ^ 64 ||| bit) r

def readBits (r : BitReader) (count : Nat) : Except FilterError (Nat × BitReader) :=
  readBitsLoop count 0 r

def consumedBytes (r : BitReader) : Nat := (r.bit + 7) / 8

def paddingIsZero (r : BitReader) : Except FilterError Unit :=
  let remainder := r.bit % 8
  if remainder = 0 then .ok ()
  else
    let byte := (r.bytes.getD (r.bit / 8) 0).toNat
    let mask := 0xFF / 2 ^ remainder
    if byte &&& mask ≠ 0 then .error .nonZeroPadding else .ok ()

end BitReader

/-! ## Decoding -/

/-- `read_compact_size`: the value and the length of its encoding. -/
def readCompactSize (bytes : Bytes) : Except FilterError (Nat × Nat) :=
  if bytes = [] then .error (.truncated "filter is empty")
  else do
    let (value, rest) ← (Reader.compactSize (fun _ => FilterError.truncated "CompactSize is truncated")
      fun width => .notCanonical (match width with
        | 2 => "CompactSize used a 3-byte encoding for a 1-byte value"
        | 4 => "CompactSize used a 5-byte encoding for a shorter value"
        | _ => "CompactSize used a 9-byte encoding for a shorter value")).run bytes
    pure (value, bytes.length - rest.length)

/-- The unary run of one element. Every round reads a bit, so the fuel is the number of bits left; the
bound on the quotient ends a malicious run. -/
def readQuotient (index maxQuotient : Nat) : Nat → Nat → BitReader → Except FilterError (Nat × BitReader)
  | 0, _, _ => .error (.truncated "bit stream ended mid-value")
  | fuel + 1, quotient, r => do
    let (bit, r) ← r.readBit
    if bit = 1 then
      let quotient := quotient + 1
      if maxQuotient < quotient then
        .error (.limitExceeded s!"unary run at element {index} exceeds the encodable range")
      else readQuotient index maxQuotient fuel quotient r
    else .ok (quotient, r)

/-- `checked_add` and `checked_mul` on 64-bit words. -/
def checkedWord (value : Nat) (error : FilterError) : Except FilterError Nat :=
  if value < 2 ^ 64 then .ok value else .error error

/-- The value of one element, given the last one. -/
def readElement (p range index last : Nat) (r : BitReader) : Except FilterError (Nat × BitReader) := do
  let (quotient, r) ← readQuotient index (range / 2 ^ p) (8 * r.bytes.length + 1 - r.bit) 0 r
  let (remainder, r) ← r.readBits p
  let delta ← checkedWord (quotient * 2 ^ p % 2 ^ 64 + remainder) (.encoding "delta overflows")
  let last ← checkedWord (last + delta) (.encoding "cumulative value overflows")
  if range ≤ last then
    .error (.encoding s!"element {index} maps to {last}, outside the encoded range {range}")
  else .ok (last, r)

/-- The decoding loop over the remaining elements. -/
def readElements (p range : Nat) : Nat → Nat → Nat → BitReader → Except FilterError (List Nat × BitReader)
  | 0, _, _, r => .ok ([], r)
  | count + 1, index, last, r => do
    let (last, r) ← readElement p range index last r
    let (values, r) ← readElements p range count (index + 1) last r
    pure (last :: values, r)

/-- The decoded values of a nonempty filter's body. -/
def readBody (p range count : Nat) (body : Bytes) : Except FilterError (List Nat) := do
  let (values, r) ← readElements p range count 0 0 ⟨body, 0⟩
  r.paddingIsZero
  let consumed := r.consumedBytes
  if consumed < body.length then .error (.trailingBytes (body.length - consumed))
  else .ok values

def validateParameters (bytes : Bytes) (limits : FilterLimits) (m p : Nat) :
    Except FilterError ValidatedFilter := do
  let size := bytes.length
  let maxBytes := limits.maxBytes
  let maxElements := limits.maxElements
  if m = 0 ∨ 2 ^ 32 ≤ m ∨ 31 < p then .error (.encoding "invalid GCS parameters")
  else if maxBytes < size then
    .error (.limitExceeded s!"filter is {size} bytes, limit is {maxBytes}")
  else
    let (count, headerLen) ← readCompactSize bytes
    if maxElements < count then
      .error (.limitExceeded s!"filter claims {count} elements, limit is {maxElements}")
    else
      let body := bytes.drop headerLen
      let bodyLen := body.length
      let minimumBits ← checkedWord (count * (p + 1)) (.limitExceeded "element count overflows")
      if min (bodyLen * 8) (2 ^ 64 - 1) < minimumBits then
        .error (.truncated s!"filter claims {count} elements but has only {bodyLen} body bytes")
      else if count = 0 then
        if body ≠ [] then .error (.trailingBytes bodyLen) else .ok ⟨bytes, [], 0⟩
      else
        let range ← checkedWord (count * m) (.limitExceeded "mapped range overflows")
        let values ← readBody p range count body
        .ok ⟨bytes, values, range⟩

/-! ## Profiles -/

structure RangeProfile where
  name : String
  p : Nat
  m : Nat
deriving DecidableEq

def rangeProfiles : List RangeProfile :=
  [{ name := "zcash-transparent-range-v1", p := 19, m := 784931 },
   { name := "zcash-transparent-range-v2", p := 10, m := 1024 }]

def rangeProfile (name : String) : Option RangeProfile := rangeProfiles.find? (·.name == name)

/-- `P` and `M` of the per-block profile. -/
def blockProfile : RangeProfile := { name := "zcash-transparent-basic-v1", p := 19, m := 784931 }

def validateRangeFilter (bytes : Bytes) (limits : FilterLimits) (profile : RangeProfile) :
    Except FilterError ValidatedFilter :=
  validateParameters bytes limits profile.m profile.p

def validateFilter (bytes : Bytes) (limits : FilterLimits) : Except FilterError ValidatedFilter :=
  validateRangeFilter bytes limits blockProfile

end Zakura.Filter
