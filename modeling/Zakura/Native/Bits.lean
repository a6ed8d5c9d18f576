import Zakura.Lib.Bytes

/-! # Bit fields in byte strings

The codec of the native protocol: words are written in a fixed number of bits each, one after the
other, least significant bit first. Offsets and lengths are natural numbers. -/

namespace Zakura.Native

/-- The byte a round of `write_bits` adds: the low bits of the word, moved to their place. -/
def writtenByte (val : UInt64) (bitsToWrite bitIndex : Nat) : UInt8 :=
  ((val &&& ((1 <<< UInt64.ofNat bitsToWrite) - 1)) <<< UInt64.ofNat bitIndex).toUInt8

/-- The loop of `write_bits`; every round writes a bit or more. -/
def writeBitsLoop : Nat → Bytes → UInt64 → Nat → Nat → Nat → Bytes
  | 0, data, _, _, _, _ => data
  | fuel + 1, data, val, byteIndex, bitIndex, numBits =>
    if 0 < numBits ∧ byteIndex < data.length then
      let bitsToWrite := min (8 - bitIndex) numBits
      let data := data.modify byteIndex (· ||| writtenByte val bitsToWrite bitIndex)
      let val := val >>> UInt64.ofNat bitsToWrite
      if bitIndex + bitsToWrite = 8 then
        writeBitsLoop fuel data val (byteIndex + 1) 0 (numBits - bitsToWrite)
      else writeBitsLoop fuel data val byteIndex (bitIndex + bitsToWrite) (numBits - bitsToWrite)
    else data

def writeBits (data : Bytes) (val : UInt64) (bitOffs numBits : Nat) : Bytes :=
  writeBitsLoop numBits data val (bitOffs / 8) (bitOffs % 8) numBits

def takenBits (byte : UInt8) (bitPos canTake : Nat) : UInt8 :=
  if canTake < 8 then (byte >>> UInt8.ofNat bitPos) &&& ((1 <<< UInt8.ofNat canTake) - 1)
  else byte >>> UInt8.ofNat bitPos

/-- The loop of `read_bits` over the bytes from the field's first on. -/
def readBitsLoop (numBits : Nat) : Bytes → Nat → UInt64 → Nat → UInt64
  | [], _, result, _ => result
  | byte :: rest, bitPos, result, remainingBits =>
    let canTake := min (8 - bitPos) remainingBits
    let value := (takenBits byte bitPos canTake).toUInt64
    let result := result ||| value <<< UInt64.ofNat (numBits - remainingBits)
    if remainingBits - canTake = 0 then result else readBitsLoop numBits rest 0 result (remainingBits - canTake)

/-- `none` where the assertion on the width fails. -/
def readBits (data : Bytes) (bitOffs numBits : Nat) : Option UInt64 :=
  if 1 ≤ numBits ∧ numBits ≤ 64 then
    some (readBitsLoop numBits (data.drop (bitOffs / 8)) (bitOffs % 8) 0 numBits)
  else none

def writeAll (width : Nat) : Bytes → Nat → List UInt64 → Bytes
  | out, _, [] => out
  | out, bitOffs, val :: vals => writeAll width (writeBits out val bitOffs width) (bitOffs + width) vals

def u64sToContiguousBytes (data : List UInt64) (inpModBits : Nat) : Bytes :=
  writeAll inpModBits (List.replicate ((data.length * inpModBits + 7) / 8) 0) 0 data

def readAll (data : Bytes) (width : Nat) : Nat → Nat → Option (List UInt64)
  | 0, _ => some []
  | count + 1, bitOffs => do
    let val ← readBits data bitOffs width
    let vals ← readAll data width count (bitOffs + width)
    return val :: vals

/-- `none` also where the source divides by a width of zero. -/
def contiguousBytesToU64s (data : Bytes) (outModBits : Nat) : Option (List UInt64) :=
  if outModBits = 0 then none else readAll data outModBits (data.length * 8 / outModBits) 0

end Zakura.Native
