import Zakura.Lib.Bytes

/-! # SipHash-2-4

The keyed 64-bit hash, executable on byte lists. -/

namespace Zakura.SipHash

structure State where
  v0 : UInt64
  v1 : UInt64
  v2 : UInt64
  v3 : UInt64

def rotl (x : UInt64) (n : UInt64) : UInt64 := (x <<< n) ||| (x >>> (64 - n))

def round (s : State) : State :=
  let v0 := s.v0 + s.v1
  let v1 := rotl s.v1 13 ^^^ v0
  let v0 := rotl v0 32
  let v2 := s.v2 + s.v3
  let v3 := rotl s.v3 16 ^^^ v2
  let v0 := v0 + v3
  let v3 := rotl v3 21 ^^^ v0
  let v2 := v2 + v1
  let v1 := rotl v1 17 ^^^ v2
  ⟨v0, v1, rotl v2 32, v3⟩

def compress (s : State) (w : UInt64) : State :=
  let s := round (round { s with v3 := s.v3 ^^^ w })
  { s with v0 := s.v0 ^^^ w }

/-- The message in words; its length fills the last byte of the last one. -/
def words (message : Bytes) : List UInt64 :=
  let n := message.length
  let padded := message ++ List.replicate (7 - n % 8) 0 ++ [UInt8.ofNat n]
  (List.range (n / 8 + 1)).map fun i => UInt64.ofNat (leNat ((padded.drop (8 * i)).take 8))

def hash24 (k0 k1 : UInt64) (message : Bytes) : UInt64 :=
  let s : State := ⟨k0 ^^^ 0x736f6d6570736575, k1 ^^^ 0x646f72616e646f6d, k0 ^^^ 0x6c7967656e657261,
    k1 ^^^ 0x7465646279746573⟩
  let s := (words message).foldl compress s
  let s := round (round (round (round { s with v2 := s.v2 ^^^ 0xff })))
  s.v0 ^^^ s.v1 ^^^ s.v2 ^^^ s.v3

example : hash24 0x0706050403020100 0x0f0e0d0c0b0a0908 ((List.range 15).map UInt8.ofNat) = 0xa129ca6149be45e5 := by
  decide +kernel

end Zakura.SipHash
