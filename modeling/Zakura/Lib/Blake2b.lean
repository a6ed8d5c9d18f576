import Zakura.Lib.Bytes

/-! # BLAKE2b

The unkeyed 32-byte hash with a personalization, executable on byte lists. -/

namespace Zakura.Blake2b

def iv : List UInt64 :=
  [0x6a09e667f3bcc908, 0xbb67ae8584caa73b, 0x3c6ef372fe94f82b, 0xa54ff53a5f1d36f1,
    0x510e527fade682d1, 0x9b05688c2b3e6c1f, 0x1f83d9abfb41bd6b, 0x5be0cd19137e2179]

def sigma : List (List Nat) :=
  [[0, 1, 2, 3, 4, 5, 6, 7, 8, 9, 10, 11, 12, 13, 14, 15],
    [14, 10, 4, 8, 9, 15, 13, 6, 1, 12, 0, 2, 11, 7, 5, 3],
    [11, 8, 12, 0, 5, 2, 15, 13, 10, 14, 3, 6, 7, 1, 9, 4],
    [7, 9, 3, 1, 13, 12, 11, 14, 2, 6, 5, 10, 4, 0, 15, 8],
    [9, 0, 5, 7, 2, 4, 10, 15, 14, 1, 11, 12, 6, 8, 3, 13],
    [2, 12, 6, 10, 0, 11, 8, 3, 4, 13, 7, 5, 15, 14, 1, 9],
    [12, 5, 1, 15, 14, 13, 4, 10, 0, 7, 6, 3, 9, 2, 8, 11],
    [13, 11, 7, 14, 12, 1, 3, 9, 5, 0, 15, 4, 8, 6, 2, 10],
    [6, 15, 14, 9, 11, 3, 0, 8, 12, 2, 13, 7, 1, 4, 10, 5],
    [10, 2, 8, 4, 7, 6, 1, 5, 15, 11, 9, 14, 3, 12, 13, 0],
    [0, 1, 2, 3, 4, 5, 6, 7, 8, 9, 10, 11, 12, 13, 14, 15],
    [14, 10, 4, 8, 9, 15, 13, 6, 1, 12, 0, 2, 11, 7, 5, 3]]

def rotr (x : UInt64) (n : UInt64) : UInt64 := (x >>> n) ||| (x <<< (64 - n))

def mix (v : List UInt64) (a b c d : Nat) (x y : UInt64) : List UInt64 :=
  let va := v.getD a 0 + v.getD b 0 + x
  let vd := rotr (v.getD d 0 ^^^ va) 32
  let vc := v.getD c 0 + vd
  let vb := rotr (v.getD b 0 ^^^ vc) 24
  let va := va + vb + y
  let vd := rotr (vd ^^^ va) 16
  let vc := vc + vd
  let vb := rotr (vb ^^^ vc) 63
  (((v.set a va).set b vb).set c vc).set d vd

def round (m : List UInt64) (v : List UInt64) (s : List Nat) : List UInt64 :=
  let w := fun i => m.getD (s.getD i 0) 0
  let v := mix v 0 4 8 12 (w 0) (w 1)
  let v := mix v 1 5 9 13 (w 2) (w 3)
  let v := mix v 2 6 10 14 (w 4) (w 5)
  let v := mix v 3 7 11 15 (w 6) (w 7)
  let v := mix v 0 5 10 15 (w 8) (w 9)
  let v := mix v 1 6 11 12 (w 10) (w 11)
  let v := mix v 2 7 8 13 (w 12) (w 13)
  mix v 3 4 9 14 (w 14) (w 15)

def word (bytes : Bytes) : UInt64 := UInt64.ofNat (leNat bytes)

def words (block : Bytes) : List UInt64 := (List.range 16).map fun i => word ((block.drop (8 * i)).take 8)

/-- The compression function, with the byte counter and the last-block flag. -/
def compress (h : List UInt64) (block : Bytes) (t : Nat) (last : Bool) : List UInt64 :=
  let v := h ++ [iv.getD 0 0, iv.getD 1 0, iv.getD 2 0, iv.getD 3 0, iv.getD 4 0 ^^^ UInt64.ofNat t, iv.getD 5 0,
    if last then ~~~ iv.getD 6 0 else iv.getD 6 0, iv.getD 7 0]
  let v := sigma.foldl (round (words block)) v
  (List.range 8).map fun i => h.getD i 0 ^^^ v.getD i 0 ^^^ v.getD (i + 8) 0

/-- Compresses the message block by block; the last block may be short or empty. -/
def absorb : Nat → List UInt64 → Bytes → Nat → List UInt64
  | 0, h, _, _ => h
  | fuel + 1, h, rest, t =>
    if rest.length ≤ 128 then compress h rest (t + rest.length) true
    else absorb fuel (compress h (rest.take 128) (t + 128) false) (rest.drop 128) (t + 128)

theorem length_flatMap_words (ws : List UInt64) : (ws.flatMap fun w => leBytes 8 w.toNat).length = 8 * ws.length := by
  induction ws with
  | nil => rfl
  | cons w ws ih =>
    simp only [List.flatMap_cons, List.length_append, length_leBytes, ih, List.length_cons]
    omega

theorem length_compress {h block t last} : (compress h block t last).length = 8 := by
  simp [compress]

theorem length_absorb {fuel h rest t} (hh : h.length = 8) : (absorb fuel h rest t).length = 8 := by
  induction fuel generalizing h rest t with
  | zero => exact hh
  | succ fuel ih =>
    unfold absorb
    split
    · exact length_compress
    · exact ih length_compress

/-- BLAKE2b with a 32-byte output under a personalization. -/
def blake2b256 (personal : FixedBytes 16) (message : Bytes) : FixedBytes 32 :=
  let h := [iv.getD 0 0 ^^^ 0x01010020, iv.getD 1 0, iv.getD 2 0, iv.getD 3 0, iv.getD 4 0, iv.getD 5 0,
    iv.getD 6 0 ^^^ word (personal.val.take 8), iv.getD 7 0 ^^^ word (personal.val.drop 8)]
  ⟨((absorb (message.length / 128 + 1) h message 0).take 4).flatMap fun w => leBytes 8 w.toNat, by
    rw [length_flatMap_words, List.length_take, length_absorb rfl]
    rfl⟩

end Zakura.Blake2b
