import Zakura.Lib.OrderedMap
import Zakura.Lib.Peel

/-! # Candidate rows and the choice table

A key hashes to two candidate rows of a directory. The choice table says which of them holds it: an xor
retrieval table with three positions per key, one in each of three equal segments of a bit array. The hash is
the parameter `sha256`. -/

namespace Zakura.Directory

variable (sha256 : Bytes → FixedBytes 32)

/-! ## Candidate rows -/

/-- `bucket_salts`: one salt per choice. -/
def bucketSalts (domain context : Bytes) : FixedBytes 32 × FixedBytes 32 :=
  (sha256 (domain ++ context ++ leBytes 4 0), sha256 (domain ++ context ++ leBytes 4 1))

def bucketFor (salt : FixedBytes 32) (key : Bytes) (rows : Nat) : Nat :=
  leNat (bytesAt (sha256 (salt.val ++ leBytes 4 key.length ++ key)).val 0 8) % rows

def candidates (salts : FixedBytes 32 × FixedBytes 32) (key : Bytes) (rows : Nat) : Nat × Nat :=
  (bucketFor sha256 salts.1 key rows, bucketFor sha256 salts.2 key rows)

/-! ## The choice table -/

def choiceVersion : UInt8 := 1

def choiceHeaderBytes : Nat := 1 + 4 + 4 + 4

def maxKeys : Nat := 2 ^ 24

inductive ChoiceError
  | duplicate (key : String)
  | tooManyKeys (keys : Nat)
  | unpeelable (keys : Nat)
  | malformed (why : String)
deriving DecidableEq

/-- `SeedPolicy`: the seeds a decoder accepts. -/
inductive SeedPolicy
  | below (bound : UInt32)
  | any

def SeedPolicy.Accepts (seed : UInt32) : SeedPolicy → Prop
  | below bound => seed < bound
  | any => True

instance (seed : UInt32) : (policy : SeedPolicy) → Decidable (policy.Accepts seed)
  | .below bound => inferInstanceAs (Decidable (seed < bound))
  | .any => inferInstanceAs (Decidable True)

def segmentLength (keys : Nat) : Nat := max (((keys * 123 + 99) / 100 + 32 + 2) / 3) 1

def bitBytes (segment : Nat) : Nat := (3 * segment + 7) / 8

structure ChoiceTable where
  seed : UInt32
  keys : Nat
  segment : Nat
  bits : Bytes
deriving DecidableEq

/-- `positions`: one position in each segment. -/
def positions (domain context : Bytes) (seed : UInt32) (segment : Nat) (key : Bytes) : List Nat :=
  let digest := sha256 (domain ++ context ++ leBytes 4 seed.toNat ++ leBytes 4 key.length ++ key)
  (List.range 3).map fun i => i * segment + leNat (bytesAt digest.val (i * 8) 8) % segment

/-- Bit `i` goes to byte `i / 8`. -/
def packBits (bytes : Nat) (array : List Bool) : Bytes :=
  array.zipIdx.foldl (fun bits bit => bits.modify (bit.2 / 8) (· ||| UInt8.ofNat (bit.1.toNat <<< (bit.2 % 8))))
    (List.replicate bytes 0)

def packedBit (bits : Bytes) (i : Nat) : Bool := (bits[i / 8]?.getD 0).toNat.testBit (i % 8)

/-- The entries by key, refusing a repeated one. -/
def sortEntries : List (Bytes × Bool) → OrderedMap Bytes Bool → Except ChoiceError (OrderedMap Bytes Bool)
  | [], sorted => .ok sorted
  | (key, bit) :: entries, sorted =>
    if key ∈ sorted then .error (.duplicate (hexEncode key)) else sortEntries entries (sorted.insert key bit)

namespace ChoiceTable

/-- The table under one seed, if the keys peel. -/
def attempt (domain context : Bytes) (sorted : List (Bytes × Bool)) (seed : UInt32) : Option ChoiceTable :=
  let segment := segmentLength sorted.length
  let hashed := sorted.map fun entry => positions sha256 domain context seed segment entry.1
  (Peel.peel hashed (3 * segment)).map fun order =>
    { seed
      keys := sorted.length
      segment
      bits := packBits (bitBytes segment) (Peel.assign hashed (sorted.map Prod.snd) (3 * segment) order) }

/-- `build`: the first seed that peels. -/
def build (domain context : Bytes) (seeds : List UInt32) (entries : List (Bytes × Bool)) :
    Except ChoiceError ChoiceTable :=
  if maxKeys < entries.length then .error (.tooManyKeys entries.length)
  else do
    let sorted ← sortEntries entries ∅
    match seeds.findSome? (attempt sha256 domain context sorted.toList) with
    | some table => .ok table
    | none => .error (.unpeelable sorted.toList.length)

/-- `choice`: the candidate index of a key. -/
def choice (table : ChoiceTable) (domain context key : Bytes) : Nat :=
  ((positions sha256 domain context table.seed table.segment key).foldl
    (fun acc i => acc ^^ packedBit table.bits i) false).toNat

def encode (table : ChoiceTable) : Bytes :=
  choiceVersion :: (leBytes 4 table.seed.toNat ++ leBytes 4 table.keys ++ leBytes 4 table.segment ++ table.bits)

def decode (bytes : Bytes) (seeds : SeedPolicy) : Except ChoiceError ChoiceTable :=
  let length := bytes.length
  let version := (bytes[0]?.getD 0).toNat
  let word := fun at_ => leNat (bytesAt bytes at_ 4)
  let seed := UInt32.ofNat (word 1)
  let keys := word 5
  let segment := word 9
  let implied := segmentLength keys
  let expected := choiceHeaderBytes + bitBytes segment
  let bits := bytes.drop choiceHeaderBytes
  if length < choiceHeaderBytes then .error (.malformed s!"{length} bytes is shorter than a header")
  else if version ≠ choiceVersion.toNat then .error (.malformed s!"version {version}")
  else if ¬ seeds.Accepts seed then .error (.malformed s!"seed {seed}")
  else if maxKeys < keys then .error (.malformed s!"{keys} keys")
  else if segment ≠ implied then .error (.malformed s!"segment {segment} where {keys} keys imply {implied}")
  else if length ≠ expected then .error (.malformed s!"{length} bytes where the header implies {expected}")
  else if 3 * segment % 8 ≠ 0 ∧ (bits.getLast?.getD 0).toNat >>> (3 * segment % 8) ≠ 0 then
    .error (.malformed "nonzero padding bits")
  else .ok { seed, keys, segment, bits }

end ChoiceTable

end Zakura.Directory
