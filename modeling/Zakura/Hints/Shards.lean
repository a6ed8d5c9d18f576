import Zakura.Hints.Blocks
import Mathlib.Data.Prod.Lex

/-! # Receiver shard filters

One filter for all receivers of a shard, matched by streaming over its encoded values. -/

namespace Zakura.Hints

open Zakura.Filter (SipHash)
open Zakura.Receiver (Error Hash ReceiverBytes)

namespace Shards

def p : Nat := 20

def m : Nat := 1569792

def maxReceivers : Nat := 2 ^ 23

def maxFilterBytes : Nat := 24 * 1024 * 1024

def magic : Bytes := asciiBytes "IWSHARD1"

def header : Nat := 8 + 32 + 8 + 4 + 4 + 32 + 4

end Shards

structure Coverage where
  startHeight : UInt32
  endHeight : UInt32
  endHash : Hash
deriving DecidableEq

structure ShardFilter where
  genesis : Hash
  historyRevision : UInt64
  coverage : Coverage
  count : Nat
  bytes : Bytes
deriving DecidableEq

/-- `salt`. -/
def shardSalt (sha : Sha256) (genesis : Hash) (coverage : Coverage) : Hash :=
  sha (asciiBytes "ironwood-receiver/v1/shard-filter\x00" ++ genesis.val ++ leBytes 4 coverage.startHeight.toNat ++
    leBytes 4 coverage.endHeight.toNat ++ coverage.endHash.val)

namespace ShardFilter

/-- `decode`. The slices are inside the string once its length is checked. -/
def decode (bytes : Bytes) : Except Error ShardFilter :=
  if Shards.maxFilterBytes < bytes.length then .error .capacity
  else if bytes.length < Shards.header ∨ bytesAt bytes 0 8 ≠ Shards.magic then .error .malformed
  else
    let length := leNat (bytesAt bytes (Shards.header - 4) 4)
    if bytes.length - Shards.header ≠ length then .error .malformed
    else
      let coverage : Coverage :=
        ⟨.ofNat (leNat (bytesAt bytes 48 4)), .ofNat (leNat (bytesAt bytes 52 4)), fixedAt bytes 56 32⟩
      if coverage.endHeight < coverage.startHeight then .error .coverage
      else do
        let (_, count) ← Gcs.visit (bytes.drop Shards.header) Shards.p Shards.m Shards.maxReceivers
          (fun _ _ => ((), false)) ()
        pure ⟨fixedAt bytes 8 32, .ofNat (leNat (bytesAt bytes 40 8)), coverage, count, bytes⟩

/-- The bytes of a filter: the header, and the set with its length. -/
def frame (genesis : Hash) (historyRevision : UInt64) (coverage : Coverage) (set : Bytes) : Bytes :=
  Shards.magic ++ genesis.val ++ leBytes 8 historyRevision.toNat ++ leBytes 4 coverage.startHeight.toNat ++
    leBytes 4 coverage.endHeight.toNat ++ coverage.endHash.val ++ leBytes 4 set.length ++ set

def build (sha : Sha256) (sip : SipHash) (genesis : Hash) (historyRevision : UInt64) (coverage : Coverage)
    (receivers : List ReceiverBytes) : Checked Error ShardFilter :=
  if coverage.endHeight < coverage.startHeight then .fails .coverage
  else do
    let distinct ← .done (collectDistinct Shards.maxReceivers [] receivers)
    let keys := Gcs.keys sha (shardSalt sha genesis coverage)
    let set ← Filter.writeSet sip keys distinct Shards.p Shards.m
    let bytes := frame genesis historyRevision coverage set
    if Shards.maxFilterBytes < bytes.length then .fails .capacity else .done (decode bytes)

/-! ## Matching -/

/-- The matcher's variables: how many values were visited, the wanted values from `next` on, and which receivers
were found. -/
structure Matcher where
  visited : Nat
  next : List (Nat × Nat)
  found : List Bool

/-- Marks the wanted entries at the front that have the value. -/
def markEqual (value : Nat) : List (Nat × Nat) → List Bool → List Bool
  | [], found => found
  | (v, index) :: wanted, found =>
    if v = value then markEqual value wanted (found.set index true) else found

/-- The visitor of `matches_visiting`, given the largest wanted value. -/
def Matcher.each (last : Nat) (s : Matcher) (value : Nat) : Matcher × Bool :=
  let next := s.next.dropWhile (·.1 < value)
  (⟨s.visited + 1, next, markEqual value next s.found⟩, next.isEmpty || decide (last ≤ value))

/-- The receivers' values with their indices, in ascending order. -/
def wanted (sip : SipHash) (keys : UInt64 × UInt64) (count : Nat) (receivers : List ReceiverBytes) :
    List (Nat × Nat) :=
  (receivers.zipIdx.map fun (receiver, index) => (Gcs.value sip keys count Shards.m receiver, index)).insertionSort
    fun a b => toLex a ≤ toLex b

/-- `matches_visiting`: which receivers may be in the set, and how many values were visited. -/
def matchesVisiting {ε : Type} (sha : Sha256) (sip : SipHash) (filter : ShardFilter) (receivers : List ReceiverBytes) :
    Checked ε (List Bool × Nat) := do
  let keys := Gcs.keys sha (shardSalt sha filter.genesis filter.coverage)
  let wanted := wanted sip keys filter.count receivers
  let found := List.replicate receivers.length false
  match wanted.getLast? with
  | none => pure (found, 0)
  | some (last, _) =>
    let (s, _) ← .expect (Gcs.visit (filter.bytes.drop Shards.header) Shards.p Shards.m Shards.maxReceivers
      (Matcher.each last) ⟨0, wanted, found⟩).toOption
    pure (s.found, s.visited)

/-- `matches`. -/
def matchReceivers {ε : Type} (sha : Sha256) (sip : SipHash) (filter : ShardFilter) (receivers : List ReceiverBytes) :
    Checked ε (List Bool) := do
  let (found, _) ← matchesVisiting sha sip filter receivers
  pure found

end ShardFilter

end Zakura.Hints
