import Zakura.Display.Map

/-! # Where display shards seal

The unsealed range seals its oldest blocks as an archive at the first height where every archive bucket holds the
target, once that height is far enough below the tip. Words are 64 bits wide and wrap. -/

namespace Zakura.Display

/-- One block's records, counted per archive bucket and per recent bucket. -/
structure HeightCounts where
  archive : List UInt32
  recent : List UInt32
deriving DecidableEq

/-- The sums with a block's counts added, bucket by bucket. -/
def addCounts : List Nat → List UInt32 → List Nat
  | sum :: sums, count :: counts => (sum + count.toNat) % 2 ^ 64 :: addCounts sums counts
  | sums, _ => sums

/-- The loop of `archive_boundary` from a block's index and the sums before it. -/
def boundaryLoop (params : DisplaySealParams) (start : Nat) : Nat → List Nat → List HeightCounts → Option Nat
  | _, _, [] => none
  | i, sums, block :: counts =>
    let sums := addCounts sums block.archive
    if sums.all fun sum => params.archiveTarget ≤ sum then some ((start + i) % 2 ^ 64)
    else boundaryLoop params start (i + 1) sums counts

def archiveBoundary (params : DisplaySealParams) (start : Nat) (counts : List HeightCounts) : Option Nat :=
  boundaryLoop params start 0 (List.replicate params.nArchive 0) counts

/-- The loop of `plan_seals` from the first unsealed block; every seal takes at least one block, so their number
bounds the fuel. -/
def planLoop (params : DisplaySealParams) (start tip : Nat) (counts : List HeightCounts) :
    Nat → Nat → List (Nat × Nat)
  | 0, _ => []
  | fuel + 1, unsealed =>
    if unsealed < counts.length then
      let first := (start + unsealed) % 2 ^ 64
      match archiveBoundary params first (counts.drop unsealed) with
      | none => []
      | some height =>
        if tip < (height + params.reorgMargin) % 2 ^ 64 then []
        else (first, height) :: planLoop params start tip counts fuel (height - start + 1)
    else []

/-- `plan_seals`: every seal the rule makes over the blocks from `start` on, as first and last height. -/
def planSeals (params : DisplaySealParams) (start : Nat) (counts : List HeightCounts) : List (Nat × Nat) :=
  match counts.length with
  | 0 => []
  | last + 1 => planLoop params start ((start + last) % 2 ^ 64) counts counts.length 0

/-! ## Sealing as the tip advances -/

def unsealedAfter (start unsealed : Nat) (seals : List (Nat × Nat)) : Nat :=
  (seals.getLast?.map fun sealed => sealed.2 - start + 1).getD unsealed

/-- Planning at each tip (as the number of blocks below and at it), from the first block the seals before left. -/
def planTips (params : DisplaySealParams) (start : Nat) (counts : List HeightCounts) :
    List Nat → Nat → List (Nat × Nat)
  | [], _ => []
  | tip :: tips, unsealed =>
    let seals := planSeals params (start + unsealed) ((counts.take tip).drop unsealed)
    seals ++ planTips params start counts tips (unsealedAfter start unsealed seals)

end Zakura.Display
