import Zakura.Client.MemoryStore

/-! # Progress kept by the store

`progress.rs`: how far the scripts of a wallet are covered, from the ranges saved for them. -/

namespace Zakura.Client

open Zakura.Transparent

/-- `SetIdentity`, as far as the progress reads it. -/
structure SetIdentity where
  startHeight : Nat
deriving DecidableEq

/-- A store with the shard set it is bound to. -/
class BoundStore (S : Type) extends WalletStore S where
  setIdentity : S → Except StoreError (Option SetIdentity)

/-- How far one script's ranges reach, given the first gap they leave. -/
def reachOf (ranges : List CoverageRange) (start through : Nat) : Nat :=
  let firstGap := (uncovered ranges start through).head?.map Prod.fst
  firstGap.elim through (· - 1)

/-- The loop of `coverage` over the scripts and their ranges. -/
def narrow (start through : Nat) (reached : Nat × Nat) (saved : ScriptEntry × List CoverageRange) : Nat × Nat :=
  let first := max saved.1.requiredFrom start
  let sealed := saved.2.filter fun range => range.kind = .settled
  (min reached.1 (reachOf saved.2 first through), min reached.2 (reachOf sealed first through))

def retainedEnd (anchor : Nat) (saved : List (ScriptEntry × List CoverageRange)) : Nat :=
  saved.foldl (fun retained saved => saved.2.foldl (fun height range => max height range.endHeight) retained) anchor

/-- `coverage`: the heights through which all scripts are covered and settled. -/
def coverage {S : Type} [BoundStore S] (store : S) (through : Option Nat) : Except StoreError (Nat × Nat) := do
  let identity ← BoundStore.setIdentity store
  let start := identity.elim 0 SetIdentity.startHeight
  let floor := start - 1
  let entries ← WalletStore.scripts store
  let anchor ← WalletStore.anchor store
  let saved ← entries.mapM fun entry => do
    let ranges ← WalletStore.coverage store entry.script
    pure (entry, ranges)
  let through := through.getD (retainedEnd (anchor.elim floor Anchor.height) saved)
  let floor := min floor through
  if saved.isEmpty then pure (through, through)
  else
    let reached := saved.foldl (narrow start through) (through, through)
    pure (max reached.1 floor, max reached.2 floor)

/-! ## The gaps in machine words -/

/-- `a + b` as a `u64`, unless it overflows. -/
def checkedAdd (a b : Nat) : Option Nat := if a + b < 2 ^ 64 then some (a + b) else none

/-- `a - b` as a `u64`, unless it overflows. -/
def checkedSub (a b : Nat) : Option Nat := if b ≤ a then some (a - b) else none

def checkedGap (next startHeight : Nat) : Option (List (Nat × Nat)) :=
  if next < startHeight then (checkedSub startHeight 1).map fun last => [(next, last)] else some []

/-- `uncoveredFrom` with every operation checked. -/
def checkedUncoveredFrom (through : Nat) : List CoverageRange → Nat → Option (List (Nat × Nat))
  | [], next => some [(next, through)]
  | range :: ranges, next =>
    if range.endHeight < next ∨ range.endHeight < range.startHeight then checkedUncoveredFrom through ranges next
    else if through < range.startHeight then some [(next, through)]
    else do
      let gap ← checkedGap next range.startHeight
      if through ≤ range.endHeight then pure gap
      else
        let after ← checkedAdd range.endHeight 1
        let gaps ← checkedUncoveredFrom through ranges (max next after)
        pure (gap ++ gaps)

/-- `uncovered` with every operation checked. -/
def checkedUncovered (ranges : List CoverageRange) (start through : Nat) : Option (List (Nat × Nat)) :=
  if through < start then some []
  else checkedUncoveredFrom through (ranges.insertionSort fun a b => a.startHeight ≤ b.startHeight) start

/-! ## A store in memory and its set -/

/-- `MemoryStore` with the set it is bound to. -/
structure BoundMemoryStore extends MemoryStore where
  identity : Option SetIdentity := none

instance : BoundStore BoundMemoryStore where
  anchor store := WalletStore.anchor store.toMemoryStore
  scripts store := WalletStore.scripts store.toMemoryStore
  coverage store := WalletStore.coverage store.toMemoryStore
  provisional store := WalletStore.provisional store.toMemoryStore
  events store := WalletStore.events store.toMemoryStore
  commitShard store commit :=
    (store.toMemoryStore.commitShard commit).map fun after => { after with identity := store.identity }
  commitAnchor store anchor settledThrough coveredThrough :=
    .ok { store.toMemoryStore.commitAnchor anchor settledThrough coveredThrough with identity := store.identity }
  rollbackAbove store accepted := .ok { store.toMemoryStore.rollbackAbove accepted with identity := store.identity }
  promoteProvisional store shardId revisionDigest :=
    .ok { store.toMemoryStore.promoteProvisional shardId revisionDigest with identity := store.identity }
  pending store := WalletStore.pending store.toMemoryStore
  cachedRun store := WalletStore.cachedRun store.toMemoryStore
  pendingLimit store := WalletStore.pendingLimit store.toMemoryStore
  entryFailures store := WalletStore.entryFailures store.toMemoryStore
  setIdentity store := .ok store.identity

end Zakura.Client
