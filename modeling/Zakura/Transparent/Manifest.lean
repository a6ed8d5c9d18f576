import Zakura.Transparent.Layout
import Zakura.Transparent.Tag

/-! # Shard manifests

What a directory shard publishes about its page shards. Digests and block hashes are their bytes. -/

namespace Zakura.Transparent

structure TableGeometry where
  rows : Nat
  rowBytes : Nat
  sha256 : FixedBytes 32
deriving DecidableEq

structure PageChildOccupancy where
  pageRows : Nat
  fragments : Nat
  runs : Nat
  events : Nat
deriving DecidableEq

structure PageChild where
  index : Nat
  startHeight : Nat
  endHeight : Nat
  terminalBlockHash : BlockHash
  tagSaltCounter : Nat
  sealed : Bool
  pageSegments : List TableGeometry
  occupancy : PageChildOccupancy
deriving DecidableEq

def queryRowQuantum : Nat := 2048

namespace PageChild

/-- `query_rows`: the rows a query of this page shard selects over. -/
def queryRows (child : PageChild) : Nat :=
  let full := (child.pageSegments.head?.map (·.rows)).getD 0
  if child.pageSegments.length ≠ 1 then full
  else
    let held := max child.occupancy.pageRows 1
    min ((held + queryRowQuantum - 1) / queryRowQuantum * queryRowQuantum) full

end PageChild

/-- The fields of a manifest that reading histories depends on. -/
structure ShardManifest where
  shardId : Nat
  startHeight : Nat
  endHeight : Nat
  parentBlockHash : BlockHash
  terminalBlockHash : BlockHash
  tagSaltCounter : Nat
  parentManifestDigest : Bytes
  sealed : Bool
  pageChildren : List PageChild
deriving DecidableEq

namespace ShardManifest

def child (manifest : ShardManifest) (child : Nat) : Option PageChild := manifest.pageChildren[child]?

end ShardManifest

end Zakura.Transparent
