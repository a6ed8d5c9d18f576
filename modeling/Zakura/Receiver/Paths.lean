import Zakura.Lib.CompleteTree
import Zakura.Lib.OrderedMap
import Zakura.Receiver.Record

/-! # Lower inclusion paths

`receiver/witness/paths.rs`: the complete nodes of one shard of the note commitment tree, from which every payment in
it gets its siblings. -/

namespace Zakura.Receiver

def shardLeaves : Nat := 1 <<< lowerLevels

/-- `is_final`: the position's shard is full at the tree's size. -/
def isFinal (position size : Nat) : Bool := ((position >>> lowerLevels) + 1) <<< lowerLevels ≤ size

/-- The hash of the note commitment tree. -/
structure NodeHash where
  Node : Type
  /-- The leaf of a commitment, if its bytes are canonical. -/
  ofCommitment : Hash → Option Node
  toBytes : Node → Hash
  combine : Nat → Node → Node → Node

structure ShardPaths (N : NodeHash) where
  shard : Nat
  /-- The shard's complete subtree roots at each level, left to right. -/
  levels : List (List N.Node)

namespace ShardPaths

variable {N : NodeHash}

def new (shard : Nat) : ShardPaths N := ⟨shard, List.replicate (lowerLevels + 1) []⟩

def leaves (paths : ShardPaths N) : List N.Node := paths.levels.headD []

/-- The loop of `extend` at one level: parents are added as long as they have two children. -/
def addParents (f : N.Node → N.Node → N.Node) (children : List N.Node) : Nat → List N.Node → List N.Node
  | 0, parents => parents
  | fuel + 1, parents =>
    if 2 * (parents.length + 1) ≤ children.length then
      match children[2 * parents.length]?, children[2 * parents.length + 1]? with
      | some left, some right => addParents f children fuel (parents ++ [f left right])
      | _, _ => parents
    else parents

/-- The loop of `extend` over the levels above the one that grew. -/
def addLevels : Nat → List N.Node → List (List N.Node) → List (List N.Node)
  | _, _, [] => []
  | level, children, parents :: upper =>
    let parents := addParents (N.combine level) children children.length parents
    parents :: addLevels (level + 1) parents upper

def leafOf (commitment : Hash) : Except Error N.Node :=
  match N.ofCommitment commitment with
  | some leaf => .ok leaf
  | none => .error .malformed

def extend (paths : ShardPaths N) (commitments : List Hash) : Except Error (ShardPaths N) :=
  if shardLeaves < paths.leaves.length + commitments.length then .error .capacity
  else do
    let added ← commitments.mapM leafOf
    let leaves := paths.leaves ++ added
    pure { paths with levels := leaves :: addLevels 0 leaves paths.levels.tail }

def extendAll (paths : ShardPaths N) (batches : List (List Hash)) : Except Error (ShardPaths N) :=
  batches.foldlM extend paths

def treeSize (paths : ShardPaths N) : Nat := (paths.shard <<< lowerLevels) + paths.leaves.length

def root (paths : ShardPaths N) : Option Hash := (paths.levels.getD lowerLevels []).head?.map N.toBytes

/-- The sibling at a level of the leaf at an index, if its subtree is complete. -/
def sibling (paths : ShardPaths N) (index level : Nat) : Option N.Node :=
  (paths.levels.getD level [])[(index >>> level) ^^^ 1]?

def siblings (paths : ShardPaths N) (index : Nat) : Siblings :=
  ⟨(List.range lowerLevels).map fun level => (paths.sibling index level).map N.toBytes, by simp⟩

def payload (paths : ShardPaths N) (position : Nat) : Except Error Bytes :=
  let start := paths.shard <<< lowerLevels
  if position < start ∨ paths.leaves.length ≤ position - start then .error .coverage
  else
    match encodePayload (paths.siblings (position - start)) position paths.treeSize with
    | some bytes => .ok bytes
    | none => .error .malformed

end ShardPaths

variable (N : NodeHash)

/-- The shard that holds a position, from the commitments of the whole tree. -/
def shardAt (commitments : List Hash) (shard : Nat) : Except Error (ShardPaths N) :=
  let start := shard <<< lowerLevels
  let stop := min commitments.length (start + shardLeaves)
  (ShardPaths.new (shard % 2 ^ 32)).extend ((commitments.take stop).drop start)

/-- The shard kept from an earlier position, or a new one. -/
def keptShard (commitments : List Hash) (shards : OrderedMap Nat (ShardPaths N)) (shard : Nat) :
    Except Error (ShardPaths N) :=
  match shards[shard]? with
  | some paths => .ok paths
  | none => shardAt N commitments shard

/-- The loop of `payloads`, with the shards built so far. -/
def payloadsFrom (commitments : List Hash) : OrderedMap Nat (ShardPaths N) → List Nat → Except Error (List Bytes)
  | _, [] => .ok []
  | shards, position :: positions =>
    if commitments.length ≤ position then .error .coverage
    else do
      let shard := position >>> lowerLevels
      let paths ← keptShard N commitments shards shard
      let first ← paths.payload position
      let rest ← payloadsFrom commitments (shards.insert shard paths) positions
      pure (first :: rest)

def payloads (commitments : List Hash) (positions : List Nat) : Except Error (List Bytes) :=
  payloadsFrom N commitments ∅ positions

end Zakura.Receiver
