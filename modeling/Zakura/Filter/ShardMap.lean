import Zakura.Display.Map

/-! # The published shard map

The height-to-shard map, and the re-cuts that replaced earlier entries of it. -/

namespace Zakura.Filter

def maxSuperseded : Nat := 65536

def maxDeclaredHeight : Nat := 2 ^ 32 - 1

def isDigest (value : String) : Bool := Display.isDigest value

/-- One entry of the map, as far as its shape is checked. -/
structure ShardMapEntry where
  shardId : UInt64
  geometry : String
  startHeight : UInt64
  endHeight : UInt64
  parentBlockHash : String
  terminalBlockHash : String
  directorySegments : UInt32
  pageSegments : UInt32
  manifestDigest : String
  revision : UInt32
  sealed : Bool
deriving DecidableEq

/-- A map entry a re-cut replaced, as the earlier map published it. -/
structure SupersededShard where
  shardId : UInt64
  geometry : String
  startHeight : UInt64
  endHeight : UInt64
  terminalBlockHash : String
  manifestDigest : String
  revision : UInt32
  sealed : Bool
deriving DecidableEq

/-- One re-cut: every entry the map published from a height on, before it was cut again. -/
structure Recut where
  epoch : UInt32
  fromHeight : UInt64
  superseded : List SupersededShard
deriving DecidableEq

structure ShardMap where
  startHeight : UInt64
  /-- The geometries with seal parameters: the keys of `seal`. -/
  sealKeys : List String
  shards : List ShardMapEntry
  recuts : List Recut
deriving DecidableEq

namespace ShardMap

/-- Where a shard lies from a height, for the search. -/
def compareHeight (height : UInt64) (shard : ShardMapEntry) : Ordering :=
  if shard.endHeight < height then .lt
  else if height < shard.startHeight then .gt
  else .eq

def shardForHeight (map : ShardMap) (height : UInt64) : Option ShardMapEntry := do
  let index ← (binarySearchBy (compareHeight height) map.shards).toOption
  map.shards[index]?

/-! ## Re-cuts -/

/-- The revision a published geometry and start height carries. -/
def current (map : ShardMap) (geometry : String) (startHeight : UInt64) : Option UInt32 :=
  ((map.shards.filter fun entry => entry.geometry = geometry ∧ entry.startHeight = startHeight).getLast?).map
    (·.revision)

def follows (previous shard : SupersededShard) : Bool :=
  previous.endHeight.toNat + 1 = shard.startHeight.toNat ∧ previous.shardId.toNat + 1 = shard.shardId.toNat

/-- One entry of a re-cut: its index, whether it is the last, the entry before it and the digests declared so far. -/
def checkSupersededShard (map : ShardMap) (recut : Recut) (index : Nat) (previous : Option SupersededShard)
    (digests : List String) (shard : SupersededShard) : Except String Unit :=
  let epoch := recut.epoch.toNat
  let id := shard.shardId.toNat
  let first := shard.startHeight.toNat
  let last := shard.endHeight.toNat
  let digest := shard.manifestDigest
  let geometry := shard.geometry
  if last < first ∨ maxDeclaredHeight < last then
    .error s!"re-cut {epoch} supersedes a shard whose range {first}..={last} is no block range"
  else if previous.any fun previous => !follows previous shard then
    .error s!"re-cut {epoch} supersedes shards that do not follow one another"
  else if ¬ shard.sealed ∧ index + 1 ≠ recut.superseded.length then
    .error s!"re-cut {epoch} supersedes unsealed shard {id} before its last"
  else if ¬ isDigest digest then .error s!"re-cut {epoch} supersedes shard {id} without a manifest digest"
  else if ¬ isDigest shard.terminalBlockHash then
    .error s!"re-cut {epoch} supersedes shard {id} without a terminal block hash"
  else if digest ∈ map.shards.map (·.manifestDigest) then
    .error s!"re-cut {epoch} supersedes {digest} but the map still publishes it"
  else if digest ∈ digests then .error s!"{digest} is superseded twice"
  else if geometry ∉ map.sealKeys then
    .error s!"re-cut {epoch} supersedes a {geometry} shard but the map publishes no seal parameters for it"
  else if (map.current geometry shard.startHeight).any (· ≤ shard.revision) then
    .error s!"shard at {first} keeps its geometry across re-cut {epoch} without a higher revision"
  else .ok ()

/-- The loop over a re-cut's entries; it returns the digests declared after it. -/
def checkSuperseded (map : ShardMap) (recut : Recut) :
    Nat → Option SupersededShard → List String → List SupersededShard → Except String (List String)
  | _, _, digests, [] => .ok digests
  | index, previous, digests, shard :: shards => do
    map.checkSupersededShard recut index previous digests shard
    map.checkSuperseded recut (index + 1) (some shard) (shard.manifestDigest :: digests) shards

/-- One re-cut against the epoch before it and the digests declared so far. -/
def checkRecut (map : ShardMap) (before : UInt32) (digests : List String) (recut : Recut) :
    Except String (List String) :=
  let epoch := recut.epoch.toNat
  let last := before.toNat
  let height := recut.fromHeight.toNat
  if recut.epoch ≤ before then .error s!"re-cut epoch {epoch} does not rise above {last}"
  else if maxDeclaredHeight < height then .error s!"re-cut {epoch} starts at {height}, above any block height"
  else
    match recut.superseded.head? with
    | none => .error s!"re-cut {epoch} supersedes nothing"
    | some first =>
      let start := first.startHeight.toNat
      if first.startHeight ≠ recut.fromHeight then
        .error s!"re-cut {epoch} starts at {height} but supersedes from {start}"
      else map.checkSuperseded recut 0 none digests recut.superseded

/-- The loop over the re-cuts. -/
def checkRecutsFrom (map : ShardMap) : UInt32 → List String → List Recut → Except String Unit
  | _, _, [] => .ok ()
  | before, digests, recut :: recuts => do
    let digests ← map.checkRecut before digests recut
    map.checkRecutsFrom recut.epoch digests recuts

def checkRecuts (map : ShardMap) : Except String Unit :=
  let total := (map.recuts.map fun recut => recut.superseded.length).sum
  if maxSuperseded < total then
    .error s!"the map declares {total} superseded entries, more than {maxSuperseded}"
  else do
    map.checkRecutsFrom 0 [] map.recuts
    match map.recuts.getLast? with
    | none => .ok ()
    | some recut =>
      let epoch := recut.epoch.toNat
      let height := recut.fromHeight.toNat
      if (map.shardForHeight recut.fromHeight).all fun shard => shard.startHeight ≠ recut.fromHeight then
        .error s!"re-cut {epoch} starts at {height}, which is no shard boundary of this map"
      else .ok ()

/-! ## The shape -/

def checkNeighbours (index : Nat) (previous shard : ShardMapEntry) : Except String Unit :=
  let id := shard.shardId.toNat
  let previousId := previous.shardId.toNat
  let start := shard.startHeight.toNat
  let last := previous.endHeight.toNat
  if previous.endHeight.toNat + 1 ≠ shard.startHeight.toNat then
    .error s!"shard {index} starts at {start} but shard {previousId} ends at {last}"
  else if shard.parentBlockHash ≠ previous.terminalBlockHash then
    .error s!"shard {id} does not chain to shard {previousId}"
  else if ¬ previous.sealed then .error s!"shard {id} follows unsealed shard {previousId}"
  else .ok ()

def checkEntry (map : ShardMap) (index : Nat) (shard : ShardMapEntry) : Except String Unit :=
  let id := shard.shardId.toNat
  let geometry := shard.geometry
  if id ≠ index then .error s!"shard at position {index} claims id {id}"
  else if shard.endHeight < shard.startHeight then .error s!"shard {index} ends before it starts"
  else if shard.directorySegments = 0 ∨ shard.pageSegments = 0 then .error s!"shard {index} declares no segments"
  else if geometry.isEmpty then .error s!"shard {index} names no geometry"
  else if geometry ∉ map.sealKeys then
    .error s!"shard {index} is {geometry} but the map publishes no seal parameters for it"
  else if ¬ isDigest shard.manifestDigest then
    .error s!"shard {index} has no manifest digest to identify its revision"
  else .ok ()

/-- The loop of `check_shape` over the shards. -/
def checkShards (map : ShardMap) : Nat → Option ShardMapEntry → List ShardMapEntry → Except String Unit
  | _, _, [] => .ok ()
  | index, previous, shard :: shards => do
    map.checkEntry index shard
    previous.forM fun previous => checkNeighbours index previous shard
    map.checkShards (index + 1) (some shard) shards

def checkShape (map : ShardMap) : Except String Unit :=
  match map.shards.head? with
  | none => .error "shard map is empty"
  | some first =>
    let start := first.startHeight.toNat
    let mapStart := map.startHeight.toNat
    if first.startHeight ≠ map.startHeight then
      .error s!"shard 0 starts at {start} but the map starts at {mapStart}"
    else do
      map.checkShards 0 none map.shards
      map.checkRecuts

/-! ## Revisions of a geometry and start height -/

def recutsByEpoch (map : ShardMap) : List Recut := map.recuts.mergeSort fun a b => a.epoch ≤ b.epoch

/-- The revisions of a geometry and start height: those superseded, by re-cut epoch, and the published one. -/
def revisions (map : ShardMap) (geometry : String) (startHeight : UInt64) : List UInt32 :=
  ((map.recutsByEpoch.flatMap (·.superseded)).filter fun shard =>
      shard.geometry = geometry ∧ shard.startHeight = startHeight).map (·.revision) ++
    (map.shards.filter fun entry => entry.geometry = geometry ∧ entry.startHeight = startHeight).map (·.revision)

end ShardMap

end Zakura.Filter
