import Mathlib.Data.List.Sort
import Mathlib.Data.Prod.Lex
import Zakura.Client.FilterSync

/-! # The companion's catalog

`catalog/*.rs`: the revisions a companion has seen, those it handed to the wallet, and the pass that classifies a map's
revisions and exports a ready batch. The store's own caches and the re-cut epoch are not part of the model. -/

namespace Zakura.Catalog

open Zakura.Filter (BlockHash ShardMapEntry SupersededShard)
open Zakura.Filter.Envelope (utf8)
open Zakura.Client (SealParameters)

inductive RecoveryError where
  | invalid (message : String)
  /-- An error of the database, of the `hex` crate or of an integer conversion. -/
  | failure

@[ext] structure PublicationAnchor where
  height : UInt32
  hash : BlockHash
deriving DecidableEq

@[ext] structure RecoveryRevision where
  source : Bytes
  revision : Bytes
  lineage : UInt64
  sealed : Bool
  publication : PublicationAnchor
deriving DecidableEq

/-! ## Identities -/

/-- The hash, the decoder of the `hex` crate and the JSON form of seal parameters. -/
structure Tools where
  sha256 : Bytes → FixedBytes 32
  hexDecode : String → Option Bytes
  sealJson : SealParameters → Bytes

structure SetIdentity where
  shardSchema : String
  network : String
  genesisHash : String
  profile : String
  rangeEnvelopeVersion : UInt16
  startHeight : UInt64
  sealParams : List (String × SealParameters)

structure Published where
  shardId : UInt64
  startHeight : UInt64
  endHeight : UInt64
  digest : String
  terminal : String
  revision : RecoveryRevision

variable (tools : Tools)

def lengthPrefixed (value : Bytes) : Bytes := leBytes 8 value.length ++ value

def sourceIdentity (binding : FixedBytes 32) (set : SetIdentity) (geometry : String) (startHeight : UInt64) :
    Except RecoveryError (FixedBytes 32) :=
  match set.sealParams.lookup geometry with
  | none => .error (.invalid "shard geometry has no seal parameters")
  | some params => .ok (tools.sha256 (utf8 "transparent-reference-source-v3" ++ binding.val ++
      lengthPrefixed (utf8 set.shardSchema) ++ lengthPrefixed (utf8 set.network) ++ lengthPrefixed (utf8 set.genesisHash) ++
      lengthPrefixed (utf8 set.profile) ++ leBytes 2 set.rangeEnvelopeVersion.toNat ++ leBytes 8 set.startHeight.toNat ++
      lengthPrefixed (utf8 geometry) ++ lengthPrefixed (tools.sealJson params) ++ leBytes 8 startHeight.toNat))

def revisionIdentity (digest : String) (sealed : Bool) : FixedBytes 32 :=
  tools.sha256 (utf8 "transparent-reference-revision-v2" ++ utf8 digest ++ [if sealed then 1 else 0])

def blockHeight (height : UInt64) : Except RecoveryError UInt32 :=
  if height.toNat < 2 ^ 32 then .ok height.toUInt32 else .error .failure

def blockHashFromDisplay (display : String) : Except RecoveryError BlockHash :=
  match tools.hexDecode display with
  | none => .error .failure
  | some bytes =>
    if bytes.length = 32 then .ok (fixedAt bytes.reverse 0 32)
    else .error (.invalid "invalid publication block hash")

/-- `Published::new`. A `Shape` has the fields of a superseded shard. -/
def Published.new (binding : FixedBytes 32) (set : SetIdentity) (shape : SupersededShard) :
    Except RecoveryError Published := do
  let source ← sourceIdentity tools binding set shape.geometry shape.startHeight
  let height ← blockHeight shape.endHeight
  let hash ← blockHashFromDisplay tools shape.terminalBlockHash
  .ok
    { shardId := shape.shardId
      startHeight := shape.startHeight
      endHeight := shape.endHeight
      digest := shape.manifestDigest
      terminal := shape.terminalBlockHash
      revision :=
        { source := source.val
          revision := (revisionIdentity tools shape.manifestDigest shape.sealed).val
          lineage := shape.revision.toUInt64 + 1
          sealed := shape.sealed
          publication := { height, hash } } }

/-! ## Tables -/

/-- A row of `pir_bridge_catalog`. -/
structure CatalogRow where
  source : Bytes
  startHeight : UInt64
  digest : String
  sealed : Bool
  lineage : UInt64
  revision : Bytes
  height : UInt32
  hash : BlockHash
  exported : Bool := false
  current : Bool := false

namespace CatalogRow

/-- The columns' `CHECK`s, and the integers that fit a column. -/
abbrev Storable (row : CatalogRow) : Prop :=
  row.source.length = 32 ∧ row.revision.length = 32 ∧ row.lineage ≠ 0 ∧ row.lineage.toNat < 2 ^ 63 ∧
    row.startHeight.toNat < 2 ^ 63

/-- Two rows break the primary key or one of the `UNIQUE` constraints. -/
abbrev Clashes (a b : CatalogRow) : Prop :=
  a.source = b.source ∧ (a.digest = b.digest ∧ a.sealed = b.sealed ∨ a.lineage = b.lineage ∨ a.revision = b.revision)

/-- The row names the entry exactly. -/
abbrev Names (row : CatalogRow) (entry : Published) : Prop :=
  row.source = entry.revision.source ∧ row.digest = entry.digest ∧ row.sealed = entry.revision.sealed ∧
    row.lineage = entry.revision.lineage ∧ row.height = entry.revision.publication.height ∧
    row.hash = entry.revision.publication.hash

end CatalogRow

/-- Both tables; a row of `pir_bridge_exports` has the columns of a revision. -/
structure Tables where
  rows : List CatalogRow := []
  exports : List RecoveryRevision := []

/-- An exported revision at the source and lineage of another, or under its identity, that differs from it. -/
abbrev RecoveryRevision.Contradicts (row revision : RecoveryRevision) : Prop :=
  row.source = revision.source ∧ (row.lineage = revision.lineage ∨ row.revision = revision.revision) ∧
    ¬ (row.lineage = revision.lineage ∧ row.revision = revision.revision ∧ row.sealed = revision.sealed ∧
      row.publication.height = revision.publication.height ∧ row.publication.hash = revision.publication.hash)

/-- `INSERT OR IGNORE`: a revision that breaks a constraint is left out. -/
def recordExport (exports : List RecoveryRevision) (revision : RecoveryRevision) : List RecoveryRevision :=
  if revision.source.length = 32 ∧ revision.revision.length = 32 ∧ revision.lineage ≠ 0 ∧
      ∀ row ∈ exports, ¬ (row.source = revision.source ∧
        (row.lineage = revision.lineage ∨ row.revision = revision.revision)) then
    exports ++ [revision]
  else exports

def newest (rows : List CatalogRow) (source : Bytes) : Option UInt64 :=
  ((rows.filter fun row => row.source = source).map CatalogRow.lineage).max?

def pruneCatalog (rows : List CatalogRow) : List CatalogRow :=
  rows.filter fun row => row.current || row.exported || !(newest rows row.source).any (row.lineage < ·)

/-! ## Declarations -/

inductive WithdrawnCause where
  | regression | equivocation | changedSealed | retired
deriving DecidableEq

/-- `differs` of `declaration_conflict`, from the last declaration on: for a source and lineage, the one revision the
declarations so far name, or nothing once they name two. -/
def differsLater : List Published → List Bool × List ((Bytes × UInt64) × Option RecoveryRevision)
  | [] => ([], [])
  | declared :: declarations =>
    let (differs, later) := differsLater declarations
    let ours := declared.revision
    let key := (ours.source, ours.lineage)
    match later.lookup key with
    | none => (false :: differs, (key, some ours) :: later)
    | some theirs =>
      if theirs = some ours then (false :: differs, later) else (true :: differs, (key, none) :: later)

/-- `declaration_conflict`. -/
def declarationConflict (published declarations : List Published) : Option WithdrawnCause :=
  (declarations.zip (differsLater declarations).1).findSome? fun (declared, differs) =>
    let ours := declared.revision
    let lineages :=
      (published.filter fun entry => entry.revision.source = ours.source).map fun entry => entry.revision.lineage
    match lineages.find? (· ≤ ours.lineage) with
    | some theirs => some (if theirs = ours.lineage then .equivocation else .regression)
    | none => if differs then some .equivocation else none

/-! ## The pass -/

inductive BatchState where
  | ready | pending | withdrawn (cause : WithdrawnCause)
deriving DecidableEq

inductive RecordedRevision where
  | matching | contradicts | unrecorded

structure CatalogPass extends Tables where
  withdrawn : Option WithdrawnCause := none
  pending : Bool := false

namespace CatalogPass

/-- The rows the map publishes or declares superseded while sealed are current. -/
def begin (catalog : Tables) (published declared : List Published) : CatalogPass where
  rows := catalog.rows.map fun row => { row with current := (published ++ declared).any fun entry => row.Names entry }
  exports := catalog.exports

def withdraw (pass : CatalogPass) (cause : WithdrawnCause) : CatalogPass :=
  { pass with withdrawn := some (pass.withdrawn.getD cause) }

def defer (pass : CatalogPass) : CatalogPass := { pass with pending := true }

def checkDeclarations (pass : CatalogPass) (published declarations : List Published) : CatalogPass :=
  match declarationConflict published declarations with
  | some cause => pass.withdraw cause
  | none => pass

def recorded (pass : CatalogPass) (entry : Published) : RecordedRevision × CatalogPass :=
  let revision := entry.revision
  if ∃ row ∈ pass.exports, row.Contradicts revision then (.contradicts, pass.withdraw .equivocation)
  else
    match pass.rows.find? fun row =>
        row.source = revision.source ∧ row.digest = entry.digest ∧ row.sealed = revision.sealed with
    | some row => if row.Names entry then (.matching, pass) else (.contradicts, pass.withdraw .equivocation)
    | none =>
      if ∃ row ∈ pass.rows, row.source = revision.source ∧ row.lineage = revision.lineage then
        (.contradicts, pass.withdraw .equivocation)
      else (.unrecorded, pass)

def rowOf (entry : Published) : CatalogRow where
  source := entry.revision.source
  startHeight := entry.startHeight
  digest := entry.digest
  sealed := entry.revision.sealed
  lineage := entry.revision.lineage
  revision := entry.revision.revision
  height := entry.revision.publication.height
  hash := entry.revision.publication.hash
  current := true

def insert (pass : CatalogPass) (entry : Published) : Except RecoveryError CatalogPass :=
  if (rowOf entry).Storable ∧ ∀ row ∈ pass.rows, ¬ row.Clashes (rowOf entry) then
    .ok { pass with rows := pass.rows ++ [rowOf entry] }
  else .error .failure

def classify (pass : CatalogPass) (entry : Published) : Except RecoveryError (Bool × CatalogPass) :=
  match pass.recorded entry with
  | (.matching, pass) => .ok (true, pass)
  | (.contradicts, pass) => .ok (false, pass)
  | (.unrecorded, pass) =>
    if (newest pass.rows entry.revision.source).any (entry.revision.lineage < ·) then
      -- An unsealed shard goes back on a lagging replica, which a later map can repair.
      .ok (false, if entry.revision.sealed then pass.withdraw .regression else pass.defer)
    else (pass.insert entry).map fun pass => (true, pass)

def admitDeclared (pass : CatalogPass) (entry : Published) : Except RecoveryError (Bool × CatalogPass) :=
  let revision := entry.revision
  if (∃ row ∈ pass.rows, row.digest = entry.digest ∧ row.sealed = revision.sealed ∧ row.source ≠ revision.source) ∨
      ∃ row ∈ pass.exports, row.revision = revision.revision ∧ row.source ≠ revision.source then
    .ok (false, pass.withdraw .equivocation)
  else
    match pass.recorded entry with
    | (.matching, pass) => .ok (true, pass)
    | (.contradicts, pass) => .ok (false, pass)
    | (.unrecorded, pass) => (pass.insert entry).map fun pass => (true, pass)

/-- One exported row of `settle`; `committed` gives the highest lineage committed for a source. -/
def settleRow (published : List Published) (committed : Bytes → Option UInt64)
    (settled : CatalogPass × List RecoveryRevision) (row : CatalogRow) : CatalogPass × List RecoveryRevision :=
  let (pass, replaced) := settled
  match published.reverse.find? fun entry => entry.revision.source = row.source with
  | some entry =>
    if row.sealed then
      (if !entry.revision.sealed && entry.revision.lineage < row.lineage then pass.defer
        else pass.withdraw .changedSealed,
        replaced)
    else if (committed row.source).any (row.lineage < ·) then
      (pass, replaced ++ [⟨row.source, row.revision, row.lineage, row.sealed, ⟨row.height, row.hash⟩⟩])
    else (pass.defer, replaced)
  | none =>
    match published.find? fun entry => entry.startHeight ≤ row.startHeight ∧ row.startHeight ≤ entry.endHeight with
    | none => (pass.defer, replaced)
    | some entry =>
      (if !entry.revision.sealed && entry.startHeight < row.startHeight then pass.defer
        else pass.withdraw .retired, replaced)

def settle (pass : CatalogPass) (published : List Published) (committed : Bytes → Option UInt64) :
    CatalogPass × List RecoveryRevision :=
  ((pass.rows.filter fun row => row.exported && !row.current).insertionSort fun a b =>
      toLex (b.startHeight.toNat, b.lineage.toNat) ≤ toLex (a.startHeight.toNat, a.lineage.toNat)).foldl
        (settleRow published committed) (pass, [])

def state (pass : CatalogPass) : BatchState :=
  match pass.withdrawn, pass.pending with
  | some cause, _ => .withdrawn cause
  | none, true => .pending
  | none, false => .ready

/-- `export`. -/
def exportAll (pass : CatalogPass) (revisions : List RecoveryRevision) : CatalogPass :=
  { pass with
    rows := pass.rows.map fun row => { row with
      exported := row.exported ||
        revisions.any fun revision => row.source = revision.source ∧ row.revision = revision.revision }
    exports := revisions.foldl recordExport pass.exports }

def finish (pass : CatalogPass) : Tables := { rows := pruneCatalog pass.rows, exports := pass.exports }

/-- What a pass may do between its beginning and its export. -/
inductive Call where
  | checkDeclarations (published declarations : List Published)
  | classify (entry : Published)
  | admitDeclared (entry : Published)
  | defer
  | settle (published : List Published) (committed : Bytes → Option UInt64)

def call (pass : CatalogPass) : Call → Except RecoveryError CatalogPass
  | .checkDeclarations published declarations => .ok (pass.checkDeclarations published declarations)
  | .classify entry => (pass.classify entry).map Prod.snd
  | .admitDeclared entry => (pass.admitDeclared entry).map Prod.snd
  | .defer => .ok pass.defer
  | .settle published committed => .ok (pass.settle published committed).1

/-- The entry that a call classifies or admits. -/
def Call.entry? : Call → Option Published
  | .classify entry | .admitDeclared entry => some entry
  | _ => none

end CatalogPass

/-! ## Between the passes -/

namespace Tables

/-- `acknowledge_in_transaction`. -/
def acknowledge (catalog : Tables) (replaced : List RecoveryRevision) : Tables :=
  { catalog with rows := pruneCatalog (catalog.rows.map fun row => { row with
      exported := row.exported && !(!row.current && replaced.any fun revision =>
        row.source = revision.source ∧ row.revision = revision.revision) }) }

def resetStoreKeepCatalog (catalog : Tables) (named : List Published) : Tables :=
  { catalog with rows := catalog.rows.map fun row => { row with
      exported := row.exported && named.any fun entry => entry.revision.source = row.source } }

end Tables

/-- The catalogs a companion reaches, with every revision it has exported. A pass that fails is rolled back. -/
inductive Reaches : Tables → List RecoveryRevision → Prop where
  | empty : Reaches {} []
  | pass {catalog : Tables} {exported revisions : List RecoveryRevision} {published declared : List Published}
      {calls : List CatalogPass.Call} {pass : CatalogPass} (hcatalog : Reaches catalog exported)
      (hderived : ∀ entry ∈ calls.filterMap CatalogPass.Call.entry?, ∃ binding set shape,
        Published.new tools binding set shape = .ok entry)
      (hcalls : calls.foldlM CatalogPass.call (.begin catalog published declared) = .ok pass) (hready : pass.state = .ready)
      (hrevisions : ∀ revision ∈ revisions, ∃ entry ∈ calls.filterMap CatalogPass.Call.entry?, entry.revision = revision) :
      Reaches (pass.exportAll revisions).finish (exported ++ revisions)
  | unready {catalog : Tables} {exported : List RecoveryRevision} {published declared : List Published}
      {calls : List CatalogPass.Call} {pass : CatalogPass} (hcatalog : Reaches catalog exported)
      (hderived : ∀ entry ∈ calls.filterMap CatalogPass.Call.entry?, ∃ binding set shape,
        Published.new tools binding set shape = .ok entry)
      (hcalls : calls.foldlM CatalogPass.call (.begin catalog published declared) = .ok pass)
      (hstate : pass.state ≠ .ready) :
      Reaches pass.finish exported
  | acknowledge {catalog : Tables} {exported : List RecoveryRevision} (hcatalog : Reaches catalog exported)
      (replaced : List RecoveryRevision) : Reaches (catalog.acknowledge replaced) exported
  | reset {catalog : Tables} {exported : List RecoveryRevision} (hcatalog : Reaches catalog exported)
      (named : List Published) : Reaches (catalog.resetStoreKeepCatalog named) exported

end Zakura.Catalog
