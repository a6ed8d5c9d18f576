import Zakura.Client.Checks

/-! # Reading a history

The chain of a script's runs read from its directory entry, every check of a walk applied at every step. This
is a walk that nothing interrupts and that finds nothing cached. -/

namespace Zakura.Client

open Zakura.Transparent

/-- `entry_in`, from the row that holds the tag on: what is checked of a directory entry before a page is
read. -/
def checkEntry (entry : ShardMapEntry) (manifest : ShardManifest) (geometry : Geometry) (found : DirectoryEntry) :
    Except SyncError Unit :=
  let shardId := entry.shardId
  if found.inline.any fun event =>
      decide (event.height.toNat < entry.startHeight ∨ entry.endHeight < event.height.toNat) then
    .error (.content s!"shard {shardId} holds an inline event outside its range")
  else match found.head with
    | some (child, row) => (locate manifest geometry shardId child row.toNat).map fun _ => ()
    | none => .ok ()

/-- The loop of `entry_in` over the entries of one row. -/
def scanDirectory (shardId row : Nat) (wanted : Tag) :
    List DirectoryEntry → Option (Nat × DirectoryEntry) → Except SyncError (Option (Nat × DirectoryEntry))
  | [], found => .ok found
  | candidate :: entries, found =>
    if candidate.tag ≠ wanted then scanDirectory shardId row wanted entries found
    else match found with
      | some (seenRow, seen) =>
        -- Both candidate hashes can name one row: its second sighting is the same entry.
        if seenRow = row then scanDirectory shardId row wanted entries (some (seenRow, seen))
        else .error (.content s!"shard {shardId} holds a script tag twice")
      | none => scanDirectory shardId row wanted entries (some (row, candidate))

/-- The loop of `entry_in` over the rows of the replies. -/
def scanReplies (shardId children : Nat) (wanted : Tag) :
    List (Nat × Bytes) → Option (Nat × DirectoryEntry) → Except SyncError (Option (Nat × DirectoryEntry))
  | [], found => .ok found
  | (row, raw) :: rows, found => do
    let decoded ← (decodeDirectoryRow raw children).mapError fun error =>
      let why := error.message
      SyncError.content s!"shard {shardId}: {why}"
    let found ← scanDirectory shardId row wanted decoded found
    scanReplies shardId children wanted rows found

/-- `entry_in`: the entry with the tag among the replies to a script's candidate rows. -/
def entryIn (entry : ShardMapEntry) (manifest : ShardManifest) (geometry : Geometry) (wanted : Tag)
    (replies : List (Nat × Reply)) : Except SyncError (Option DirectoryEntry) := do
  let rows := replies.flatMap fun reply => reply.2.map fun raw => (reply.1, raw)
  let found ← scanReplies entry.shardId manifest.pageChildren.length wanted rows none
  match found with
  | none => pure none
  | some (_, found) =>
    checkEntry entry manifest geometry found
    pure (some found)

section Reading

variable (sha256 : Bytes → FixedBytes 32) (walker : Walker) (replies : RowRequest → Reply) (script : Bytes)

/-- The fragments of a run after its first, each located, read and checked against the one before it. -/
def readFragments (cursor : RunCursor) (count : UInt32) : Nat → Nat → PageBoundary →
    Except SyncError (List TransparentEvent)
  | 0, _, _ => .ok []
  | left + 1, ordinal, boundary => do
    let request ← walker.locate cursor.child (cursor.row.toNat + ordinal)
    let fragment ← walker.fragment sha256 script cursor.child (replies request) (UInt32.ofNat ordinal) (some count)
    let boundary ← validatePageBoundary (some boundary) fragment.events
    let rest ← readFragments cursor count left (ordinal + 1) boundary
    pure (fragment.events ++ rest)

/-- One run and its link, before the history `carried`. -/
def readRun (cursor : RunCursor) (carried : List TransparentEvent) :
    Except SyncError (List TransparentEvent × RunLink) := do
  let request ← walker.locate cursor.child cursor.row.toNat
  let head ← walker.fragment sha256 script cursor.child (replies request) 0 none
  let _ ← walker.locate cursor.child (Walker.lastRow head cursor)
  walker.checkLink head cursor
  let boundary ← validatePageBoundary none head.events
  let rest ← readFragments sha256 walker replies script cursor head.fragmentCount
    (head.fragmentCount.toNat - 1) 1 boundary
  let run := head.events ++ rest
  let page ← walker.child cursor.child
  checkRun page run carried
  pure (run, head.link)

/-- The runs from a cursor back to the oldest, newest first; `none` when the fuel runs out before the oldest. -/
def readChain : Nat → RunCursor → List TransparentEvent → Option (Except SyncError (List (List TransparentEvent)))
  | 0, _, _ => none
  | fuel + 1, cursor, carried =>
    match readRun sha256 walker replies script cursor carried with
    | .error error => some (.error error)
    | .ok (run, link) =>
      match link.previous with
      | none => some (.ok [run])
      | some (child, row) =>
        (readChain fuel { child, row, olderRuns := some (link.olderRuns - 1) }
          ((run ++ carried).take inlineEvents)).map fun older => older.map (run :: ·)

/-- A script's events in the shard, oldest first, from its directory entry. Links lead to earlier page shards only, so
fuel past the number of the newest run's page shard is enough. -/
def readHistory (found : DirectoryEntry) : Option (Except SyncError (List TransparentEvent)) :=
  match found.head with
  | none => some (.ok found.inline)
  | some (child, row) =>
    (readChain sha256 walker replies script (child.toNat + 1) { child, row, olderRuns := none } found.inline).map
      fun runs => runs.map fun runs => runs.reverse.flatten ++ found.inline

end Reading

end Zakura.Client
