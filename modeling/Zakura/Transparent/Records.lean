import Zakura.Transparent.PageRow

/-! # Directory rows

A directory entry names a script by its tag, carries its one or two newest events and points at its newest
run. Entries of several scripts share one 4096-byte row. -/

namespace Zakura.Transparent

def maxScriptBytes : Nat := 40

def directoryRowBytes : Nat := 4096

def directoryRowHeaderBytes : Nat := 4

def directoryEntryHeaderBytes : Nat := 19

def directorySlots : Nat :=
  (directoryRowBytes - directoryRowHeaderBytes) / (directoryEntryHeaderBytes + Compact.receiveBytes)

def flagOneInline : UInt8 := 0x80

def childMask : UInt8 := 0x1f

def reservedFlags : UInt8 := 0x60

@[ext]
structure DirectoryEntry where
  /-- The placement key, which is not on the wire. -/
  script : Bytes
  tag : Tag
  /-- Builder metadata, which is not on the wire. -/
  eventCount : Nat
  inline : List TransparentEvent
  headChild : UInt8
  headRow : UInt32
deriving DecidableEq

namespace DirectoryEntry

def head (entry : DirectoryEntry) : Option (UInt8 × UInt32) :=
  if entry.headRow = 0 then none else some (entry.headChild, entry.headRow - 1)

def flagsChild (entry : DirectoryEntry) : UInt8 :=
  entry.headChild ||| if entry.inline.length = 1 then flagOneInline else 0

def encode (entry : DirectoryEntry) : Except RecordError Bytes :=
  if maxScriptBytes < entry.script.length then .error (.scriptTooLong entry.script.length)
  else if entry.inline.isEmpty ∨ inlineEvents < entry.inline.length ∨
      entry.headRow ≠ 0 ∧ entry.inline.length ≠ inlineEvents then
    .error (.malformed "invalid inline count")
  else if maxPageChildren ≤ entry.headChild.toNat ∨ entry.headRow = 0 ∧ entry.headChild ≠ 0 then
    .error (.malformed "invalid page shard number")
  else if inOrder entry.inline = false then .error (.malformed "inline events out of order")
  else do
    let events ← Compact.encode entry.inline
    pure (entry.tag.val ++ [entry.flagsChild] ++ leBytes 4 entry.headRow.toNat ++ events)

/-- `DirectoryEntry::decode`, for a shard that declares `children` page shards. -/
def decode (children : Nat) : Reader RecordError DirectoryEntry := do
  let remaining ← .remaining
  if remaining < directoryEntryHeaderBytes then .fail (.malformed "truncated directory entry")
  else
    let past := fun _ : Nat => RecordError.malformed "truncated directory entry"
    let tag ← .takeBytes 14 past
    let flags ← .byte past
    let headRow ← .word32 past
    let headChild := flags &&& childMask
    let one := flags &&& flagOneInline ≠ 0
    if flags &&& reservedFlags ≠ 0 then
      let text := hexByte flags
      .fail (.malformed s!"reserved directory flag bits are set: {text}")
    else if headRow = 0 ∧ headChild ≠ 0 then
      .fail (.malformed "an entry without pages names a page shard")
    else if headRow ≠ 0 ∧ one then
      .fail (.malformed "an entry with pages carries one inline event")
    else if headRow ≠ 0 ∧ children ≤ headChild.toNat then
      .fail (.malformed s!"an entry names page shard {headChild} of {children}")
    else
      let count := if one then 1 else inlineEvents
      let inline ← Compact.decode count
      if inOrder inline = false then .fail (.malformed "inline events out of order")
      else pure { script := [], tag, eventCount := count, inline, headChild, headRow }

end DirectoryEntry

/-- The loop of `encode_directory_row`, after entries with the given tags. -/
def encodeDirectoryEntries : List DirectoryEntry → List Tag → Except RecordError Bytes
  | [], _ => .ok []
  | entry :: entries, seen =>
    if seen.contains entry.tag then .error (.malformed "duplicate directory tag")
    else do
      let bytes ← entry.encode
      let rest ← encodeDirectoryEntries entries (seen ++ [entry.tag])
      pure (bytes ++ rest)

def encodeDirectoryRow (entries : List DirectoryEntry) : Except RecordError Bytes :=
  if directorySlots < entries.length then .error (.tooManyEntries entries.length)
  else do
    let body ← encodeDirectoryEntries entries []
    let row := leBytes 4 entries.length ++ body
    if directoryRowBytes < row.length then .error (.malformed "directory row byte capacity exceeded")
    else pure (row ++ List.replicate (directoryRowBytes - row.length) 0)

/-- The loop of `decode_directory_row`, after entries with the given tags. -/
def decodeDirectoryEntries (children : Nat) : Nat → List Tag → Reader RecordError (List DirectoryEntry)
  | 0, _ => pure []
  | count + 1, seen => do
    let entry ← DirectoryEntry.decode children
    if seen.contains entry.tag then .fail (.malformed "duplicate directory tag")
    else
      let entries ← decodeDirectoryEntries children count (seen ++ [entry.tag])
      pure (entry :: entries)

def decodeDirectoryRow (row : Bytes) (children : Nat) : Except RecordError (List DirectoryEntry) :=
  if row.length ≠ directoryRowBytes then .error (.length row.length directoryRowBytes)
  else
    let count := leNat (row.take directoryRowHeaderBytes)
    if directorySlots < count then .error (.tooManyEntries count)
    else
      match (decodeDirectoryEntries children count []).run (row.drop directoryRowHeaderBytes) with
      | .error e => .error e
      | .ok (entries, rest) => if rest.any (· != 0) then .error .reserved else .ok entries

end Zakura.Transparent
