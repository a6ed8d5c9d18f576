import Zakura.Transparent.Compact

/-! # Page rows

Several scripts' fragments share one 4096-byte row. A run's first fragment carries the link to the script's
previous run. -/

namespace Zakura.Transparent

def pageRowBytes : Nat := 4096

def pageRowHeaderBytes : Nat := 4

def pageEntryHeaderBytes : Nat := 40

def maxEntriesPerRow : Nat := (pageRowBytes - pageRowHeaderBytes) / (pageEntryHeaderBytes + Compact.receiveBytes)

/-- `ROW_PAYLOAD`: what a row holds beside its header. -/
def rowPayload : Nat := pageRowBytes - pageRowHeaderBytes

/-- `FRAGMENT_PAYLOAD`: the event bytes of one fragment. -/
def fragmentPayload : Nat := rowPayload - pageEntryHeaderBytes

def maxPageChildren : Nat := 32

def inlineEvents : Nat := 2

/-- A salted script tag, `SCRIPT_TAG_BYTES` wide. -/
abbrev Tag := FixedBytes 14

def inOrder (events : List TransparentEvent) : Bool :=
  (events.zip events.tail).all fun pair => decide (pair.1.sortKey ≤ pair.2.sortKey)

/-- A run's link to the run before it. -/
structure RunLink where
  prevChild : UInt8 := 0
  prevRow : UInt32 := 0
  olderRuns : UInt8 := 0
deriving DecidableEq

namespace RunLink

instance : Inhabited RunLink := ⟨{}⟩

def previous (link : RunLink) : Option (UInt8 × UInt32) :=
  if link.prevRow = 0 then none else some (link.prevChild, link.prevRow - 1)

def isWellFormed (link : RunLink) : Bool :=
  if link.prevRow = 0 then link.prevChild == 0 && link.olderRuns == 0
  else link.olderRuns != 0 && decide (link.prevChild.toNat < maxPageChildren)

def debug (link : RunLink) : String :=
  let child := link.prevChild
  let row := link.prevRow
  let runs := link.olderRuns
  s!"RunLink \x7b prev_child: {child}, prev_row: {row}, older_runs: {runs} \x7d"

end RunLink

/-- One fragment of one script's history. -/
@[ext]
structure PageEntry where
  tag : Tag
  ordinal : UInt32
  fragmentCount : UInt32
  events : List TransparentEvent
  minHeight : UInt32
  maxHeight : UInt32
  link : RunLink
deriving DecidableEq

def lowestHeight (events : List TransparentEvent) : UInt32 := (events.map (·.height)).min?.getD 0

def highestHeight (events : List TransparentEvent) : UInt32 := (events.map (·.height)).max?.getD 0

namespace PageEntry

def new (tag : Tag) (ordinal fragmentCount : UInt32) (events : List TransparentEvent) :
    Except RecordError PageEntry :=
  if events.isEmpty then .error (.malformed "an entry holds no events")
  else if eventsPerPage < events.length ∨ fragmentPayload < Compact.encodedLen events then
    .error (.tooManyEvents events.length)
  else if fragmentCount = 0 ∨ fragmentCount ≤ ordinal then
    .error (.malformed s!"fragment {ordinal} of {fragmentCount}")
  else .ok { tag, ordinal, fragmentCount, events, minHeight := lowestHeight events,
             maxHeight := highestHeight events, link := {} }

def carries (ordinal : UInt32) (link : RunLink) : Bool :=
  link.isWellFormed && (ordinal == 0 || link == {})

def withLink (entry : PageEntry) (link : RunLink) : Except RecordError PageEntry :=
  if carries entry.ordinal link then .ok { entry with link }
  else
    let ordinal := entry.ordinal
    let text := link.debug
    .error (.malformed s!"fragment {ordinal} cannot carry link {text}")

def encodedLen (entry : PageEntry) : Nat := pageEntryHeaderBytes + Compact.encodedLen entry.events

def header (entry : PageEntry) : Bytes :=
  entry.tag.val ++ leBytes 4 entry.ordinal.toNat ++ leBytes 4 entry.fragmentCount.toNat ++
    leBytes 4 entry.events.length ++ leBytes 4 entry.minHeight.toNat ++ leBytes 4 entry.maxHeight.toNat ++
    [entry.link.prevChild] ++ leBytes 4 entry.link.prevRow.toNat ++ [entry.link.olderRuns]

def bytes (entry : PageEntry) : Except RecordError Bytes := do
  let events ← Compact.encode entry.events
  pure (entry.header ++ events)

end PageEntry

/-- Whether some tag stands twice in a row. -/
def repeatsTag : List Tag → Bool
  | [] => false
  | tag :: tags => tags.contains tag || repeatsTag tags

/-- The first loop of `encode_page_row`: every entry is refused or counted. -/
def countPageEntries : List PageEntry → Nat → Except RecordError Nat
  | [], used => .ok used
  | entry :: entries, used =>
    if entry.events.isEmpty ∨ eventsPerPage < entry.events.length then
      .error (.tooManyEvents entry.events.length)
    else if PageEntry.carries entry.ordinal entry.link then
      countPageEntries entries (used + entry.encodedLen)
    else .error (.malformed "a fragment carries a malformed run link")

def encodePageRow (entries : List PageEntry) : Except RecordError Bytes :=
  if maxEntriesPerRow < entries.length then .error (.tooManyEntries entries.length)
  else do
    let used ← countPageEntries entries pageRowHeaderBytes
    if pageRowBytes < used then
      let count := entries.length
      .error (.malformed s!"{count} entries need {used} bytes, a row holds {pageRowBytes}")
    else if repeatsTag (entries.map (·.tag)) then
      .error (.malformed "a page row holds a script tag twice")
    else
      let body ← entries.mapM PageEntry.bytes
      let row := leBytes 4 entries.length ++ body.flatten
      pure (row ++ List.replicate (pageRowBytes - row.length) 0)

/-- The header of an entry and its event count, as the decoder reads them. -/
def readPageHeader : Reader RecordError (Tag × UInt32 × UInt32 × UInt32 × UInt32 × UInt32 × RunLink) := do
  let past := fun _ : Nat => RecordError.malformed "entry runs past the row"
  let tag ← .takeBytes 14 past
  let ordinal ← .word32 past
  let fragmentCount ← .word32 past
  let eventCount ← .word32 past
  let minHeight ← .word32 past
  let maxHeight ← .word32 past
  let prevChild ← .byte past
  let prevRow ← .word32 past
  let olderRuns ← .byte past
  pure (tag, ordinal, fragmentCount, eventCount, minHeight, maxHeight, { prevChild, prevRow, olderRuns })

/-- One round of `decode_page_row`, after entries with the given tags. -/
def decodePageEntry (seen : List Tag) : Reader RecordError PageEntry := do
  let (tag, ordinal, fragmentCount, eventCount, minHeight, maxHeight, link) ← readPageHeader
  if eventCount = 0 ∨ eventsPerPage < eventCount.toNat then
    .fail (.malformed s!"an entry claims {eventCount} events")
  else if fragmentCount = 0 ∨ fragmentCount ≤ ordinal then
    .fail (.malformed s!"fragment {ordinal} of {fragmentCount}")
  else if PageEntry.carries ordinal link = false then
    let text := link.debug
    .fail (.malformed s!"fragment {ordinal} carries run link {text}")
  else
    let events ← Compact.decode eventCount.toNat
    if inOrder events = false then .fail (.malformed "an entry's events are not in canonical order")
    else
      let lowest := lowestHeight events
      let highest := highestHeight events
      if lowest ≠ minHeight ∨ highest ≠ maxHeight then
        .fail (.malformed s!"an entry claims heights {minHeight}-{maxHeight} but holds {lowest}-{highest}")
      else if seen.contains tag then .fail (.malformed "a page row holds a script tag twice")
      else pure { tag, ordinal, fragmentCount, events, minHeight, maxHeight, link }

/-- The loop of `decode_page_row`. -/
def decodePageEntries : Nat → List Tag → Reader RecordError (List PageEntry)
  | 0, _ => pure []
  | count + 1, seen => do
    let entry ← decodePageEntry seen
    let entries ← decodePageEntries count (seen ++ [entry.tag])
    pure (entry :: entries)

def decodePageRow (row : Bytes) : Except RecordError (List PageEntry) :=
  if row.length ≠ pageRowBytes then .error (.length row.length pageRowBytes)
  else
    let count := leNat (row.take pageRowHeaderBytes)
    if count = 0 then
      if row.any (· != 0) then .error (.malformed "an unused page row is not all zero") else .ok []
    else if maxEntriesPerRow < count then .error (.tooManyEntries count)
    else
      match (decodePageEntries count []).run (row.drop pageRowHeaderBytes) with
      | .error e => .error e
      | .ok (entries, rest) =>
        if rest.any (· != 0) then .error (.malformed "a page row has content past its entries")
        else .ok entries

end Zakura.Transparent
