import Zakura.Lib.Slice
import Zakura.Transparent.Records

/-! # The decoders as they index their input

The same decoders as the readers, with every index, slice, array and sum of the code written out. -/

namespace Zakura.Transparent.Sliced

open Checked

/-! ## Events -/

/-- The loop of `decode_varint`, at byte `i`. -/
def decodeVarintLoop (bytes : Bytes) (maximum : Nat) : Nat → Nat → Nat → Checked EventError (Nat × Nat)
  | 0, _, _ => fails (.metadata "overflowing varint")
  | left + 1, i, value => do
    let byte ← getByte bytes i (.metadata "truncated varint")
    if i = 9 ∧ 1 < byte.toNat then fails (.metadata "overflowing varint")
    else
      let group ← shiftLeft (byte.toNat % 128) (7 * i)
      let value := value ||| group
      if byte.toNat < 128 then
        if i ≠ 0 ∧ byte = 0 then fails (.metadata "noncanonical varint")
        else if maximum < value then fails (.metadata "varint exceeds bound")
        else pure (value, i + 1)
      else decodeVarintLoop bytes maximum left (i + 1) value

def decodeVarint (bytes : Bytes) (maximum : Nat) : Checked EventError (Nat × Nat) :=
  decodeVarintLoop bytes maximum 10 0 0

/-- The fee of `TransactionMetadata::decode`, behind the bytes used. -/
def decodeFee (bytes : Bytes) (flags : UInt8) (coinbase : Bool) (used : Nat) : Checked EventError (FeeState × Nat) :=
  if flags &&& 8 ≠ 0 then do
    let bytes ← sliceFrom bytes used
    let (fee, n) ← decodeVarint bytes maxMoney
    let used ← add used n
    pure (.exact (UInt64.ofNat fee), used)
  else if coinbase then pure (.notApplicable, used)
  else pure (.unknown, used)

/-- `TransactionMetadata::decode`. -/
def decodeMetadata (bytes : Bytes) (flags : UInt8) (coinbase : Bool) :
    Checked EventError (Option TransactionMetadata × Nat) :=
  if flags &&& ~~~56 ≠ 0 ∨ (flags &&& 32 = 0 ∧ flags ≠ 0) then fails (.flags flags)
  else if flags = 0 then pure (none, 0)
  else do
    let (count, used) ← decodeVarint bytes 0xFFFFFFFF
    let (fee, used) ← decodeFee bytes flags coinbase used
    let metadata : TransactionMetadata :=
      { fee, transparentInputCount := UInt32.ofNat count, hasShieldedComponents := flags &&& 16 ≠ 0 }
    done (metadata.validate coinbase)
    pure (some metadata, used)

/-- A field of a record: the bytes between two offsets. -/
def field (bytes : Bytes) (start stop : Nat) : Checked EventError (FixedBytes (stop - start)) := do
  let bytes ← slice bytes start stop
  array (stop - start) bytes

def fromLegacyBytes (bytes : Bytes) : Checked EventError TransparentEvent :=
  if bytes.length ≠ eventBytes then fails (.length bytes.length)
  else if bytes.all (· == 0) then fails .empty
  else do
    let flags ← index bytes 0
    if flags &&& ~~~3 ≠ 0 then fails (.flags flags)
    else
      let transactionIndex ← field bytes 1 3
      let height ← field bytes 3 7
      let value ← field bytes 7 15
      let txid ← field bytes 15 47
      let index ← field bytes 47 51
      let spentTxid ← field bytes 51 83
      let spentOutputIndex ← field bytes 83 87
      let transactionIndex := UInt16.ofNat (leNat transactionIndex.val)
      let height := UInt32.ofNat (leNat height.val)
      let value := UInt64.ofNat (leNat value.val)
      let index := UInt32.ofNat (leNat index.val)
      let spentOutputIndex := UInt32.ofNat (leNat spentOutputIndex.val)
      if flags &&& 1 = 0 then
        if Txid.mk spentTxid ≠ .zero ∨ spentOutputIndex ≠ 0 then
          fails (.unusedField "receive" "the consumed outpoint")
        else pure (.receive { metadata := none, height, txid := ⟨txid⟩, transactionIndex, outputIndex := index, value,
                              coinbase := flags &&& 2 ≠ 0 })
      else if value ≠ 0 then fails (.unusedField "spend" "a value")
      else if flags &&& 2 ≠ 0 then fails (.unusedField "spend" "the coinbase flag")
      else pure (.spend { metadata := none, height, spendingTxid := ⟨txid⟩, transactionIndex, inputIndex := index,
                          spentTxid := ⟨spentTxid⟩, spentOutputIndex })

/-- The metadata `from_bytes` reads when there is more than a record. -/
def readMetadata (bytes : Bytes) (event : TransparentEvent) : Checked EventError TransparentEvent :=
  if eventBytes < bytes.length then do
    let rest ← sliceFrom bytes (eventBytes + 1)
    let flags ← index bytes eventBytes
    let (metadata, used) ← decodeMetadata rest flags event.coinbase
    let framed ← add (eventBytes + 1) used
    if metadata = none ∨ framed ≠ bytes.length then fails (.metadata "invalid metadata framing")
    else pure (event.withMetadata metadata)
  else pure event

def fromBytes (bytes : Bytes) : Checked EventError TransparentEvent :=
  if bytes.length < eventBytes ∨ maxEventBytes < bytes.length then fails (.length bytes.length)
  else do
    let record ← slice bytes 0 eventBytes
    let event ← fromLegacyBytes record
    let event ← readMetadata bytes event
    done event.validateMetadata
    pure event

/-! ## Compact events -/

/-- The record `decode` fills in behind a compact body. -/
def rawRecord (flags : UInt8) (body : Bytes) (previous : Option TransparentEvent) : Checked RecordError Bytes :=
  let raw := List.replicate eventBytes 0
  if flags &&& 1 = 0 then do
    let raw ← copy raw 0 Compact.receiveBytes body
    let first ← index raw 0
    copy raw 0 1 [first &&& 3]
  else do
    let raw ← copy raw 0 1 [1]
    let position ← slice body 1 7
    let raw ← copy raw 1 7 position
    let input ← slice body 7 43
    let raw ← copy raw 15 51 input
    if flags &&& Compact.localOutpoint ≠ 0 then
      match previous with
      | some (.receive r) => do
        let raw ← copy raw 51 83 r.txid.bytes.val
        copy raw 83 eventBytes (leBytes 4 r.outputIndex.toNat)
      | _ => fails (.malformed "local outpoint without preceding receive")
    else do
      let outpoint ← sliceFrom body 43
      copy raw 51 eventBytes outpoint

/-- One round of `decode`, with the next position. -/
def decodeEvent (bytes : Bytes) (position : Nat) (previous : Option TransparentEvent) :
    Checked RecordError (TransparentEvent × Nat) := do
  let flags ← getByte bytes position (.malformed "truncated compact event")
  if flags &&& ~~~63 ≠ 0 ∨ (flags &&& 1 = 0 ∧ flags &&& Compact.localOutpoint ≠ 0) ∨ flags &&& 3 = 3 then
    fails (.event (.flags flags))
  else
    let len :=
      if flags &&& 1 = 0 then Compact.receiveBytes
      else if flags &&& Compact.localOutpoint ≠ 0 then Compact.localSpendBytes
      else Compact.spendBytes
    let stop ← add position len
    let body ← getSlice bytes position stop (.malformed "truncated compact event")
    let raw ← rawRecord flags body previous
    let more ← sliceFrom bytes stop
    let (metadata, metadataLen) ← mapError .event (decodeMetadata more (flags &&& 56) (flags &&& 2 ≠ 0))
    let event ← mapError .event (fromLegacyBytes raw)
    let event := event.withMetadata metadata
    done (event.validateMetadata.mapError .event)
    let total ← add len metadataLen
    if Compact.eventLen event previous ≠ total then
      fails (.malformed "noncanonical full outpoint after its receive")
    else do
      let position ← add position total
      pure (event, position)

/-- The loop of `decode`. -/
def decodeEvents (bytes : Bytes) : Nat → Nat → Option TransparentEvent →
    Checked RecordError (List TransparentEvent × Nat)
  | 0, position, _ => pure ([], position)
  | count + 1, position, previous => do
    let (event, position) ← decodeEvent bytes position previous
    let (events, position) ← decodeEvents bytes count position (some event)
    pure (event :: events, position)

/-- `compact::decode`. -/
def decodeCompact (bytes : Bytes) (count : Nat) : Checked RecordError (List TransparentEvent × Nat) :=
  if eventsPerPage < count then fails (.tooManyEvents count) else decodeEvents bytes count 0 none

/-! ## Page rows -/

/-- `take`, whose own sum is checked. -/
def take (row : Bytes) (position len : Nat) : Checked RecordError Bytes :=
  if position + len < usizeBound then
    getSlice row position (position + len) (.malformed "entry runs past the row")
  else fails (.malformed "entry offset overflows")

def entryField (row : Bytes) (position offset len : Nat) : Checked RecordError (FixedBytes len) := do
  let start ← add position offset
  let bytes ← take row start len
  array len bytes

/-- `u32_at`, behind the start of an entry. -/
def wordAt (row : Bytes) (position offset : Nat) : Checked RecordError UInt32 := do
  let bytes ← entryField row position offset 4
  pure (UInt32.ofNat (leNat bytes.val))

def byteAt (row : Bytes) (position offset : Nat) : Checked RecordError UInt8 := do
  let bytes ← entryField row position offset 1
  index bytes.val 0

/-- The header of an entry and its event count. -/
def readPageHeader (row : Bytes) (position : Nat) :
    Checked RecordError (Tag × UInt32 × UInt32 × UInt32 × UInt32 × UInt32 × RunLink) := do
  let tag ← entryField row position 0 14
  let ordinal ← wordAt row position 14
  let fragmentCount ← wordAt row position 18
  let eventCount ← wordAt row position 22
  let minHeight ← wordAt row position 26
  let maxHeight ← wordAt row position 30
  let prevChild ← byteAt row position 34
  let prevRow ← wordAt row position 35
  let olderRuns ← byteAt row position 39
  pure (tag, ordinal, fragmentCount, eventCount, minHeight, maxHeight, { prevChild, prevRow, olderRuns })

/-- One round of `decode_page_row`, with the next position. -/
def decodePageEntry (row : Bytes) (position : Nat) (seen : List Tag) : Checked RecordError (PageEntry × Nat) := do
  let (tag, ordinal, fragmentCount, eventCount, minHeight, maxHeight, link) ← readPageHeader row position
  if eventCount = 0 ∨ eventsPerPage < eventCount.toNat then
    fails (.malformed s!"an entry claims {eventCount} events")
  else if fragmentCount = 0 ∨ fragmentCount ≤ ordinal then
    fails (.malformed s!"fragment {ordinal} of {fragmentCount}")
  else if PageEntry.carries ordinal link = false then
    let text := link.debug
    fails (.malformed s!"fragment {ordinal} carries run link {text}")
  else do
    let body ← add position pageEntryHeaderBytes
    let bytes ← getSlice row body row.length (.malformed "entry runs past row")
    let (events, used) ← decodeCompact bytes eventCount.toNat
    if inOrder events = false then fails (.malformed "an entry's events are not in canonical order")
    else do
      let lowest ← expect (events.map (·.height)).min?
      let highest ← expect (events.map (·.height)).max?
      if lowest ≠ minHeight ∨ highest ≠ maxHeight then
        fails (.malformed s!"an entry claims heights {minHeight}-{maxHeight} but holds {lowest}-{highest}")
      else if seen.contains tag then fails (.malformed "a page row holds a script tag twice")
      else do
        let position ← add body used
        pure ({ tag, ordinal, fragmentCount, events, minHeight, maxHeight, link }, position)

/-- The loop of `decode_page_row`. -/
def decodePageEntries (row : Bytes) : Nat → Nat → List Tag → Checked RecordError (List PageEntry × Nat)
  | 0, position, _ => pure ([], position)
  | count + 1, position, seen => do
    let (entry, position) ← decodePageEntry row position seen
    let (entries, position) ← decodePageEntries row count position (seen ++ [entry.tag])
    pure (entry :: entries, position)

def decodePageRow (row : Bytes) : Checked RecordError (List PageEntry) :=
  if row.length ≠ pageRowBytes then fails (.length row.length pageRowBytes)
  else do
    let head ← slice row 0 pageRowHeaderBytes
    let head ← array 4 head
    let count := leNat head.val
    if count = 0 then
      if row.any (· != 0) then fails (.malformed "an unused page row is not all zero") else pure []
    else if maxEntriesPerRow < count then fails (.tooManyEntries count)
    else do
      let (entries, position) ← decodePageEntries row count pageRowHeaderBytes []
      let rest ← sliceFrom row position
      if rest.any (· != 0) then fails (.malformed "a page row has content past its entries")
      else pure entries

/-! ## Directory rows -/

/-- `DirectoryEntry::decode`. -/
def decodeDirectoryEntry (bytes : Bytes) (children : Nat) : Checked RecordError (DirectoryEntry × Nat) :=
  if bytes.length < directoryEntryHeaderBytes then fails (.malformed "truncated directory entry")
  else do
    let tag ← slice bytes 0 14
    let tag ← array 14 tag
    let flags ← index bytes 14
    let headRow ← slice bytes 15 19
    let headRow ← array 4 headRow
    let headRow := UInt32.ofNat (leNat headRow.val)
    let headChild := flags &&& childMask
    let one := flags &&& flagOneInline ≠ 0
    if flags &&& reservedFlags ≠ 0 then
      let text := hexByte flags
      fails (.malformed s!"reserved directory flag bits are set: {text}")
    else if headRow = 0 ∧ headChild ≠ 0 then
      fails (.malformed "an entry without pages names a page shard")
    else if headRow ≠ 0 ∧ one then
      fails (.malformed "an entry with pages carries one inline event")
    else if headRow ≠ 0 ∧ children ≤ headChild.toNat then
      fails (.malformed s!"an entry names page shard {headChild} of {children}")
    else do
      let count := if one then 1 else inlineEvents
      let bytes ← sliceFrom bytes directoryEntryHeaderBytes
      let (inline, used) ← decodeCompact bytes count
      if inOrder inline = false then fails (.malformed "inline events out of order")
      else do
        let used ← add directoryEntryHeaderBytes used
        pure ({ script := [], tag, eventCount := count, inline, headChild, headRow }, used)

/-- The loop of `decode_directory_row`. -/
def decodeDirectoryEntries (row : Bytes) (children : Nat) : Nat → Nat → List Tag →
    Checked RecordError (List DirectoryEntry × Nat)
  | 0, position, _ => pure ([], position)
  | count + 1, position, seen => do
    let bytes ← sliceFrom row position
    let (entry, used) ← decodeDirectoryEntry bytes children
    if seen.contains entry.tag then fails (.malformed "duplicate directory tag")
    else do
      let position ← add position used
      let (entries, position) ← decodeDirectoryEntries row children count position (seen ++ [entry.tag])
      pure (entry :: entries, position)

def decodeDirectoryRow (row : Bytes) (children : Nat) : Checked RecordError (List DirectoryEntry) :=
  if row.length ≠ directoryRowBytes then fails (.length row.length directoryRowBytes)
  else do
    let head ← slice row 0 4
    let head ← array 4 head
    let count := leNat head.val
    if directorySlots < count then fails (.tooManyEntries count)
    else do
      let (entries, position) ← decodeDirectoryEntries row children count directoryRowHeaderBytes []
      let rest ← sliceFrom row position
      if rest.any (· != 0) then fails .reserved else pure entries

end Zakura.Transparent.Sliced
