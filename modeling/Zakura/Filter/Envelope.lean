import Zakura.Filter.Validate

/-! # Filter batch envelopes

A batch carries the filters of a range, one record each, with the fields that tie them to a chain: per block, or per
shard in the range form. -/

namespace Zakura.Filter

abbrev BlockHash := FixedBytes 32

namespace Envelope

def envelopeVersion : UInt16 := 1

def magic : Bytes := asciiBytes "ZTFB"

def maxRecordsPerBatch : Nat := 1000

def maxBatchBytes : Nat := 64 * 1024 * 1024

def rangeMagic : Bytes := asciiBytes "ZTRB"

def rangeEnvelopeVersion : UInt16 := 1

def maxRangeRecordsPerBatch : Nat := 256

def truncated (_ : Nat) : FilterError := .envelope "envelope is truncated"

/-! ## Parts of both forms -/

def compactSize : Reader FilterError Nat :=
  Reader.compactSize truncated fun _ => .envelope "CompactSize is not canonically encoded"

/-- The UTF-8 bytes of a string. -/
def utf8 (text : String) : Bytes := text.toByteArray.data.toList

def counted (bytes : Bytes) : Bytes := compactSizeBytes bytes.length ++ bytes

/-- The magic, the version, the genesis hash and the profile; `kind` names the envelope in the version's error. -/
def readHeader (magic : Bytes) (version : UInt16) (kind : String) : Reader FilterError (UInt16 × BlockHash × String) := do
  let tag ← Reader.takeBytes 4 truncated
  Reader.failIf (tag.val ≠ magic) (.envelope "bad magic")
  let found ← Reader.word16 truncated
  Reader.failIf (found ≠ version) (.envelope s!"unsupported {kind} version {found}")
  let genesis ← Reader.takeBytes 32 truncated
  let length ← compactSize
  Reader.failIf (64 < length) (.envelope "profile name is too long")
  let name ← Reader.takeBytes length truncated
  match String.fromUTF8? ⟨name.val.toArray⟩ with
  | none => Reader.fail (.envelope "profile name is not UTF-8")
  | some profile => pure (found, genesis, profile)

/-- The record count, bounded by the limit and by what the records take at least. -/
def readCount (limit recordBytes : Nat) : Reader FilterError Nat := do
  let count ← compactSize
  Reader.failIf (limit < count) (.envelope s!"batch claims {count} records, limit is {limit}")
  let remaining ← Reader.remaining
  Reader.failIf (remaining < count * recordBytes)
    (.envelope s!"batch claims {count} records but has {remaining} bytes left")
  pure count

def readFilter : Reader FilterError Bytes := do
  let length ← compactSize
  let remaining ← Reader.remaining
  Reader.failIf (remaining < length) (.envelope "record length exceeds batch")
  let filter ← Reader.takeBytes length truncated
  pure filter.val

/-- `decode`, given the reader of the batch: the size limit first, and nothing after the batch. -/
def decodeWhole {α : Type} (read : Reader FilterError α) (bytes : Bytes) : Except FilterError α :=
  let size := bytes.length
  if maxBatchBytes < size then .error (.envelope s!"batch is {size} bytes, limit is {maxBatchBytes}")
  else do
    let (batch, rest) ← read.run bytes
    let trailing := rest.length
    if trailing ≠ 0 then .error (.envelope s!"{trailing} trailing bytes after the batch") else .ok batch

end Envelope

open Envelope

/-! ## Batches per block -/

structure FilterRecord where
  height : UInt64
  blockHash : BlockHash
  filter : Bytes
deriving DecidableEq

structure FilterBatch where
  version : UInt16
  genesis : BlockHash
  profile : String
  startHeight : UInt64
  stopBlockHash : BlockHash
  records : List FilterRecord
deriving DecidableEq

def FilterRecord.encode (record : FilterRecord) : Bytes :=
  leBytes 8 record.height.toNat ++ record.blockHash.val ++ counted record.filter

namespace FilterBatch

def encode (batch : FilterBatch) : Bytes :=
  magic ++ leBytes 2 batch.version.toNat ++ batch.genesis.val ++ counted (utf8 batch.profile) ++
    leBytes 8 batch.startHeight.toNat ++ batch.stopBlockHash.val ++ compactSizeBytes batch.records.length ++
    batch.records.flatMap FilterRecord.encode

def readRecord : Reader FilterError FilterRecord := do
  let height ← Reader.word64 truncated
  let blockHash ← Reader.takeBytes 32 truncated
  let filter ← readFilter
  pure ⟨height, blockHash, filter⟩

def read : Reader FilterError FilterBatch := do
  let (version, genesis, profile) ← readHeader magic envelopeVersion "envelope"
  let startHeight ← Reader.word64 truncated
  let stopBlockHash ← Reader.takeBytes 32 truncated
  let count ← readCount maxRecordsPerBatch 41
  let records ← Reader.repeated count readRecord
  pure ⟨version, genesis, profile, startHeight, stopBlockHash, records⟩

def decode (bytes : Bytes) : Except FilterError FilterBatch := decodeWhole read bytes

end FilterBatch

/-! ## Batches per shard -/

structure RangeFilterRecord where
  shardId : UInt64
  startHeight : UInt64
  endHeight : UInt64
  parentBlockHash : BlockHash
  terminalBlockHash : BlockHash
  filter : Bytes
deriving DecidableEq

structure RangeFilterBatch where
  version : UInt16
  genesis : BlockHash
  profile : String
  startShard : UInt64
  records : List RangeFilterRecord
deriving DecidableEq

def RangeFilterRecord.encode (record : RangeFilterRecord) : Bytes :=
  leBytes 8 record.shardId.toNat ++ leBytes 8 record.startHeight.toNat ++ leBytes 8 record.endHeight.toNat ++
    record.parentBlockHash.val ++ record.terminalBlockHash.val ++ counted record.filter

namespace RangeFilterBatch

def encode (batch : RangeFilterBatch) : Bytes :=
  rangeMagic ++ leBytes 2 batch.version.toNat ++ batch.genesis.val ++ counted (utf8 batch.profile) ++
    leBytes 8 batch.startShard.toNat ++ compactSizeBytes batch.records.length ++
    batch.records.flatMap RangeFilterRecord.encode

def readRecord : Reader FilterError RangeFilterRecord := do
  let shardId ← Reader.word64 truncated
  let startHeight ← Reader.word64 truncated
  let endHeight ← Reader.word64 truncated
  let parentBlockHash ← Reader.takeBytes 32 truncated
  let terminalBlockHash ← Reader.takeBytes 32 truncated
  let filter ← readFilter
  pure ⟨shardId, startHeight, endHeight, parentBlockHash, terminalBlockHash, filter⟩

def read : Reader FilterError RangeFilterBatch := do
  let (version, genesis, profile) ← readHeader rangeMagic rangeEnvelopeVersion "range envelope"
  let startShard ← Reader.word64 truncated
  let count ← readCount maxRangeRecordsPerBatch 89
  let records ← Reader.repeated count readRecord
  pure ⟨version, genesis, profile, startShard, records⟩

def decode (bytes : Bytes) : Except FilterError RangeFilterBatch := decodeWhole read bytes

end RangeFilterBatch

end Zakura.Filter
