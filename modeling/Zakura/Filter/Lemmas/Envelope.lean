import Zakura.Filter.Envelope
import Zakura.Lib.Except

/-! # What an envelope is read from

Every part of a batch is read from exactly its encoding. A bound that looks at the bytes left holds of every encoding,
since the bytes left include the records. -/

namespace Zakura.Filter

open List Reader

namespace Envelope

@[simp] theorem run_compactSize_ok {n : Nat} {input rest : Bytes} :
    compactSize.run input = .ok (n, rest) ↔ n < 2 ^ 64 ∧ input = compactSizeBytes n ++ rest :=
  Reader.run_compactSize_ok

theorem fromUTF8?_utf8 (text : String) : String.fromUTF8? ⟨(utf8 text).toArray⟩ = some text := by
  rw [utf8, Array.toArray_toList, String.fromUTF8?, dif_pos text.isValidUTF8]
  rfl

theorem fromUTF8?_eq_some {bytes : Bytes} {text : String} (h : String.fromUTF8? ⟨bytes.toArray⟩ = some text) :
    utf8 text = bytes := by
  rw [String.fromUTF8?] at h
  split at h
  · obtain rfl := Option.some_inj.mp h
    exact toList_toArray
  · cases h

theorem run_readHeader_ok {magic : Bytes} (hmagic : magic.length = 4) {version found : UInt16} {kind profile : String}
    {genesis : BlockHash} {input rest : Bytes} :
    (readHeader magic version kind).run input = .ok ((found, genesis, profile), rest) ↔
      (found = version ∧ (utf8 profile).length ≤ 64) ∧
        input = magic ++ (leBytes 2 found.toNat ++ (genesis.val ++ (counted (utf8 profile) ++ rest))) := by
  simp only [readHeader, run_bind_ok, run_takeBytes_ok, run_failIf_ok, Reader.run_word16_ok,
    run_compactSize_ok, not_not, not_lt]
  constructor
  · rintro ⟨tag, _, rfl, _, _, ⟨htag, rfl⟩, version', _, rfl, _, _, ⟨hversion, rfl⟩, genesis', _, rfl, length, _,
      ⟨hlength, rfl⟩, _, _, ⟨hshort, rfl⟩, name, after, rfl, h⟩
    split at h
    · exact absurd h (by simp)
    · rename_i text htext
      obtain ⟨heq, rfl⟩ := run_pure_ok.mp h
      obtain ⟨rfl, hrest⟩ := Prod.mk.inj heq
      obtain ⟨rfl, rfl⟩ := Prod.mk.inj hrest
      have hname := fromUTF8?_eq_some htext
      rw [counted, hname, FixedBytes.length_val, htag, append_assoc]
      exact ⟨⟨hversion, hshort⟩, rfl⟩
  · rintro ⟨⟨rfl, hshort⟩, rfl⟩
    refine ⟨⟨magic, hmagic⟩, _, rfl, (), _, ⟨rfl, rfl⟩, found, _, rfl, (), _, ⟨rfl, rfl⟩, genesis, _, rfl,
      (utf8 profile).length, utf8 profile ++ rest, ⟨by omega, by rw [counted, append_assoc]⟩, (), _,
      ⟨hshort, rfl⟩, ⟨utf8 profile, rfl⟩, rest, rfl, ?_⟩
    dsimp only
    rw [fromUTF8?_utf8]
    rfl

theorem run_readCount_ok {limit recordBytes count : Nat} {input rest : Bytes} (hlimit : limit < 2 ^ 64) :
    (readCount limit recordBytes).run input = .ok (count, rest) ↔
      (count ≤ limit ∧ count * recordBytes ≤ rest.length) ∧ input = compactSizeBytes count ++ rest := by
  simp only [readCount, run_bind_ok, run_compactSize_ok, run_failIf_ok, run_remaining_ok,
    run_pure_ok, not_lt]
  constructor
  · rintro ⟨n, _, ⟨hn, rfl⟩, _, _, ⟨hle, rfl⟩, _, _, ⟨rfl, rfl⟩, _, _, ⟨hfits, rfl⟩, rfl, rfl⟩
    exact ⟨⟨hle, hfits⟩, rfl⟩
  · rintro ⟨⟨hle, hfits⟩, rfl⟩
    exact ⟨count, rest, ⟨by omega, rfl⟩, (), rest, ⟨hle, rfl⟩, rest.length, rest, ⟨rfl, rfl⟩, (), rest, ⟨hfits, rfl⟩,
      rfl, rfl⟩

theorem run_readFilter_ok {filter input rest : Bytes} :
    readFilter.run input = .ok (filter, rest) ↔ filter.length < 2 ^ 64 ∧ input = counted filter ++ rest := by
  simp only [readFilter, run_bind_ok, run_compactSize_ok, run_failIf_ok, run_remaining_ok,
    run_takeBytes_ok, run_pure_ok, not_lt]
  constructor
  · rintro ⟨n, _, ⟨hn, rfl⟩, _, _, ⟨rfl, rfl⟩, _, _, ⟨hfits, rfl⟩, bytes, _, rfl, rfl, rfl⟩
    rw [counted, FixedBytes.length_val, append_assoc]
    exact ⟨hn, rfl⟩
  · rintro ⟨hlength, rfl⟩
    rw [counted, append_assoc]
    exact ⟨filter.length, _, ⟨hlength, rfl⟩, _, _, ⟨rfl, rfl⟩, (), _,
      ⟨by rw [length_append]; omega, rfl⟩, ⟨filter, rfl⟩, rest, rfl, rfl, rfl⟩

theorem length_counted_pos (bytes : Bytes) : 1 ≤ (counted bytes).length := by
  have hpos := compactSizeBytes_length_pos bytes.length
  rw [counted, length_append]
  omega

/-! ## Whole strings -/

section Whole

variable {α : Type} {read : Reader FilterError α} {valid : α → Prop} {encode : α → Bytes}

/-- The decoder accepts exactly the encodings of valid batches within the size limit. -/
theorem decodeWhole_ok (h : read.Reads valid encode) {bytes : Bytes} {batch : α} :
    decodeWhole read bytes = .ok batch ↔ valid batch ∧ bytes = encode batch ∧ bytes.length ≤ maxBatchBytes := by
  rw [decodeWhole]
  dsimp only
  by_cases hsize : maxBatchBytes < bytes.length
  · rw [if_pos hsize]
    exact ⟨fun h => (nomatch h), fun h => absurd h.2.2 (not_le.mpr hsize)⟩
  · rw [if_neg hsize, Except.bind_eq_ok]
    constructor
    · rintro ⟨⟨found, rest⟩, hread, hrest⟩
      obtain ⟨hvalid, rfl⟩ := (h _ _ _).mp hread
      dsimp only at hrest
      split at hrest
      · cases hrest
      · rename_i hnone
        obtain rfl := Except.ok.inj hrest
        obtain rfl := length_eq_zero_iff.mp (not_not.mp hnone)
        rw [append_nil] at hsize ⊢
        exact ⟨hvalid, rfl, not_lt.mp hsize⟩
    · rintro ⟨hvalid, rfl, -⟩
      have hread := h.run_encode hvalid []
      rw [append_nil] at hread
      exact ⟨_, hread, rfl⟩

theorem decodeWhole_append (h : read.Reads valid encode) {bytes more : Bytes} {batch other : α}
    (hbatch : decodeWhole read bytes = .ok batch) (hother : decodeWhole read (bytes ++ more) = .ok other) :
    more = [] := by
  obtain ⟨hvalid, rfl, -⟩ := (decodeWhole_ok h).mp hbatch
  obtain ⟨hvalid', heq, -⟩ := (decodeWhole_ok h).mp hother
  have hread := h.run_encode hvalid more
  have hread' := h.run_encode hvalid' []
  rw [heq, ← append_nil (encode other), hread'] at hread
  exact (Prod.mk.inj (Except.ok.inj hread)).2.symm

end Whole

end Envelope

open Envelope

/-! ## Batches per block -/

namespace FilterBatch

theorem readRecord_reads : readRecord.Reads (fun record => record.filter.length < 2 ^ 64) FilterRecord.encode := by
  intro input record rest
  simp only [readRecord, run_bind_ok, run_word64_ok, run_takeBytes_ok, run_readFilter_ok,
    run_pure_ok, FilterRecord.encode, append_assoc]
  constructor
  · rintro ⟨height, _, rfl, blockHash, _, rfl, filter, _, ⟨hlength, rfl⟩, rfl, rfl⟩
    exact ⟨hlength, rfl⟩
  · rintro ⟨hlength, rfl⟩
    exact ⟨record.height, _, rfl, record.blockHash, _, rfl, record.filter, rest, ⟨hlength, rfl⟩, rfl, rfl⟩

/-- The limits of the format: its version, the profile's length, and the records' count and lengths. -/
structure WithinFormat (batch : FilterBatch) : Prop where
  version : batch.version = envelopeVersion
  profile : (utf8 batch.profile).length ≤ 64
  count : batch.records.length ≤ maxRecordsPerBatch
  filters : ∀ record ∈ batch.records, record.filter.length < 2 ^ 64

theorem length_record_ge (record : FilterRecord) : 41 ≤ record.encode.length := by
  have hpos := length_counted_pos record.filter
  rw [FilterRecord.encode, length_append, length_append, length_leBytes, FixedBytes.length_val]
  omega

theorem read_reads : read.Reads WithinFormat encode := by
  intro input batch rest
  simp only [read, run_bind_ok, Prod.exists, run_readHeader_ok (by decide : magic.length = 4),
    run_word64_ok, run_takeBytes_ok, run_readCount_ok (by decide : maxRecordsPerBatch < 2 ^ 64),
    readRecord_reads.run_repeated_ok, run_pure_ok, encode, append_assoc]
  constructor
  · rintro ⟨version, genesis, profile, _, ⟨⟨hversion, hprofile⟩, rfl⟩, start, _, rfl, stop, _, rfl, count, _,
      ⟨⟨hcount, hfits⟩, rfl⟩, records, _, ⟨rfl, hfilters, rfl⟩, rfl, rfl⟩
    exact ⟨⟨hversion, hprofile, hcount, hfilters⟩, rfl⟩
  · rintro ⟨⟨hversion, hprofile, hcount, hfilters⟩, rfl⟩
    have hfits := length_flatMap_ge fun record (_ : record ∈ batch.records) => length_record_ge record
    exact ⟨batch.version, batch.genesis, batch.profile, _, ⟨⟨hversion, hprofile⟩, rfl⟩, batch.startHeight, _, rfl,
      batch.stopBlockHash, _, rfl, batch.records.length, _, ⟨⟨hcount, by rw [length_append]; omega⟩, rfl⟩,
      batch.records, rest, ⟨rfl, hfilters, rfl⟩, rfl, rfl⟩

end FilterBatch

/-! ## Batches per shard -/

namespace RangeFilterBatch

theorem readRecord_reads :
    readRecord.Reads (fun record => record.filter.length < 2 ^ 64) RangeFilterRecord.encode := by
  intro input record rest
  simp only [readRecord, run_bind_ok, run_word64_ok, run_takeBytes_ok, run_readFilter_ok,
    run_pure_ok, RangeFilterRecord.encode, append_assoc]
  constructor
  · rintro ⟨shardId, _, rfl, start, _, rfl, stop, _, rfl, parent, _, rfl, terminal, _, rfl, filter, _, ⟨hlength, rfl⟩,
      rfl, rfl⟩
    exact ⟨hlength, rfl⟩
  · rintro ⟨hlength, rfl⟩
    exact ⟨record.shardId, _, rfl, record.startHeight, _, rfl, record.endHeight, _, rfl, record.parentBlockHash, _, rfl,
      record.terminalBlockHash, _, rfl, record.filter, rest, ⟨hlength, rfl⟩, rfl, rfl⟩

/-- The limits of the format: its version, the profile's length, and the records' count and lengths. -/
structure WithinFormat (batch : RangeFilterBatch) : Prop where
  version : batch.version = rangeEnvelopeVersion
  profile : (utf8 batch.profile).length ≤ 64
  count : batch.records.length ≤ maxRangeRecordsPerBatch
  filters : ∀ record ∈ batch.records, record.filter.length < 2 ^ 64

theorem length_record_ge (record : RangeFilterRecord) : 89 ≤ record.encode.length := by
  have hpos := length_counted_pos record.filter
  simp only [RangeFilterRecord.encode, length_append, length_leBytes, FixedBytes.length_val]
  omega

theorem read_reads : read.Reads WithinFormat encode := by
  intro input batch rest
  simp only [read, run_bind_ok, Prod.exists, run_readHeader_ok (by decide : rangeMagic.length = 4),
    run_word64_ok, run_readCount_ok (by decide : maxRangeRecordsPerBatch < 2 ^ 64),
    readRecord_reads.run_repeated_ok, run_pure_ok, encode, append_assoc]
  constructor
  · rintro ⟨version, genesis, profile, _, ⟨⟨hversion, hprofile⟩, rfl⟩, start, _, rfl, count, _,
      ⟨⟨hcount, hfits⟩, rfl⟩, records, _, ⟨rfl, hfilters, rfl⟩, rfl, rfl⟩
    exact ⟨⟨hversion, hprofile, hcount, hfilters⟩, rfl⟩
  · rintro ⟨⟨hversion, hprofile, hcount, hfilters⟩, rfl⟩
    have hfits := length_flatMap_ge fun record (_ : record ∈ batch.records) => length_record_ge record
    exact ⟨batch.version, batch.genesis, batch.profile, _, ⟨⟨hversion, hprofile⟩, rfl⟩, batch.startShard, _, rfl,
      batch.records.length, _, ⟨⟨hcount, by rw [length_append]; omega⟩, rfl⟩, batch.records, rest,
      ⟨rfl, hfilters, rfl⟩, rfl, rfl⟩

end RangeFilterBatch

end Zakura.Filter
