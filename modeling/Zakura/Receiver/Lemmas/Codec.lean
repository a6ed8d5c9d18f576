import Zakura.Lib.Except
import Zakura.Receiver.Segment

/-! # Records, payloads, entries and rows read back -/

namespace Zakura.Receiver

open List

/-! ## Records -/

namespace RawRecord

theorem length_bytes (record : RawRecord) : record.bytes.length = recordBytes := by
  simp [bytes, recordBytes]

structure Fits (record : RawRecord) : Prop where
  pages : record.Pages
  total : record.total < 256 ^ 4
  ordinal : record.ordinal < 256 ^ 4

theorem parse_bytes {record : RawRecord} (h : record.Fits) : parse record.bytes = record := by
  have hpage : record.page < 256 ^ 4 := Nat.lt_trans h.pages h.total
  have h32 : ∀ v : UInt32, UInt32.ofNat (leNat (leBytes 4 v.toNat)) = v := by
    intro v
    rw [leNat_leBytes_of_lt v.toNat_lt, UInt32.ofNat_toNat]
  have h64 : ∀ v : UInt64, UInt64.ofNat (leNat (leBytes 8 v.toNat)) = v := by
    intro v
    rw [leNat_leBytes_of_lt v.toNat_lt, UInt64.ofNat_toNat]
  obtain ⟨receiver, page, total, payment, ordinal⟩ := record
  obtain ⟨height, blockHash, txid, txIndex, actionIndex, position, actionNullifier, cmx, ephemeralKey,
    ciphertextPrefix⟩ := payment
  rw [parse]
  congr 1
  · exact fixedAt_eq (by simp [bytes])
  · simp [bytes, leNat_leBytes_of_lt hpage]
  · simp [bytes, leNat_leBytes_of_lt h.total]
  · congr 1
    · simp [bytes, h32]
    · exact fixedAt_eq (by simp [bytes])
    · exact fixedAt_eq (by simp [bytes])
    · simp [bytes, h32]
    · simp [bytes, h32]
    · simp [bytes, h64]
    · exact fixedAt_eq (by simp [bytes])
    · exact fixedAt_eq (by simp [bytes])
    · exact fixedAt_eq (by simp [bytes])
    · exact fixedAt_eq (by simp [bytes])
  · simp [bytes, leNat_leBytes_of_lt h.ordinal]

theorem decode_bytes {record : RawRecord} (h : record.Fits) : decode record.bytes = .ok (some record) := by
  have hfirst : record.bytes[0]? = some 1 := rfl
  have hversion : record.bytes[52]? = some 1 := by
    simp [bytes]
  have hnonzero : ¬ record.bytes.all (· == 0) = true := by simp [bytes]
  have hpages : (parse record.bytes).Pages := by
    rw [parse_bytes h]
    exact h.pages
  simp only [decode]
  rw [if_neg (not_not_intro (length_bytes record)), if_neg hnonzero, if_neg (by simp [hfirst, hversion]), if_pos hpages,
    parse_bytes h]

end RawRecord

/-! ## Payloads -/

variable {position size : Nat} {bytes : Bytes}

theorem length_encodeSibling {sibling : Option Hash × Nat} (h : encodeSibling position size sibling = some bytes) :
    bytes.length = 32 := by
  unfold encodeSibling at h
  split at h
  · obtain rfl := Option.some.inj h
    exact FixedBytes.length_val _
  · obtain rfl := Option.some.inj h
    exact length_replicate
  · cases h

theorem decodeSibling_eq {level : Nat} {sibling : Option Hash} {encoded : Bytes}
    (h : encodeSibling position size (sibling, level) = some encoded) (hat : bytesAt bytes (level * 32) 32 = encoded) :
    decodeSibling bytes position size level = some sibling := by
  unfold encodeSibling at h
  unfold decodeSibling
  cases hsupplied : supplied position size level with
  | true =>
    cases sibling with
    | none => simp [hsupplied] at h
    | some hash =>
      obtain rfl : hash.val = encoded := by simpa [hsupplied] using h
      rw [if_pos rfl, fixedAt_eq hat]
  | false =>
    cases sibling with
    | some hash => simp [hsupplied] at h
    | none =>
      obtain rfl : List.replicate 32 0 = encoded := by simpa [hsupplied] using h
      rw [if_neg Bool.false_ne_true, hat, if_neg (by simp)]

theorem decodePayload_encodePayload {siblings : Siblings} (h : encodePayload siblings position size = some bytes) :
    bytes.length = payloadBytes ∧ decodePayload bytes position size = some siblings.val := by
  unfold encodePayload at h
  split_ifs at h with hrange
  obtain ⟨encoded, hencoded, rfl⟩ := Option.map_eq_some_iff.mp h
  rw [Except.mapM_eq_some] at hencoded
  have hlength : encoded.length = lowerLevels := by
    rw [← hencoded.length_eq, length_zipIdx, siblings.property]
  have hwidth : ∀ chunk ∈ encoded, chunk.length = 32 := by
    intro chunk hchunk
    obtain ⟨i, hi, rfl⟩ := mem_iff_getElem.mp hchunk
    have hi' : i < siblings.val.zipIdx.length := by rwa [hencoded.length_eq]
    exact length_encodeSibling (List.forall₂_iff_get.mp hencoded |>.2 i hi' hi)
  have htotal : encoded.flatten.length = payloadBytes := by
    rw [length_flatten_of_width hwidth, hlength]
    rfl
  refine ⟨htotal, ?_⟩
  unfold decodePayload
  rw [if_neg (by rw [not_or]; exact ⟨not_not_intro htotal, hrange⟩), Except.mapM_eq_some]
  refine List.forall₂_iff_get.mpr ⟨by rw [length_range, siblings.property], fun i hi hi' => ?_⟩
  have hi_encoded : i < encoded.length := by
    rw [hlength, ← siblings.property]
    exact hi'
  have hi_zip : i < siblings.val.zipIdx.length := by rwa [length_zipIdx]
  have hsibling := List.forall₂_iff_get.mp hencoded |>.2 i hi_zip hi_encoded
  simp only [get_eq_getElem, getElem_zipIdx, Nat.zero_add, getElem_range] at hsibling ⊢
  exact decodeSibling_eq hsibling (bytesAt_flatten hwidth (getElem?_eq_getElem hi_encoded))

/-! ## Entries and rows -/

namespace Entry

structure Fits (entry : Entry) : Prop where
  pos : 0 < entry.count
  first : entry.first < 2 ^ 24
  count : entry.count < 2 ^ 16
  last : entry.last ≤ maxHeightOffset

theorem length_bytes (entry : Entry) : entry.bytes.length = entryBytes := by
  simp [bytes, entryBytes]

theorem encode_eq {entry : Entry} (h : entry.Fits) : entry.encode = .ok entry.bytes := by
  have hpos := h.pos
  have hfirst := h.first
  have hlast := h.last
  rw [encode, if_neg (by omega)]

theorem decode_bytes {entry : Entry} (h : entry.Fits) : decode entry.bytes = .ok (some entry) := by
  have hlast : entry.last < 256 ^ 3 := Nat.lt_of_le_of_lt h.last (by decide)
  have hfirst : entry.first < 256 ^ 3 := Nat.lt_of_lt_of_eq h.first (by decide)
  have hwidth : entry.count < 256 ^ 2 := Nat.lt_of_lt_of_eq h.count (by decide)
  have hcount : leNat (bytesAt entry.bytes 17 2) = entry.count := by
    simp [bytes, leNat_leBytes_of_lt hwidth]
  have hnonzero : ¬ entry.bytes.all (· == 0) = true := by
    intro hzero
    have hpart : (bytesAt entry.bytes 17 2).all (· == 0) = true := by
      rw [all_eq_true] at hzero ⊢
      exact fun b hb => hzero b (mem_of_mem_drop (mem_of_mem_take hb))
    have hpos := h.pos
    rw [← hcount, leNat_eq_zero hpart] at hpos
    exact absurd hpos (Nat.lt_irrefl 0)
  have hpos := h.pos
  simp only [decode]
  rw [if_neg hnonzero, hcount, if_neg (by omega)]
  congr 2
  obtain ⟨tag, first, count, last⟩ := entry
  congr 1
  · exact fixedAt_eq (by simp [bytes])
  · simp [bytes, leNat_leBytes_of_lt hfirst]
  · simp [bytes, leNat_leBytes_of_lt hlast]

end Entry

theorem decode_zero : Entry.decode (List.replicate entryBytes 0) = .ok none := by
  simp [Entry.decode]

theorem decodeEntries_padding (n : Nat) (entries : List Entry) (ended : Bool) :
    decodeEntries (List.replicate n (List.replicate entryBytes 0)) entries ended = .ok entries := by
  induction n generalizing ended with
  | zero => rfl
  | succ n ih =>
    rw [replicate_succ, decodeEntries, decode_zero]
    exact ih true

variable {entries : List Entry}

theorem decodeEntries_bytes {before : List Entry} (hfits : ∀ e ∈ entries, e.Fits)
    (hsorted : (before ++ entries).Pairwise fun a b => a.tag < b.tag) (raws : List Bytes) :
    decodeEntries (entries.map Entry.bytes ++ raws) before false = decodeEntries raws (before ++ entries) false := by
  induction entries generalizing before with
  | nil => simp
  | cons entry entries ih =>
    obtain ⟨hentry, hrest⟩ := forall_mem_cons.mp hfits
    have hlast : before.getLast?.all (fun e => decide (e.tag < entry.tag)) = true := by
      cases hlast : before.getLast? with
      | none => rfl
      | some e =>
        have hlt := (pairwise_append.mp hsorted).2.2 e (mem_of_getLast? hlast) entry mem_cons_self
        simpa using hlt
    rw [map_cons, cons_append, decodeEntries, Entry.decode_bytes hentry]
    change (if _ then _ else _) = _
    rw [if_pos ⟨rfl, hlast⟩, ih hrest (by rwa [append_assoc, singleton_append]), append_assoc,
      singleton_append]

theorem mapM_encode (hfits : ∀ e ∈ entries, e.Fits) :
    entries.mapM Entry.encode = .ok (entries.map Entry.bytes) := by
  rw [Except.mapM_eq_ok, List.forall₂_map_right_iff, List.forall₂_same]
  exact fun e he => Entry.encode_eq (hfits e he)

def rowOfEntries (entries : List Entry) : Bytes :=
  (entries.map Entry.bytes).flatten ++ List.replicate (rowBytes - entries.length * entryBytes) 0

theorem encodeRow_eq (hfits : ∀ e ∈ entries, e.Fits) (hlength : entries.length ≤ rowEntries)
    (hsorted : entries.Pairwise fun a b => a.tag < b.tag) : encodeRow entries = .ok (rowOfEntries entries) := by
  have hchain : entries.IsChain fun a b => a.tag < b.tag := hsorted.isChain
  rw [encodeRow, if_neg (by rw [not_or]; exact ⟨Nat.not_lt.mpr hlength, not_not_intro hchain⟩), mapM_encode hfits]
  rfl

theorem width_bytes (entries : List Entry) : ∀ chunk ∈ entries.map Entry.bytes, chunk.length = entryBytes := by
  intro chunk hchunk
  obtain ⟨e, _, rfl⟩ := mem_map.mp hchunk
  exact e.length_bytes

theorem length_flatten_bytes (entries : List Entry) :
    (entries.map Entry.bytes).flatten.length = entries.length * entryBytes := by
  rw [length_flatten_of_width (width_bytes entries), length_map]

theorem length_rowOfEntries (hlength : entries.length ≤ rowEntries) :
    (rowOfEntries entries).length = rowBytes := by
  have hle : entries.length * entryBytes ≤ rowBytes :=
    Nat.le_trans (Nat.mul_le_mul_right _ hlength) (by decide)
  rw [rowOfEntries, length_append, length_flatten_bytes, length_replicate]
  omega

theorem rowOfEntries_eq (hlength : entries.length ≤ rowEntries) :
    rowOfEntries entries = (entries.map Entry.bytes ++
      List.replicate (rowEntries - entries.length) (List.replicate entryBytes 0)).flatten ++ List.replicate 4 0 := by
  have hsize : rowBytes - entries.length * entryBytes = (rowEntries - entries.length) * entryBytes + 4 := by
    have hrow : rowBytes = rowEntries * entryBytes + 4 := by decide
    rw [hrow, Nat.sub_mul]
    have := Nat.mul_le_mul_right entryBytes hlength
    omega
  rw [rowOfEntries, hsize, replicate_add, flatten_append, append_assoc, flatten_replicate_replicate]

theorem decodeRow_rowOfEntries (hfits : ∀ e ∈ entries, e.Fits) (hlength : entries.length ≤ rowEntries)
    (hsorted : entries.Pairwise fun a b => a.tag < b.tag) :
    decodeRow (rowOfEntries entries) = .ok entries := by
  have hwidth : ∀ chunk ∈ entries.map Entry.bytes ++
      List.replicate (rowEntries - entries.length) (List.replicate entryBytes 0), chunk.length = entryBytes := by
    intro chunk hchunk
    rcases mem_append.mp hchunk with hchunk | hchunk
    · exact width_bytes entries chunk hchunk
    · rw [eq_of_mem_replicate hchunk, length_replicate]
  have hcount : (entries.map Entry.bytes ++
      List.replicate (rowEntries - entries.length) (List.replicate entryBytes 0)).length = rowEntries := by
    rw [length_append, length_map, length_replicate]
    omega
  generalize hchunks : entries.map Entry.bytes ++
      List.replicate (rowEntries - entries.length) (List.replicate entryBytes 0) = chunks at hwidth hcount
  have hrow : rowOfEntries entries = chunks.flatten ++ List.replicate 4 0 := by
    rw [rowOfEntries_eq hlength, hchunks]
  have hflat : chunks.flatten.length = rowEntries * entryBytes := by
    rw [length_flatten_of_width hwidth, hcount]
  have hpad : ¬ ((rowOfEntries entries).drop (rowEntries * entryBytes)).any (fun b => decide (b ≠ 0)) = true := by
    rw [hrow, drop_left' hflat]
    decide
  have hread : (List.range rowEntries).map (fun i => bytesAt (rowOfEntries entries) (i * entryBytes) entryBytes) =
      chunks := by
    refine ext_getElem (by rw [length_map, length_range, hcount]) fun i hi hi' => ?_
    rw [getElem_map, getElem_range, hrow]
    have hin : i * entryBytes + entryBytes ≤ chunks.flatten.length := by
      rw [hflat, ← Nat.succ_mul]
      exact Nat.mul_le_mul_right _ (hcount ▸ hi')
    rw [bytesAt_append_of_le hin]
    exact bytesAt_flatten hwidth (getElem?_eq_getElem hi')
  rw [decodeRow, if_neg (by rw [not_or]; exact ⟨not_not_intro (length_rowOfEntries hlength), hpad⟩), hread, ← hchunks,
    decodeEntries_bytes hfits (by simpa using hsorted), nil_append]
  exact decodeEntries_padding ..

/-! ## Slots -/

theorem decodeSlot_bytes {record : RawRecord} (h : record.Fits) (payload : FixedBytes payloadBytes) :
    decodeSlot (record.bytes ++ payload.val) = .ok (some (record, payload)) := by
  have hlength : (record.bytes ++ payload.val).length = slotBytes := by
    rw [length_append, record.length_bytes, payload.property, slotBytes]
  have htake : (record.bytes ++ payload.val).take recordBytes = record.bytes := take_left' record.length_bytes
  have hpayload : fixedAt (record.bytes ++ payload.val) recordBytes payloadBytes = payload := by
    refine fixedAt_eq ?_
    rw [bytesAt_append_right record.length_bytes.le, record.length_bytes, Nat.sub_self, bytesAt_eq_self payload.property]
  rw [decodeSlot, if_neg (not_not_intro hlength), htake, RawRecord.decode_bytes h]
  change Except.ok (some (record, fixedAt _ _ _)) = _
  rw [hpayload]

theorem encodeSlot_eq {record : RawRecord} (h : record.Fits) (payload : FixedBytes payloadBytes) :
    encodeSlot record payload = .ok (record.bytes ++ payload.val) := by
  rw [encodeSlot, RawRecord.encode, if_pos h.pages]
  rfl

end Zakura.Receiver
