import Zakura.Transparent.Lemmas.Compact

/-! # What the compact decoder accepts

Every accepted event is written back as the bytes it was read from: the flags byte says all that the event
does, and the outpoint is left out exactly when it can be. -/

namespace Zakura.Transparent

open List Zakura.Except Reader

namespace Compact

/-! ## Flags -/

variable {flags : UInt8}

theorem flags_of_announced {coinbase : Bool} {metadata : Option TransactionMetadata}
    (h : TransactionMetadata.Announced flags coinbase metadata) :
    metadata.elim 0 TransactionMetadata.flags = flags := by
  cases metadata with
  | none => exact Eq.symm h
  | some metadata => exact h.1

set_option maxRecDepth 4096 in
theorem receive_flags (hknown : flags &&& ~~~63 = 0) (hreceive : flags &&& 1 = 0) (hlocal : flags &&& localOutpoint = 0) :
    (flags &&& 3) ||| (flags &&& 56) = flags := by
  revert flags
  refine @(forall_byte ?_)
  decide

set_option maxRecDepth 4096 in
theorem spend_flags (hknown : flags &&& ~~~63 = 0) (hspend : flags &&& 1 ≠ 0) (hboth : flags &&& 3 ≠ 3) :
    1 ||| (flags &&& 56) ||| (if flags &&& localOutpoint ≠ 0 then localOutpoint else 0) = flags := by
  revert flags
  refine @(forall_byte ?_)
  decide

set_option maxRecDepth 4096 in
theorem receive_kind (hreceive : flags &&& 1 = 0) : flags &&& 3 ≠ 1 := by
  revert flags
  refine @(forall_byte ?_)
  decide

/-! ## Records -/

variable {event : TransparentEvent}

theorem isEmptySentinel_of_legacyBytes (h : event.legacyBytes.all (· == 0) = false) :
    isEmptySentinel event = false := by
  by_contra hsentinel
  rw [Bool.not_eq_false] at hsentinel
  cases event with
  | spend e => cases hsentinel
  | receive e =>
    simp only [isEmptySentinel, Bool.and_eq_true, beq_iff_eq, Bool.not_eq_true'] at hsentinel
    obtain ⟨⟨⟨⟨⟨hheight, hposition⟩, hvalue⟩, htxid⟩, hindex⟩, hcoinbase⟩ := hsentinel
    rw [TransparentEvent.legacyBytes, hheight, hposition, hvalue, htxid, hindex, hcoinbase] at h
    cases h

theorem spent_of_legacyBytes {e : SpendEvent} {front : Bytes} {txid : Txid} {index : UInt32} (hfront : front.length = 51)
    (h : (TransparentEvent.spend e).legacyBytes = front ++ (txid.bytes.val ++ leBytes 4 index.toNat)) :
    e.spentTxid = txid ∧ e.spentOutputIndex = index := by
  obtain ⟨position, input, hposition, hinput, hraw⟩ := legacyBytes_spend e
  have hsplit : (1 :: (position ++ (List.replicate 8 0 ++ input))) ++
      (e.spentTxid.bytes.val ++ leBytes 4 e.spentOutputIndex.toNat) =
      front ++ (txid.bytes.val ++ leBytes 4 index.toNat) := by
    rw [← h, hraw]
    simp only [cons_append, append_assoc]
  obtain ⟨-, hout⟩ := List.append_inj hsplit (by simp [hposition, hinput, hfront])
  obtain ⟨htxid, hindex⟩ := FixedBytes.append_inj hout
  refine ⟨?_, ?_⟩
  · cases hs : e.spentTxid
    cases txid
    rw [hs] at htxid
    exact congrArg Txid.mk htxid
  · rw [← ofNat_leNat_leBytes32 e.spentOutputIndex, hindex, ofNat_leNat_leBytes32]

theorem exists_append {fields : Bytes} {n : Nat} (h : n ≤ fields.length) :
    ∃ front back, fields = front ++ back ∧ front.length = n ∧ back.length = fields.length - n :=
  ⟨fields.take n, fields.drop n, (take_append_drop n fields).symm, length_take_of_le h, length_drop⟩

/-! ## One event -/

/-- What one round of the decoder found when it returned an event. -/
structure DecodedEvent (previous : Option TransparentEvent) (event : TransparentEvent) (flags : UInt8)
    (body raw : Bytes) : Prop where
  head : body.head? = some flags
  known : flags &&& ~~~63 = 0
  reference : flags &&& 1 = 0 → flags &&& localOutpoint = 0
  kind : flags &&& 3 ≠ 3
  length : body.length = bodyLen flags
  record : rawRecord flags body previous = .ok raw
  metadata : event.metadata.elim 0 TransactionMetadata.flags = flags &&& 56
  legacy : event.legacyBytes = raw
  encodable : event.Encodable
  canonical : eventLen event previous = bodyLen flags + (event.metadata.elim [] TransactionMetadata.encode).length

variable {previous : Option TransparentEvent} {input rest : Bytes}

theorem decodeEvent_ok (h : (decodeEvent previous).run input = .ok (event, rest)) : ∃ flags body raw,
      DecodedEvent previous event flags body raw ∧
      input = body ++ (event.metadata.elim [] TransactionMetadata.encode ++ rest) := by
  unfold decodeEvent at h
  rw [run_bind_ok] at h
  obtain ⟨flags, _, hpeek, h⟩ := h
  obtain ⟨hhead, rfl⟩ := run_peek_ok.mp hpeek
  by_cases hflags : flags &&& ~~~63 ≠ 0 ∨ (flags &&& 1 = 0 ∧ flags &&& localOutpoint ≠ 0) ∨ flags &&& 3 = 3
  · rw [if_pos hflags] at h
    exact absurd h (by simp)
  rw [if_neg hflags] at h
  simp only [not_or, not_not, not_and] at hflags
  dsimp only at h
  generalize hl : (if flags &&& 1 = 0 then receiveBytes else if flags &&& localOutpoint ≠ 0 then localSpendBytes
    else spendBytes) = len at h
  change bodyLen flags = len at hl
  subst hl
  simp only [run_bind_ok, run_takeBytes_ok, run_ofExcept_ok, run_remaining_ok,
    run_mapError_ok, mapError_eq_ok] at h
  obtain ⟨⟨body, hlen⟩, mid, rfl, raw, _, ⟨hraw, rfl⟩, _, _, ⟨rfl, rfl⟩, metadata, _, hmetadata, _, _, ⟨rfl, rfl⟩,
    record, _, ⟨hrecord, rfl⟩, _, _, ⟨hvalid, rfl⟩, h⟩ := h
  obtain ⟨hannounced, rfl⟩ := TransactionMetadata.run_decode_ok.mp hmetadata
  obtain ⟨hnone, rfl, hzero⟩ := TransparentEvent.fromLegacyBytes_ok.mp hrecord
  split_ifs at h with hcanonical
  · exact absurd h (by simp)
  obtain ⟨rfl, rfl⟩ := run_pure_ok.mp h
  rw [not_not, length_append, Nat.add_sub_cancel] at hcanonical
  have hbody : body.head? = some flags := by
    cases body with
    | nil =>
      have hpos : 0 < bodyLen flags := by
        unfold bodyLen receiveBytes localSpendBytes spendBytes
        split_ifs <;> decide
      exact absurd hlen hpos.ne
    | cons b body => exact hhead
  refine ⟨flags, body, record.legacyBytes,
    ⟨hbody, hflags.1, hflags.2.1, hflags.2.2, hlen, hraw, ?_, ?_, ⟨hvalid, ?_⟩, ?_⟩, ?_⟩
  · rw [TransparentEvent.metadata_withMetadata]
    exact flags_of_announced hannounced
  · exact TransparentEvent.legacyBytes_withMetadata record metadata
  · refine isEmptySentinel_of_legacyBytes ?_
    rw [TransparentEvent.legacyBytes_withMetadata]
    exact hzero
  · rw [TransparentEvent.metadata_withMetadata]
    exact hcanonical
  · rw [TransparentEvent.metadata_withMetadata]

variable {body raw : Bytes}

theorem DecodedEvent.body_eq (h : DecodedEvent previous event flags body raw) :
    ∃ fields, body = flags :: fields ∧ fields.length + 1 = bodyLen flags := by
  cases hbody : body with
  | nil => exact absurd h.head (by simp [hbody])
  | cons b fields =>
    have hhead := h.head
    have hlength := h.length
    rw [hbody] at hhead hlength
    obtain rfl := Option.some.inj hhead
    exact ⟨fields, rfl, hlength⟩

theorem DecodedEvent.receive_encoding (h : DecodedEvent previous event flags body raw) (hreceive : flags &&& 1 = 0) :
    eventEncoding event previous = body ++ event.metadata.elim [] TransactionMetadata.encode := by
  obtain ⟨fields, rfl, hlength⟩ := h.body_eq
  have hfields : fields.length = 50 := by
    rw [bodyLen, if_pos hreceive, receiveBytes] at hlength
    omega
  have hrecord := h.record
  unfold rawRecord at hrecord
  rw [if_pos hreceive] at hrecord
  obtain rfl := Except.ok.inj hrecord
  have hlegacy := h.legacy
  cases event with
  | spend e =>
    -- The record of a spend starts with a one.
    exact absurd (List.cons.inj hlegacy).1.symm (receive_kind hreceive)
  | receive e =>
    unfold eventEncoding
    simp only [hlegacy, h.metadata]
    simp [hfields, receive_flags h.known hreceive (h.reference hreceive)]

theorem DecodedEvent.local_encoding (h : DecodedEvent previous event flags body raw) (hspend : flags &&& 1 ≠ 0)
    (hlocal : flags &&& localOutpoint ≠ 0) :
    eventEncoding event previous = body ++ event.metadata.elim [] TransactionMetadata.encode := by
  obtain ⟨fields, rfl, hlength⟩ := h.body_eq
  have hfields : fields.length = 42 := by
    rw [bodyLen, if_neg hspend, if_pos hlocal, localSpendBytes] at hlength
    omega
  obtain ⟨position, spender, rfl, hposition, hspender⟩ := exists_append (by omega : 6 ≤ fields.length)
  rw [hfields] at hspender
  have hrecord := h.record
  have hflags := spend_flags h.known hspend h.kind
  rw [if_pos hlocal] at hflags
  unfold rawRecord at hrecord
  rw [if_neg hspend, if_pos hlocal, bind_eq_ok] at hrecord
  obtain ⟨outpoint, hout, hraw⟩ := hrecord
  obtain rfl := pure_eq_ok.mp hraw
  split at hout
  · rename_i r
    obtain rfl := Except.ok.inj hout
    have hlegacy := h.legacy
    cases event with
    | receive e =>
      have hkind := (List.cons.inj hlegacy).1
      cases hc : e.coinbase <;> simp [hc] at hkind
    | spend e =>
      obtain ⟨htxid, hindex⟩ := spent_of_legacyBytes (by simp [hposition, hspender]) hlegacy
      have hreference : isLocal (.spend e) (some (.receive r)) = true := by
        simp [isLocal, ReceiveEvent.outpoint, SpendEvent.spent, htxid, hindex]
      unfold eventEncoding
      simp only [hlegacy, h.metadata, hreference, if_true]
      simp [hposition, hspender, hflags]
  · cases hout

theorem DecodedEvent.full_encoding (h : DecodedEvent previous event flags body raw) (hspend : flags &&& 1 ≠ 0)
    (hlocal : ¬ flags &&& localOutpoint ≠ 0) :
    eventEncoding event previous = body ++ event.metadata.elim [] TransactionMetadata.encode := by
  obtain ⟨fields, rfl, hlength⟩ := h.body_eq
  have hcanonical := h.canonical
  rw [bodyLen, if_neg hspend, if_neg hlocal] at hlength hcanonical
  have hfields : fields.length = 78 := by
    unfold spendBytes at hlength
    omega
  obtain ⟨position, tail, rfl, hposition, htail⟩ := exists_append (by omega : 6 ≤ fields.length)
  obtain ⟨spender, outpoint, rfl, hspender, -⟩ := exists_append (by omega : 36 ≤ tail.length)
  have hrecord := h.record
  have hflags := spend_flags h.known hspend h.kind
  rw [if_neg hlocal] at hflags
  unfold rawRecord at hrecord
  rw [if_neg hspend, if_neg hlocal, ok_bind] at hrecord
  obtain rfl := pure_eq_ok.mp hrecord
  have hlegacy := h.legacy
  cases event with
  | receive e =>
    have hkind := (List.cons.inj hlegacy).1
    cases hc : e.coinbase <;> simp [hc] at hkind
  | spend e =>
    have hreference : isLocal (.spend e) previous = false := by
      by_contra hno
      rw [Bool.not_eq_false] at hno
      rw [length_metadataEncoding, eventLen, if_pos hno, Nat.add_right_cancel_iff] at hcanonical
      exact absurd hcanonical (by decide)
    have hpast : position.drop 42 = [] := drop_eq_nil_of_le (by omega)
    have hpast' : position.drop 50 = [] := drop_eq_nil_of_le (by omega)
    unfold eventEncoding
    simp only [hlegacy, h.metadata, hreference]
    simp [hposition, hspender, hflags, drop_append, hpast, hpast']

theorem decodeEvent_canonical (h : (decodeEvent previous).run input = .ok (event, rest)) :
    event.Encodable ∧ input = eventEncoding event previous ++ rest := by
  obtain ⟨flags, body, raw, hdecoded, rfl⟩ := decodeEvent_ok h
  refine ⟨hdecoded.encodable, ?_⟩
  rw [← append_assoc]
  congr 1
  by_cases hreceive : flags &&& 1 = 0
  · exact (hdecoded.receive_encoding hreceive).symm
  · by_cases hlocal : flags &&& localOutpoint ≠ 0
    · exact (hdecoded.local_encoding hreceive hlocal).symm
    · exact (hdecoded.full_encoding hreceive hlocal).symm

/-! ## Lists of events -/

/-- By induction on the count, the event read last going along. -/
theorem run_decodeFrom_ok {count : Nat} {events : List TransparentEvent} :
    (decodeFrom count previous).run input = .ok (events, rest) ↔
      events.length = count ∧ (∀ event ∈ events, event.Encodable) ∧ input = encodingFrom previous events ++ rest := by
  constructor
  · intro h
    induction count generalizing previous events input with
    | zero =>
      obtain ⟨rfl, rfl⟩ := run_pure_ok.mp h
      exact ⟨rfl, by simp, rfl⟩
    | succ count ih =>
      simp only [decodeFrom, run_bind_ok, run_pure_ok] at h
      obtain ⟨event, mid, hevent, events, _, hevents, rfl, rfl⟩ := h
      obtain ⟨hencodable, rfl⟩ := decodeEvent_canonical hevent
      obtain ⟨hlength, hall, rfl⟩ := ih hevents
      refine ⟨by rw [length_cons, hlength], by simpa using ⟨hencodable, hall⟩, ?_⟩
      rw [encodingFrom, append_assoc]
  · rintro ⟨rfl, hall, rfl⟩
    exact decodeFrom_encoding previous hall rest

theorem run_decode_ok {count : Nat} {events : List TransparentEvent} :
    (decode count).run input = .ok (events, rest) ↔ events.length = count ∧ count ≤ eventsPerPage ∧
      (∀ event ∈ events, event.Encodable) ∧ input = encodingFrom none events ++ rest := by
  unfold decode
  split_ifs with hcount
  · rw [run_fail_ok, false_iff]
    rintro ⟨-, hle, -⟩
    omega
  · rw [run_decodeFrom_ok, and_congr_right_iff]
    intro _
    exact (and_iff_right (by omega)).symm

end Compact

end Zakura.Transparent
