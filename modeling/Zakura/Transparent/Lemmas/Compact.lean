import Zakura.Transparent.Compact
import Zakura.Transparent.Lemmas.EventCanonical

/-! # What the compact decoder reads back

The encoder's bytes for a list of events, followed by anything, are decoded to that list. -/

namespace Zakura.Transparent

open List Reader TransparentEvent

/-- An event the encoder accepts: its metadata is valid and its record is not the empty one. -/
def TransparentEvent.Encodable (event : TransparentEvent) : Prop :=
  event.validateMetadata = .ok () ∧ Compact.isEmptySentinel event = false

theorem TransparentEvent.legacyBytes_all_zero {event : TransparentEvent}
    (h : Compact.isEmptySentinel event = false) : event.legacyBytes.all (· == 0) = false := by
  cases event with
  | spend e => simp [legacyBytes]
  | receive e =>
    by_contra hzero
    rw [Bool.not_eq_false] at hzero
    simp only [legacyBytes, all_append, Bool.and_eq_true] at hzero
    obtain ⟨⟨⟨⟨⟨⟨hflag, hposition⟩, hheight⟩, hvalue⟩, htxid⟩, hindex⟩, -⟩ := hzero
    have hcoinbase : e.coinbase = false := by
      cases hc : e.coinbase <;> simp_all
    have hposition' : e.transactionIndex = 0 := by
      rw [← ofNat_leNat_leBytes16 e.transactionIndex, leNat_eq_zero hposition]
      rfl
    have hheight' : e.height = 0 := by
      rw [← ofNat_leNat_leBytes32 e.height, leNat_eq_zero hheight]
      rfl
    have hvalue' : e.value = 0 := by
      rw [← ofNat_leNat_leBytes64 e.value, leNat_eq_zero hvalue]
      rfl
    have hindex' : e.outputIndex = 0 := by
      rw [← ofNat_leNat_leBytes32 e.outputIndex, leNat_eq_zero hindex]
      rfl
    have htxid' : e.txid = .zero := by
      have hbytes : e.txid.bytes.val = List.replicate 32 0 := by
        rw [eq_replicate_iff]
        exact ⟨e.txid.bytes.length_val, fun b hb => beq_iff_eq.mp (all_eq_true.mp htxid b hb)⟩
      exact congrArg Txid.mk (Subtype.ext hbytes)
    simp [Compact.isEmptySentinel, hcoinbase, hposition', hheight', hvalue', hindex', htxid'] at h

namespace Compact

/-! ## Flags -/

theorem metadataFlags_cases (metadata : Option TransactionMetadata) :
    metadata.elim 0 TransactionMetadata.flags ∈ [(0 : UInt8), 32, 40, 48, 56] := by
  cases metadata with
  | none => decide
  | some metadata =>
    obtain ⟨fee, count, shielded⟩ := metadata
    cases fee <;> cases shielded <;> simp [TransactionMetadata.flags] <;> decide

theorem flags_bits : ∀ kind ∈ [(0 : UInt8), 1, 2, 5], ∀ flags ∈ [(0 : UInt8), 32, 40, 48, 56],
    ¬ ((kind ||| flags) &&& ~~~63 ≠ 0 ∨ ((kind ||| flags) &&& 1 = 0 ∧ (kind ||| flags) &&& localOutpoint ≠ 0) ∨
      (kind ||| flags) &&& 3 = 3) ∧ (kind ||| flags) &&& 56 = flags ∧ (kind ||| flags) &&& 1 = kind &&& 1 ∧
      (kind ||| flags) &&& 2 = kind &&& 2 ∧ (kind ||| flags) &&& 3 = kind &&& 3 ∧
      (kind ||| flags) &&& localOutpoint = kind &&& 4 := by
  decide +kernel

theorem spendFlags_eq : ∀ flags ∈ [(0 : UInt8), 32, 40, 48, 56], ∀ reference : Bool,
    1 ||| flags ||| (if reference then localOutpoint else 0) = (if reference then 5 else 1) ||| flags := by
  decide +kernel

/-! ## Records -/

theorem legacyBytes_receive (e : ReceiveEvent) : ∃ fields : Bytes, fields.length = 50 ∧
    (receive e).legacyBytes =
      (if e.coinbase then 2 else 0) :: (fields ++ List.replicate 36 0) := by
  refine ⟨leBytes 2 e.transactionIndex.toNat ++ leBytes 4 e.height.toNat ++ leBytes 8 e.value.toNat ++
    e.txid.bytes.val ++ leBytes 4 e.outputIndex.toNat, by simp, ?_⟩
  simp only [legacyBytes, append_assoc, cons_append, nil_append]

theorem legacyBytes_spend (e : SpendEvent) : ∃ position input : Bytes, position.length = 6 ∧
    input.length = 36 ∧ (spend e).legacyBytes =
      1 :: (position ++ (List.replicate 8 0 ++ (input ++
        (e.spentTxid.bytes.val ++ leBytes 4 e.spentOutputIndex.toNat)))) := by
  refine ⟨leBytes 2 e.transactionIndex.toNat ++ leBytes 4 e.height.toNat,
    e.spendingTxid.bytes.val ++ leBytes 4 e.inputIndex.toNat, by simp, by simp, ?_⟩
  simp only [legacyBytes, append_assoc, cons_append, nil_append]

theorem length_metadataEncoding (metadata : Option TransactionMetadata) :
    (metadata.elim [] TransactionMetadata.encode).length = metadata.elim 0 TransactionMetadata.encodedLen := by
  cases metadata with
  | none => rfl
  | some metadata => exact metadata.length_encode

theorem length_eventEncoding (event : TransparentEvent) (previous : Option TransparentEvent) :
    (eventEncoding event previous).length = eventLen event previous := by
  unfold eventEncoding eventLen
  rw [length_append, length_metadataEncoding]
  congr 1
  cases event with
  | receive e =>
    obtain ⟨fields, hlen, hraw⟩ := legacyBytes_receive e
    simp [hraw, hlen, receiveBytes]
  | spend e =>
    obtain ⟨position, input, hposition, hinput, hraw⟩ := legacyBytes_spend e
    cases isLocal (.spend e) previous <;>
      simp [hraw, hposition, hinput, drop_append, localSpendBytes, spendBytes]

/-! ## One event -/

variable {event : TransparentEvent}

theorem decodeMetadata_encode (h : event.validateMetadata = .ok ()) (input : Bytes) :
    (TransactionMetadata.decode (event.metadata.elim 0 TransactionMetadata.flags) event.coinbase).run
        (event.metadata.elim [] TransactionMetadata.encode ++ input) = .ok (event.metadata, input) := by
  cases hm : event.metadata with
  | none => simp [TransactionMetadata.decode]
  | some metadata =>
    exact TransactionMetadata.decode_encode (validate_of_metadata h hm) input

def bodyLen (flags : UInt8) : Nat :=
  if flags &&& 1 = 0 then receiveBytes else if flags &&& localOutpoint ≠ 0 then localSpendBytes else spendBytes

variable {previous : Option TransparentEvent}

/-- What one round of the decoder needs from a body and the metadata after it. -/
theorem run_decodeEvent {flags : UInt8} {body raw more input : Bytes} {metadata : Option TransactionMetadata}
    (hhead : body.head? = some flags)
    (hflags : ¬ (flags &&& ~~~63 ≠ 0 ∨ (flags &&& 1 = 0 ∧ flags &&& localOutpoint ≠ 0) ∨ flags &&& 3 = 3))
    (hlen : body.length = bodyLen flags) (hraw : rawRecord flags body previous = .ok raw)
    (hmetadata : (TransactionMetadata.decode (flags &&& 56) (flags &&& 2 ≠ 0)).run (more ++ input) = .ok (metadata, input))
    (hrecord : fromLegacyBytes raw = .ok event)
    (hvalid : (event.withMetadata metadata).validateMetadata = .ok ())
    (hcanonical : eventLen (event.withMetadata metadata) previous = body.length + more.length) :
    (decodeEvent previous).run (body ++ (more ++ input)) = .ok (event.withMetadata metadata, input) := by
  unfold decodeEvent
  rw [run_bind_ok]
  refine ⟨flags, _, run_peek_ok.mpr ⟨?_, rfl⟩, ?_⟩
  · cases body with
    | nil => simp at hhead
    | cons b body => simpa using hhead
  rw [if_neg hflags, run_bind_ok]
  refine ⟨⟨body, hlen⟩, more ++ input, run_takeBytes_ok.mpr rfl, ?_⟩
  rw [run_bind_ok]
  refine ⟨raw, _, run_ofExcept_ok.mpr ⟨hraw, rfl⟩, ?_⟩
  rw [run_bind_ok]
  refine ⟨_, _, run_remaining_ok.mpr ⟨rfl, rfl⟩, ?_⟩
  rw [run_bind_ok]
  refine ⟨metadata, input, run_mapError_ok.mpr hmetadata, ?_⟩
  rw [run_bind_ok]
  refine ⟨_, _, run_remaining_ok.mpr ⟨rfl, rfl⟩, ?_⟩
  rw [run_bind_ok]
  refine ⟨event, _, run_ofExcept_ok.mpr ⟨by rw [hrecord]; rfl, rfl⟩, ?_⟩
  rw [run_bind_ok]
  refine ⟨(), _, run_ofExcept_ok.mpr ⟨by rw [hvalid]; rfl, rfl⟩, ?_⟩
  rw [if_neg, run_pure_ok]
  · exact ⟨rfl, rfl⟩
  · rw [hcanonical, hlen, length_append]
    simp [bodyLen]

/-- The decoder's path, from the kind bits of an event's first byte. -/
theorem decodeEvent_kind (kind : UInt8) (fields : Bytes) {raw : Bytes} {bare : TransparentEvent}
    (hkind : kind ∈ [(0 : UInt8), 1, 2, 5]) (hvalid : event.validateMetadata = .ok ())
    (hcoinbase : decide (kind &&& 2 ≠ 0) = event.coinbase) (hlen : fields.length + 1 = bodyLen kind)
    (hbody : eventEncoding event previous = ((kind ||| event.metadata.elim 0 TransactionMetadata.flags) :: fields) ++
      event.metadata.elim [] TransactionMetadata.encode)
    (hraw : ∀ flags, flags &&& 1 = kind &&& 1 → flags &&& 3 = kind &&& 3 → flags &&& localOutpoint = kind &&& 4 →
      rawRecord flags (flags :: fields) previous = .ok raw)
    (hrecord : fromLegacyBytes raw = .ok bare) (hbare : bare.withMetadata event.metadata = event)
    (input : Bytes) : (decodeEvent previous).run (eventEncoding event previous ++ input) = .ok (event, input) := by
  obtain ⟨hknown, hmeta, hspend, hcoin, hboth, hlocal⟩ := flags_bits _ hkind _ (metadataFlags_cases event.metadata)
  have hmetadata := decodeMetadata_encode hvalid input
  have hcanonical := length_eventEncoding event previous
  rw [hbody, length_append] at hcanonical
  rw [hbody, append_assoc]
  generalize kind ||| event.metadata.elim 0 TransactionMetadata.flags = flags at *
  have hrun := run_decodeEvent rfl hknown
    (by rw [length_cons, hlen, bodyLen, bodyLen, hspend, hlocal]; rfl) (hraw flags hspend hboth hlocal)
    (by rw [hmeta, hcoin, hcoinbase]; exact hmetadata) hrecord (by rw [hbare, hvalid])
    (by rw [hbare, hcanonical])
  rwa [hbare] at hrun

theorem decodeEvent_receive {e : ReceiveEvent} (previous : Option TransparentEvent)
    (h : (receive e).Encodable) (input : Bytes) :
    (decodeEvent previous).run (eventEncoding (.receive e) previous ++ input) = .ok (.receive e, input) := by
  obtain ⟨hvalid, hsentinel⟩ := h
  obtain ⟨fields, hlen, hraw⟩ := legacyBytes_receive e
  have hrecord := fromLegacyBytes_receive e
    (legacyBytes_all_zero hsentinel)
  rw [hraw] at hrecord
  have hspendBit : (if e.coinbase then 2 else 0 : UInt8) &&& 1 = 0 := by cases e.coinbase <;> decide
  have hkindBits : (if e.coinbase then 2 else 0 : UInt8) &&& 3 = if e.coinbase then 2 else 0 := by
    cases e.coinbase <;> decide
  refine decodeEvent_kind (if e.coinbase then 2 else 0) fields ?_ hvalid ?_ ?_ ?_ ?_ hrecord rfl input
  · cases e.coinbase <;> decide
  · cases hcoinbase : e.coinbase <;> simp [coinbase, hcoinbase]
  · simp [hlen, bodyLen, hspendBit, receiveBytes]
  · unfold eventEncoding
    simp only [hraw, headD_cons]
    simp [hlen]
  · intro flags hspend hkind hlocal
    simp [rawRecord, hspend, hspendBit, hkind, hkindBits]

variable {e : SpendEvent}

theorem outpoint_of_isLocal (h : isLocal (.spend e) previous = true) : ∃ r : ReceiveEvent, previous = some (.receive r) ∧
      r.txid = e.spentTxid ∧ r.outputIndex = e.spentOutputIndex := by
  unfold isLocal at h
  split at h
  · rename_i r s heq
    cases heq
    have hout := of_decide_eq_true h
    exact ⟨r, rfl, congrArg Outpoint.txid hout, congrArg Outpoint.index hout⟩
  · cases h

theorem decodeEvent_spend (previous : Option TransparentEvent) (h : (spend e).Encodable)
    (input : Bytes) :
    (decodeEvent previous).run (eventEncoding (.spend e) previous ++ input) = .ok (.spend e, input) := by
  obtain ⟨hvalid, -⟩ := h
  obtain ⟨position, spender, hposition, hspender, hraw⟩ := legacyBytes_spend e
  have hrecord := fromLegacyBytes_spend e
  rw [hraw] at hrecord
  cases hlocal : isLocal (.spend e) previous with
  | true =>
    -- The outpoint is left out and taken from the receive before.
    obtain ⟨r, rfl, htxid, hindex⟩ := outpoint_of_isLocal hlocal
    have hflags := spendFlags_eq _ (metadataFlags_cases (spend e).metadata) true
    refine decodeEvent_kind 5 (position ++ spender) (by decide) hvalid rfl ?_ ?_ ?_ hrecord rfl input
    · rw [length_append, hposition, hspender]
      rfl
    · unfold eventEncoding
      rw [if_pos rfl, if_pos rfl] at hflags
      simp only [hraw, headD_cons, hlocal, if_true, hflags]
      simp [hposition, hspender]
    · intro flags (hspend : flags &&& 1 = 1) _ (hreference : flags &&& localOutpoint = 4)
      simp [rawRecord, hspend, hreference, hposition, hspender, htxid, hindex]
  | false =>
    refine decodeEvent_kind 1
      (position ++ (spender ++ (e.spentTxid.bytes.val ++ leBytes 4 e.spentOutputIndex.toNat)))
      (by decide) hvalid rfl ?_ ?_ ?_ hrecord rfl input
    · simp only [length_append, hposition, hspender, FixedBytes.length_val, length_leBytes]
      rfl
    · unfold eventEncoding
      simp only [hraw, headD_cons, hlocal, if_neg Bool.false_ne_true]
      simp [hposition, hspender, drop_append]
    · intro flags (hspend : flags &&& 1 = 1) _ (hreference : flags &&& localOutpoint = 0)
      simp [rawRecord, hspend, hreference, hposition, hspender, drop_append]

theorem decodeEvent_encoding (previous : Option TransparentEvent) (h : event.Encodable) (input : Bytes) :
    (decodeEvent previous).run (eventEncoding event previous ++ input) = .ok (event, input) := by
  cases event with
  | receive e => exact decodeEvent_receive previous h input
  | spend e => exact decodeEvent_spend previous h input

/-! ## Lists of events -/

def encodingFrom : Option TransparentEvent → List TransparentEvent → Bytes
  | _, [] => []
  | previous, event :: events => eventEncoding event previous ++ encodingFrom (some event) events

theorem length_encodingFrom (previous : Option TransparentEvent) (events : List TransparentEvent) :
    (encodingFrom previous events).length = encodedLenFrom previous events := by
  induction events generalizing previous with
  | nil => rfl
  | cons event events ih => rw [encodingFrom, encodedLenFrom, length_append, length_eventEncoding, ih]

variable {events : List TransparentEvent}

/-- The encoder accepts exactly the lists of encodable events, and writes them one after another. -/
theorem encodeFrom_ok {bytes : Bytes} :
    encodeFrom previous events = .ok bytes ↔
      (∀ event ∈ events, event.Encodable) ∧ bytes = encodingFrom previous events := by
  induction events generalizing previous bytes with
  | nil => simp [encodeFrom, encodingFrom, eq_comm]
  | cons event events ih =>
    unfold encodeFrom encodingFrom
    cases hvalid : event.validateMetadata with
    | error e => simp [TransparentEvent.Encodable, hvalid, Except.mapError, bind, Except.bind]
    | ok u =>
      cases hsentinel : isEmptySentinel event with
      | true => simp [TransparentEvent.Encodable, hsentinel, Except.mapError, bind, Except.bind]
      | false =>
        cases hrest : encodeFrom (some event) events with
        | error e =>
          have hnone : ¬ ∀ event ∈ events, event.Encodable := by
            intro hall
            have hok : encodeFrom (some event) events = .ok (encodingFrom (some event) events) :=
              ih.mpr ⟨hall, rfl⟩
            rw [hrest] at hok
            cases hok
          simp [Except.mapError, bind, Except.bind, hnone]
        | ok rest =>
          obtain ⟨hall, rfl⟩ := ih.mp hrest
          have hevent : event.Encodable := ⟨hvalid, hsentinel⟩
          simp only [Except.mapError, bind, Except.bind, pure, Except.pure, Bool.false_eq_true, if_false,
            Except.ok.injEq, mem_cons, forall_eq_or_imp, hevent, true_and]
          constructor
          · intro h
            exact ⟨fun _ hm => hall _ hm, h.symm⟩
          · intro h
            exact h.2.symm

theorem encode_ok {bytes : Bytes} :
    encode events = .ok bytes ↔ (∀ event ∈ events, event.Encodable) ∧ bytes = encodingFrom none events :=
  encodeFrom_ok

/-- By induction on the list, the previous event going along. -/
theorem decodeFrom_encoding (previous : Option TransparentEvent) (h : ∀ event ∈ events, event.Encodable) (input : Bytes) :
    (decodeFrom events.length previous).run (encodingFrom previous events ++ input) = .ok (events, input) := by
  induction events generalizing previous with
  | nil => exact run_pure_ok.mpr ⟨rfl, rfl⟩
  | cons event events ih =>
    unfold encodingFrom
    rw [length_cons, decodeFrom, append_assoc, run_bind_ok]
    refine ⟨event, _, decodeEvent_encoding previous (h event mem_cons_self) _, ?_⟩
    rw [run_bind_ok]
    refine ⟨events, input, ih (some event) fun e he => h e (mem_cons_of_mem _ he), ?_⟩
    exact run_pure_ok.mpr ⟨rfl, rfl⟩

theorem decode_encoding (hcount : events.length ≤ eventsPerPage) (h : ∀ event ∈ events, event.Encodable) (input : Bytes) :
    (decode events.length).run (encodingFrom none events ++ input) = .ok (events, input) := by
  unfold decode
  rw [if_neg (by omega)]
  exact decodeFrom_encoding none h input

end Compact

end Zakura.Transparent
