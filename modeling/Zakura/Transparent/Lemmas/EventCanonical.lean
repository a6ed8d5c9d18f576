import Zakura.Lib.Except
import Zakura.Transparent.Lemmas.EventCodec

/-! # What the event record decoder accepts

An input is accepted only if it is what the encoder writes for the value it is decoded to. -/

namespace Zakura.Transparent

open List Zakura.Except Reader

/-! ## Variable-length integers -/

variable {maximum value v : Nat} {input rest : Bytes}

/-- What the decoder accepts with `i` groups behind it is the canonical form of the groups it adds. -/
theorem decodeVarintLoop_canonical {left i : Nat} (hleft : left + i = 10) (hvalue : value < 2 ^ (7 * i))
    (h : (decodeVarintLoop maximum left i value).run input = .ok (v, rest)) :
    ∃ high, v = value + high * 2 ^ (7 * i) ∧ v ≤ maximum ∧ (i ≠ 0 → high ≠ 0) ∧
      input = encodeVarintFrom left high ++ rest := by
  induction left generalizing i value input with
  | zero => exact absurd h (by simp [decodeVarintLoop])
  | succ left ih =>
    rw [decodeVarintLoop, run_bind_ok] at h
    obtain ⟨byte, mid, hbyte, h⟩ := h
    obtain rfl := run_byte_ok.mp hbyte
    have hlt := byte.toNat_lt
    rw [or_shiftLeft_group _ hvalue] at h
    dsimp only at h
    split_ifs at h with hover hlast hzero hmax
    · exact absurd h (by simp)
    · exact absurd h (by simp)
    · exact absurd h (by simp)
    · -- The last group, which is not zero unless it is the only one.
      obtain ⟨rfl, rfl⟩ := run_pure_ok.mp h
      have hmod : byte.toNat % 128 = byte.toNat := Nat.mod_eq_of_lt hlast
      refine ⟨byte.toNat, by rw [hmod], by omega, ?_, ?_⟩
      · intro hi hz
        exact hzero ⟨hi, UInt8.toNat_inj.mp hz⟩
      · rw [encodeVarintFrom, if_pos (Nat.div_eq_of_lt hlast), hmod, UInt8.ofNat_toNat]
        rfl
    · have hpow : 2 ^ (7 * (i + 1)) = 128 * 2 ^ (7 * i) := by
        rw [show 7 * (i + 1) = 7 + 7 * i by ring, Nat.pow_add]
      have hgroup : byte.toNat % 128 * 2 ^ (7 * i) ≤ 127 * 2 ^ (7 * i) := Nat.mul_le_mul_right _ (by omega)
      obtain ⟨high, hv, hle, hne, rfl⟩ := ih (by omega) (by rw [hpow]; omega) h
      have hpos : high ≠ 0 := hne (by omega)
      have hdiv : (byte.toNat % 128 + 128 * high) / 128 = high := by omega
      have hmod : (byte.toNat % 128 + 128 * high) % 128 + 128 = byte.toNat := by omega
      refine ⟨byte.toNat % 128 + 128 * high, ?_, hle, fun _ => by omega, ?_⟩
      · rw [hv, hpow]
        ring
      · rw [encodeVarintFrom, hdiv, if_neg hpos, hmod, UInt8.ofNat_toNat]
        rfl

/-- The decoder accepts exactly the canonical forms of the integers up to its bound. -/
theorem run_decodeVarint_ok (hmax : maximum < 2 ^ 64) :
    (decodeVarint maximum).run input = .ok (v, rest) ↔
      v ≤ maximum ∧ input = encodeVarint (UInt64.ofNat v) ++ rest := by
  have hback : v ≤ maximum → (UInt64.ofNat v).toNat = v := by
    intro hle
    rw [UInt64.toNat_ofNat', Nat.mod_eq_of_lt (by omega)]
  constructor
  · intro h
    obtain ⟨high, hv, hle, -, hinput⟩ := decodeVarintLoop_canonical rfl (by decide) h
    refine ⟨hle, ?_⟩
    rw [encodeVarint, hback hle, hinput, hv]
    simp
  · rintro ⟨hle, rfl⟩
    have hrun : (decodeVarint maximum).run (encodeVarint (UInt64.ofNat v) ++ rest) =
        .ok ((UInt64.ofNat v).toNat, rest) := decodeVarint_encode (by rw [hback hle]; exact hle) rest
    rw [hback hle] at hrun
    exact hrun

/-! ## Metadata -/

namespace TransactionMetadata

/-- The metadata that a flags byte announces for a transaction of the given kind. -/
def Announced (flags : UInt8) (coinbase : Bool) : Option TransactionMetadata → Prop
  | none => flags = 0
  | some metadata => metadata.flags = flags ∧ metadata.validate coinbase = .ok ()

def feeFlag : FeeState → UInt8
  | .exact _ => 8
  | _ => 0

def feeEncoding : FeeState → Bytes
  | .exact fee => encodeVarint fee
  | _ => []

theorem flags_eq (metadata : TransactionMetadata) :
    metadata.flags = 32 ||| feeFlag metadata.fee ||| if metadata.hasShieldedComponents then 16 else 0 := by
  cases metadata with
  | mk fee => cases fee <;> rfl

theorem encode_eq (metadata : TransactionMetadata) :
    metadata.encode = encodeVarint metadata.transparentInputCount.toUInt64 ++ feeEncoding metadata.fee := by
  cases metadata with
  | mk fee => cases fee <;> rfl

variable {flags : UInt8}

set_option maxRecDepth 4096 in
theorem known_flags (hmask : flags &&& ~~~56 = 0) (hpresent : flags &&& 32 ≠ 0) :
    32 ||| (if flags &&& 8 ≠ 0 then 8 else 0) ||| (if flags &&& 16 ≠ 0 then 16 else 0) = flags := by
  revert flags
  refine @(forall_byte ?_)
  decide

variable {coinbase : Bool} {input rest : Bytes}

theorem decodeFee_canonical {fee : FeeState} (h : (decodeFee flags coinbase).run input = .ok (fee, rest)) :
    feeFlag fee = (if flags &&& 8 ≠ 0 then 8 else 0) ∧ input = feeEncoding fee ++ rest := by
  unfold decodeFee at h
  split_ifs at h with hexact hcoinbase
  · rw [run_bind_ok] at h
    obtain ⟨value, mid, hvalue, h⟩ := h
    obtain ⟨rfl, rfl⟩ := run_pure_ok.mp h
    rw [if_pos hexact]
    exact ⟨rfl, ((run_decodeVarint_ok (by decide)).mp hvalue).2⟩
  · obtain ⟨rfl, rfl⟩ := run_pure_ok.mp h
    rw [if_neg hexact]
    exact ⟨rfl, rfl⟩
  · obtain ⟨rfl, rfl⟩ := run_pure_ok.mp h
    rw [if_neg hexact]
    exact ⟨rfl, rfl⟩

variable {metadata : Option TransactionMetadata}

theorem decode_canonical (h : (decode flags coinbase).run input = .ok (metadata, rest)) :
    Announced flags coinbase metadata ∧ input = metadata.elim [] encode ++ rest := by
  unfold decode at h
  split_ifs at h with hunknown hzero
  · exact absurd h (by simp)
  · obtain ⟨rfl, rfl⟩ := run_pure_ok.mp h
    exact ⟨hzero, rfl⟩
  · rw [not_or, not_not, not_and_not_right] at hunknown
    simp only [run_bind_ok, run_ofExcept_ok, run_pure_ok] at h
    obtain ⟨count, mid, hcount, fee, mid', hfee, _, _, ⟨hvalid, rfl⟩, rfl, rfl⟩ := h
    obtain ⟨hle, rfl⟩ := (run_decodeVarint_ok (by decide)).mp hcount
    obtain ⟨hbit, rfl⟩ := decodeFee_canonical hfee
    have hpresent : flags &&& 32 ≠ 0 := fun hno => hzero (hunknown.2 hno)
    have hback : (UInt32.ofNat count).toUInt64 = UInt64.ofNat count := by
      rw [← UInt64.toNat_inj, UInt32.toNat_toUInt64, UInt32.toNat_ofNat', UInt64.toNat_ofNat']
      omega
    refine ⟨⟨?_, hvalid⟩, ?_⟩
    · rw [flags_eq, hbit]
      simpa using known_flags hunknown.1 hpresent
    · rw [Option.elim_some, encode_eq, hback, append_assoc]

theorem run_decode_ok : (decode flags coinbase).run input = .ok (metadata, rest) ↔
      Announced flags coinbase metadata ∧ input = metadata.elim [] encode ++ rest := by
  refine ⟨decode_canonical, ?_⟩
  rintro ⟨hannounced, rfl⟩
  cases metadata with
  | none =>
    rw [show flags = 0 from hannounced]
    exact run_pure_ok.mpr ⟨rfl, rfl⟩
  | some metadata =>
    rw [← hannounced.1]
    exact decode_encode hannounced.2 rest

end TransactionMetadata

/-! ## The fixed record -/

variable {bytes : Bytes}

theorem leBytes_toNat_ofNat16 (h : bytes.length = 2) :
    leBytes 2 (UInt16.ofNat (leNat bytes)).toNat = bytes := by
  have hlt := leNat_lt bytes
  rw [h] at hlt
  rw [UInt16.toNat_ofNat', Nat.mod_eq_of_lt (by omega), leBytes_leNat_of_length h]

theorem leBytes_toNat_ofNat32 (h : bytes.length = 4) :
    leBytes 4 (UInt32.ofNat (leNat bytes)).toNat = bytes := by
  have hlt := leNat_lt bytes
  rw [h] at hlt
  rw [UInt32.toNat_ofNat', Nat.mod_eq_of_lt (by omega), leBytes_leNat_of_length h]

theorem leBytes_toNat_ofNat64 (h : bytes.length = 8) :
    leBytes 8 (UInt64.ofNat (leNat bytes)).toNat = bytes := by
  have hlt := leNat_lt bytes
  rw [h] at hlt
  rw [UInt64.toNat_ofNat', Nat.mod_eq_of_lt (by omega), leBytes_leNat_of_length h]

theorem txidAt_bytes {offset : Nat} (h : offset + 32 ≤ bytes.length) :
    (txidAt bytes offset).bytes.val = bytesAt bytes offset 32 := by
  rw [txidAt, dif_pos (length_bytesAt h)]

set_option maxRecDepth 4096 in
theorem kind_flags {flags : UInt8} (hknown : flags &&& ~~~3 = 0) :
    (flags &&& 1 = 0 → flags = if flags &&& 2 ≠ 0 then 2 else 0) ∧
      (flags &&& 1 ≠ 0 → flags &&& 2 = 0 → flags = 1) := by
  revert flags
  refine @(forall_byte ?_)
  decide

namespace TransparentEvent

variable {bytes : Bytes}

theorem record_fields (h : bytes.length = eventBytes) :
    bytes = [bytes.headD 0] ++ bytesAt bytes 1 2 ++ bytesAt bytes 3 4 ++ bytesAt bytes 7 8 ++ bytesAt bytes 15 32 ++
      bytesAt bytes 47 4 ++ bytesAt bytes 51 32 ++ bytesAt bytes 83 4 := by
  have hhead : [bytes.headD 0] = bytesAt bytes 0 1 := by
    cases bytes with
    | nil => cases h
    | cons b bytes => rfl
  have hwhole : bytesAt bytes 0 87 = bytes := bytesAt_eq_self h
  rw [hhead]
  simp only [Nat.reduceAdd,
    bytesAt_append_bytesAt bytes 0 1 2, bytesAt_append_bytesAt bytes 0 3 4, bytesAt_append_bytesAt bytes 0 7 8,
    bytesAt_append_bytesAt bytes 0 15 32, bytesAt_append_bytesAt bytes 0 47 4, bytesAt_append_bytesAt bytes 0 51 32,
    bytesAt_append_bytesAt bytes 0 83 4, hwhole]

variable {event : TransparentEvent}

theorem fromLegacyBytes_canonical (h : fromLegacyBytes bytes = .ok event) :
    event.metadata = none ∧ event.legacyBytes = bytes ∧ bytes.all (· == 0) = false := by
  unfold fromLegacyBytes at h
  dsimp only at h
  split_ifs at h with hlength hzero hunknown hreceive hunused hvalue hcoinbase
  all_goals
    rw [ne_eq, not_not] at hlength hunknown
    have hlen : bytes.length = 87 := hlength
    have hposition : leBytes 2 (UInt16.ofNat (leNat (bytesAt bytes 1 2))).toNat = bytesAt bytes 1 2 :=
      leBytes_toNat_ofNat16 (length_bytesAt (by omega))
    have hheight : leBytes 4 (UInt32.ofNat (leNat (bytesAt bytes 3 4))).toNat = bytesAt bytes 3 4 :=
      leBytes_toNat_ofNat32 (length_bytesAt (by omega))
    have hworth : leBytes 8 (UInt64.ofNat (leNat (bytesAt bytes 7 8))).toNat = bytesAt bytes 7 8 :=
      leBytes_toNat_ofNat64 (length_bytesAt (by omega))
    have htxid : (txidAt bytes 15).bytes.val = bytesAt bytes 15 32 := txidAt_bytes (by omega)
    have hindex : leBytes 4 (UInt32.ofNat (leNat (bytesAt bytes 47 4))).toNat = bytesAt bytes 47 4 :=
      leBytes_toNat_ofNat32 (length_bytesAt (by omega))
    have hspent : (txidAt bytes 51).bytes.val = bytesAt bytes 51 32 := txidAt_bytes (by omega)
    have hspentIndex : leBytes 4 (UInt32.ofNat (leNat (bytesAt bytes 83 4))).toNat = bytesAt bytes 83 4 :=
      leBytes_toNat_ofNat32 (length_bytesAt (by omega))
    obtain rfl := Except.ok.inj h
    refine ⟨rfl, ?_, by simpa using hzero⟩
  · simp only [not_or, not_not] at hunused
    have hflags := (kind_flags hunknown).1 hreceive
    have hzeros : bytesAt bytes 51 32 ++ bytesAt bytes 83 4 = List.replicate 36 0 := by
      rw [← hspent, hunused.1, ← hspentIndex, hunused.2]
      rfl
    conv_rhs => rw [record_fields hlength, append_assoc _ (bytesAt bytes 51 32), hzeros]
    simp only [legacyBytes, hposition, hheight, hworth, htxid, hindex]
    simpa using hflags.symm
  · rw [not_not] at hvalue hcoinbase
    have hflags := (kind_flags hunknown).2 hreceive hcoinbase
    have hzeros : bytesAt bytes 7 8 = List.replicate 8 0 := by
      rw [← hworth, hvalue]
      rfl
    conv_rhs => rw [record_fields hlength, hflags, hzeros]
    simp only [legacyBytes, hposition, hheight, htxid, hindex, hspent, hspentIndex]

/-! ## Events -/

@[simp] theorem metadata_withMetadata (event : TransparentEvent) (metadata : Option TransactionMetadata) :
    (event.withMetadata metadata).metadata = metadata := by
  cases event <;> rfl

@[simp] theorem legacyBytes_withMetadata (event : TransparentEvent) (metadata : Option TransactionMetadata) :
    (event.withMetadata metadata).legacyBytes = event.legacyBytes := by
  cases event <;> rfl

@[simp] theorem coinbase_withMetadata (event : TransparentEvent) (metadata : Option TransactionMetadata) :
    (event.withMetadata metadata).coinbase = event.coinbase := by
  cases event <;> rfl

theorem withMetadata_self {metadata : Option TransactionMetadata} (h : event.metadata = metadata) :
    event.withMetadata metadata = event := by
  subst h
  cases event <;> rfl

def metadataBytes : Option TransactionMetadata → Bytes
  | none => []
  | some metadata => metadata.flags :: metadata.encode

theorem toBytes_ok :
    event.toBytes = .ok bytes ↔ event.validateMetadata = .ok () ∧ event.legacyBytes.all (· == 0) = false ∧
      bytes = event.legacyBytes ++ metadataBytes event.metadata := by
  have hsuffix : (event.metadata.elim [] fun metadata => metadata.flags :: metadata.encode) =
      metadataBytes event.metadata := by
    cases event.metadata <;> rfl
  unfold toBytes
  rw [check_bind_eq_ok, hsuffix]
  dsimp only
  split_ifs with hzero
  · rw [hzero]
    exact ⟨fun h => absurd h.2 (by rintro ⟨⟩), fun h => absurd h.2.1 (by rintro ⟨⟩)⟩
  · rw [pure_eq_ok, Bool.eq_false_of_not_eq_true hzero]
    exact and_congr_right fun _ => eq_comm.trans (and_iff_right rfl).symm

theorem fromLegacyBytes_ok :
    fromLegacyBytes bytes = .ok event ↔
      event.metadata = none ∧ event.legacyBytes = bytes ∧ bytes.all (· == 0) = false := by
  refine ⟨fromLegacyBytes_canonical, ?_⟩
  rintro ⟨hnone, rfl, hzero⟩
  cases event with
  | receive e =>
    rw [fromLegacyBytes_receive e hzero]
    exact congrArg (Except.ok ∘ receive) (by cases e; cases hnone; rfl)
  | spend e =>
    rw [fromLegacyBytes_spend e]
    exact congrArg (Except.ok ∘ spend) (by cases e; cases hnone; rfl)

theorem readMetadata_ok {record : TransparentEvent} (hrecord : record.metadata = none) :
    record.readMetadata bytes = .ok event ↔ event = record.withMetadata event.metadata ∧
      (∀ metadata, event.metadata = some metadata → metadata.validate record.coinbase = .ok ()) ∧
      bytes = metadataBytes event.metadata := by
  cases bytes with
  | nil =>
    rw [readMetadata, Except.ok.injEq]
    constructor
    · rintro rfl
      rw [hrecord]
      exact ⟨(withMetadata_self hrecord).symm, nofun, rfl⟩
    · rintro ⟨hevent, -, hbytes⟩
      cases hm : event.metadata with
      | none => rw [hevent, hm, withMetadata_self hrecord]
      | some metadata =>
        rw [hm] at hbytes
        cases hbytes
  | cons flags bytes =>
    rw [readMetadata, bind_eq_ok]
    constructor
    · rintro ⟨⟨metadata, rest⟩, hrun, h⟩
      obtain ⟨hannounced, rfl⟩ := TransactionMetadata.run_decode_ok.mp hrun
      dsimp only at h
      split_ifs at h with hframing
      simp only [not_or, not_not] at hframing
      obtain ⟨hsome, rfl⟩ := hframing
      obtain ⟨metadata, rfl⟩ := Option.ne_none_iff_exists'.mp hsome
      obtain rfl := pure_eq_ok.mp h
      rw [metadata_withMetadata]
      refine ⟨rfl, ?_, ?_⟩
      · rintro _ ⟨⟩
        exact hannounced.2
      · rw [metadataBytes, hannounced.1, Option.elim_some, append_nil]
    · rintro ⟨hevent, hvalid, hbytes⟩
      cases hm : event.metadata with
      | none =>
        rw [hm] at hbytes
        cases hbytes
      | some metadata =>
        rw [hm] at hbytes
        obtain ⟨rfl, rfl⟩ := List.cons.inj hbytes
        refine ⟨(some metadata, []), TransactionMetadata.run_decode_ok.mpr ⟨⟨rfl, hvalid metadata hm⟩, ?_⟩, ?_⟩
        · rw [Option.elim_some, append_nil]
        · rw [hevent, hm]
          exact if_neg (by simp)

end TransparentEvent

/-! ## Lengths -/

theorem varintLenFrom_le_of_lt {groups k : Nat} (hk : 0 < k) (h : value < 128 ^ k) :
    varintLenFrom groups value ≤ k := by
  induction groups generalizing k value with
  | zero => exact Nat.zero_le k
  | succ groups ih =>
    unfold varintLenFrom
    split_ifs with hlarge
    · obtain ⟨k, rfl⟩ := Nat.exists_eq_succ_of_ne_zero hk.ne'
      rw [Nat.pow_succ] at h
      have hpos : 0 < k := by
        rcases Nat.eq_zero_or_pos k with rfl | hpos
        · simp only [Nat.pow_zero] at h
          omega
        · exact hpos
      have hrest : varintLenFrom groups (value / 128) ≤ k := ih hpos (by omega)
      omega
    · exact hk

theorem TransactionMetadata.length_encode_le (metadata : TransactionMetadata) : metadata.encode.length ≤ 15 := by
  have hcount : varintLen metadata.transparentInputCount.toUInt64 ≤ 5 := by
    have hlt := metadata.transparentInputCount.toNat_lt
    refine varintLenFrom_le_of_lt (by decide) ?_
    rw [UInt32.toNat_toUInt64]
    omega
  rw [encode_eq, length_append, length_encodeVarint]
  have hfee : (feeEncoding metadata.fee).length ≤ 10 := by
    cases metadata.fee with
    | exact fee => exact (length_encodeVarint fee).trans_le (varintLen_le fee)
    | unknown => exact Nat.zero_le _
    | notApplicable => exact Nat.zero_le _
  omega

namespace TransparentEvent

theorem length_metadataBytes_le (metadata : Option TransactionMetadata) : (metadataBytes metadata).length ≤ 16 := by
  cases metadata with
  | none => exact Nat.zero_le _
  | some metadata => exact Nat.succ_le_succ metadata.length_encode_le

variable {event : TransparentEvent}

theorem validate_of_metadata {metadata : TransactionMetadata} (h : event.validateMetadata = .ok ())
    (hm : event.metadata = some metadata) :
    metadata.validate event.coinbase = .ok () := by
  unfold validateMetadata at h
  rw [hm] at h
  simp only [check_bind_eq_ok] at h
  exact h.2.1

/-- The decoder accepts exactly what the encoder writes. -/
theorem fromBytes_ok {bytes : Bytes} : fromBytes bytes = .ok event ↔ event.toBytes = .ok bytes := by
  rw [toBytes_ok]
  unfold fromBytes
  constructor
  · intro h
    split_ifs at h with hlength
    simp only [bind_eq_ok, pure_eq_ok] at h
    obtain ⟨record, hrecord, event, hevent, _, hvalid, rfl⟩ := h
    obtain ⟨hnone, hbytes, hzero⟩ := fromLegacyBytes_ok.mp hrecord
    obtain ⟨hwith, -, hdrop⟩ := (readMetadata_ok hnone).mp hevent
    have hlegacy : event.legacyBytes = bytes.take eventBytes := by
      rw [hwith, legacyBytes_withMetadata, hbytes]
    refine ⟨hvalid, by rw [hlegacy]; exact hzero, ?_⟩
    rw [hlegacy, ← hdrop, take_append_drop]
  · rintro ⟨hvalid, hzero, rfl⟩
    have hlen : event.legacyBytes.length = eventBytes := event.length_legacyBytes
    have hle := length_metadataBytes_le event.metadata
    rw [take_left' hlen, drop_left' hlen, if_neg (by rw [length_append, maxEventBytes]; omega)]
    simp only [bind_eq_ok, pure_eq_ok]
    have hrecord : fromLegacyBytes event.legacyBytes = .ok (event.withMetadata none) :=
      fromLegacyBytes_ok.mpr ⟨metadata_withMetadata event none, legacyBytes_withMetadata event none, hzero⟩
    refine ⟨_, hrecord, event, (readMetadata_ok (metadata_withMetadata event none)).mpr ⟨?_, ?_, rfl⟩, (), hvalid, rfl⟩
    · cases event <;> rfl
    · intro metadata hm
      rw [coinbase_withMetadata]
      exact validate_of_metadata hvalid hm

theorem fromBytes_strictPrefix {start tail : Bytes} (h : event.toBytes = .ok (start ++ tail)) (htail : tail ≠ []) :
    (∃ result, fromBytes start = .ok result) ↔ event.metadata ≠ none ∧ start = event.legacyBytes := by
  obtain ⟨hvalid, hzero, hbytes⟩ := toBytes_ok.mp h
  constructor
  · rintro ⟨result, hresult⟩
    obtain ⟨-, -, rfl⟩ := toBytes_ok.mp (fromBytes_ok.mp hresult)
    rw [append_assoc] at hbytes
    obtain ⟨hlegacy, hsuffix⟩ := List.append_inj hbytes (by rw [length_legacyBytes, length_legacyBytes])
    cases hm : result.metadata with
    | none =>
      rw [hm] at hsuffix
      refine ⟨?_, by rw [hlegacy]; exact append_nil _⟩
      intro hnone
      rw [hnone] at hsuffix
      exact htail hsuffix
    | some metadata =>
      -- The metadata is decoded from what was left of it, so nothing was cut off.
      rw [hm] at hsuffix
      obtain ⟨hresult', -, -⟩ := toBytes_ok.mp (fromBytes_ok.mp hresult)
      cases hm' : event.metadata with
      | none =>
        rw [hm'] at hsuffix
        cases hsuffix
      | some other =>
        rw [hm'] at hsuffix
        obtain ⟨hflags, hencode⟩ := List.cons.inj hsuffix
        have hcoinbase : result.coinbase = event.coinbase := by
          have hread : fromLegacyBytes event.legacyBytes = .ok (event.withMetadata none) :=
            fromLegacyBytes_ok.mpr ⟨metadata_withMetadata event none, legacyBytes_withMetadata event none, hzero⟩
          have hread' : fromLegacyBytes event.legacyBytes = .ok (result.withMetadata none) :=
            fromLegacyBytes_ok.mpr ⟨metadata_withMetadata result none,
              (legacyBytes_withMetadata result none).trans hlegacy, hzero⟩
          have heq := Except.ok.inj (hread'.symm.trans hread)
          rw [← coinbase_withMetadata result none, heq, coinbase_withMetadata]
        have hrun := TransactionMetadata.decode_encode (validate_of_metadata hresult' hm) tail
        have hrun' := TransactionMetadata.decode_encode (validate_of_metadata hvalid hm') []
        change metadata.encode ++ tail = other.encode at hencode
        rw [append_nil, ← hencode, ← hflags, ← hcoinbase, hrun] at hrun'
        exact absurd (Prod.ext_iff.mp (Except.ok.inj hrun')).2 htail
  · rintro ⟨-, rfl⟩
    refine ⟨event.withMetadata none, fromBytes_ok.mpr (toBytes_ok.mpr ⟨?_, ?_, ?_⟩)⟩
    · unfold validateMetadata
      rw [metadata_withMetadata]
    · rw [legacyBytes_withMetadata]
      exact hzero
    · rw [legacyBytes_withMetadata, metadata_withMetadata, metadataBytes, append_nil]

end TransparentEvent

end Zakura.Transparent
