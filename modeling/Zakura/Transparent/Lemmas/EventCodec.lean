import Zakura.Transparent.EventCodec

/-! # What the event record decoder reads back

Each encoder's output followed by any bytes is decoded to the value it was written for. -/

namespace Zakura.Transparent

open Reader

/-! ## Variable-length integers -/

theorem length_encodeVarintFrom (groups value : Nat) :
    (encodeVarintFrom groups value).length = varintLenFrom groups value := by
  induction groups generalizing value with
  | zero => rfl
  | succ groups ih =>
    unfold encodeVarintFrom varintLenFrom
    by_cases h : value / 128 = 0
    · rw [if_pos h, if_neg (by omega)]
      rfl
    · rw [if_neg h, if_pos (by omega), List.length_cons, ih, Nat.add_comm]

theorem length_encodeVarint (value : UInt64) : (encodeVarint value).length = varintLen value :=
  length_encodeVarintFrom 10 value.toNat

theorem varintLenFrom_le (groups value : Nat) : varintLenFrom groups value ≤ groups := by
  induction groups generalizing value with
  | zero => exact Nat.le_refl 0
  | succ groups ih =>
    unfold varintLenFrom
    have := ih (value / 128)
    split_ifs <;> omega

theorem varintLen_le (value : UInt64) : varintLen value ≤ 10 := varintLenFrom_le 10 value.toNat

theorem or_shiftLeft_group {value i : Nat} (group : Nat) (h : value < 2 ^ (7 * i)) :
    value ||| group <<< (7 * i) = value + group * 2 ^ (7 * i) := by
  rw [Nat.or_comm, ← Nat.shiftLeft_add_eq_or_of_lt h, Nat.shiftLeft_eq, Nat.add_comm]

/-- The decoder with `i` groups behind it reads the remaining groups of a value in range. -/
theorem decodeVarintLoop_encode {maximum left i value rest : Nat} {input : Bytes}
    (hleft : left + i = 10) (hvalue : value < 2 ^ (7 * i)) (hrest : rest * 2 ^ (7 * i) < 2 ^ 64)
    (hcanonical : i ≠ 0 → rest ≠ 0) (hmaximum : value + rest * 2 ^ (7 * i) ≤ maximum) :
    (decodeVarintLoop maximum left i value).run (encodeVarintFrom left rest ++ input) =
      .ok (value + rest * 2 ^ (7 * i), input) := by
  induction left generalizing i value rest with
  | zero =>
    -- Ten groups are seventy bits: nothing below 2 ^ 64 is left after them.
    obtain rfl : i = 10 := by omega
    exact absurd hrest (by have := hcanonical (by decide); omega)
  | succ left ih =>
    have hlast : i = 9 → rest ≤ 1 := by
      rintro rfl
      omega
    unfold encodeVarintFrom decodeVarintLoop
    by_cases hsmall : rest / 128 = 0
    · have hbyte : (UInt8.ofNat (rest % 128)).toNat = rest := by
        rw [UInt8.toNat_ofNat']
        omega
      rw [if_pos hsmall, run_bind_ok]
      refine ⟨UInt8.ofNat (rest % 128), input, by simp, ?_⟩
      have hmod : rest % 128 = rest := by omega
      rw [if_neg (by rw [hbyte]; omega), if_pos (by rw [hbyte]; omega), hbyte, hmod,
        or_shiftLeft_group _ hvalue, if_neg, if_neg (by omega), run_pure_ok]
      · exact ⟨rfl, rfl⟩
      · rintro ⟨hi, hzero⟩
        rw [hmod, hzero] at hbyte
        exact hcanonical hi hbyte.symm
    · have hbyte : (UInt8.ofNat (rest % 128 + 128)).toNat = rest % 128 + 128 := by
        rw [UInt8.toNat_ofNat']
        omega
      have hpow : 2 ^ (7 * (i + 1)) = 128 * 2 ^ (7 * i) := by
        rw [show 7 * (i + 1) = 7 + 7 * i by ring, Nat.pow_add]
      have hsplit : rest * 2 ^ (7 * i) = rest % 128 * 2 ^ (7 * i) + rest / 128 * (128 * 2 ^ (7 * i)) := by
        conv_lhs => rw [← Nat.mod_add_div rest 128]
        ring
      rw [if_neg hsmall, run_bind_ok]
      refine ⟨UInt8.ofNat (rest % 128 + 128), encodeVarintFrom left (rest / 128) ++ input, by simp, ?_⟩
      have hmod : (rest % 128 + 128) % 128 = rest % 128 := by omega
      rw [if_neg (by rw [hbyte]; omega), if_neg (by rw [hbyte]; omega), hbyte, hmod,
        or_shiftLeft_group _ hvalue, ih (by omega)]
      · rw [hpow, hsplit, Nat.add_assoc]
      · have hgroup : rest % 128 * 2 ^ (7 * i) ≤ 127 * 2 ^ (7 * i) := Nat.mul_le_mul_right _ (by omega)
        rw [hpow]
        omega
      · rw [hpow]
        omega
      · intro _
        exact hsmall
      · rw [hpow]
        omega

theorem decodeVarint_encode {maximum : Nat} {value : UInt64} (h : value.toNat ≤ maximum) (input : Bytes) :
    (decodeVarint maximum).run (encodeVarint value ++ input) = .ok (value.toNat, input) := by
  have hvalue := value.toNat_lt
  have hloop : (decodeVarintLoop maximum 10 0 0).run (encodeVarintFrom 10 value.toNat ++ input) =
      .ok (0 + value.toNat * 2 ^ (7 * 0), input) :=
    decodeVarintLoop_encode rfl (by decide) (by omega) (by simp) (by omega)
  simpa [decodeVarint, encodeVarint] using hloop

/-! ## Metadata -/

namespace TransactionMetadata

theorem length_encode (metadata : TransactionMetadata) : metadata.encode.length = metadata.encodedLen := by
  unfold encode encodedLen
  cases metadata.fee <;> simp [length_encodeVarint]

variable {metadata : TransactionMetadata} {coinbase : Bool}

theorem validate_ok (h : metadata.validate coinbase = .ok ()) :
    (∀ fee, metadata.fee = .exact fee → fee.toNat ≤ maxMoney) ∧
      (coinbase = true ↔ metadata.fee = .notApplicable) := by
  unfold validate at h
  simp only at h
  split_ifs at h with hbad
  simp only [Bool.or_eq_true, not_or] at hbad
  obtain ⟨⟨hfee, hcoinbase⟩, -⟩ := hbad
  refine ⟨?_, by cases coinbase <;> simp_all⟩
  intro fee heq
  rw [heq] at hfee
  simpa using hfee

theorem flags_bits (metadata : TransactionMetadata) :
    metadata.flags &&& ~~~56 = 0 ∧ metadata.flags &&& 32 ≠ 0 ∧ metadata.flags ≠ 0 ∧
      (metadata.flags &&& 8 ≠ 0 ↔ ∃ fee, metadata.fee = .exact fee) ∧
      (metadata.flags &&& 16 ≠ 0 ↔ metadata.hasShieldedComponents = true) := by
  obtain ⟨fee, count, shielded⟩ := metadata
  cases fee <;> cases shielded <;> simp [flags] <;> decide

theorem decodeFee_encode (h : metadata.validate coinbase = .ok ()) (input : Bytes) :
    (decodeFee metadata.flags coinbase).run
        ((match metadata.fee with | .exact fee => encodeVarint fee | _ => []) ++ input) =
      .ok (metadata.fee, input) := by
  obtain ⟨hfee, hcoinbase⟩ := validate_ok h
  obtain ⟨-, -, -, hexact, -⟩ := metadata.flags_bits
  unfold decodeFee
  cases hm : metadata.fee with
  | exact fee =>
    rw [if_pos (hexact.mpr ⟨fee, hm⟩), run_bind_ok]
    exact ⟨fee.toNat, input, decodeVarint_encode (hfee fee hm) input, by simp⟩
  | unknown =>
    have hnot : ¬ coinbase = true := by
      rw [hcoinbase, hm]
      simp
    rw [if_neg (fun hx => by simpa [hm] using hexact.mp hx), if_neg hnot, run_pure_ok]
    exact ⟨rfl, rfl⟩
  | notApplicable =>
    rw [if_neg (fun hx => by simpa [hm] using hexact.mp hx), if_pos (hcoinbase.mpr hm), run_pure_ok]
    exact ⟨rfl, rfl⟩

theorem decode_encode (h : metadata.validate coinbase = .ok ()) (input : Bytes) :
    (decode metadata.flags coinbase).run (metadata.encode ++ input) = .ok (some metadata, input) := by
  obtain ⟨hmask, hpresent, hzero, -, hshielded⟩ := metadata.flags_bits
  have hcount : metadata.transparentInputCount.toUInt64.toNat ≤ 0xFFFFFFFF := by
    have := metadata.transparentInputCount.toNat_lt
    rw [UInt32.toNat_toUInt64]
    omega
  have hback : (⟨metadata.fee, UInt32.ofNat metadata.transparentInputCount.toUInt64.toNat,
      decide (metadata.flags &&& 16 ≠ 0)⟩ : TransactionMetadata) = metadata := by
    obtain ⟨fee, count, shielded⟩ := metadata
    simp only [UInt32.toNat_toUInt64, UInt32.ofNat_toNat, mk.injEq, true_and]
    rw [Bool.eq_iff_iff, decide_eq_true_iff]
    exact hshielded
  unfold decode encode
  rw [if_neg (by simp [hmask, hpresent]), if_neg hzero, run_bind_ok, List.append_assoc]
  refine ⟨_, _, decodeVarint_encode hcount _, ?_⟩
  rw [run_bind_ok]
  refine ⟨_, _, decodeFee_encode h input, ?_⟩
  simp only [run_bind_ok, run_ofExcept_ok, run_pure_ok, hback]
  exact ⟨(), input, ⟨h, rfl⟩, trivial, rfl⟩

end TransactionMetadata

/-! ## The fixed record -/

theorem txidAt_eq {bytes : Bytes} {offset : Nat} {txid : Txid} (h : bytesAt bytes offset 32 = txid.bytes.val) :
    txidAt bytes offset = txid := by
  unfold txidAt
  rw [dif_pos (by rw [h, txid.bytes.length_val])]
  cases txid
  congr 1
  exact Subtype.ext h

@[simp] theorem ofNat_leNat_leBytes16 (v : UInt16) : UInt16.ofNat (leNat (leBytes 2 v.toNat)) = v := by
  rw [leNat_leBytes_of_lt v.toNat_lt, UInt16.ofNat_toNat]

@[simp] theorem ofNat_leNat_leBytes32 (v : UInt32) : UInt32.ofNat (leNat (leBytes 4 v.toNat)) = v := by
  rw [leNat_leBytes_of_lt v.toNat_lt, UInt32.ofNat_toNat]

@[simp] theorem ofNat_leNat_leBytes64 (v : UInt64) : UInt64.ofNat (leNat (leBytes 8 v.toNat)) = v := by
  rw [leNat_leBytes_of_lt v.toNat_lt, UInt64.ofNat_toNat]

namespace TransparentEvent

@[simp] theorem length_legacyBytes (event : TransparentEvent) : event.legacyBytes.length = 87 := by
  cases event <;> simp [legacyBytes]

/-- The fields of a receive stand at the offsets the decoder reads them from. -/
theorem fromLegacyBytes_receive (e : ReceiveEvent) (h : (receive e).legacyBytes.all (· == 0) = false) :
    fromLegacyBytes (receive e).legacyBytes = .ok (receive { e with metadata := none }) := by
  have hflags : (receive e).legacyBytes.headD 0 = if e.coinbase then 2 else 0 := by simp [legacyBytes]
  have hindex : bytesAt (receive e).legacyBytes 1 2 = leBytes 2 e.transactionIndex.toNat := by
    simp [legacyBytes]
  have hheight : bytesAt (receive e).legacyBytes 3 4 = leBytes 4 e.height.toNat := by
    simp [legacyBytes]
  have hvalue : bytesAt (receive e).legacyBytes 7 8 = leBytes 8 e.value.toNat := by
    simp [legacyBytes]
  have htxid : txidAt (receive e).legacyBytes 15 = e.txid := txidAt_eq (by
    simp [legacyBytes])
  have houtput : bytesAt (receive e).legacyBytes 47 4 = leBytes 4 e.outputIndex.toNat := by
    simp [legacyBytes]
  have hspent : txidAt (receive e).legacyBytes 51 = .zero := txidAt_eq (by
    simp [legacyBytes]
    rfl)
  have hspentIndex : UInt32.ofNat (leNat (bytesAt (receive e).legacyBytes 83 4)) = 0 := by
    simp [legacyBytes]
  unfold fromLegacyBytes
  simp only [length_legacyBytes, h, hflags, hindex, hheight, hvalue, htxid, houtput, hspent, hspentIndex,
    ofNat_leNat_leBytes16, ofNat_leNat_leBytes32, ofNat_leNat_leBytes64]
  have hknown : (2 : UInt8) &&& ~~~3 = 0 := by decide
  have hkind : (2 : UInt8) &&& 1 = 0 := by decide
  cases e.coinbase <;> simp [eventBytes, hknown, hkind]

theorem fromLegacyBytes_spend (e : SpendEvent) :
    fromLegacyBytes (spend e).legacyBytes = .ok (spend { e with metadata := none }) := by
  have hsome : (spend e).legacyBytes.all (· == 0) = false := by simp [legacyBytes]
  have hflags : (spend e).legacyBytes.headD 0 = 1 := by simp [legacyBytes]
  have hindex : bytesAt (spend e).legacyBytes 1 2 = leBytes 2 e.transactionIndex.toNat := by
    simp [legacyBytes]
  have hheight : bytesAt (spend e).legacyBytes 3 4 = leBytes 4 e.height.toNat := by
    simp [legacyBytes]
  have hvalue : UInt64.ofNat (leNat (bytesAt (spend e).legacyBytes 7 8)) = 0 := by
    simp [legacyBytes]
    rfl
  have htxid : txidAt (spend e).legacyBytes 15 = e.spendingTxid := txidAt_eq (by
    simp [legacyBytes])
  have hinput : bytesAt (spend e).legacyBytes 47 4 = leBytes 4 e.inputIndex.toNat := by
    simp [legacyBytes]
  have hspent : txidAt (spend e).legacyBytes 51 = e.spentTxid := txidAt_eq (by
    simp [legacyBytes])
  have hspentIndex : bytesAt (spend e).legacyBytes 83 4 = leBytes 4 e.spentOutputIndex.toNat := by
    simp [legacyBytes]
  have hknown : (1 : UInt8) &&& ~~~3 = 0 := by decide
  have hcoinbase : (1 : UInt8) &&& 2 = 0 := by decide
  unfold fromLegacyBytes
  simp only [length_legacyBytes, hsome, hflags, hindex, hheight, hvalue, htxid, hinput, hspent, hspentIndex,
    ofNat_leNat_leBytes16, ofNat_leNat_leBytes32]
  simp [eventBytes, hknown, hcoinbase]

end TransparentEvent

end Zakura.Transparent
