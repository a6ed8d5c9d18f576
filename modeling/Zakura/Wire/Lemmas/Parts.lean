import Zakura.Wire.Serialize

/-! # The element readers read their formats -/

namespace Zakura.Wire

open List Reader

@[simp] theorem run_readBalance_ok {field} {v : ZatBalance} {input rest : Bytes} :
    (readBalance field).run input = .ok (v, rest) ↔ input = v.toLeBytes ++ rest := by
  simp only [readBalance, run_bind_ok, run_leBytes8_ok, run_orError_ok, ZatBalance.fromI64LeBytes_eq_some]
  constructor
  · rintro ⟨bytes, mid, rfl, h, rfl⟩
    rw [h]
  · rintro rfl
    exact ⟨⟨v.toLeBytes, by simp⟩, rest, rfl, rfl, rfl⟩

@[simp] theorem run_readVpub_ok {field} {v : Zatoshis} {input rest : Bytes} :
    (readVpub field).run input = .ok (v, rest) ↔ input = v.toLeBytes ++ rest := by
  simp only [readVpub, run_bind_ok, run_leBytes8_ok, run_orError_ok, Zatoshis.fromU64LeBytes_eq_some]
  constructor
  · rintro ⟨bytes, mid, rfl, h, rfl⟩
    rw [h]
  · rintro rfl
    exact ⟨⟨v.toLeBytes, by simp⟩, rest, rfl, rfl, rfl⟩

/-! ## Transparent parts -/

theorem readTransparentInput_reads :
    Reads readTransparentInput TransparentInput.Valid TransparentInput.encode := by
  intro input i rest
  simp only [readTransparentInput, run_bind_ok, run_array_ok, run_u32Le_ok, run_varBytes_ok,
    run_pure_ok, TransparentInput.Valid, TransparentInput.encode]
  constructor
  · rintro ⟨_, _, rfl, _, _, rfl, _, _, ⟨hs, rfl⟩, _, _, rfl, rfl, rfl⟩
    exact ⟨hs, by simp⟩
  · rintro ⟨hs, rfl⟩
    simp only [append_assoc]
    exact ⟨_, _, rfl, _, _, rfl, _, _, ⟨hs, rfl⟩, _, _, rfl, rfl, rfl⟩

theorem readTransparentOutput_reads :
    Reads readTransparentOutput TransparentOutput.Valid TransparentOutput.encode := by
  intro input o rest
  simp only [readTransparentOutput, run_bind_ok, run_leBytes8_ok, run_orError_ok,
    Zatoshis.fromNonnegativeI64LeBytes_eq_some, run_varBytes_ok, run_pure_ok, TransparentOutput.Valid,
    TransparentOutput.encode]
  constructor
  · rintro ⟨bytes, _, rfl, value, _, ⟨hv, rfl⟩, script, _, ⟨hs, rfl⟩, rfl, rfl⟩
    exact ⟨hs, by simp [hv]⟩
  · rintro ⟨hs, rfl⟩
    simp only [append_assoc]
    exact ⟨⟨o.value.toLeBytes, by simp⟩, _, rfl, _, _, ⟨rfl, rfl⟩, _, _, ⟨hs, rfl⟩, rfl, rfl⟩

/-! ## Sprout -/

theorem readJoinsplit_reads (v : TxVersion) :
    Reads (readJoinsplit v.joinsplitProofSize) (JoinSplit.Valid v) JoinSplit.encode := by
  intro input j rest
  simp only [readJoinsplit, run_bind_ok, run_readVpub_ok, run_array_ok, run_take_ok, run_pure_ok,
    JoinSplit.Valid, JoinSplit.encode]
  constructor
  · rintro ⟨_, _, rfl, _, _, rfl, _, _, rfl, _, _, rfl, _, _, rfl, _, _, rfl, _, _, rfl, _, _, rfl,
      _, _, rfl, _, _, rfl, _, _, rfl, proof, _, rfl, _, _, rfl, _, _, rfl, rfl, rfl⟩
    exact ⟨proof.length_val, by simp⟩
  · rintro ⟨hp, rfl⟩
    simp only [append_assoc]
    exact ⟨_, _, rfl, _, _, rfl, _, _, rfl, _, _, rfl, _, _, rfl, _, _, rfl, _, _, rfl, _, _, rfl,
      _, _, rfl, _, _, rfl, _, _, rfl, ⟨j.proof, hp⟩, _, rfl, _, _, rfl, _, _, rfl, rfl, rfl⟩

/-! ## Sapling -/

theorem readSpendV4_reads : Reads readSpendV4 (fun _ => True) SaplingSpend.encodeV4 := by
  intro input s rest
  simp only [readSpendV4, run_bind_ok, run_array_ok, run_pure_ok, SaplingSpend.encodeV4, true_and]
  constructor
  · rintro ⟨_, _, rfl, _, _, rfl, _, _, rfl, _, _, rfl, _, _, rfl, _, _, rfl, rfl, rfl⟩
    simp
  · rintro rfl
    simp only [append_assoc]
    exact ⟨_, _, rfl, _, _, rfl, _, _, rfl, _, _, rfl, _, _, rfl, _, _, rfl, rfl, rfl⟩

theorem readOutputV4_reads : Reads (readOutput none) (fun _ => True) SaplingOutput.encodeV4 := by
  intro input o rest
  simp only [readOutput, run_bind_ok, run_array_ok, run_pure_ok, SaplingOutput.encodeV4, true_and]
  constructor
  · rintro ⟨_, _, rfl, _, _, rfl, _, _, rfl, _, _, rfl, _, _, rfl, _, _, rfl, rfl, rfl⟩
    simp
  · rintro rfl
    simp only [append_assoc]
    exact ⟨_, _, rfl, _, _, rfl, _, _, rfl, _, _, rfl, _, _, rfl, _, _, rfl, rfl, rfl⟩

def SaplingSpend.Bare (s : SaplingSpend) : Prop :=
  s.anchor = zero32 ∧ s.zkproof = zeroProof ∧ s.spendAuthSig = zero64

theorem readSpendV5_reads : Reads readSpendV5 SaplingSpend.Bare SaplingSpend.encodeV5 := by
  intro input s rest
  simp only [readSpendV5, run_bind_ok, run_array_ok, run_pure_ok, SaplingSpend.encodeV5,
    SaplingSpend.Bare]
  constructor
  · rintro ⟨_, _, rfl, _, _, rfl, _, _, rfl, rfl, rfl⟩
    simp
  · rintro ⟨⟨ha, hp, hs⟩, rfl⟩
    simp only [append_assoc]
    exact ⟨_, _, rfl, _, _, rfl, _, _, rfl, by rw [← ha, ← hp, ← hs], rfl⟩

theorem readOutputV5_reads :
    Reads (readOutput (some zeroProof)) (fun o => o.zkproof = zeroProof) SaplingOutput.encodeV5 := by
  intro input o rest
  simp only [readOutput, run_bind_ok, run_array_ok, run_pure_ok, SaplingOutput.encodeV5]
  constructor
  · rintro ⟨_, _, rfl, _, _, rfl, _, _, rfl, _, _, rfl, _, _, rfl, _, _, ⟨rfl, rfl⟩, rfl, rfl⟩
    simp
  · rintro ⟨hp, rfl⟩
    simp only [append_assoc]
    exact ⟨_, _, rfl, _, _, rfl, _, _, rfl, _, _, rfl, _, _, rfl, _, _, ⟨rfl, rfl⟩, by rw [← hp], rfl⟩

/-! ## Actions -/

theorem readAction_reads : Reads readAction (fun a => a.spendAuthSig = zero64) Action.encode := by
  intro input a rest
  simp only [readAction, run_bind_ok, run_array_ok, run_pure_ok, Action.encode]
  constructor
  · rintro ⟨_, _, rfl, _, _, rfl, _, _, rfl, _, _, rfl, _, _, rfl, _, _, rfl, _, _, rfl, rfl, rfl⟩
    simp
  · rintro ⟨hs, rfl⟩
    simp only [append_assoc]
    exact ⟨_, _, rfl, _, _, rfl, _, _, rfl, _, _, rfl, _, _, rfl, _, _, rfl, _, _, rfl, by rw [← hs], rfl⟩

/-! ## No element is shorter than the bound on its count assumes -/

theorem length_varBytesEncode_pos (bytes : Bytes) : 1 ≤ (varBytesEncode bytes).length := by
  have := compactSizeBytes_length_pos bytes.length
  simp only [varBytesEncode, length_append]
  omega

theorem TransparentInput.minTxInSize_le (i : TransparentInput) : minTxInSize ≤ i.encode.length := by
  have := length_varBytesEncode_pos i.scriptSig
  simp only [TransparentInput.encode, length_append, FixedBytes.length_val, length_wordBytes,
    minTxInSize, outpointSize]
  omega

theorem TransparentOutput.minTxOutSize_le (o : TransparentOutput) : minTxOutSize ≤ o.encode.length := by
  have := length_varBytesEncode_pos o.scriptPubkey
  simp only [TransparentOutput.encode, length_append, Zatoshis.length_toLeBytes, minTxOutSize]
  omega

theorem JoinSplit.length_encode {v : TxVersion} {j : JoinSplit} (h : j.Valid v) :
    j.encode.length = joinsplitFixedSize + v.joinsplitProofSize + joinsplitCiphertextsSize := by
  simp only [JoinSplit.Valid] at h
  simp only [JoinSplit.encode, length_append, FixedBytes.length_val, Zatoshis.length_toLeBytes, h,
    joinsplitFixedSize, joinsplitCiphertextsSize]
  omega

theorem SaplingSpend.length_encodeV4 (s : SaplingSpend) : s.encodeV4.length = saplingSpendV4Size := by
  simp only [SaplingSpend.encodeV4, saplingSpendV4Size, length_append, FixedBytes.length_val]

theorem SaplingOutput.length_encodeV4 (o : SaplingOutput) : o.encodeV4.length = saplingOutputV4Size := by
  simp only [SaplingOutput.encodeV4, saplingOutputV4Size, length_append, FixedBytes.length_val]

theorem SaplingSpend.length_encodeV5 (s : SaplingSpend) : s.encodeV5.length = saplingSpendV5Size := by
  simp only [SaplingSpend.encodeV5, saplingSpendV5Size, length_append, FixedBytes.length_val]

theorem SaplingOutput.length_encodeV5 (o : SaplingOutput) : o.encodeV5.length = saplingOutputV5Size := by
  simp only [SaplingOutput.encodeV5, saplingOutputV5Size, length_append, FixedBytes.length_val]

theorem Action.length_encode (a : Action) : a.encode.length = actionSize := by
  simp only [Action.encode, actionSize, length_append, FixedBytes.length_val]

end Zakura.Wire
