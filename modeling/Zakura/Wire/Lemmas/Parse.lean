import Zakura.Wire.Lemmas.Bundles

/-! # The parser reads the transaction format -/

namespace Zakura.Wire

open List Reader Transaction

/-! ## The header -/

theorem toNat_shiftRight_31 (header : UInt32) : (header >>> 31).toNat = header.toNat / 2 ^ 31 := by
  rw [UInt32.toNat_shiftRight, Nat.shiftRight_eq_div_pow]
  rfl

theorem toNat_and_mask (header : UInt32) : (header &&& 0x7FFFFFFF).toNat = header.toNat % 2 ^ 31 := by
  rw [UInt32.toNat_and]
  exact Nat.and_two_pow_sub_one_eq_mod _ 31

theorem TxVersion.eq_header_iff {header : UInt32} {v : TxVersion} :
    header = v.header ↔
      (header >>> 31 = 1 ↔ v ≠ .v1 ∧ v ≠ .v2) ∧ header &&& 0x7FFFFFFF = v.number := by
  have hlt := header.toNat_lt
  rw [← UInt32.toNat_inj, ← UInt32.toNat_inj (a := header >>> 31),
    ← UInt32.toNat_inj (a := header &&& 0x7FFFFFFF), toNat_shiftRight_31, toNat_and_mask]
  cases v <;> simp [TxVersion.header, TxVersion.number] <;> omega

theorem readVersion_reads (P : Protocol) : Reads (readVersion P) (fun _ => True) (encodeHeader P) := by
  intro input v rest
  simp only [readVersion, run_bind_ok, run_u32Le_ok, true_and]
  constructor
  · intro h
    obtain ⟨header, _, rfl, h⟩ := h
    by_cases hover : header >>> 31 = 1
    · simp only [hover, beq_self_eq_true, Bool.not_true, Bool.false_eq_true, if_false, run_bind_ok,
        run_u32Le_ok, Prod.mk.injEq] at h
      obtain ⟨group, _, rfl, h⟩ := h
      have hheader : ∀ w : TxVersion, w ≠ .v1 ∧ w ≠ .v2 → header &&& 0x7FFFFFFF = w.number →
          header = w.header := fun w hw hn => TxVersion.eq_header_iff.mpr ⟨by simp [hover, hw], hn⟩
      split_ifs at h with h₃ h₄ h₅ h₆
      all_goals simp only [run_pure_ok, run_fail_ok] at h
      · obtain ⟨rfl, rfl⟩ := h
        simp [encodeHeader, TxVersion.versionGroupId, hheader .v3 (by decide) h₃.1, h₃.2]
      · obtain ⟨rfl, rfl⟩ := h
        simp [encodeHeader, TxVersion.versionGroupId, hheader .v4 (by decide) h₄.1, h₄.2]
      · obtain ⟨rfl, rfl⟩ := h
        simp [encodeHeader, TxVersion.versionGroupId, hheader .v5 (by decide) h₅.1, h₅.2]
      · obtain ⟨rfl, rfl⟩ := h
        simp [encodeHeader, TxVersion.versionGroupId, hheader .v6 (by decide) h₆.1, h₆.2]
    · simp only [beq_eq_false_iff_ne.mpr hover, Bool.not_false, if_true] at h
      have hheader : ∀ w : TxVersion, (w = .v1 ∨ w = .v2) → header &&& 0x7FFFFFFF = w.number →
          header = w.header := by
        intro w hw hn
        refine TxVersion.eq_header_iff.mpr ⟨?_, hn⟩
        rcases hw with rfl | rfl <;> simp [hover]
      split_ifs at h with h₁ h₂
      all_goals simp only [run_pure_ok, run_fail_ok] at h
      · obtain ⟨rfl, rfl⟩ := h
        simp [encodeHeader, TxVersion.versionGroupId, hheader .v1 (by decide) h₁]
      · obtain ⟨rfl, rfl⟩ := h
        simp [encodeHeader, TxVersion.versionGroupId, hheader .v2 (by decide) h₂]
  · intro h
    subst h
    obtain ⟨hover, hnumber⟩ := (TxVersion.eq_header_iff (v := v)).mp rfl
    refine ⟨v.header, _, by rw [encodeHeader, append_assoc], ?_⟩
    cases v
    case v1 | v2 =>
      simp only [ne_eq, not_true_eq_false, false_and, and_false, iff_false] at hover
      simp [beq_eq_false_iff_ne.mpr hover, hnumber, TxVersion.number, TxVersion.versionGroupId]
    all_goals
      have hbit := hover.mpr (by decide)
      simp only [hbit, hnumber, TxVersion.versionGroupId]
      exact run_bind_ok.mpr ⟨_, rest, run_u32Le_ok.mpr rfl, by simp [TxVersion.number]⟩

/-! ## The transparent parts -/

theorem run_readTransparent_ok {tx tx' : Transaction} {input rest : Bytes} :
    tx.readTransparent.run input = .ok (tx', rest) ↔
      ∃ ins outs, tx' = { tx with transparentInputs := ins, transparentOutputs := outs } ∧
        ins.length ≤ maxCompactSize ∧ (∀ i ∈ ins, i.Valid) ∧
        outs.length ≤ maxCompactSize ∧ (∀ o ∈ outs, o.Valid) ∧
        input = tx'.encodeTransparent ++ rest := by
  have hin : ∀ i : TransparentInput, i.Valid → minTxInSize ≤ i.encode.length :=
    fun i _ => i.minTxInSize_le
  have hout : ∀ o : TransparentOutput, o.Valid → minTxOutSize ≤ o.encode.length :=
    fun o _ => o.minTxOutSize_le
  unfold readTransparent
  simp only [run_count_elements_ok readTransparentInput_reads hin,
    run_count_elements_ok readTransparentOutput_reads hout, run_pure_ok]
  constructor
  · intro h
    obtain ⟨ins, _, hi, hins, rfl, outs, _, ho, houts, rfl, rfl, rfl⟩ := h
    exact ⟨ins, outs, rfl, hi, hins, ho, houts, by simp [encodeTransparent]⟩
  · intro h
    obtain ⟨ins, outs, rfl, hi, hins, ho, houts, rfl⟩ := h
    simp only [encodeTransparent, append_assoc]
    exact ⟨ins, _, hi, hins, rfl, outs, _, ho, houts, rfl, rfl, rfl⟩

/-! ## Versions 1 to 4 -/

section Legacy

variable {v : TxVersion} {input middle rest : Bytes}

theorem run_expiryHeight_ok {expiry : Option UInt32} :
    (if TxVersion.v3.number ≤ v.number then do
        let height ← u32Le "expiry_height"
        pure (some height)
      else pure none : Decode (Option UInt32)).run input = .ok (expiry, rest) ↔
      (expiry.isSome ↔ v ≠ .v1 ∧ v ≠ .v2) ∧ input = expiry.elim [] wordBytes ++ rest := by
  have hv : TxVersion.v3.number ≤ v.number ↔ v ≠ .v1 ∧ v ≠ .v2 := by cases v <;> decide
  rw [← hv]
  split
  · rename_i h
    simp only [h, iff_true, run_bind_ok, run_u32Le_ok, run_pure_ok]
    cases expiry with
    | none => simp
    | some height => simp
  · rename_i h
    cases expiry with
    | none => simp [h]
    | some height => simp [h]

theorem run_sprout_ok {sprout : Option SproutBundle} :
    (if v.hasSprout then readSprout v else pure none : Decode (Option SproutBundle)).run input =
        .ok (sprout, rest) ↔
      (∀ b ∈ sprout, v.hasSprout ∧ b.Valid v) ∧
        input = (if v.hasSprout then SproutBundle.encode sprout else []) ++ rest := by
  split
  · rename_i h
    simpa [h] using readSprout_reads v input sprout rest
  · rename_i h
    cases sprout with
    | none => simp
    | some b => simp [h]

theorem run_saplingLegacy_ok {sapling : Option SaplingBundle} {mid tail : Bytes} :
    (∃ parts, (if v = .v4 then do
        let parts ← readSaplingV4
        pure (some parts)
      else pure none : Decode _).run input = .ok (parts, mid) ∧
      (match parts with
        | some (balance, spends, outputs) => finishSaplingV4 balance spends outputs
        | none => pure none : Decode _).run tail = .ok (sapling, rest)) ↔
      (∀ b ∈ sapling, b.Valid ∧ v = .v4) ∧
        input = (if v = .v4 then SaplingBundle.encodeV4 sapling else []) ++ mid ∧
        tail = SaplingBundle.encodeBindingSig sapling ++ rest := by
  by_cases hv : v = .v4
  · simp only [hv, if_true, and_true, run_bind_ok, run_pure_ok]
    constructor
    · intro h
      obtain ⟨parts, ⟨⟨balance, spends, outputs⟩, _, hread, rfl, rfl⟩, hfinish⟩ := h
      obtain ⟨hs, ho, rfl⟩ := run_readSaplingV4_ok.mp hread
      rcases run_finishSaplingV4_ok.mp hfinish with
        ⟨rfl, rfl, rfl, rfl, rfl⟩ | ⟨b, rfl, hne, rfl, rfl, rfl, rfl⟩
      · simp [SaplingBundle.encodeV4, SaplingBundle.encodeBindingSig, countedEncode]
      · refine ⟨?_, rfl, rfl⟩
        intro c hc
        cases hc
        exact ⟨hne, hs, ho⟩
    · intro h
      obtain ⟨hvalid, rfl, rfl⟩ := h
      cases sapling with
      | none =>
        refine ⟨_, ⟨⟨.zero, [], []⟩, mid, ?_, rfl, rfl⟩, ?_⟩
        · exact run_readSaplingV4_ok.mpr ⟨by simp, by simp, by simp [SaplingBundle.encodeV4, countedEncode]⟩
        · exact run_finishSaplingV4_ok.mpr (.inl ⟨rfl, rfl, rfl, rfl, rfl⟩)
      | some b =>
        obtain ⟨hne, hs, ho⟩ := hvalid b rfl
        refine ⟨_, ⟨⟨b.valueBalance, b.spends, b.outputs⟩, mid, ?_, rfl, rfl⟩, ?_⟩
        · exact run_readSaplingV4_ok.mpr ⟨hs, ho, rfl⟩
        · exact run_finishSaplingV4_ok.mpr (.inr ⟨b, rfl, hne, rfl, rfl, rfl, rfl⟩)
  · simp only [hv, if_false, and_false, run_pure_ok, nil_append]
    constructor
    · intro h
      obtain ⟨parts, ⟨rfl, rfl⟩, h⟩ := h
      obtain ⟨rfl, rfl⟩ := run_pure_ok.mp h
      simp [SaplingBundle.encodeBindingSig]
    · intro h
      obtain ⟨hnone, rfl, rfl⟩ := h
      cases sapling with
      | none => exact ⟨none, ⟨rfl, rfl⟩, run_pure_ok.mpr ⟨rfl, rfl⟩⟩
      | some b => exact absurd rfl (hnone b)

theorem run_readV1ToV4_ok (P : Protocol) {tx : Transaction} (hv : v.hasLegacyTxid) :
    (start v).readV1ToV4.run input = .ok (tx, rest) ↔
      tx.version = v ∧ tx.Valid P ∧ input = tx.encodeV1ToV4 ++ rest := by
  have hold : ¬ (v = .v5 ∨ v = .v6) := by
    rintro (rfl | rfl) <;> exact absurd hv (by decide)
  simp only [readV1ToV4, run_bind_ok, run_u32Le_ok, run_pure_ok]
  constructor
  · intro h
    obtain ⟨tx₁, _, h₁, lockTime, _, rfl, expiry, _, h₂, parts, _, h₃, sprout, _, h₄, sapling, _, h₅, rfl,
      rfl⟩ := h
    obtain ⟨ins, outs, rfl, hi, hins, ho, houts, rfl⟩ := run_readTransparent_ok.mp h₁
    obtain ⟨hexp, rfl⟩ := run_expiryHeight_ok.mp h₂
    obtain ⟨hsprout, rfl⟩ := run_sprout_ok.mp h₄
    obtain ⟨hsapling, rfl, rfl⟩ := run_saplingLegacy_ok.mp ⟨parts, h₃, h₅⟩
    refine ⟨rfl, ?_, ?_⟩
    · exact {
        inputs_count := hi, inputs := hins, outputs_count := ho, outputs := houts, expiry := hexp
        branch := ⟨fun h => absurd h (by simp [start]), fun h => absurd h hold⟩
        branch_valid := by simp [start]
        sprout := hsprout
        sapling := fun b hb => ⟨(hsapling b hb).1, .inl (hsapling b hb).2⟩
        orchard := by simp [start]
        ironwood := by simp [start] }
    · simp only [encodeV1ToV4, append_assoc]
      rfl
  · intro h
    obtain ⟨rfl, hvalid, rfl⟩ := h
    have hbranch : tx.branchId = none := by
      rw [← Option.not_isSome_iff_eq_none, hvalid.branch]
      exact hold
    have horchard : tx.orchard = none := by
      rw [Option.eq_none_iff_forall_not_mem]
      intro b hb
      obtain ⟨branch, hmem, -⟩ := hvalid.orchard b hb
      simp [hbranch] at hmem
    have hironwood : tx.ironwood = none := by
      rw [Option.eq_none_iff_forall_not_mem]
      intro b hb
      exact hold (.inr (hvalid.ironwood b hb).1)
    have hsapling : ∀ b ∈ tx.sapling, b.Valid ∧ tx.version = .v4 := by
      intro b hb
      obtain ⟨hb, h | ⟨h, -⟩⟩ := hvalid.sapling b hb
      · exact ⟨hb, h⟩
      · exact absurd h hold
    obtain ⟨parts, h₃, h₅⟩ := run_saplingLegacy_ok.mpr ⟨hsapling, rfl, rfl⟩
    simp only [encodeV1ToV4, append_assoc]
    refine ⟨{ start tx.version with
        transparentInputs := tx.transparentInputs, transparentOutputs := tx.transparentOutputs }, _,
      run_readTransparent_ok.mpr ⟨_, _, rfl, hvalid.inputs_count, hvalid.inputs, hvalid.outputs_count,
        hvalid.outputs, rfl⟩,
      tx.lockTime, _, rfl, tx.expiryHeight, _, run_expiryHeight_ok.mpr ⟨hvalid.expiry, rfl⟩,
      parts, _, h₃, tx.sprout, _, run_sprout_ok.mpr ⟨hvalid.sprout, rfl⟩, tx.sapling, rest, h₅, ?_, rfl⟩
    cases tx
    simp_all [start]

end Legacy

/-! ## Versions 5 and 6 -/

section Current

variable {P : Protocol} {v : TxVersion} {input rest : Bytes}

theorem run_ironwood_ok {branch : BranchId} {ironwood : Option ActionBundle} :
    (if v = .v6 then readActionBundle P branch .ironwood else pure none : Decode _).run input =
        .ok (ironwood, rest) ↔
      (∀ b ∈ ironwood, v = .v6 ∧ b.Valid P branch .ironwood) ∧
        input = (if v = .v6 then ActionBundle.encode ironwood else []) ++ rest := by
  split
  · rename_i h
    simpa [h] using readActionBundle_reads P branch .ironwood input ironwood rest
  · rename_i h
    cases ironwood with
    | none => simp
    | some b => simp [h]

theorem run_readV5V6_ok {tx : Transaction} (hv : ¬ v.hasLegacyTxid) :
    ((start v).readV5V6 P).run input = .ok (tx, rest) ↔
      tx.version = v ∧ tx.Valid P ∧ input = tx.encodeV5V6 P ++ rest := by
  have hnew : v = .v5 ∨ v = .v6 := by
    cases v
    case v5 => exact .inl rfl
    case v6 => exact .inr rfl
    all_goals exact absurd rfl hv
  have hsprout : v.hasSprout = false := by
    rcases hnew with rfl | rfl <;> rfl
  have hexpiry : v ≠ .v1 ∧ v ≠ .v2 := by
    rcases hnew with rfl | rfl <;> decide
  have hv4 : v ≠ .v4 := by
    rcases hnew with rfl | rfl <;> decide
  simp only [readV5V6, run_bind_ok, run_u32Le_ok, run_orError_ok, run_failIf_ok, run_pure_ok,
    Protocol.branchOf_eq_some, Bool.not_eq_false]
  constructor
  · intro h
    obtain ⟨_, _, rfl, branch, _, ⟨rfl, rfl⟩, _, _, ⟨hbranch, rfl⟩, lockTime, _, rfl, expiry, _, rfl, tx₁, _, h₁,
      sapling, _, h₂, orchard, _, h₃, ironwood, _, h₄, rfl, rfl⟩ := h
    obtain ⟨ins, outs, rfl, hi, hins, ho, houts, rfl⟩ := run_readTransparent_ok.mp h₁
    obtain ⟨hsapling, rfl⟩ := (readSaplingV5_reads _ _ _).mp h₂
    obtain ⟨horchard, rfl⟩ := (readActionBundle_reads _ _ _ _ _ _).mp h₃
    obtain ⟨hironwood, rfl⟩ := run_ironwood_ok.mp h₄
    refine ⟨rfl, ?_, ?_⟩
    · exact {
        inputs_count := hi, inputs := hins, outputs_count := ho, outputs := houts
        expiry := ⟨fun _ => hexpiry, fun _ => rfl⟩
        branch := ⟨fun _ => hnew, fun _ => rfl⟩
        branch_valid := by rintro _ ⟨⟩; exact hbranch
        sprout := by simp [start]
        sapling := fun b hb => ⟨(hsapling b hb).1, .inr ⟨hnew, (hsapling b hb).2⟩⟩
        orchard := fun b hb => ⟨branch, rfl, horchard b hb⟩
        ironwood := fun b hb => ⟨(hironwood b hb).1, branch, rfl, (hironwood b hb).2⟩ }
    · simp only [encodeV5V6, append_assoc]
      rfl
  · intro h
    obtain ⟨rfl, hvalid, rfl⟩ := h
    obtain ⟨branch, hbranch⟩ := Option.isSome_iff_exists.mp (hvalid.branch.mpr hnew)
    obtain ⟨expiry, hexpiry⟩ := Option.isSome_iff_exists.mp (hvalid.expiry.mpr hexpiry)
    have hnosprout : tx.sprout = none := by
      rw [Option.eq_none_iff_forall_not_mem]
      intro b hb
      have := (hvalid.sprout b hb).1
      simp [hsprout] at this
    have hsapling : ∀ b ∈ tx.sapling, b.Valid ∧ b.SharedAnchor := by
      intro b hb
      obtain ⟨hb, h | ⟨-, h⟩⟩ := hvalid.sapling b hb
      · exact absurd h hv4
      · exact ⟨hb, h⟩
    have horchard : ∀ b ∈ tx.orchard, b.Valid P branch .orchard := by
      intro b hb
      obtain ⟨c, hc, h⟩ := hvalid.orchard b hb
      rw [hbranch] at hc
      cases hc
      exact h
    have hironwood : ∀ b ∈ tx.ironwood, tx.version = .v6 ∧ b.Valid P branch .ironwood := by
      intro b hb
      obtain ⟨h₆, c, hc, h⟩ := hvalid.ironwood b hb
      rw [hbranch] at hc
      cases hc
      exact ⟨h₆, h⟩
    simp only [encodeV5V6, hbranch, hexpiry, Option.elim_some, append_assoc]
    refine ⟨_, _, rfl, branch, _, ⟨rfl, rfl⟩, (), _, ⟨hvalid.branch_valid branch hbranch, rfl⟩, tx.lockTime, _, rfl,
      expiry, _, rfl,
      { start tx.version with
        branchId := some branch, lockTime := tx.lockTime, expiryHeight := some expiry,
        transparentInputs := tx.transparentInputs, transparentOutputs := tx.transparentOutputs }, _,
      run_readTransparent_ok.mpr ⟨_, _, rfl, hvalid.inputs_count, hvalid.inputs, hvalid.outputs_count,
        hvalid.outputs, rfl⟩,
      tx.sapling, _, (readSaplingV5_reads _ _ _).mpr ⟨hsapling, rfl⟩,
      tx.orchard, _, (readActionBundle_reads _ _ _ _ _ _).mpr ⟨horchard, rfl⟩,
      tx.ironwood, rest, run_ironwood_ok.mpr ⟨hironwood, rfl⟩, ?_, rfl⟩
    cases tx
    simp_all [start]

end Current

/-! ## Transactions -/

/-- The reader of the transaction's fields, before the raw bytes are added. -/
def readTransaction (P : Protocol) : Decode Transaction := do
  let version ← readVersion P
  let tx := start version
  if version.hasLegacyTxid then tx.readV1ToV4 else tx.readV5V6 P

theorem readTransaction_reads (P : Protocol) : Reads (readTransaction P) (Transaction.Valid P) (encode P) := by
  intro input tx rest
  have hbody : ∀ v mid, (if v.hasLegacyTxid then (start v).readV1ToV4
      else (start v).readV5V6 P).run mid = .ok (tx, rest) ↔
      tx.version = v ∧ tx.Valid P ∧
        mid = (if v.hasLegacyTxid then tx.encodeV1ToV4 else tx.encodeV5V6 P) ++ rest := by
    intro v mid
    split
    · rename_i h
      exact run_readV1ToV4_ok P h
    · rename_i h
      exact run_readV5V6_ok h
  simp only [readTransaction, run_bind_ok, hbody]
  constructor
  · intro h
    obtain ⟨v, mid, hheader, rfl, hvalid, rfl⟩ := h
    obtain ⟨-, rfl⟩ := (readVersion_reads P _ _ _).mp hheader
    exact ⟨hvalid, by rw [encode, append_assoc]⟩
  · intro h
    obtain ⟨hvalid, rfl⟩ := h
    rw [encode, append_assoc]
    exact ⟨tx.version, _, (readVersion_reads P _ _ _).mpr ⟨trivial, rfl⟩, rfl, hvalid, rfl⟩

/-- The view of a transaction: its fields and its encoding. -/
def Transaction.view (P : Protocol) (tx : Transaction) : TransactionView := { tx with raw := tx.encode P }

theorem parsePrefix_eq_ok {P : Protocol} {input : Bytes} {view : TransactionView} {rest : Bytes} :
    TransactionView.parsePrefix P input = .ok (view, rest) ↔
      ∃ tx : Transaction, tx.Valid P ∧ input = tx.encode P ++ rest ∧ view = tx.view P := by
  simp only [TransactionView.parsePrefix, TransactionView.read, run_bind_ok, run_remaining_ok, run_pure_ok]
  constructor
  · intro h
    obtain ⟨v, mid, hv, tx, _, htx, _, _, ⟨rfl, rfl⟩, rfl, rfl⟩ := h
    have hread : (readTransaction P).run input = .ok (tx, _) := run_bind_ok.mpr ⟨v, mid, hv, htx⟩
    obtain ⟨hvalid, rfl⟩ := (readTransaction_reads P _ _ _).mp hread
    refine ⟨tx, hvalid, rfl, ?_⟩
    simp [view]
  · intro h
    obtain ⟨tx, hvalid, rfl, rfl⟩ := h
    obtain ⟨v, mid, hv, htx⟩ := run_bind_ok.mp ((readTransaction_reads P).run_encode hvalid rest)
    exact ⟨v, mid, hv, tx, rest, htx, _, _, ⟨rfl, rfl⟩, by simp [view], rfl⟩

end Zakura.Wire
