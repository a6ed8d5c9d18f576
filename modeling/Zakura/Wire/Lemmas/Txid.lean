import Zakura.Lib.Concat
import Zakura.Wire.Effects
import Zakura.Wire.Lemmas.Parse

/-! # Identifiers and effecting data -/

namespace Zakura.Wire

open List

variable {H : Hashes} {P : Protocol}

/-! ## Digests -/

@[simp] theorem Hashes.length_digest (c : HashCall) : (H.digest c).length = 32 := (H.blake2b _ _).length_val

variable {calls calls' : List HashCall}

theorem InjectiveOn.mono {sub sub' : List HashCall} (h : InjectiveOn H calls calls') (hs : sub ⊆ calls)
    (hs' : sub' ⊆ calls') : InjectiveOn H sub sub' :=
  fun c hc c' hc' => h c (hs hc) c' (hs' hc')

variable {c c' : HashCall}

theorem InjectiveOn.message_eq (h : InjectiveOn H calls calls') (hd : H.digest c = H.digest c')
    (hp : c.personal = c'.personal) (hc : c ∈ calls) (hc' : c' ∈ calls') : c.message = c'.message :=
  h c hc c' hc' hp hd

theorem digest_append_inj {s t : Bytes} (h : H.digest c ++ s = H.digest c' ++ t) :
    H.digest c = H.digest c' ∧ s = t :=
  List.append_inj h (by simp)

@[simp] theorem Hashes.digest_ne_nil (c : HashCall) : H.digest c ≠ [] := by
  intro hnil
  simpa using congrArg List.length hnil

/-- Of two calls that hash nothing when there is nothing, equal digests are of both empty or of equal messages. -/
theorem InjectiveOn.emptyOr_inj {p q : Prop} [Decidable p] [Decidable q] {tag : Personal} {s t : Bytes}
    (hi : InjectiveOn H calls calls')
    (h : H.digest (if p then .empty tag else ⟨tag, s⟩) = H.digest (if q then .empty tag else ⟨tag, t⟩))
    (hc : (if p then .empty tag else ⟨tag, s⟩) ∈ calls) (hc' : (if q then .empty tag else ⟨tag, t⟩) ∈ calls')
    (hs : s ≠ []) (ht : t ≠ []) : p ∧ q ∨ ¬ p ∧ ¬ q ∧ s = t := by
  have hmessage := hi.message_eq h (by split_ifs <;> rfl) hc hc'
  by_cases hp : p <;> by_cases hq : q <;> simp only [hp, hq, if_true, if_false, HashCall.empty] at hmessage
  · exact .inl ⟨hp, hq⟩
  · exact absurd hmessage.symm ht
  · exact absurd hmessage hs
  · exact .inr ⟨hp, hq, hmessage⟩

/-! ## The transparent digest -/

theorem writeCompactSize_eq {n : Nat} (h : n ≤ 0xFFFFFFFF) : writeCompactSize n = compactSizeBytes n := by
  unfold writeCompactSize compactSizeBytes
  simp [h]

theorem maxCompactSize_le : maxCompactSize ≤ 0xFFFFFFFF := by decide

variable {a b : UInt32}

theorem wordBytes_injective (h : wordBytes a = wordBytes b) : a = b :=
  UInt32.toNat_inj.mp (leBytes_inj (by simpa using a.toNat_lt) (by simpa using b.toNat_lt) h)

variable {tx : Transaction}

theorem outputsCall_message (h : ∀ o ∈ tx.transparentOutputs, o.Valid) :
    (outputsCall tx).message = tx.transparentOutputs.flatMap TransparentOutput.encode := by
  have key : ∀ o ∈ tx.transparentOutputs, o.value.toLeBytes ++ writeCompactSize o.scriptPubkey.length ++
      o.scriptPubkey = o.encode := by
    intro o ho
    rw [writeCompactSize_eq ((h o ho).trans maxCompactSize_le), TransparentOutput.encode, varBytesEncode,
      append_assoc]
  simp only [outputsCall, flatMap_def, map_congr_left key]

variable {tx' : Transaction}

theorem transparent_inj (hv : ∀ o ∈ tx.transparentOutputs, o.Valid) (hv' : ∀ o ∈ tx'.transparentOutputs, o.Valid)
    (hi : InjectiveOn H (transparentCalls H tx) (transparentCalls H tx'))
    (h : H.digest (transparentCall H tx) = H.digest (transparentCall H tx')) :
    tx.effects.prevouts = tx'.effects.prevouts ∧ tx.effects.sequences = tx'.effects.sequences ∧
      tx.effects.outputs = tx'.effects.outputs := by
  rcases hi.emptyOr_inj h (mem_cons_self ..) (mem_cons_self ..) (by simp) (by simp) with
    ⟨he, he'⟩ | ⟨he, he', hmessage⟩
  · simp [Transaction.effects, he, he']
  · rw [transparentCalls, if_neg he, transparentCalls, if_neg he'] at hi
    rw [append_assoc, append_assoc] at hmessage
    obtain ⟨hp, hmessage⟩ := digest_append_inj hmessage
    obtain ⟨hs, ho⟩ := digest_append_inj hmessage
    have hp := hi.message_eq hp rfl (by simp) (by simp)
    have hs := hi.message_eq hs rfl (by simp) (by simp)
    have ho := hi.message_eq ho rfl (by simp) (by simp)
    rw [outputsCall_message hv, outputsCall_message hv'] at ho
    refine ⟨?_, ?_, ?_⟩
    · refine map_eq_of_map_eq (map_eq_of_flatMap_eq (n := 36) (by decide) (by simp) hp) ?_
      intro x y hxy
      obtain ⟨htxid, hindex⟩ := FixedBytes.append_inj hxy
      exact Prod.ext htxid (wordBytes_injective hindex)
    · exact map_eq_of_map_eq (map_eq_of_flatMap_eq (n := 4) (by decide) (by simp) hs)
        fun x y hxy => wordBytes_injective hxy
    · refine readTransparentOutput_reads.flatMap_injective ?_ hv hv' ho
      intro o hnil
      have := o.minTxOutSize_le
      rw [hnil] at this
      simp [minTxOutSize] at this

/-! ## Ciphertexts -/

theorem encCiphertext_eq {a b : FixedBytes encCiphertextSize} (hhead : a.val.take 52 = b.val.take 52)
    (hmemo : (a.val.take 564).drop 52 = (b.val.take 564).drop 52) (htail : a.val.drop 564 = b.val.drop 564) :
    a = b := by
  have hcut : ∀ c : Bytes, c = c.take 52 ++ ((c.take 564).drop 52 ++ c.drop 564) := by
    intro c
    have hmid : c.take 564 = c.take 52 ++ (c.take 564).drop 52 := by
      conv_lhs => rw [← take_append_drop 52 (c.take 564), take_take]
      rfl
    rw [← append_assoc, ← hmid, take_append_drop]
  apply Subtype.ext
  rw [hcut a.val, hcut b.val, hhead, hmemo, htail]

@[simp] theorem length_encCiphertext_take (a : FixedBytes encCiphertextSize) : (a.val.take 52).length = 52 := by
  simp [encCiphertextSize]

@[simp] theorem length_encCiphertext_memo (a : FixedBytes encCiphertextSize) :
    ((a.val.take 564).drop 52).length = 512 := by
  simp [encCiphertextSize]

@[simp] theorem length_encCiphertext_drop (a : FixedBytes encCiphertextSize) :
    (a.val.drop 564).length = 16 := by
  simp [encCiphertextSize]

/-! ## The Sapling digest -/

section Sapling

variable {b b' : SaplingBundle} {v6 : Bool}

theorem saplingSpends_inj
    (hi : InjectiveOn H (saplingCalls H v6 (some b)) (saplingCalls H v6 (some b')))
    (h : H.digest (saplingSpendsCall H b v6) = H.digest (saplingSpendsCall H b' v6)) :
    (b.effects v6).spends = (b'.effects v6).spends := by
  rcases hi.emptyOr_inj h (by simp [saplingCalls, saplingSpendsCall]) (by simp [saplingCalls, saplingSpendsCall]) (by simp)
    (by simp) with ⟨he, he'⟩ | ⟨he, he', hmessage⟩
  · simp [SaplingBundle.effects, he, he']
  · obtain ⟨hc, hn⟩ := digest_append_inj hmessage
    have hc := hi.message_eq hc rfl (by simp [saplingCalls, he]) (by simp [saplingCalls, he'])
    have hn := hi.message_eq hn rfl (by simp [saplingCalls, he]) (by simp [saplingCalls, he'])
    have hc := map_eq_of_flatMap_eq (n := 32) (by decide) (by simp) hc
    have hn := map_eq_of_flatMap_eq (n := if v6 then 64 else 96) (by split <;> decide)
      (by intro s; cases v6 <;> simp) hn
    refine map_eq_of_map_eq (map_pair_eq hc hn) ?_
    intro s t hst
    simp only [Prod.mk.injEq, append_assoc] at hst
    obtain ⟨hcv, hrest⟩ := FixedBytes.append_inj hst.2
    cases v6 with
    | false =>
      obtain ⟨hanchor, hrk⟩ := FixedBytes.append_inj (by simpa using hrest)
      simp [SaplingSpend.effects, hcv, Subtype.ext hst.1, hanchor, Subtype.ext hrk]
    | true =>
      have hrk : s.rk.val = t.rk.val := by simpa using hrest
      simp [SaplingSpend.effects, hcv, Subtype.ext hst.1, Subtype.ext hrk]

theorem saplingOutputs_inj
    (hi : InjectiveOn H (saplingCalls H v6 (some b)) (saplingCalls H v6 (some b')))
    (h : H.digest (saplingOutputsCall H b) = H.digest (saplingOutputsCall H b')) :
    (b.effects v6).outputs = (b'.effects v6).outputs := by
  rcases hi.emptyOr_inj h (by simp [saplingCalls, saplingOutputsCall]) (by simp [saplingCalls, saplingOutputsCall])
    (by simp) (by simp) with ⟨he, he'⟩ | ⟨he, he', hmessage⟩
  · simp [SaplingBundle.effects, he, he']
  · rw [append_assoc, append_assoc] at hmessage
    obtain ⟨hc, hmessage⟩ := digest_append_inj hmessage
    obtain ⟨hm, hn⟩ := digest_append_inj hmessage
    have hc := hi.message_eq hc rfl (by simp [saplingCalls, he]) (by simp [saplingCalls, he'])
    have hm := hi.message_eq hm rfl (by simp [saplingCalls, he]) (by simp [saplingCalls, he'])
    have hn := hi.message_eq hn rfl (by simp [saplingCalls, he]) (by simp [saplingCalls, he'])
    have hc := map_eq_of_flatMap_eq (n := 116) (by decide)
      (fun o => by simp only [length_append, FixedBytes.length_val, length_encCiphertext_take]) hc
    have hm := map_eq_of_flatMap_eq (n := 512) (by decide) (fun o => length_encCiphertext_memo _) hm
    have hn := map_eq_of_flatMap_eq (n := 128) (by decide)
      (fun o => by
        simp only [length_append, FixedBytes.length_val, length_encCiphertext_drop, outCiphertextSize]) hn
    refine map_eq_of_map_eq (map_pair_eq hc (map_pair_eq hm hn)) ?_
    intro o p hop
    simp only [Prod.mk.injEq, append_assoc] at hop
    obtain ⟨hc, hmemo, hn⟩ := hop
    obtain ⟨hcmu, hc⟩ := FixedBytes.append_inj hc
    obtain ⟨hkey, hhead⟩ := FixedBytes.append_inj hc
    obtain ⟨hcv, hn⟩ := FixedBytes.append_inj hn
    obtain ⟨htail, hout⟩ := List.append_inj hn (by
      rw [length_encCiphertext_drop, length_encCiphertext_drop])
    simp [SaplingOutput.effects, hcmu, hkey, hcv, Subtype.ext hout, encCiphertext_eq hhead hmemo htail]

theorem sapling_inj {o o' : Option SaplingBundle}
    (hi : InjectiveOn H (saplingCalls H v6 o) (saplingCalls H v6 o'))
    (h : H.digest (saplingCall H v6 o) = H.digest (saplingCall H v6 o')) :
    o.map (·.effects v6) = o'.map (·.effects v6) := by
  have hpersonal : (saplingCall H v6 o).personal = (saplingCall H v6 o').personal := by
    cases o <;> cases o' <;> rfl
  have hmessage := hi.message_eq h hpersonal (mem_cons_self ..) (mem_cons_self ..)
  cases o with
  | none =>
    cases o' with
    | none => rfl
    | some b' => simpa [saplingCall, HashCall.empty] using congrArg List.length hmessage
  | some b =>
    cases o' with
    | none => simpa [saplingCall, HashCall.empty] using congrArg List.length hmessage
    | some b' =>
      simp only [saplingCall, append_assoc] at hmessage
      obtain ⟨hs, hmessage⟩ := digest_append_inj hmessage
      obtain ⟨ho, hbalance⟩ := digest_append_inj hmessage
      have hs := saplingSpends_inj hi hs
      have ho := saplingOutputs_inj hi ho
      have hbalance := ZatBalance.toLeBytes_injective hbalance
      simp only [SaplingBundle.effects] at hs ho
      simp [SaplingBundle.effects, hs, ho, hbalance]

end Sapling

/-! ## The action digests -/

variable {domain : ActionDomain}

theorem actions_inj {b b' : ActionBundle}
    (hi : InjectiveOn H (actionCalls H domain (some b)) (actionCalls H domain (some b')))
    (hc : H.digest (actionsCompactCall domain b) = H.digest (actionsCompactCall domain b'))
    (hm : H.digest (actionsMemosCall domain b) = H.digest (actionsMemosCall domain b'))
    (hn : H.digest (actionsNoncompactCall domain b) = H.digest (actionsNoncompactCall domain b')) :
    b.actions.map (·.effects) = b'.actions.map (·.effects) := by
  have hc := hi.message_eq hc rfl (by simp [actionCalls]) (by simp [actionCalls])
  have hm := hi.message_eq hm rfl (by simp [actionCalls]) (by simp [actionCalls])
  have hn := hi.message_eq hn rfl (by simp [actionCalls]) (by simp [actionCalls])
  have hc := map_eq_of_flatMap_eq (n := 148) (by decide)
    (fun o => by simp only [length_append, FixedBytes.length_val, length_encCiphertext_take]) hc
  have hm := map_eq_of_flatMap_eq (n := 512) (by decide) (fun o => length_encCiphertext_memo _) hm
  have hn := map_eq_of_flatMap_eq (n := 160) (by decide)
    (fun o => by
      simp only [length_append, FixedBytes.length_val, length_encCiphertext_drop, outCiphertextSize]) hn
  refine map_eq_of_map_eq (map_pair_eq hc (map_pair_eq hm hn)) ?_
  intro x y hxy
  simp only [Prod.mk.injEq, append_assoc] at hxy
  obtain ⟨hc, hmemo, hn⟩ := hxy
  obtain ⟨hnullifier, hc⟩ := FixedBytes.append_inj hc
  obtain ⟨hcmx, hc⟩ := FixedBytes.append_inj hc
  obtain ⟨hkey, hhead⟩ := FixedBytes.append_inj hc
  obtain ⟨hcv, hn⟩ := FixedBytes.append_inj hn
  obtain ⟨hrk, hn⟩ := FixedBytes.append_inj hn
  obtain ⟨htail, hout⟩ := List.append_inj hn (by
    rw [length_encCiphertext_drop, length_encCiphertext_drop])
  simp [Action.effects, hnullifier, hcmx, hkey, hcv, hrk, Subtype.ext hout,
    encCiphertext_eq hhead hmemo htail]

variable {v6 : Bool}

variable {o o' : Option ActionBundle}

theorem action_inj (hdomain : domain.includesAnchor = !v6)
    (hi : InjectiveOn H (actionCalls H domain o) (actionCalls H domain o'))
    (h : H.digest (actionCall H domain o) = H.digest (actionCall H domain o')) :
    o.map (·.effects v6) = o'.map (·.effects v6) := by
  have hpersonal : (actionCall H domain o).personal = (actionCall H domain o').personal := by
    cases o <;> cases o' <;> rfl
  have hmessage := hi.message_eq h hpersonal (mem_cons_self ..) (mem_cons_self ..)
  cases o with
  | none =>
    cases o' with
    | none => rfl
    | some b' => simpa [actionCall, HashCall.empty] using congrArg List.length hmessage
  | some b =>
    cases o' with
    | none => simpa [actionCall, HashCall.empty] using congrArg List.length hmessage
    | some b' =>
      simp only [actionCall, append_assoc, singleton_append] at hmessage
      obtain ⟨hc, hmessage⟩ := digest_append_inj hmessage
      obtain ⟨hm, hmessage⟩ := digest_append_inj hmessage
      obtain ⟨hn, hmessage⟩ := digest_append_inj hmessage
      have hactions := actions_inj hi hc hm hn
      rw [cons_append, cons_append, List.cons.injEq] at hmessage
      obtain ⟨hflags, hmessage⟩ := hmessage
      obtain ⟨hbalance, hanchor⟩ := List.append_inj hmessage (by simp)
      have hbalance := ZatBalance.toLeBytes_injective hbalance
      have hanchor : (if v6 then none else some b.anchor) = if v6 then none else some b'.anchor := by
        cases v6 with
        | false => simpa [hdomain, Subtype.ext_iff] using hanchor
        | true => rfl
      simp [ActionBundle.effects, hactions, hflags, hbalance, hanchor]

/-! ## The header digest -/

variable {branchId : UInt32}

theorem header_inj {branchId' : UInt32} (hc : headerCall P tx branchId = some c)
    (hc' : headerCall P tx' branchId' = some c')
    (h : c.message = c'.message) :
    branchId = branchId' ∧ tx.lockTime = tx'.lockTime ∧
      tx.expiryHeight.getD 0 = tx'.expiryHeight.getD 0 := by
  simp only [headerCall, Option.bind_eq_bind, Option.bind_eq_some_iff, Option.pure_def,
    Option.some.injEq] at hc hc'
  obtain ⟨group, -, rfl⟩ := hc
  obtain ⟨group', -, rfl⟩ := hc'
  simp only [append_assoc] at h
  obtain ⟨-, h⟩ := List.append_inj h (by simp)
  obtain ⟨-, h⟩ := List.append_inj h (by simp)
  obtain ⟨hbranch, h⟩ := List.append_inj h (by simp)
  obtain ⟨hlock, hexpiry⟩ := List.append_inj h (by simp)
  exact ⟨wordBytes_injective hbranch, wordBytes_injective hlock, wordBytes_injective hexpiry⟩

/-! ## The root -/

/-- The transactions whose identifier is a digest tree, with what the parser guarantees of them. -/
structure Transaction.HasDigestTree (tx : Transaction) : Prop where
  version : tx.version = .v5 ∨ tx.version = .v6
  branchId : tx.branchId.isSome
  expiryHeight : tx.expiryHeight.isSome
  outputs : ∀ o ∈ tx.transparentOutputs, o.Valid
  ironwood : tx.version = .v5 → tx.ironwood = none

theorem Transaction.Valid.hasDigestTree (h : tx.Valid P) (hv : tx.version = .v5 ∨ tx.version = .v6) : tx.HasDigestTree := by
  refine ⟨hv, h.branch.mpr hv, h.expiry.mpr ?_, h.outputs, ?_⟩
  · rcases hv with hv | hv <;> simp [hv]
  · intro h₅
    rw [Option.eq_none_iff_forall_not_mem]
    intro b hb
    simpa [h₅] using (h.ironwood b hb).1

theorem txidCall_eq (h : tx.HasDigestTree) :
    ∃ branch header, tx.branchId = some branch ∧ headerCall P tx (P.branchValue branch) = some header ∧
      txidCall H P tx = some ⟨txPersonal (P.branchValue branch),
        H.digest header ++ H.digest (transparentCall H tx) ++
          H.digest (saplingCall H (decide (tx.version = .v6)) tx.sapling) ++
          H.digest (actionCall H (orchardDomain (decide (tx.version = .v6))) tx.orchard) ++
          (if decide (tx.version = .v6) then H.digest (actionCall H ironwoodV6 tx.ironwood) else [])⟩ := by
  obtain ⟨hv, hbranch, -, -, -⟩ := h
  obtain ⟨branch, hbranch⟩ := Option.isSome_iff_exists.mp hbranch
  have hgroup : ∃ group, tx.version.versionGroupId P = some group := by
    rcases hv with hv | hv <;> simp [hv, TxVersion.versionGroupId]
  obtain ⟨group, hgroup⟩ := hgroup
  obtain ⟨header, hheader⟩ : ∃ header, headerCall P tx (P.branchValue branch) = some header := by
    rw [headerCall, hgroup]
    exact ⟨_, rfl⟩
  refine ⟨branch, header, hbranch, hheader, ?_⟩
  simp only [txidCall, hbranch, hheader, Option.bind_eq_bind, Option.bind_some, Option.pure_def]

theorem txPersonal_injective (h : txPersonal a = txPersonal b) : a = b := by
  have hval := congrArg Subtype.val h
  exact wordBytes_injective (append_cancel_left hval)

theorem headerCall_personal (h : headerCall P tx branchId = some c) : c.personal = .headers := by
  simp only [headerCall, Option.bind_eq_bind, Option.bind_eq_some_iff, Option.pure_def,
    Option.some.injEq] at h
  obtain ⟨group, -, rfl⟩ := h
  rfl

theorem orchardDomain_includesAnchor (v6 : Bool) : (orchardDomain v6).includesAnchor = !v6 := by
  cases v6 <;> rfl

/-- The root has five digests in version 6 and four in version 5, so its length gives the version. -/
theorem version_eq_of_length (ht : tx.HasDigestTree) (ht' : tx'.HasDigestTree) {c₁ c₂ c₃ c₄ c₅ d₁ d₂ d₃ d₄ d₅ : HashCall}
    (h : (H.digest c₁ ++ H.digest c₂ ++ H.digest c₃ ++ H.digest c₄ ++
      (if decide (tx.version = .v6) then H.digest c₅ else [])).length =
      (H.digest d₁ ++ H.digest d₂ ++ H.digest d₃ ++ H.digest d₄ ++
      (if decide (tx'.version = .v6) then H.digest d₅ else [])).length)
    :
    tx.version = tx'.version := by
  simp only [length_append, Hashes.length_digest] at h
  rcases ht.version with hv | hv <;> rcases ht'.version with hv' | hv' <;> simp [hv, hv'] at h ⊢

theorem effects_inj (ht : tx.HasDigestTree) (ht' : tx'.HasDigestTree) (hfree : CollisionFree H P tx tx')
    (hc : txidCall H P tx = some c) (hc' : txidCall H P tx' = some c') (h : H.digest c = H.digest c') :
    tx.effects = tx'.effects := by
  obtain ⟨branch, header, hbranch, hheader, hcall⟩ := txidCall_eq (H := H) (P := P) ht
  obtain ⟨branch', header', hbranch', hheader', hcall'⟩ := txidCall_eq (H := H) (P := P) ht'
  obtain ⟨hinj, hsep⟩ := hfree
  have hpersonal := hsep c hc c' hc' h
  have hmessage := hinj.message_eq h hpersonal (by simp [txidCalls, hc]) (by simp [txidCalls, hc'])
  rw [hcall, Option.some.injEq] at hc
  rw [hcall', Option.some.injEq] at hc'
  subst hc hc'
  have hversion := version_eq_of_length ht ht' (congrArg List.length hmessage)
  have hbranches : branch = branch' := P.branchValue_injective (txPersonal_injective hpersonal)
  simp only [← hversion, append_assoc] at hmessage
  obtain ⟨hd, hmessage⟩ := digest_append_inj hmessage
  obtain ⟨htransparent, hmessage⟩ := digest_append_inj hmessage
  obtain ⟨hsapling, hmessage⟩ := digest_append_inj hmessage
  obtain ⟨horchard, hironwood⟩ := digest_append_inj hmessage
  have hpersonals := (headerCall_personal hheader).trans (headerCall_personal hheader').symm
  obtain ⟨-, hlock, hexpiry⟩ := header_inj hheader hheader' (hinj.message_eq hd hpersonals
    (by simp [txidCalls, hbranch, hheader]) (by simp [txidCalls, hbranch', hheader']))
  obtain ⟨hprevouts, hsequences, houtputs⟩ := transparent_inj ht.outputs ht'.outputs
    (hinj.mono (fun c hc => by simp [txidCalls, hc]) (fun c hc => by simp [txidCalls, hc])) htransparent
  have hsapling := sapling_inj
    (hinj.mono (fun c hc => by simp [txidCalls, hc]) (fun c hc => by simp [txidCalls, ← hversion, hc])) hsapling
  have horchard := action_inj (orchardDomain_includesAnchor _)
    (hinj.mono (fun c hc => by simp [txidCalls, hc]) (fun c hc => by simp [txidCalls, ← hversion, hc])) horchard
  have hironwood : tx.ironwood.map (·.effects (decide (tx.version = .v6))) =
      tx'.ironwood.map (·.effects (decide (tx.version = .v6))) := by
    rcases ht.version with hv | hv
    · rw [ht.ironwood hv, ht'.ironwood (hversion ▸ hv)]
    · simp only [hv, decide_true, if_true] at hironwood ⊢
      exact action_inj rfl (hinj.mono (fun c hc => by simp [txidCalls, hv, hc])
        (fun c hc => by simp [txidCalls, ← hversion, hv, hc])) hironwood
  have hexpiries : tx.expiryHeight = tx'.expiryHeight := by
    obtain ⟨e, he⟩ := Option.isSome_iff_exists.mp ht.expiryHeight
    obtain ⟨e', he'⟩ := Option.isSome_iff_exists.mp ht'.expiryHeight
    simpa [he, he'] using hexpiry
  simp only [Transaction.effects] at hprevouts hsequences houtputs
  simp only [Transaction.effects, hbranch, hbranch', hbranches, hlock, hexpiries, hprevouts, hsequences,
    houtputs, hsapling, horchard, hironwood, ← hversion]

/-! ## Equal effecting data -/

variable {α β : Type} {f : α → β} {xs ys : List α}

theorem flatMap_congr_map {g : α → Bytes} (h : xs.map f = ys.map f) (hfg : ∀ x y, f x = f y → g x = g y) :
    xs.flatMap g = ys.flatMap g := by
  rw [flatMap_def, flatMap_def, map_eq_of_map_eq h hfg]

theorem map_eq_nil_congr (h : xs.map f = ys.map f) : xs = [] ↔ ys = [] := by
  rw [← map_eq_nil_iff (f := f), h, map_eq_nil_iff]

theorem transparentCall_congr (hprevouts : tx.effects.prevouts = tx'.effects.prevouts)
    (hsequences : tx.effects.sequences = tx'.effects.sequences) (houtputs : tx.effects.outputs = tx'.effects.outputs) :
    transparentCall H tx = transparentCall H tx' := by
  simp only [Transaction.effects] at hprevouts hsequences houtputs
  have hp : prevoutsCall tx = prevoutsCall tx' := by
    unfold prevoutsCall
    rw [flatMap_congr_map hprevouts]
    intro x y hxy
    simp only [TransparentInput.prevout, Prod.mk.injEq] at hxy
    rw [hxy.1, hxy.2]
  have hs : sequenceCall tx = sequenceCall tx' := by
    unfold sequenceCall
    rw [flatMap_congr_map hsequences]
    intro x y hxy
    rw [hxy]
  have ho : outputsCall tx = outputsCall tx' := by
    unfold outputsCall
    rw [houtputs]
  simp only [transparentCall, hp, hs, ho, map_eq_nil_congr hprevouts, houtputs]

theorem saplingCall_congr {o o' : Option SaplingBundle} (h : o.map (·.effects v6) = o'.map (·.effects v6)) :
    saplingCall H v6 o = saplingCall H v6 o' := by
  cases o with
  | none =>
    cases o' with
    | none => rfl
    | some b' => simp at h
  | some b =>
    cases o' with
    | none => simp at h
    | some b' =>
      simp only [Option.map_some, Option.some.injEq, SaplingBundle.effects, SaplingEffects.mk.injEq] at h
      obtain ⟨hs, ho, hbalance⟩ := h
      have hspends : saplingSpendsCall H b v6 = saplingSpendsCall H b' v6 := by
        have hc : saplingSpendsCompactCall b = saplingSpendsCompactCall b' := by
          unfold saplingSpendsCompactCall
          rw [flatMap_congr_map hs]
          intro x y hxy
          simp only [SaplingSpend.effects, SpendEffects.mk.injEq] at hxy
          rw [hxy.2.1]
        have hn : saplingSpendsNoncompactCall b v6 = saplingSpendsNoncompactCall b' v6 := by
          unfold saplingSpendsNoncompactCall
          rw [flatMap_congr_map hs]
          intro x y hxy
          simp only [SaplingSpend.effects, SpendEffects.mk.injEq] at hxy
          obtain ⟨hcv, -, hrk, hanchor⟩ := hxy
          cases v6 <;> simp_all
        simp only [saplingSpendsCall, hc, hn, map_eq_nil_congr hs]
      have houtputs : saplingOutputsCall H b = saplingOutputsCall H b' := by
        have hc : saplingOutputsCompactCall b = saplingOutputsCompactCall b' := by
          unfold saplingOutputsCompactCall
          rw [flatMap_congr_map ho]
          intro x y hxy
          simp only [SaplingOutput.effects, OutputEffects.mk.injEq] at hxy
          rw [hxy.2.1, hxy.2.2.1, hxy.2.2.2.1]
        have hm : saplingOutputsMemosCall b = saplingOutputsMemosCall b' := by
          unfold saplingOutputsMemosCall
          rw [flatMap_congr_map ho]
          intro x y hxy
          simp only [SaplingOutput.effects, OutputEffects.mk.injEq] at hxy
          rw [hxy.2.2.2.1]
        have hn : saplingOutputsNoncompactCall b = saplingOutputsNoncompactCall b' := by
          unfold saplingOutputsNoncompactCall
          rw [flatMap_congr_map ho]
          intro x y hxy
          simp only [SaplingOutput.effects, OutputEffects.mk.injEq] at hxy
          rw [hxy.1, hxy.2.2.2.1, hxy.2.2.2.2]
        simp only [saplingOutputsCall, hc, hm, hn, map_eq_nil_congr ho]
      simp only [saplingCall, hspends, houtputs, hbalance]

theorem actionCall_congr (hdomain : domain.includesAnchor = !v6) (h : o.map (·.effects v6) = o'.map (·.effects v6)) :
    actionCall H domain o = actionCall H domain o' := by
  cases o with
  | none =>
    cases o' with
    | none => rfl
    | some b' => simp at h
  | some b =>
    cases o' with
    | none => simp at h
    | some b' =>
      simp only [Option.map_some, Option.some.injEq, ActionBundle.effects, ActionBundleEffects.mk.injEq] at h
      obtain ⟨hactions, hflags, hbalance, hanchor⟩ := h
      have hc : actionsCompactCall domain b = actionsCompactCall domain b' := by
        unfold actionsCompactCall
        rw [flatMap_congr_map hactions]
        intro x y hxy
        simp only [Action.effects, ActionEffects.mk.injEq] at hxy
        obtain ⟨-, hnullifier, -, hcmx, hkey, henc, -⟩ := hxy
        rw [hnullifier, hcmx, hkey, henc]
      have hm : actionsMemosCall domain b = actionsMemosCall domain b' := by
        unfold actionsMemosCall
        rw [flatMap_congr_map hactions]
        intro x y hxy
        simp only [Action.effects, ActionEffects.mk.injEq] at hxy
        obtain ⟨-, -, -, -, -, henc, -⟩ := hxy
        rw [henc]
      have hn : actionsNoncompactCall domain b = actionsNoncompactCall domain b' := by
        unfold actionsNoncompactCall
        rw [flatMap_congr_map hactions]
        intro x y hxy
        simp only [Action.effects, ActionEffects.mk.injEq] at hxy
        obtain ⟨hcv, -, hrk, -, -, henc, hout⟩ := hxy
        rw [hcv, hrk, henc, hout]
      have ha : (if domain.includesAnchor then b.anchor.val else []) =
          if domain.includesAnchor then b'.anchor.val else [] := by
        cases v6 <;> simp_all
      simp only [actionCall, hc, hm, hn, hflags, hbalance, ha]

theorem txidCall_congr (h : tx.effects = tx'.effects) : txidCall H P tx = txidCall H P tx' := by
  have htransparent : transparentCall H tx = transparentCall H tx' :=
    transparentCall_congr (by rw [h]) (by rw [h]) (by rw [h])
  simp only [Transaction.effects, Effects.mk.injEq] at h
  obtain ⟨hversion, hbranch, hlock, hexpiry, -, -, -, hsapling, horchard, hironwood⟩ := h
  rw [← hversion] at hsapling horchard hironwood
  have hheader : ∀ branchId, headerCall P tx branchId = headerCall P tx' branchId := by
    intro branchId
    simp only [headerCall, hversion, hlock, hexpiry]
  have hi : (if decide (tx.version = .v6) then H.digest (actionCall H ironwoodV6 tx.ironwood) else []) =
      if decide (tx.version = .v6) then H.digest (actionCall H ironwoodV6 tx'.ironwood) else [] := by
    split
    · rename_i hv
      rw [hv] at hironwood
      rw [actionCall_congr rfl hironwood]
    · rfl
  simp only [txidCall, hbranch, hheader, htransparent, saplingCall_congr hsapling,
    actionCall_congr (orchardDomain_includesAnchor _) horchard, hi, ← hversion]

theorem txid_eq_some (view : TransactionView) (h : view.toTransaction.HasDigestTree) :
    ∃ c, txidCall H P view.toTransaction = some c ∧ txid H P view = some (H.blake2b c.personal c.message) := by
  obtain ⟨branch, header, -, -, hcall⟩ := txidCall_eq (H := H) (P := P) h
  have hlegacy : ¬ view.version.number ≤ TxVersion.v4.number := by
    rcases h.version with hv | hv <;> rw [hv] <;> decide
  refine ⟨_, hcall, ?_⟩
  rw [txid, if_neg hlegacy, hcall]
  rfl

end Zakura.Wire
