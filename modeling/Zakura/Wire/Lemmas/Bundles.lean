import Zakura.Wire.Lemmas.Parts

/-! # The bundle readers read their formats

The v5 layout stores proofs and signatures in arrays behind the descriptions. The reader first fills
those fields with zeros and attaches the arrays afterwards, one pass for each field. -/

namespace Zakura.Wire

open List Reader

/-! ## Attaching one array to every description -/

variable {α β : Type} {xs : List α} {input rest : Bytes} {ys : List β}

theorem run_forEach_array_ok {n : Nat} {field} {set : α → FixedBytes n → β} (get : β → FixedBytes n)
    (hget : ∀ x a, get (set x a) = a) :
    (forEach (fun x => do
      let a ← array field
      pure (set x a)) xs).run input = .ok (ys, rest) ↔
      List.Forall₂ (fun x y => set x (get y) = y) xs ys ∧ input = ys.flatMap (fun y => (get y).val) ++ rest := by
  apply run_forEach_ok
  intro x input y rest
  simp only [run_bind_ok, run_array_ok, run_pure_ok]
  constructor
  · rintro ⟨a, _, rfl, rfl, rfl⟩
    simp [hget]
  · rintro ⟨hy, rfl⟩
    exact ⟨get y, rest, rfl, hy, rfl⟩

theorem map_eq_of_forall₂ {γ : Type} {r : α → β → Prop} {f : α → γ} {g : β → γ} {xs ys} (h : ∀ x y, r x y → f x = g y)
    (hr : List.Forall₂ r xs ys) : xs.map f = ys.map g := by
  induction hr with
  | nil => rfl
  | cons hxy _ ih => simp [h _ _ hxy, ih]

theorem countedEncode_congr {f : α → Bytes} {g : β → Bytes} (h : xs.map f = ys.map g) :
    countedEncode f xs = countedEncode g ys := by
  have hlen : xs.length = ys.length := by simpa using congrArg List.length h
  rw [countedEncode, countedEncode, flatMap_def, flatMap_def, hlen, h]

theorem flatMap_val_congr {n : Nat} {f : α → FixedBytes n} {g : β → FixedBytes n} (h : xs.map f = ys.map g) :
    xs.flatMap (fun x => (f x).val) = ys.flatMap fun y => (g y).val := by
  simpa [flatMap_map] using congrArg (List.flatMap Subtype.val) h

/-! ## Sprout -/

theorem readSprout_reads (v : TxVersion) :
    Reads (readSprout v) (fun o => ∀ b ∈ o, b.Valid v) SproutBundle.encode := by
  intro input o rest
  have hsize : ∀ j, JoinSplit.Valid v j →
      joinsplitFixedSize + v.joinsplitProofSize + joinsplitCiphertextsSize ≤ j.encode.length :=
    fun j hj => (JoinSplit.length_encode hj).ge
  have hswap : ∀ (n : Nat) (a b : Decode (Option SproutBundle)),
      (if 0 < n then a else b) = if n = 0 then b else a := by
    intro n a b
    rcases n with _ | n <;> simp
  simp only [readSprout, hswap]
  rw [← TxVersion.joinsplitProofSize, run_count_optional_ok (readJoinsplit_reads v) hsize]
  simp only [run_bind_ok, run_array_ok, run_pure_ok]
  constructor
  · rintro (⟨mid, rfl, rfl, rfl⟩ | ⟨js, mid, hne, hn, hvalid, rfl, _, _, rfl, _, _, rfl, rfl, rfl⟩)
    · simp [SproutBundle.encode]
    · exact ⟨by simpa using ⟨hne, hn, hvalid⟩, by simp [SproutBundle.encode]⟩
  · rintro ⟨hvalid, rfl⟩
    cases o with
    | none => exact .inl ⟨rest, rfl, rfl, rfl⟩
    | some b =>
      obtain ⟨hne, hn, hjs⟩ := hvalid b rfl
      simp only [SproutBundle.encode, append_assoc]
      exact .inr ⟨b.joinsplits, _, hne, hn, hjs, rfl, _, _, rfl, _, _, rfl, rfl, rfl⟩

/-! ## Sapling, version 4 -/

theorem run_readSaplingV4_ok {balance spends outputs} :
    readSaplingV4.run input = .ok ((balance, spends, outputs), rest) ↔
      spends.length ≤ maxCompactSize ∧ outputs.length ≤ maxCompactSize ∧
        input = balance.toLeBytes ++ countedEncode SaplingSpend.encodeV4 spends ++
          countedEncode SaplingOutput.encodeV4 outputs ++ rest := by
  have hspend : ∀ s : SaplingSpend, True → saplingSpendV4Size ≤ s.encodeV4.length :=
    fun s _ => s.length_encodeV4.ge
  have houtput : ∀ o : SaplingOutput, True → saplingOutputV4Size ≤ o.encodeV4.length :=
    fun o _ => o.length_encodeV4.ge
  unfold readSaplingV4
  rw [run_bind_ok]
  simp only [run_readBalance_ok, run_count_elements_ok readSpendV4_reads hspend,
    run_count_elements_ok readOutputV4_reads houtput, run_pure_ok]
  constructor
  · intro h
    obtain ⟨_, _, rfl, _, _, hs, -, rfl, _, _, ho, -, rfl, heq, rfl⟩ := h
    cases heq
    exact ⟨hs, ho, by simp⟩
  · intro h
    obtain ⟨hs, ho, rfl⟩ := h
    simp only [append_assoc]
    exact ⟨_, _, rfl, _, _, hs, fun _ _ => trivial, rfl, _, _, ho, fun _ _ => trivial, rfl, rfl, rfl⟩

theorem run_finishSaplingV4_ok {balance spends outputs} {o : Option SaplingBundle} :
    (finishSaplingV4 balance spends outputs).run input = .ok (o, rest) ↔
      (spends = [] ∧ outputs = [] ∧ balance = .zero ∧ o = none ∧ input = rest) ∨
      ∃ b, o = some b ∧ ¬ (b.spends = [] ∧ b.outputs = []) ∧ b.spends = spends ∧ b.outputs = outputs ∧
        b.valueBalance = balance ∧ input = b.bindingSig.val ++ rest := by
  unfold finishSaplingV4
  by_cases hempty : spends = [] ∧ outputs = []
  · obtain ⟨rfl, rfl⟩ := hempty
    simp only [and_self, if_true, run_bind_ok, run_failIf_ok, run_pure_ok, ne_eq, not_not]
    constructor
    · intro h
      obtain ⟨_, _, ⟨hz, rfl⟩, rfl, rfl⟩ := h
      exact .inl ⟨trivial, trivial, hz, rfl, rfl⟩
    · intro h
      rcases h with ⟨-, -, hz, rfl, rfl⟩ | ⟨b, -, hne, hs, ho, -⟩
      · exact ⟨(), _, ⟨hz, rfl⟩, rfl, rfl⟩
      · exact absurd ⟨hs, ho⟩ hne
  · simp only [if_neg hempty, run_bind_ok, run_array_ok, run_pure_ok]
    constructor
    · intro h
      obtain ⟨sig, _, rfl, rfl, rfl⟩ := h
      exact .inr ⟨_, rfl, hempty, rfl, rfl, rfl, rfl⟩
    · intro h
      rcases h with ⟨hs, ho, -⟩ | ⟨b, rfl, -, rfl, rfl, rfl, rfl⟩
      · exact absurd ⟨hs, ho⟩ hempty
      · exact ⟨_, _, rfl, rfl, rfl⟩

/-! ## Sapling, versions 5 and 6 -/

variable {spends : List SaplingSpend}

/-- The three passes over the spends: what was read first, the shared anchor, the proofs and the
signatures are together the spends of the bundle. -/
theorem SaplingSpend.attached {bare spends₁ spends₂ : List SaplingSpend} {anchor : FixedBytes 32}
    (hanchor : bare.map (fun s => { s with anchor := anchor }) = spends₁)
    (hproof : List.Forall₂ (fun s t => { s with zkproof := t.zkproof } = t) spends₁ spends₂)
    (hsig : List.Forall₂ (fun s t => { s with spendAuthSig := t.spendAuthSig } = t) spends₂ spends) :
    bare.map encodeV5 = spends.map encodeV5 ∧ spends₂.map zkproof = spends.map zkproof ∧
      spends.map SaplingSpend.anchor = bare.map fun _ => anchor := by
  subst hanchor
  refine ⟨?_, ?_, ?_⟩
  · calc bare.map encodeV5
        = (bare.map fun s => { s with anchor := anchor }).map encodeV5 := by simp [encodeV5]
      _ = spends₂.map encodeV5 := map_eq_of_forall₂ (fun x y h => by rw [← h]; rfl) hproof
      _ = spends.map encodeV5 := map_eq_of_forall₂ (fun x y h => by rw [← h]; rfl) hsig
  · exact map_eq_of_forall₂ (fun x y h => by rw [← h]) hsig
  · calc spends.map SaplingSpend.anchor
        = spends₂.map SaplingSpend.anchor := (map_eq_of_forall₂ (fun x y h => by rw [← h]) hsig).symm
      _ = (bare.map fun s => { s with anchor := anchor }).map SaplingSpend.anchor :=
          (map_eq_of_forall₂ (fun x y h => by rw [← h]) hproof).symm
      _ = bare.map fun _ => anchor := map_map

def SaplingSpend.bare (s : SaplingSpend) : SaplingSpend :=
  { s with anchor := zero32, zkproof := zeroProof, spendAuthSig := zero64 }

def SaplingOutput.bare (o : SaplingOutput) : SaplingOutput := { o with zkproof := zeroProof }

theorem run_attachAnchor_ok {bare : List SaplingSpend} :
    (if 0 < bare.length then do
        let anchor ← array "Sapling anchor"
        pure (bare.map fun spend => { spend with anchor })
      else pure bare : Decode (List SaplingSpend)).run input = .ok (spends, rest) ↔
      ∃ anchor : FixedBytes 32, bare.map (fun s => { s with anchor := anchor }) = spends ∧
        input = (if bare = [] then [] else anchor.val) ++ rest := by
  cases bare with
  | nil =>
    simp only [length_nil, Nat.lt_irrefl, if_false, run_pure_ok, map_nil, if_true,
      nil_append]
    exact ⟨fun h => ⟨zero32, h⟩, fun h => h.choose_spec⟩
  | cons s bare =>
    simp only [length_cons, Nat.succ_pos, if_true, run_bind_ok, run_array_ok, run_pure_ok,
      reduceCtorEq, if_false]
    constructor
    · intro h
      obtain ⟨anchor, _, rfl, rfl, rfl⟩ := h
      exact ⟨anchor, rfl, rfl⟩
    · intro h
      obtain ⟨anchor, rfl, rfl⟩ := h
      exact ⟨anchor, rest, rfl, rfl, rfl⟩

theorem run_attachSpendProofs_ok {spends' : List SaplingSpend} :
    (forEach (fun spend : SaplingSpend => do
      let zkproof ← array "Sapling spend proof"
      pure { spend with zkproof }) spends).run input = .ok (spends', rest) ↔
      List.Forall₂ (fun s t : SaplingSpend => { s with zkproof := t.zkproof } = t) spends spends' ∧
        input = spends'.flatMap (·.zkproof.val) ++ rest :=
  run_forEach_array_ok SaplingSpend.zkproof fun _ _ => rfl

theorem run_attachSpendSigs_ok {spends' : List SaplingSpend} :
    (forEach (fun spend : SaplingSpend => do
      let spendAuthSig ← array "Sapling spend signature"
      pure { spend with spendAuthSig }) spends).run input = .ok (spends', rest) ↔
      List.Forall₂ (fun s t : SaplingSpend => { s with spendAuthSig := t.spendAuthSig } = t) spends spends' ∧
        input = spends'.flatMap (·.spendAuthSig.val) ++ rest :=
  run_forEach_array_ok SaplingSpend.spendAuthSig fun _ _ => rfl

theorem run_attachOutputProofs_ok {outputs outputs' : List SaplingOutput} :
    (forEach (fun output : SaplingOutput => do
      let zkproof ← array "Sapling output proof"
      pure { output with zkproof }) outputs).run input = .ok (outputs', rest) ↔
      List.Forall₂ (fun s t : SaplingOutput => { s with zkproof := t.zkproof } = t) outputs outputs' ∧
        input = outputs'.flatMap (·.zkproof.val) ++ rest :=
  run_forEach_array_ok SaplingOutput.zkproof fun _ _ => rfl

theorem SaplingBundle.encodeAnchor_eq {b : SaplingBundle} {anchor : FixedBytes 32}
    (h : ∀ s ∈ b.spends, s.anchor = anchor) :
    b.encodeAnchor = if b.spends = [] then [] else anchor.val := by
  unfold encodeAnchor
  cases hs : b.spends with
  | nil => rfl
  | cons s spends => simp [h s (by simp [hs])]

theorem SaplingBundle.SharedAnchor.exists_anchor {b : SaplingBundle} (h : b.SharedAnchor) :
    ∃ anchor : FixedBytes 32, ∀ s ∈ b.spends, s.anchor = anchor := by
  cases hs : b.spends with
  | nil => exact ⟨zero32, by simp⟩
  | cons s spends => exact ⟨s.anchor, fun t ht => h t (by rwa [hs]) s (by simp [hs])⟩

theorem readSaplingV5_reads :
    Reads readSaplingV5 (fun o => ∀ b ∈ o, b.Valid ∧ b.SharedAnchor) SaplingBundle.encodeV5 := by
  intro input o rest
  have hspend : ∀ s : SaplingSpend, s.Bare → saplingSpendV5Size ≤ s.encodeV5.length :=
    fun s _ => s.length_encodeV5.ge
  have houtput : ∀ o : SaplingOutput, o.zkproof = zeroProof → saplingOutputV5Size ≤ o.encodeV5.length :=
    fun o _ => o.length_encodeV5.ge
  unfold readSaplingV5
  simp only [run_count_elements_ok readSpendV5_reads hspend,
    run_count_elements_ok readOutputV5_reads houtput]
  constructor
  · intro h
    obtain ⟨bare, _, hs, hbare, rfl, bareOutputs, _, ho, hbareOutputs, rfl, h⟩ := h
    split at h
    · rename_i hempty
      obtain ⟨rfl, rfl⟩ := run_pure_ok.mp h
      obtain ⟨hs, ho⟩ := hempty
      rw [length_eq_zero_iff] at hs ho
      simp [SaplingBundle.encodeV5, countedEncode, hs, ho]
    · rename_i hne
      simp only [run_bind_ok, run_readBalance_ok, run_attachAnchor_ok,
        run_attachSpendProofs_ok, run_attachSpendSigs_ok, run_attachOutputProofs_ok, run_array_ok,
        run_pure_ok] at h
      obtain ⟨balance, _, rfl, spends₁, _, ⟨anchor, h₁, rfl⟩, spends₂, _, ⟨h₂, rfl⟩, spends, _, ⟨h₃, rfl⟩,
        outputs, _, ⟨h₄, rfl⟩, sig, _, rfl, rfl, rfl⟩ := h
      obtain ⟨hspends, hproofs, hanchors⟩ := SaplingSpend.attached h₁ h₂ h₃
      have houtputs : bareOutputs.map SaplingOutput.encodeV5 = outputs.map SaplingOutput.encodeV5 :=
        map_eq_of_forall₂ (fun x y h => by rw [← h]; rfl) h₄
      have hslen : bare.length = spends.length := by simpa using congrArg List.length hspends
      have holen : bareOutputs.length = outputs.length := by simpa using congrArg List.length houtputs
      have hnil : bare = [] ↔ spends = [] := by
        rw [← length_eq_zero_iff, hslen, length_eq_zero_iff]
      have hanchor : ∀ s ∈ spends, s.anchor = anchor := by
        intro s hs
        have hmem : s.anchor ∈ spends.map SaplingSpend.anchor := mem_map_of_mem hs
        rw [hanchors] at hmem
        obtain ⟨_, -, rfl⟩ := mem_map.mp hmem
        rfl
      refine ⟨?_, ?_⟩
      · intro b hb
        cases hb
        refine ⟨⟨?_, by rw [← hslen]; exact hs, by rw [← holen]; exact ho⟩, ?_⟩
        · rw [hslen, holen] at hne
          simpa using hne
        · exact fun s hs t ht => (hanchor s hs).trans (hanchor t ht).symm
      · have hencode := SaplingBundle.encodeAnchor_eq (b := ⟨spends, outputs, balance, sig⟩) hanchor
        simp only [SaplingBundle.encodeV5, hencode, countedEncode_congr hspends,
          countedEncode_congr houtputs, flatMap_val_congr hproofs, hnil, append_assoc]
  · intro h
    obtain ⟨hvalid, rfl⟩ := h
    cases o with
    | none => exact ⟨[], _, by simp, by simp, append_assoc .., [], rest, by simp, by simp, rfl, rfl⟩
    | some b =>
      obtain ⟨⟨hne, hs, ho⟩, hshared⟩ := hvalid b rfl
      obtain ⟨anchor, hanchor⟩ := hshared.exists_anchor
      have hspends : b.spends.map SaplingSpend.encodeV5 =
          (b.spends.map SaplingSpend.bare).map SaplingSpend.encodeV5 := by
        rw [map_map]
        rfl
      have houtputs : b.outputs.map SaplingOutput.encodeV5 =
          (b.outputs.map SaplingOutput.bare).map SaplingOutput.encodeV5 := by
        rw [map_map]
        rfl
      simp only [SaplingBundle.encodeV5, SaplingBundle.encodeAnchor_eq hanchor, countedEncode_congr hspends,
        countedEncode_congr houtputs, append_assoc]
      refine ⟨b.spends.map SaplingSpend.bare, _, by simpa using hs, ?_, rfl,
        b.outputs.map SaplingOutput.bare, _, by simpa using ho, ?_, rfl, ?_⟩
      · intro s hs
        obtain ⟨t, -, rfl⟩ := mem_map.mp hs
        exact ⟨rfl, rfl, rfl⟩
      · intro o ho
        obtain ⟨t, -, rfl⟩ := mem_map.mp ho
        rfl
      · rw [if_neg (by simpa using hne)]
        simp only [run_bind_ok, run_readBalance_ok, run_attachAnchor_ok, run_attachSpendProofs_ok,
          run_attachSpendSigs_ok, run_attachOutputProofs_ok, run_array_ok, run_pure_ok]
        refine ⟨b.valueBalance, _, rfl,
          b.spends.map fun s => { s with zkproof := zeroProof, spendAuthSig := zero64 }, _,
          ⟨anchor, ?_, by simp only [map_eq_nil_iff]; rfl⟩,
          b.spends.map fun s => { s with spendAuthSig := zero64 }, _, ⟨?_, ?_⟩,
          b.spends, _, ⟨?_, rfl⟩, b.outputs, _, ⟨?_, rfl⟩, b.bindingSig, _, rfl, rfl, rfl⟩
        · rw [map_map]
          exact map_congr_left fun s hs => by simp [SaplingSpend.bare, hanchor s hs]
        · rw [List.forall₂_map_left_iff, List.forall₂_map_right_iff, List.forall₂_same]
          exact fun s _ => rfl
        · rw [flatMap_map]
        · rw [List.forall₂_map_left_iff, List.forall₂_same]
          exact fun s _ => rfl
        · rw [List.forall₂_map_left_iff, List.forall₂_same]
          exact fun o _ => rfl

/-! ## Actions -/

theorem not_flagsRejected_iff {pool flags} : ¬ flagsRejected pool flags ↔ flags.toNat < pool.flagLimit := by
  have key : ∀ n : Fin 256, ¬ flagsRejected pool (UInt8.ofNat n.val) ↔ n.val < pool.flagLimit := by
    cases pool <;> decide +kernel
  have h := key ⟨flags.toNat, flags.toNat_lt⟩
  rwa [UInt8.ofNat_toNat] at h

theorem run_attachActionSigs_ok {actions actions' : List Action} :
    (forEach (fun action : Action => do
      let spendAuthSig ← array "action spendAuthSig"
      pure { action with spendAuthSig }) actions).run input = .ok (actions', rest) ↔
      List.Forall₂ (fun s t : Action => { s with spendAuthSig := t.spendAuthSig } = t) actions actions' ∧
        input = actions'.flatMap (·.spendAuthSig.val) ++ rest :=
  run_forEach_array_ok Action.spendAuthSig fun _ _ => rfl

def Action.bare (a : Action) : Action := { a with spendAuthSig := zero64 }

theorem readActionBundle_reads (P : Protocol) (branch : BranchId) (pool : ActionPool) :
    Reads (readActionBundle P branch pool) (fun o => ∀ b ∈ o, b.Valid P branch pool) ActionBundle.encode := by
  intro input o rest
  have hsize : ∀ a : Action, a.spendAuthSig = zero64 → actionSize ≤ a.encode.length :=
    fun a _ => a.length_encode.ge
  unfold readActionBundle
  simp only [run_count_optional_ok readAction_reads hsize, run_bind_ok, run_orError_ok, run_u8_ok,
    run_failIf_ok, not_flagsRejected_iff, run_readBalance_ok, run_array_ok, run_varBytes_ok,
    run_attachActionSigs_ok, run_pure_ok]
  constructor
  · intro h
    rcases h with ⟨mid, rfl, rfl, rfl⟩ | ⟨bare, _, hne, hn, hbare, rfl, enforce, _, ⟨henforce, rfl⟩, flags, _,
      rfl, _, _, ⟨hflags, rfl⟩, balance, _, rfl, anchor, _, rfl, proof, _, ⟨hproof, rfl⟩, _, _, ⟨hlen, rfl⟩,
      actions, _, ⟨hactions, rfl⟩, sig, _, rfl, rfl, rfl⟩
    · simp [ActionBundle.encode]
    · have hencode : bare.map Action.encode = actions.map Action.encode :=
        map_eq_of_forall₂ (fun x y h => by rw [← h]; rfl) hactions
      have hlength : bare.length = actions.length := by simpa using congrArg List.length hencode
      refine ⟨?_, ?_⟩
      · intro b hb
        cases hb
        refine ⟨rfl, ?_, hlength ▸ hn, by simp [henforce], hflags, hproof, ?_⟩
        · intro hnil
          simp only at hnil
          rw [hnil] at hlength
          exact hne (length_eq_zero_iff.mp hlength)
        · intro htrue
          rw [henforce, Option.some.injEq] at htrue
          rw [hlength] at hlen
          by_contra hwrong
          exact hlen ⟨htrue, fun h => hwrong h.symm⟩
      · simp only [ActionBundle.encode, countedEncode_congr hencode, append_assoc,
          cons_append, nil_append]
  · intro h
    obtain ⟨hvalid, rfl⟩ := h
    cases o with
    | none => exact .inl ⟨rest, rfl, rfl, rfl⟩
    | some b =>
      obtain ⟨rfl, hne, hn, hactive, hflags, hproof, hlen⟩ := hvalid b rfl
      obtain ⟨enforce, henforce⟩ := Option.isSome_iff_exists.mp hactive
      have hencode : b.actions.map Action.encode = (b.actions.map Action.bare).map Action.encode := by
        rw [map_map]
        rfl
      refine .inr ⟨b.actions.map Action.bare, _, by simpa using hne, by simpa using hn, ?_, ?_, enforce, _,
        ⟨henforce, rfl⟩, b.flags, _, rfl, (), _, ⟨hflags, rfl⟩, b.valueBalance, _, rfl, b.anchor, _, rfl,
        b.proof, _, ⟨hproof, rfl⟩, (), _, ⟨?_, rfl⟩, b.actions, _, ⟨?_, rfl⟩, b.bindingSig, _, rfl, rfl, rfl⟩
      · intro a ha
        obtain ⟨c, -, rfl⟩ := mem_map.mp ha
        rfl
      · simp only [ActionBundle.encode, countedEncode_congr hencode, append_assoc,
          cons_append, nil_append]
      · intro hwrong
        rw [henforce, hwrong.1] at hlen
        exact hwrong.2 (by simpa using (hlen rfl).symm)
      · rw [List.forall₂_map_left_iff, List.forall₂_same]
        exact fun a _ => rfl

end Zakura.Wire
