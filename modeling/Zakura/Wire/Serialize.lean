import Zakura.Wire.View

/-! # The transaction format

Which transactions are structurally valid, and the canonical encoding of each: the format the parser is
compared with. It is stated apart from the parser, but for two tables of the protocol's rules that both
read: the versions of a branch (`validInBranch`), and where the length of a proof is fixed
(`enforceProofSize`). -/

namespace Zakura.Wire

/-! ## Transparent parts -/

def TransparentInput.Valid (i : TransparentInput) : Prop := i.scriptSig.length ≤ maxCompactSize

def TransparentInput.encode (i : TransparentInput) : Bytes :=
  i.prevoutTxid.val ++ wordBytes i.prevoutIndex ++ varBytesEncode i.scriptSig ++ wordBytes i.sequence

def TransparentOutput.Valid (o : TransparentOutput) : Prop := o.scriptPubkey.length ≤ maxCompactSize

def TransparentOutput.encode (o : TransparentOutput) : Bytes :=
  o.value.toLeBytes ++ varBytesEncode o.scriptPubkey

/-! ## Sprout -/

/-- The proof size of a version's JoinSplits: Groth16 in v4, PHGR13 before. -/
def TxVersion.joinsplitProofSize (v : TxVersion) : Nat := if v = .v4 then grothProofSize else phgrProofSize

def JoinSplit.Valid (v : TxVersion) (j : JoinSplit) : Prop := j.proof.length = v.joinsplitProofSize

def JoinSplit.encode (j : JoinSplit) : Bytes :=
  j.vpubOld.toLeBytes ++ j.vpubNew.toLeBytes ++ j.anchor.val ++ j.nullifiers.1.val ++ j.nullifiers.2.val ++
    j.commitments.1.val ++ j.commitments.2.val ++ j.ephemeralKey.val ++ j.randomSeed.val ++
    j.macs.1.val ++ j.macs.2.val ++ j.proof ++ j.ciphertexts.1.val ++ j.ciphertexts.2.val

structure SproutBundle.Valid (v : TxVersion) (b : SproutBundle) : Prop where
  nonempty : b.joinsplits ≠ []
  count : b.joinsplits.length ≤ maxCompactSize
  joinsplits : ∀ j ∈ b.joinsplits, j.Valid v

/-- The JoinSplits with their key and signature; an absent bundle is a zero count. -/
def SproutBundle.encode : Option SproutBundle → Bytes
  | none => compactSizeBytes 0
  | some b => countedEncode JoinSplit.encode b.joinsplits ++ b.joinsplitPubkey.val ++ b.joinsplitSig.val

/-! ## Sapling -/

def SaplingSpend.encodeV4 (s : SaplingSpend) : Bytes :=
  s.cv.val ++ s.anchor.val ++ s.nullifier.val ++ s.rk.val ++ s.zkproof.val ++ s.spendAuthSig.val

def SaplingOutput.encodeV4 (o : SaplingOutput) : Bytes :=
  o.cv.val ++ o.cmu.val ++ o.ephemeralKey.val ++ o.encCiphertext.val ++ o.outCiphertext.val ++ o.zkproof.val

def SaplingSpend.encodeV5 (s : SaplingSpend) : Bytes := s.cv.val ++ s.nullifier.val ++ s.rk.val

def SaplingOutput.encodeV5 (o : SaplingOutput) : Bytes :=
  o.cv.val ++ o.cmu.val ++ o.ephemeralKey.val ++ o.encCiphertext.val ++ o.outCiphertext.val

structure SaplingBundle.Valid (b : SaplingBundle) : Prop where
  nonempty : ¬ (b.spends = [] ∧ b.outputs = [])
  spends_count : b.spends.length ≤ maxCompactSize
  outputs_count : b.outputs.length ≤ maxCompactSize

/-- From v5 on the spends of a bundle share one anchor. -/
def SaplingBundle.SharedAnchor (b : SaplingBundle) : Prop :=
  ∀ s ∈ b.spends, ∀ t ∈ b.spends, s.anchor = t.anchor

/-- The v4 bundle up to the JoinSplits; an absent bundle is a zero balance and two zero counts. -/
def SaplingBundle.encodeV4 : Option SaplingBundle → Bytes
  | none => ZatBalance.zero.toLeBytes ++ compactSizeBytes 0 ++ compactSizeBytes 0
  | some b => b.valueBalance.toLeBytes ++ countedEncode SaplingSpend.encodeV4 b.spends ++
      countedEncode SaplingOutput.encodeV4 b.outputs

/-- The binding signature that ends a v4 transaction with a Sapling bundle. -/
def SaplingBundle.encodeBindingSig : Option SaplingBundle → Bytes
  | none => []
  | some b => b.bindingSig.val

/-- The anchor the spends share, absent when there are none. -/
def SaplingBundle.encodeAnchor (b : SaplingBundle) : Bytes :=
  match b.spends with
  | [] => []
  | s :: _ => s.anchor.val

/-- The v5 and v6 bundle; an absent bundle is two zero counts. -/
def SaplingBundle.encodeV5 : Option SaplingBundle → Bytes
  | none => compactSizeBytes 0 ++ compactSizeBytes 0
  | some b => countedEncode SaplingSpend.encodeV5 b.spends ++ countedEncode SaplingOutput.encodeV5 b.outputs ++
      b.valueBalance.toLeBytes ++ b.encodeAnchor ++ b.spends.flatMap (·.zkproof.val) ++
      b.spends.flatMap (·.spendAuthSig.val) ++ b.outputs.flatMap (·.zkproof.val) ++ b.bindingSig.val

/-! ## Orchard and Ironwood -/

def Action.encode (a : Action) : Bytes :=
  a.cv.val ++ a.nullifier.val ++ a.rk.val ++ a.cmx.val ++ a.ephemeralKey.val ++ a.encCiphertext.val ++
    a.outCiphertext.val

/-- The bound on a pool's flag byte: Orchard uses the two lowest bits, Ironwood the three lowest. -/
def ActionPool.flagLimit : ActionPool → Nat
  | orchard => 4
  | ironwood => 8

/-- A bundle of a pool under a branch: the pool is active, the flag byte uses only the pool's bits, and
the proof has the canonical length unless the branch predates that rule. -/
structure ActionBundle.Valid (P : Protocol) (branch : BranchId) (pool : ActionPool) (b : ActionBundle) :
    Prop where
  pool_eq : b.pool = pool
  nonempty : b.actions ≠ []
  count : b.actions.length ≤ maxCompactSize
  active : (enforceProofSize pool (P.orchardProtocolRevision branch)).isSome
  flags : b.flags.toNat < pool.flagLimit
  proof_count : b.proof.length ≤ maxCompactSize
  proof_length : enforceProofSize pool (P.orchardProtocolRevision branch) = some true →
    b.proof.length = b.actions.length * actionProofPerActionSize + actionProofBaseSize

/-- The actions, their flags, balance, anchor and proof, then the signatures; an absent bundle is a zero
count. -/
def ActionBundle.encode : Option ActionBundle → Bytes
  | none => compactSizeBytes 0
  | some b => countedEncode Action.encode b.actions ++ [b.flags] ++ b.valueBalance.toLeBytes ++
      b.anchor.val ++ varBytesEncode b.proof ++ b.actions.flatMap (·.spendAuthSig.val) ++ b.bindingSig.val

/-! ## Transactions -/

namespace Transaction

/-- The structurally valid transactions of versions 1 to 6. -/
structure Valid (P : Protocol) (tx : Transaction) : Prop where
  inputs_count : tx.transparentInputs.length ≤ maxCompactSize
  inputs : ∀ i ∈ tx.transparentInputs, i.Valid
  outputs_count : tx.transparentOutputs.length ≤ maxCompactSize
  outputs : ∀ o ∈ tx.transparentOutputs, o.Valid
  expiry : tx.expiryHeight.isSome ↔ tx.version ≠ .v1 ∧ tx.version ≠ .v2
  branch : tx.branchId.isSome ↔ tx.version = .v5 ∨ tx.version = .v6
  branch_valid : ∀ branch ∈ tx.branchId, tx.version.validInBranch branch
  sprout : ∀ b ∈ tx.sprout, tx.version.hasSprout ∧ b.Valid tx.version
  sapling : ∀ b ∈ tx.sapling, b.Valid ∧
    (tx.version = .v4 ∨ (tx.version = .v5 ∨ tx.version = .v6) ∧ b.SharedAnchor)
  orchard : ∀ b ∈ tx.orchard, ∃ branch ∈ tx.branchId, b.Valid P branch .orchard
  ironwood : ∀ b ∈ tx.ironwood, tx.version = .v6 ∧ ∃ branch ∈ tx.branchId, b.Valid P branch .ironwood

def encodeHeader (P : Protocol) (v : TxVersion) : Bytes :=
  wordBytes v.header ++ (v.versionGroupId P).elim [] wordBytes

def encodeTransparent (tx : Transaction) : Bytes :=
  countedEncode TransparentInput.encode tx.transparentInputs ++
    countedEncode TransparentOutput.encode tx.transparentOutputs

def encodeV1ToV4 (tx : Transaction) : Bytes :=
  tx.encodeTransparent ++ wordBytes tx.lockTime ++ tx.expiryHeight.elim [] wordBytes ++
    (if tx.version = .v4 then SaplingBundle.encodeV4 tx.sapling else []) ++
    (if tx.version.hasSprout then SproutBundle.encode tx.sprout else []) ++
    SaplingBundle.encodeBindingSig tx.sapling

def encodeV5V6 (P : Protocol) (tx : Transaction) : Bytes :=
  tx.branchId.elim [] (fun branch => wordBytes (P.branchValue branch)) ++ wordBytes tx.lockTime ++
    tx.expiryHeight.elim [] wordBytes ++ tx.encodeTransparent ++ SaplingBundle.encodeV5 tx.sapling ++
    ActionBundle.encode tx.orchard ++ (if tx.version = .v6 then ActionBundle.encode tx.ironwood else [])

def encode (P : Protocol) (tx : Transaction) : Bytes :=
  encodeHeader P tx.version ++ if tx.version.hasLegacyTxid then tx.encodeV1ToV4 else tx.encodeV5V6 P

end Transaction

end Zakura.Wire
