import Zakura.Wire.Protocol
import Zakura.Wire.Reader

/-! # The transaction parser

The transaction's fields and the functions that read them, for versions 1 to 6. -/

namespace Zakura.Wire

/-! ## Sizes and flags -/

def grothProofSize : Nat := 192
def phgrProofSize : Nat := 296
def encCiphertextSize : Nat := 580
def outCiphertextSize : Nat := 80
def sproutCiphertextSize : Nat := 601

def outpointSize : Nat := 36
/-- The previous output, an empty script's length and the sequence number. -/
def minTxInSize : Nat := outpointSize + 1 + 4
def minTxOutSize : Nat := 8 + 1
def joinsplitFixedSize : Nat := 8 + 8 + 32 + 2 * 32 + 2 * 32 + 32 + 32 + 2 * 32
def joinsplitCiphertextsSize : Nat := 2 * sproutCiphertextSize
def saplingSpendV4Size : Nat := 32 * 4 + grothProofSize + 64
def saplingOutputV4Size : Nat := 32 * 3 + encCiphertextSize + outCiphertextSize + grothProofSize
def saplingSpendV5Size : Nat := 32 * 3
def saplingOutputV5Size : Nat := 32 * 3 + encCiphertextSize + outCiphertextSize
def actionSize : Nat := 32 * 5 + encCiphertextSize + outCiphertextSize

def actionProofBaseSize : Nat := 2720
def actionProofPerActionSize : Nat := 2272

def flagCrossAddressEnabled : UInt8 := 0b00000100
def flagsAlwaysUnset : UInt8 := 0b11111000

/-! ## Versions -/

inductive TxVersion where
  | v1 | v2 | v3 | v4 | v5 | v6
deriving DecidableEq, Repr

namespace TxVersion

/-- The transaction version number; versions are ordered by it. -/
def number : TxVersion → UInt32
  | v1 => 1
  | v2 => 2
  | v3 => 3
  | v4 => 4
  | v5 => 5
  | v6 => 6

/-- The four-byte header: the version number with the overwintered bit for v3 and later. -/
def header (v : TxVersion) : UInt32 :=
  match v with
  | v1 | v2 => v.number
  | _ => v.number ||| ((1 : UInt32) <<< (31 : UInt32))

/-- The version group, for overwintered versions. -/
def versionGroupId (P : Protocol) : TxVersion → Option UInt32
  | v1 | v2 => none
  | v3 => some P.v3VersionGroupId
  | v4 => some P.v4VersionGroupId
  | v5 => some P.v5VersionGroupId
  | v6 => some P.v6VersionGroupId

def hasSprout : TxVersion → Bool
  | v2 | v3 | v4 => true
  | _ => false

/-- `has_legacy_txid`: `self <= V4`. -/
def hasLegacyTxid (v : TxVersion) : Bool := v.number ≤ v4.number

def validInBranch : TxVersion → BranchId → Bool
  | v5, .sprout | v5, .overwinter | v5, .sapling | v5, .blossom | v5, .heartwood | v5, .canopy => false
  | v5, _ => true
  | v6, .nu6_3 | v6, .nu7 => true
  | v6, _ => false
  -- Earlier versions carry no branch.
  | _, _ => true

end TxVersion

/-! ## Fields -/

structure TransparentInput where
  prevoutTxid : FixedBytes 32
  prevoutIndex : UInt32
  scriptSig : Bytes
  sequence : UInt32
deriving DecidableEq

structure TransparentOutput where
  value : Zatoshis
  scriptPubkey : Bytes
deriving DecidableEq

structure JoinSplit where
  vpubOld : Zatoshis
  vpubNew : Zatoshis
  anchor : FixedBytes 32
  nullifiers : FixedBytes 32 × FixedBytes 32
  commitments : FixedBytes 32 × FixedBytes 32
  ephemeralKey : FixedBytes 32
  randomSeed : FixedBytes 32
  macs : FixedBytes 32 × FixedBytes 32
  proof : Bytes
  ciphertexts : FixedBytes sproutCiphertextSize × FixedBytes sproutCiphertextSize
deriving DecidableEq

/-- The JoinSplits of a v2, v3 or v4 transaction. -/
structure SproutBundle where
  joinsplits : List JoinSplit
  joinsplitPubkey : FixedBytes 32
  joinsplitSig : FixedBytes 64
deriving DecidableEq

structure SaplingSpend where
  cv : FixedBytes 32
  anchor : FixedBytes 32
  nullifier : FixedBytes 32
  rk : FixedBytes 32
  zkproof : FixedBytes grothProofSize
  spendAuthSig : FixedBytes 64
deriving DecidableEq

structure SaplingOutput where
  cv : FixedBytes 32
  cmu : FixedBytes 32
  ephemeralKey : FixedBytes 32
  encCiphertext : FixedBytes encCiphertextSize
  outCiphertext : FixedBytes outCiphertextSize
  zkproof : FixedBytes grothProofSize
deriving DecidableEq

structure SaplingBundle where
  spends : List SaplingSpend
  outputs : List SaplingOutput
  valueBalance : ZatBalance
  bindingSig : FixedBytes 64
deriving DecidableEq

/-- The pool an action bundle belongs to. -/
inductive ActionPool where
  | orchard | ironwood
deriving DecidableEq, Repr

def ActionPool.name : ActionPool → String
  | orchard => "Orchard"
  | ironwood => "Ironwood"

structure Action where
  cv : FixedBytes 32
  nullifier : FixedBytes 32
  rk : FixedBytes 32
  cmx : FixedBytes 32
  ephemeralKey : FixedBytes 32
  encCiphertext : FixedBytes encCiphertextSize
  outCiphertext : FixedBytes outCiphertextSize
  spendAuthSig : FixedBytes 64
deriving DecidableEq

structure ActionBundle where
  pool : ActionPool
  actions : List Action
  flags : UInt8
  valueBalance : ZatBalance
  anchor : FixedBytes 32
  proof : Bytes
  bindingSig : FixedBytes 64
deriving DecidableEq

structure Transaction where
  version : TxVersion
  branchId : Option BranchId
  lockTime : UInt32
  expiryHeight : Option UInt32
  transparentInputs : List TransparentInput
  transparentOutputs : List TransparentOutput
  sprout : Option SproutBundle
  sapling : Option SaplingBundle
  orchard : Option ActionBundle
  ironwood : Option ActionBundle
deriving DecidableEq

/-- A parsed transaction: its fields and the exact bytes of its encoding. -/
structure TransactionView extends Transaction where
  raw : Bytes
deriving DecidableEq

/-! ## Reading -/

open Reader

def readVersion (P : Protocol) : Decode TxVersion := do
  let header ← u32Le "header"
  let overwintered := header >>> 31 == 1
  let number := header &&& 0x7FFFFFFF
  if !overwintered then
    if number = 1 then pure .v1
    else if number = 2 then pure .v2
    else fail (.unsupportedVersion header none)
  else
    let group ← u32Le "version group ID"
    if (number, group) = (TxVersion.v3.number, P.v3VersionGroupId) then pure .v3
    else if (number, group) = (TxVersion.v4.number, P.v4VersionGroupId) then pure .v4
    else if (number, group) = (TxVersion.v5.number, P.v5VersionGroupId) then pure .v5
    else if (number, group) = (TxVersion.v6.number, P.v6VersionGroupId) then pure .v6
    else fail (.unsupportedVersion header (some group))

def readBalance (field : String) : Decode ZatBalance := do
  let bytes ← leBytes8 field
  orError (.valueOutOfRange field) (ZatBalance.fromI64LeBytes bytes)

def readVpub (field : String) : Decode Zatoshis := do
  let bytes ← leBytes8 field
  orError (.valueOutOfRange field) (Zatoshis.fromU64LeBytes bytes)

/-- The element reader of `read_transparent`'s inputs. -/
def readTransparentInput : Decode TransparentInput := do
  let prevoutTxid ← array "prevout txid"
  let prevoutIndex ← u32Le "prevout index"
  let scriptSig ← varBytes "scriptSig"
  let sequence ← u32Le "sequence"
  pure { prevoutTxid, prevoutIndex, scriptSig, sequence }

/-- The element reader of `read_transparent`'s outputs. -/
def readTransparentOutput : Decode TransparentOutput := do
  let bytes ← leBytes8 "output value"
  let value ← orError (.valueOutOfRange "transparent output value")
    (Zatoshis.fromNonnegativeI64LeBytes bytes)
  let scriptPubkey ← varBytes "scriptPubKey"
  pure { value, scriptPubkey }

def readJoinsplit (proofSize : Nat) : Decode JoinSplit := do
  let vpubOld ← readVpub "vpub_old"
  let vpubNew ← readVpub "vpub_new"
  let anchor ← array "JoinSplit anchor"
  let nullifier₁ ← array "JoinSplit nullifier"
  let nullifier₂ ← array "JoinSplit nullifier"
  let commitment₁ ← array "JoinSplit commitment"
  let commitment₂ ← array "JoinSplit commitment"
  let ephemeralKey ← array "JoinSplit ephemeral key"
  let randomSeed ← array "JoinSplit random seed"
  let mac₁ ← array "JoinSplit MAC"
  let mac₂ ← array "JoinSplit MAC"
  let proof ← take proofSize "JoinSplit proof"
  let ciphertext₁ ← array "JoinSplit ciphertext"
  let ciphertext₂ ← array "JoinSplit ciphertext"
  pure {
    vpubOld, vpubNew, anchor, nullifiers := (nullifier₁, nullifier₂)
    commitments := (commitment₁, commitment₂), ephemeralKey, randomSeed, macs := (mac₁, mac₂)
    proof := proof.val, ciphertexts := (ciphertext₁, ciphertext₂) }

def readSpendV4 : Decode SaplingSpend := do
  let cv ← array "Sapling spend cv"
  let anchor ← array "Sapling spend anchor"
  let nullifier ← array "Sapling spend nullifier"
  let rk ← array "Sapling spend rk"
  let zkproof ← array "Sapling spend proof"
  let spendAuthSig ← array "Sapling spend signature"
  pure { cv, anchor, nullifier, rk, zkproof, spendAuthSig }

/-- `read_output`: v4 outputs carry their proof inline, v5 and v6 outputs get it from a later array. -/
def readOutput (proof : Option (FixedBytes grothProofSize)) : Decode SaplingOutput := do
  let cv ← array "Sapling output cv"
  let cmu ← array "Sapling output cmu"
  let ephemeralKey ← array "Sapling output ephemeral key"
  let encCiphertext ← array "Sapling output enc_ciphertext"
  let outCiphertext ← array "Sapling output out_ciphertext"
  let zkproof ← (match proof with
    | some p => pure p
    | none => array "Sapling output proof")
  pure { cv, cmu, ephemeralKey, encCiphertext, outCiphertext, zkproof }

def zeroProof : FixedBytes grothProofSize := .zero _
def zero32 : FixedBytes 32 := .zero _
def zero64 : FixedBytes 64 := .zero _

/-- The element reader of `read_sapling_v5`'s spends: proofs, signatures and the anchor come later. -/
def readSpendV5 : Decode SaplingSpend := do
  let cv ← array "Sapling spend cv"
  let nullifier ← array "Sapling spend nullifier"
  let rk ← array "Sapling spend rk"
  pure { cv, nullifier, rk, anchor := zero32, zkproof := zeroProof, spendAuthSig := zero64 }

def readSaplingV5 : Decode (Option SaplingBundle) := do
  let nSpends ← count "Sapling spends" saplingSpendV5Size
  let spends ← elements nSpends readSpendV5
  let nOutputs ← count "Sapling outputs" saplingOutputV5Size
  let outputs ← elements nOutputs (readOutput (some zeroProof))
  if nSpends = 0 ∧ nOutputs = 0 then
    pure none
  else
    let valueBalance ← readBalance "Sapling value balance"
    -- The spends share one anchor, which is absent when there are none.
    let spends ← (if 0 < nSpends then do
        let anchor ← array "Sapling anchor"
        pure (spends.map fun spend => { spend with anchor })
      else pure spends)
    let spends ← forEach (fun spend => do
      let zkproof ← array "Sapling spend proof"
      pure { spend with zkproof }) spends
    let spends ← forEach (fun spend => do
      let spendAuthSig ← array "Sapling spend signature"
      pure { spend with spendAuthSig }) spends
    let outputs ← forEach (fun output => do
      let zkproof ← array "Sapling output proof"
      pure { output with zkproof }) outputs
    let bindingSig ← array "Sapling bindingSig"
    pure (some { spends, outputs, valueBalance, bindingSig })

/-- The element reader of `read_action_bundle`'s actions: signatures come later. -/
def readAction : Decode Action := do
  let cv ← array "action cv"
  let nullifier ← array "action nullifier"
  let rk ← array "action rk"
  let cmx ← array "action cmx"
  let ephemeralKey ← array "action ephemeral key"
  let encCiphertext ← array "action enc_ciphertext"
  let outCiphertext ← array "action out_ciphertext"
  pure { cv, nullifier, rk, cmx, ephemeralKey, encCiphertext, outCiphertext, spendAuthSig := zero64 }

/-- Whether the proof's length is enforced, or nothing when the pool is not active. -/
def enforceProofSize : ActionPool → Option OrchardProtocolRevision → Option Bool
  | _, none => none
  | .ironwood, some .insecureV1 => none
  | .ironwood, some .v2 => none
  | .orchard, some .insecureV1 => some false
  | _, some _ => some true

/-- The flag rule of a pool: reserved bits are zero, and cross-address transfer is Ironwood's alone. -/
def flagsRejected (pool : ActionPool) (flags : UInt8) : Prop :=
  flags &&& flagsAlwaysUnset ≠ 0 ∨ (flags &&& flagCrossAddressEnabled ≠ 0 ∧ ¬ pool = .ironwood)

instance (pool : ActionPool) (flags : UInt8) : Decidable (flagsRejected pool flags) :=
  inferInstanceAs (Decidable (_ ∨ _))

def readActionBundle (P : Protocol) (branch : BranchId) (pool : ActionPool) :
    Decode (Option ActionBundle) := do
  let n ← count "actions" actionSize
  if n = 0 then
    pure none
  else
    let actions ← elements n readAction
    let enforce ← orError (.poolNotActive pool.name)
      (enforceProofSize pool (P.orchardProtocolRevision branch))
    let flags ← u8 "flags"
    failIf (flagsRejected pool flags) (.invalidFlags pool.name flags)
    let valueBalance ← readBalance (match pool with
      | .orchard => "Orchard value balance"
      | .ironwood => "Ironwood value balance")
    let anchor ← array "anchor"
    let proof ← varBytes "proof"
    let expected := n * actionProofPerActionSize + actionProofBaseSize
    failIf (enforce = true ∧ expected ≠ proof.length)
      (.invalidProofLength pool.name expected proof.length)
    let actions ← forEach (fun action => do
      let spendAuthSig ← array "action spendAuthSig"
      pure { action with spendAuthSig }) actions
    let bindingSig ← array "bindingSig"
    pure (some { pool, actions, flags, valueBalance, anchor, proof, bindingSig })

/-- The fields before reading: only the version is known. -/
def Transaction.start (version : TxVersion) : Transaction where
  version
  branchId := none
  lockTime := 0
  expiryHeight := none
  transparentInputs := []
  transparentOutputs := []
  sprout := none
  sapling := none
  orchard := none
  ironwood := none

def Transaction.readTransparent (tx : Transaction) : Decode Transaction := do
  let n ← count "transparent inputs" minTxInSize
  let transparentInputs ← elements n readTransparentInput
  let n ← count "transparent outputs" minTxOutSize
  let transparentOutputs ← elements n readTransparentOutput
  pure { tx with transparentInputs, transparentOutputs }

/-- The Sapling part of a v4 transaction before its JoinSplits. -/
def readSaplingV4 : Decode (ZatBalance × List SaplingSpend × List SaplingOutput) := do
  let balance ← readBalance "Sapling value balance"
  let n ← count "Sapling spends" saplingSpendV4Size
  let spends ← elements n readSpendV4
  let n ← count "Sapling outputs" saplingOutputV4Size
  let outputs ← elements n (readOutput none)
  pure (balance, spends, outputs)

/-- The JoinSplits of a v2, v3 or v4 transaction. -/
def readSprout (version : TxVersion) : Decode (Option SproutBundle) := do
  let proofSize := if version = .v4 then grothProofSize else phgrProofSize
  let n ← count "JoinSplits" (joinsplitFixedSize + proofSize + joinsplitCiphertextsSize)
  if 0 < n then
    let joinsplits ← elements n (readJoinsplit proofSize)
    let joinsplitPubkey ← array "joinSplitPubKey"
    let joinsplitSig ← array "joinSplitSig"
    pure (some { joinsplits, joinsplitPubkey, joinsplitSig })
  else
    pure none

/-- The end of a v4 transaction: a bundle without descriptions must have a zero balance, any other is
followed by its binding signature. -/
def finishSaplingV4 (balance : ZatBalance) (spends : List SaplingSpend) (outputs : List SaplingOutput) :
    Decode (Option SaplingBundle) := do
  if spends = [] ∧ outputs = [] then
    failIf (balance ≠ .zero) .nonZeroBalanceWithoutDescriptions
    pure none
  else
    let bindingSig ← array "Sapling bindingSig"
    pure (some { spends, outputs, valueBalance := balance, bindingSig })

def Transaction.readV1ToV4 (tx : Transaction) : Decode Transaction := do
  let version := tx.version
  let tx ← tx.readTransparent
  let lockTime ← u32Le "lock_time"
  let expiryHeight ← (if TxVersion.v3.number ≤ version.number then do
      let height ← u32Le "expiry_height"
      pure (some height)
    else pure tx.expiryHeight)
  let saplingParts ← (if version = .v4 then do
      let parts ← readSaplingV4
      pure (some parts)
    else pure none)
  let sprout ← (if version.hasSprout then readSprout version else pure tx.sprout)
  let sapling ← (match saplingParts with
    | some (balance, spends, outputs) => finishSaplingV4 balance spends outputs
    | none => pure tx.sapling)
  pure { tx with lockTime, expiryHeight, sprout, sapling }

def Transaction.readV5V6 (P : Protocol) (tx : Transaction) : Decode Transaction := do
  let rawBranch ← u32Le "consensus branch ID"
  let branch ← orError (.unknownBranchId rawBranch) (P.branchOf rawBranch)
  failIf (tx.version.validInBranch branch = false)
    (.versionNotValidInBranch tx.version.number rawBranch)
  let lockTime ← u32Le "lock_time"
  let expiryHeight ← u32Le "expiry_height"
  let tx ← Transaction.readTransparent
    { tx with branchId := some branch, lockTime, expiryHeight := some expiryHeight }
  let sapling ← readSaplingV5
  let orchard ← readActionBundle P branch .orchard
  let ironwood ← (if tx.version = .v6 then readActionBundle P branch .ironwood else pure tx.ironwood)
  pure { tx with sapling, orchard, ironwood }

def TransactionView.read (P : Protocol) (input : Bytes) : Decode TransactionView := do
  let version ← readVersion P
  let tx := Transaction.start version
  let tx ← (if version.hasLegacyTxid then tx.readV1ToV4 else tx.readV5V6 P)
  let remaining ← remaining
  pure { tx with raw := input.take (input.length - remaining) }

/-- `parse_prefix`: one transaction from the start of the input, and the bytes that follow it. -/
def TransactionView.parsePrefix (P : Protocol) (input : Bytes) :
    Except DecodeError (TransactionView × Bytes) :=
  (TransactionView.read P input).run input

end Zakura.Wire
