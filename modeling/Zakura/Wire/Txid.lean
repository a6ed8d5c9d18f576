import Zakura.Wire.View

/-! # Transaction identifiers

The identifier of versions 1 to 4 hashes the raw encoding twice; versions 5 and 6 hash a tree of field
digests. A streaming hash is the hash of everything written to it, so each digest is given here by its
personalization and its message. -/

namespace Zakura.Wire

abbrev Personal := FixedBytes 16

/-- The hash functions the identifiers are built from: BLAKE2b with a 32-byte output, and SHA-256. -/
structure Hashes where
  blake2b : Personal → Bytes → FixedBytes 32
  sha256 : Bytes → FixedBytes 32

/-! ## Personalizations -/

namespace Personal

def txPrefix : FixedBytes 12 := ⟨asciiBytes "ZcashTxHash_", rfl⟩
def headers : Personal := ⟨asciiBytes "ZTxIdHeadersHash", rfl⟩
def transparent : Personal := ⟨asciiBytes "ZTxIdTranspaHash", rfl⟩
def prevouts : Personal := ⟨asciiBytes "ZTxIdPrevoutHash", rfl⟩
def sequence : Personal := ⟨asciiBytes "ZTxIdSequencHash", rfl⟩
def outputs : Personal := ⟨asciiBytes "ZTxIdOutputsHash", rfl⟩
def sapling : Personal := ⟨asciiBytes "ZTxIdSaplingHash", rfl⟩
def saplingSpends : Personal := ⟨asciiBytes "ZTxIdSSpendsHash", rfl⟩
def saplingSpendsCompact : Personal := ⟨asciiBytes "ZTxIdSSpendCHash", rfl⟩
def saplingSpendsNoncompactV5 : Personal := ⟨asciiBytes "ZTxIdSSpendNHash", rfl⟩
def saplingSpendsNoncompactV6 : Personal := ⟨asciiBytes "ZTxIdSSpendNH_v6", rfl⟩
def saplingOutputs : Personal := ⟨asciiBytes "ZTxIdSOutputHash", rfl⟩
def saplingOutputsCompact : Personal := ⟨asciiBytes "ZTxIdSOutC__Hash", rfl⟩
def saplingOutputsMemos : Personal := ⟨asciiBytes "ZTxIdSOutM__Hash", rfl⟩
def saplingOutputsNoncompact : Personal := ⟨asciiBytes "ZTxIdSOutN__Hash", rfl⟩

end Personal

/-- The personalizations of one Orchard-protocol bundle digest. -/
structure ActionDomain where
  bundle : Personal
  compact : Personal
  memos : Personal
  noncompact : Personal
  includesAnchor : Bool

def orchardV5 : ActionDomain where
  bundle := ⟨asciiBytes "ZTxIdOrchardHash", rfl⟩
  compact := ⟨asciiBytes "ZTxIdOrcActCHash", rfl⟩
  memos := ⟨asciiBytes "ZTxIdOrcActMHash", rfl⟩
  noncompact := ⟨asciiBytes "ZTxIdOrcActNHash", rfl⟩
  includesAnchor := true

def orchardV6 : ActionDomain where
  bundle := ⟨asciiBytes "ZTxIdOrchardH_v6", rfl⟩
  compact := ⟨asciiBytes "ZTxIdOrcActCHash", rfl⟩
  memos := ⟨asciiBytes "ZTxIdOrcActMHash", rfl⟩
  noncompact := ⟨asciiBytes "ZTxIdOrcActNHash", rfl⟩
  includesAnchor := false

def ironwoodV6 : ActionDomain where
  bundle := ⟨asciiBytes "ZTxIdIronwd_H_v6", rfl⟩
  compact := ⟨asciiBytes "ZTxIdIrnActCH_v6", rfl⟩
  memos := ⟨asciiBytes "ZTxIdIrnActMH_v6", rfl⟩
  noncompact := ⟨asciiBytes "ZTxIdIrnActNH_v6", rfl⟩
  includesAnchor := false

/-! ## Messages and digests -/

/-- One BLAKE2b call: what is hashed, and under which personalization. -/
structure HashCall where
  personal : Personal
  message : Bytes
deriving DecidableEq

/-- The digest of a call, as the bytes that are written to the next hash. -/
def Hashes.digest (H : Hashes) (call : HashCall) : Bytes := (H.blake2b call.personal call.message).val

def HashCall.empty (personal : Personal) : HashCall := ⟨personal, []⟩

/-- `write_compact_size`: script lengths are at most `MAX_COMPACT_SIZE`, so there is no nine-byte form. -/
def writeCompactSize (n : Nat) : Bytes :=
  if n < 253 then [UInt8.ofNat n]
  else if n ≤ 0xFFFF then 253 :: leBytes 2 n
  else 254 :: leBytes 4 n

variable (H : Hashes) (P : Protocol)

/-- `header_digest`; nothing when the version has no version group. -/
def headerCall (tx : Transaction) (branchId : UInt32) : Option HashCall := do
  let group ← tx.version.versionGroupId P
  pure ⟨.headers, wordBytes tx.version.header ++ wordBytes group ++ wordBytes branchId ++
    wordBytes tx.lockTime ++ wordBytes (tx.expiryHeight.getD 0)⟩

section Transparent

variable (tx : Transaction)

def prevoutsCall : HashCall :=
  ⟨.prevouts, tx.transparentInputs.flatMap fun i => i.prevoutTxid.val ++ wordBytes i.prevoutIndex⟩

def sequenceCall : HashCall := ⟨.sequence, tx.transparentInputs.flatMap fun i => wordBytes i.sequence⟩

def outputsCall : HashCall :=
  ⟨.outputs, tx.transparentOutputs.flatMap fun o =>
    o.value.toLeBytes ++ writeCompactSize o.scriptPubkey.length ++ o.scriptPubkey⟩

/-- `transparent_digest`: with neither inputs nor outputs, the hash of nothing. -/
def transparentCall : HashCall :=
  if tx.transparentInputs = [] ∧ tx.transparentOutputs = [] then .empty .transparent
  else ⟨.transparent, H.digest (prevoutsCall tx) ++ H.digest (sequenceCall tx) ++ H.digest (outputsCall tx)⟩

end Transparent

section Sapling

variable (b : SaplingBundle) (v6 : Bool)

def saplingSpendsCompactCall : HashCall := ⟨.saplingSpendsCompact, b.spends.flatMap (·.nullifier.val)⟩

def saplingSpendsNoncompactCall : HashCall :=
  ⟨if v6 then .saplingSpendsNoncompactV6 else .saplingSpendsNoncompactV5,
    b.spends.flatMap fun s => s.cv.val ++ (if v6 then [] else s.anchor.val) ++ s.rk.val⟩

def saplingSpendsCall : HashCall :=
  if b.spends = [] then .empty .saplingSpends
  else ⟨.saplingSpends, H.digest (saplingSpendsCompactCall b) ++ H.digest (saplingSpendsNoncompactCall b v6)⟩

def saplingOutputsCompactCall : HashCall :=
  ⟨.saplingOutputsCompact, b.outputs.flatMap fun o =>
    o.cmu.val ++ o.ephemeralKey.val ++ o.encCiphertext.val.take 52⟩

def saplingOutputsMemosCall : HashCall :=
  ⟨.saplingOutputsMemos, b.outputs.flatMap fun o => (o.encCiphertext.val.take 564).drop 52⟩

def saplingOutputsNoncompactCall : HashCall :=
  ⟨.saplingOutputsNoncompact, b.outputs.flatMap fun o =>
    o.cv.val ++ o.encCiphertext.val.drop 564 ++ o.outCiphertext.val⟩

def saplingOutputsCall : HashCall :=
  if b.outputs = [] then .empty .saplingOutputs
  else ⟨.saplingOutputs, H.digest (saplingOutputsCompactCall b) ++ H.digest (saplingOutputsMemosCall b) ++
    H.digest (saplingOutputsNoncompactCall b)⟩

end Sapling

/-- `sapling_digest`, and the hash of nothing for an absent bundle. -/
def saplingCall (v6 : Bool) : Option SaplingBundle → HashCall
  | none => .empty .sapling
  | some b => ⟨.sapling, H.digest (saplingSpendsCall H b v6) ++ H.digest (saplingOutputsCall H b) ++
      b.valueBalance.toLeBytes⟩

section Actions

variable (domain : ActionDomain) (b : ActionBundle)

def actionsCompactCall : HashCall :=
  ⟨domain.compact, b.actions.flatMap fun a =>
    a.nullifier.val ++ a.cmx.val ++ a.ephemeralKey.val ++ a.encCiphertext.val.take 52⟩

def actionsMemosCall : HashCall :=
  ⟨domain.memos, b.actions.flatMap fun a => (a.encCiphertext.val.take 564).drop 52⟩

def actionsNoncompactCall : HashCall :=
  ⟨domain.noncompact, b.actions.flatMap fun a =>
    a.cv.val ++ a.rk.val ++ a.encCiphertext.val.drop 564 ++ a.outCiphertext.val⟩

end Actions

/-- `action_digest`. -/
def actionCall (domain : ActionDomain) : Option ActionBundle → HashCall
  | none => .empty domain.bundle
  | some b => ⟨domain.bundle, H.digest (actionsCompactCall domain b) ++ H.digest (actionsMemosCall domain b) ++
      H.digest (actionsNoncompactCall domain b) ++ [b.flags] ++ b.valueBalance.toLeBytes ++
      (if domain.includesAnchor then b.anchor.val else [])⟩

def orchardDomain (v6 : Bool) : ActionDomain := if v6 then orchardV6 else orchardV5

def txPersonal (branchId : UInt32) : Personal :=
  ⟨Personal.txPrefix.val ++ wordBytes branchId, by simp⟩

/-- The root of the digest tree; nothing stands for the panic on a missing branch or version group. -/
def txidCall (tx : Transaction) : Option HashCall := do
  let branch ← tx.branchId
  let branchId := P.branchValue branch
  let v6 := decide (tx.version = .v6)
  let header ← headerCall P tx branchId
  pure ⟨txPersonal branchId, H.digest header ++ H.digest (transparentCall H tx) ++
    H.digest (saplingCall H v6 tx.sapling) ++ H.digest (actionCall H (orchardDomain v6) tx.orchard) ++
    (if v6 then H.digest (actionCall H ironwoodV6 tx.ironwood) else [])⟩

def txid (view : TransactionView) : Option (FixedBytes 32) :=
  if view.version.number ≤ TxVersion.v4.number then
    some (H.sha256 (H.sha256 view.raw).val)
  else do
    let call ← txidCall H P view.toTransaction
    pure (H.blake2b call.personal call.message)

end Zakura.Wire
