import Zakura.Wire.Txid

/-! # Effecting data

What a transaction does, without what authorizes it: no script signature, proof or signature, and from
version 6 on no anchor. -/

namespace Zakura.Wire

structure SpendEffects where
  cv : FixedBytes 32
  nullifier : FixedBytes 32
  rk : FixedBytes 32
  anchor : Option (FixedBytes 32)

structure OutputEffects where
  cv : FixedBytes 32
  cmu : FixedBytes 32
  ephemeralKey : FixedBytes 32
  encCiphertext : FixedBytes encCiphertextSize
  outCiphertext : FixedBytes outCiphertextSize

structure SaplingEffects where
  spends : List SpendEffects
  outputs : List OutputEffects
  valueBalance : ZatBalance

structure ActionEffects where
  cv : FixedBytes 32
  nullifier : FixedBytes 32
  rk : FixedBytes 32
  cmx : FixedBytes 32
  ephemeralKey : FixedBytes 32
  encCiphertext : FixedBytes encCiphertextSize
  outCiphertext : FixedBytes outCiphertextSize

structure ActionBundleEffects where
  actions : List ActionEffects
  flags : UInt8
  valueBalance : ZatBalance
  anchor : Option (FixedBytes 32)

structure Effects where
  version : TxVersion
  branchId : Option BranchId
  lockTime : UInt32
  expiryHeight : Option UInt32
  prevouts : List (FixedBytes 32 × UInt32)
  sequences : List UInt32
  outputs : List TransparentOutput
  sapling : Option SaplingEffects
  orchard : Option ActionBundleEffects
  ironwood : Option ActionBundleEffects

def TransparentInput.prevout (i : TransparentInput) : FixedBytes 32 × UInt32 := (i.prevoutTxid, i.prevoutIndex)

def SaplingSpend.effects (v6 : Bool) (s : SaplingSpend) : SpendEffects where
  cv := s.cv
  nullifier := s.nullifier
  rk := s.rk
  anchor := if v6 then none else some s.anchor

def SaplingOutput.effects (o : SaplingOutput) : OutputEffects where
  cv := o.cv
  cmu := o.cmu
  ephemeralKey := o.ephemeralKey
  encCiphertext := o.encCiphertext
  outCiphertext := o.outCiphertext

def SaplingBundle.effects (v6 : Bool) (b : SaplingBundle) : SaplingEffects where
  spends := b.spends.map (·.effects v6)
  outputs := b.outputs.map (·.effects)
  valueBalance := b.valueBalance

def Action.effects (a : Action) : ActionEffects where
  cv := a.cv
  nullifier := a.nullifier
  rk := a.rk
  cmx := a.cmx
  ephemeralKey := a.ephemeralKey
  encCiphertext := a.encCiphertext
  outCiphertext := a.outCiphertext

def ActionBundle.effects (v6 : Bool) (b : ActionBundle) : ActionBundleEffects where
  actions := b.actions.map (·.effects)
  flags := b.flags
  valueBalance := b.valueBalance
  anchor := if v6 then none else some b.anchor

/-- The effecting data of a v5 or v6 transaction. -/
def Transaction.effects (tx : Transaction) : Effects :=
  let v6 := decide (tx.version = .v6)
  { version := tx.version
    branchId := tx.branchId
    lockTime := tx.lockTime
    expiryHeight := tx.expiryHeight
    prevouts := tx.transparentInputs.map (·.prevout)
    sequences := tx.transparentInputs.map (·.sequence)
    outputs := tx.transparentOutputs
    sapling := tx.sapling.map (·.effects v6)
    orchard := tx.orchard.map (·.effects v6)
    ironwood := tx.ironwood.map (·.effects v6) }

/-! ## The calls of one identifier -/

variable (H : Hashes) (P : Protocol)

def transparentCalls (tx : Transaction) : List HashCall :=
  transparentCall H tx :: if tx.transparentInputs = [] ∧ tx.transparentOutputs = [] then []
    else [prevoutsCall tx, sequenceCall tx, outputsCall tx]

def saplingCalls (v6 : Bool) (o : Option SaplingBundle) : List HashCall :=
  saplingCall H v6 o :: match o with
    | none => []
    | some b => saplingSpendsCall H b v6 :: saplingOutputsCall H b ::
        ((if b.spends = [] then [] else [saplingSpendsCompactCall b, saplingSpendsNoncompactCall b v6]) ++
          if b.outputs = [] then []
          else [saplingOutputsCompactCall b, saplingOutputsMemosCall b, saplingOutputsNoncompactCall b])

def actionCalls (domain : ActionDomain) (o : Option ActionBundle) : List HashCall :=
  actionCall H domain o :: match o with
    | none => []
    | some b => [actionsCompactCall domain b, actionsMemosCall domain b, actionsNoncompactCall domain b]

/-- Every BLAKE2b call that the identifier of a v5 or v6 transaction makes. -/
def txidCalls (tx : Transaction) : List HashCall :=
  let v6 := decide (tx.version = .v6)
  (txidCall H P tx).toList ++
    (tx.branchId.bind fun branch => headerCall P tx (P.branchValue branch)).toList ++
    transparentCalls H tx ++ saplingCalls H v6 tx.sapling ++ actionCalls H (orchardDomain v6) tx.orchard ++
    if v6 then actionCalls H ironwoodV6 tx.ironwood else []

def InjectiveOn (calls calls' : List HashCall) : Prop :=
  ∀ c ∈ calls, ∀ c' ∈ calls', c.personal = c'.personal → H.digest c = H.digest c' → c.message = c'.message

/-- BLAKE2b as ideal hash on the calls of two identifiers. Each personalized instance is injective on the
messages it is given; the two roots, which differ in personalization when the branches differ, do not
collide across instances. -/
structure CollisionFree (tx tx' : Transaction) : Prop where
  injective : InjectiveOn H (txidCalls H P tx) (txidCalls H P tx')
  separated : ∀ c ∈ txidCall H P tx, ∀ c' ∈ txidCall H P tx', H.digest c = H.digest c' →
    c.personal = c'.personal

end Zakura.Wire
