import Zakura.Lib.OrderedMap

/-! # Transparent events

Receives and spends of transparent outputs, their canonical order and the checks that all observations of
one transaction agree. -/

namespace Zakura.Transparent

open List

def maxMoney : Nat := 21000000 * 100000000

/-- A transaction id in serialized byte order. -/
structure Txid where
  bytes : FixedBytes 32
deriving DecidableEq

namespace Txid

def zero : Txid := ⟨.zero 32⟩

instance : Inhabited Txid := ⟨zero⟩

def toNats (t : Txid) : List Nat := t.bytes.val.map UInt8.toNat

theorem length_toNats (t : Txid) : t.toNats.length = 32 := by simp [toNats]

theorem toNats_injective : Function.Injective toNats := by
  intro a b h
  have hbytes : a.bytes.val = b.bytes.val :=
    map_injective_iff.mpr (fun _ _ h => UInt8.toNat_inj.mp h) h
  cases a
  cases b
  exact congrArg mk (Subtype.ext hbytes)

/-- Byte by byte, first byte first. -/
instance : LinearOrder Txid := LinearOrder.lift' toNats toNats_injective

/-- `to_display_hex`: the bytes reversed, in lower-case hexadecimal. -/
def toDisplayHex (t : Txid) : String :=
  let digit := fun n : Nat => (Nat.digitChar n)
  String.ofList (t.bytes.val.reverse.flatMap fun b => [digit (b.toNat / 16), digit (b.toNat % 16)])

end Txid

@[ext]
structure Outpoint where
  txid : Txid
  index : UInt32
deriving DecidableEq

namespace Outpoint

def toNats (o : Outpoint) : List Nat := o.txid.toNats ++ [o.index.toNat]

theorem toNats_injective : Function.Injective toNats := by
  intro a b h
  obtain ⟨htxid, hindex⟩ := append_inj h (by simp only [Txid.length_toNats])
  simp only [List.cons.injEq, and_true] at hindex
  exact Outpoint.ext (Txid.toNats_injective htxid) (UInt32.toNat_inj.mp hindex)

instance : LinearOrder Outpoint := LinearOrder.lift' toNats toNats_injective

end Outpoint

/-- The fee of a whole transaction. -/
inductive FeeState where
  | exact (fee : UInt64)
  | unknown
  | notApplicable
deriving DecidableEq

structure TransactionMetadata where
  fee : FeeState
  transparentInputCount : UInt32
  hasShieldedComponents : Bool
deriving DecidableEq

inductive EventError where
  | metadata (message : String)
  | length (length : Nat)
  | flags (flags : UInt8)
  | empty
  | unusedField (kind field : String)
deriving DecidableEq

/-- The text of a flags byte in an error, `{:#04x}`. -/
def hexByte (b : UInt8) : String :=
  String.ofList ['0', 'x', Nat.digitChar (b.toNat / 16), Nat.digitChar (b.toNat % 16)]

def EventError.message : EventError → String
  | .metadata message => s!"transaction metadata: {message}"
  | .length got => s!"event record is {got} bytes, expected 87"
  | .flags bits =>
    let text := hexByte bits
    s!"unknown flag bits set: {text}"
  | .empty => "an all-zero event record is not a valid event"
  | .unusedField kind field => s!"a {kind} event must not set {field}"

def TransactionMetadata.validate (metadata : TransactionMetadata) (coinbase : Bool) : Except EventError Unit :=
  let overpaid := match metadata.fee with
    | .exact fee => decide (maxMoney < fee.toNat)
    | _ => false
  if overpaid || coinbase != decide (metadata.fee = .notApplicable) ||
      coinbase && metadata.transparentInputCount != 0 then
    .error (.metadata "invalid fee or coinbase input count")
  else .ok ()

/-- An output created under a supported script. -/
structure ReceiveEvent where
  metadata : Option TransactionMetadata
  height : UInt32
  txid : Txid
  transactionIndex : UInt16
  outputIndex : UInt32
  value : UInt64
  coinbase : Bool
deriving DecidableEq

/-- An input consuming an output created under a supported script. -/
structure SpendEvent where
  metadata : Option TransactionMetadata
  height : UInt32
  spendingTxid : Txid
  transactionIndex : UInt16
  inputIndex : UInt32
  spentTxid : Txid
  spentOutputIndex : UInt32
deriving DecidableEq

inductive TransparentEvent where
  | receive (event : ReceiveEvent)
  | spend (event : SpendEvent)
deriving DecidableEq

theorem TransparentEvent.exists {p : TransparentEvent → Prop} :
    (∃ e, p e) ↔ (∃ r, p (.receive r)) ∨ ∃ s, p (.spend s) := by
  constructor
  · rintro ⟨e, h⟩
    cases e with
    | receive r => exact .inl ⟨r, h⟩
    | spend s => exact .inr ⟨s, h⟩
  · rintro (⟨r, h⟩ | ⟨s, h⟩)
    exacts [⟨_, h⟩, ⟨_, h⟩]

def ReceiveEvent.outpoint (e : ReceiveEvent) : Outpoint := ⟨e.txid, e.outputIndex⟩

def SpendEvent.spent (e : SpendEvent) : Outpoint := ⟨e.spentTxid, e.spentOutputIndex⟩

def SpendEvent.input (e : SpendEvent) : Outpoint := ⟨e.spendingTxid, e.inputIndex⟩

/-- What `sort_key` returns: height, position in the block, kind, and the event's own identity. -/
@[ext]
structure SortKey where
  height : UInt32
  transactionIndex : UInt16
  kind : UInt8
  txid : Txid
  index : UInt32
  spentTxid : Txid
  spentIndex : UInt32
deriving DecidableEq

namespace SortKey

def toNats (k : SortKey) : List Nat :=
  [k.height.toNat, k.transactionIndex.toNat, k.kind.toNat] ++ k.txid.toNats ++ [k.index.toNat] ++
    k.spentTxid.toNats ++ [k.spentIndex.toNat]

theorem toNats_injective : Function.Injective toNats := by
  intro a b h
  simp only [toNats, append_assoc, cons_append, nil_append, List.cons.injEq] at h
  obtain ⟨hheight, hposition, hkind, h⟩ := h
  obtain ⟨htxid, h⟩ := append_inj h (by simp only [Txid.length_toNats])
  obtain ⟨hindex, h⟩ := List.cons.inj h
  obtain ⟨hspent, h⟩ := append_inj h (by simp only [Txid.length_toNats])
  obtain ⟨hspentIndex, -⟩ := List.cons.inj h
  exact SortKey.ext (UInt32.toNat_inj.mp hheight) (UInt16.toNat_inj.mp hposition) (UInt8.toNat_inj.mp hkind)
    (Txid.toNats_injective htxid) (UInt32.toNat_inj.mp hindex) (Txid.toNats_injective hspent)
    (UInt32.toNat_inj.mp hspentIndex)

instance : LinearOrder SortKey := LinearOrder.lift' toNats toNats_injective

theorem height_le_of_lt {k k' : SortKey} (h : k < k') : k.height.toNat ≤ k'.height.toNat := by
  have hnats : k.toNats < k'.toNats := h
  simp only [toNats, cons_append, cons_lt_cons_iff] at hnats
  omega

end SortKey

namespace TransparentEvent

def metadata : TransparentEvent → Option TransactionMetadata
  | receive e => e.metadata
  | spend e => e.metadata

def withMetadata (metadata : Option TransactionMetadata) : TransparentEvent → TransparentEvent
  | receive e => receive { e with metadata }
  | spend e => spend { e with metadata }

def height : TransparentEvent → UInt32
  | receive e => e.height
  | spend e => e.height

def transactionIndex : TransparentEvent → UInt16
  | receive e => e.transactionIndex
  | spend e => e.transactionIndex

/-- The creating transaction of a receive, the spending one of a spend. -/
def txid : TransparentEvent → Txid
  | receive e => e.txid
  | spend e => e.spendingTxid

def coinbase : TransparentEvent → Bool
  | receive e => e.coinbase
  | spend _ => false

def sortKey : TransparentEvent → SortKey
  | receive e => ⟨e.height, e.transactionIndex, 0, e.txid, e.outputIndex, .zero, 0⟩
  | spend e =>
    ⟨e.height, e.transactionIndex, 1, e.spendingTxid, e.inputIndex, e.spentTxid, e.spentOutputIndex⟩

def validateMetadata (event : TransparentEvent) : Except EventError Unit :=
  match event.metadata with
  | none => .ok ()
  | some metadata => do
    (match event with
      | receive e =>
        if maxMoney < e.value.toNat then .error (.metadata "output value exceeds monetary bound") else .ok ()
      | spend _ => .ok ())
    metadata.validate event.coinbase
    match event with
    | receive _ => .ok ()
    | spend e =>
      if metadata.transparentInputCount.toNat ≤ e.inputIndex.toNat then
        .error (.metadata "input index exceeds complete input count")
      else .ok ()

/-- What all observations of one transaction share. -/
structure Facts where
  height : UInt32
  transactionIndex : UInt16
  metadata : Option TransactionMetadata
  coinbase : Bool
deriving DecidableEq

def facts (event : TransparentEvent) : Facts :=
  ⟨event.height, event.transactionIndex, event.metadata, event.coinbase⟩

end TransparentEvent

/-- The loop of `check_transaction_consistency`, with the facts and inputs seen so far. -/
def checkConsistencyLoop : List TransparentEvent → OrderedMap Txid TransparentEvent.Facts →
    OrderedMap Outpoint Outpoint → Except EventError Unit
  | [], _, _ => .ok ()
  | event :: events, transactions, inputs => do
    event.validateMetadata
    if transactions.disagrees event.txid event.facts then
      .error (.metadata "conflicting transaction metadata or placement")
    else
      let transactions := transactions.insert event.txid event.facts
      match event with
      | .receive _ => checkConsistencyLoop events transactions inputs
      | .spend spend =>
        if inputs.disagrees spend.input spend.spent then
          .error (.metadata "conflicting transaction input identity")
        else checkConsistencyLoop events transactions (inputs.insert spend.input spend.spent)

def checkTransactionConsistency (events : List TransparentEvent) : Except EventError Unit :=
  checkConsistencyLoop events ∅ ∅

end Zakura.Transparent
