import Zakura.Transparent.Event
import Mathlib.Data.Prod.Lex

/-! # The wallet's ledger

Events are replayed into unspent outputs, confirmed spends and spends whose output was never seen. An
operation that fails reports its error together with the ledger as it stands. -/

namespace Zakura.Ledger

open Transparent

/-- An output the wallet controls. -/
@[ext]
structure Utxo where
  txid : Txid
  outputIndex : UInt32
  value : UInt64
  script : Bytes
  creationHeight : UInt32
  coinbase : Bool
deriving DecidableEq

def Utxo.ofReceive (script : Bytes) (event : ReceiveEvent) : Utxo :=
  ⟨event.txid, event.outputIndex, event.value, script, event.height, event.coinbase⟩

structure ConfirmedSpend where
  inputIndex : UInt32
  spentTxid : Txid
  spentOutputIndex : UInt32
  spendingTxid : Txid
  height : UInt32
  value : UInt64
  script : Bytes
deriving DecidableEq

namespace ConfirmedSpend

def spent (s : ConfirmedSpend) : Outpoint := ⟨s.spentTxid, s.spentOutputIndex⟩

def ofSpend (event : SpendEvent) (utxo : Utxo) : ConfirmedSpend :=
  ⟨event.inputIndex, event.spentTxid, event.spentOutputIndex, event.spendingTxid, event.height, utxo.value,
    utxo.script⟩

end ConfirmedSpend

/-- A spend whose consumed output the ledger never saw. -/
structure UnresolvedSpend where
  event : SpendEvent
  script : Bytes
deriving DecidableEq

inductive LedgerError where
  | valueOverflow
  | metadata (error : EventError)
  | conflictingReceive (txid : String) (index : UInt32)
  | doubleSpend (txid : String) (index : UInt32)
deriving DecidableEq

abbrev Entry := Bytes × TransparentEvent

/-! ## Checks on a batch -/

/-- The loop of `check_event_identities`, with the receives and spends seen so far. -/
def checkIdentitiesLoop : List Entry → OrderedMap Outpoint Entry → OrderedMap Outpoint Entry →
    Except LedgerError Unit
  | [], _, _ => .ok ()
  | (script, event) :: entries, receives, spends =>
    match event with
    | .receive receive =>
      if receives.disagrees receive.outpoint (script, event) then
        .error (.conflictingReceive receive.txid.toDisplayHex receive.outputIndex)
      else checkIdentitiesLoop entries (receives.insert receive.outpoint (script, event)) spends
    | .spend spend =>
      if spends.disagrees spend.spent (script, event) then
        .error (.doubleSpend spend.spentTxid.toDisplayHex spend.spentOutputIndex)
      else checkIdentitiesLoop entries receives (spends.insert spend.spent (script, event))

def checkEventIdentities (entries : List Entry) : Except LedgerError Unit := checkIdentitiesLoop entries ∅ ∅

/-- `checked_add` of 64-bit amounts. -/
def checkedAdd (a b : Nat) : Except LedgerError Nat :=
  if a + b < 2 ^ 64 then .ok (a + b) else .error .valueOverflow

/-- The balance after every event in chain order: the outputs created and not yet consumed. -/
def checkRunning : List TransparentEvent → OrderedMap Outpoint Nat → Nat → Except LedgerError Unit
  | [], _, _ => .ok ()
  | .receive event :: events, unspent, running =>
    let known := unspent[event.outpoint]?
    let unspent := unspent.insert event.outpoint event.value.toNat
    if known.isNone then do
      let running ← checkedAdd running event.value.toNat
      checkRunning events unspent running
    else checkRunning events unspent running
  | .spend event :: events, unspent, running =>
    match unspent[event.spent]? with
    | some value => checkRunning events (unspent.erase event.spent) (running - value)
    | none => checkRunning events unspent running

/-- The totals of each transaction and of the outputs that stay unspent. -/
def checkTotals (spends : OrderedMap Outpoint Txid) : List (Outpoint × Nat) → OrderedMap Txid Nat →
    OrderedMap Txid Nat → Nat → Except LedgerError Unit
  | [], _, _, _ => .ok ()
  | (outpoint, value) :: receives, received, spent, balance => do
    let total ← checkedAdd (received[outpoint.txid]?.getD 0) value
    let received := received.insert outpoint.txid total
    match spends[outpoint]? with
    | some txid =>
      let total ← checkedAdd (spent[txid]?.getD 0) value
      checkTotals spends receives received (spent.insert txid total) balance
    | none =>
      let balance ← checkedAdd balance value
      checkTotals spends receives received spent balance

end Zakura.Ledger

namespace Zakura

open Transparent Ledger

structure Ledger where
  observations : OrderedMap SortKey TransparentEvent
  utxos : OrderedMap Outpoint Utxo
  /-- Every recovered receive, also after it is spent. -/
  receives : OrderedMap Outpoint Utxo
  spends : List ConfirmedSpend
  /-- Where in `spends` an output was consumed. -/
  spentIndex : OrderedMap Outpoint Nat
  unresolved : List UnresolvedSpend

namespace Ledger

def new : Ledger := ⟨∅, ∅, ∅, [], ∅, []⟩

def checkValueTotals (ledger : Ledger) (entries : List Entry) : Except LedgerError Unit := do
  let events := entries.map Prod.snd
  let receives := events.foldl (fun m event => match event with
    | .receive e => m.insert e.outpoint e.value.toNat
    | .spend _ => m) (ledger.receives.map fun _ utxo => utxo.value.toNat)
  let known := ledger.spends.map (fun s => (s.spent, s.spendingTxid)) ++
    ledger.unresolved.map fun u => (u.event.spent, u.event.spendingTxid)
  let spends := events.foldl (fun m event => match event with
    | .receive _ => m
    | .spend e => m.insert e.spent e.spendingTxid)
    (known.foldl (fun m (spent, txid) => m.insert spent txid) (∅ : OrderedMap Outpoint Txid))
  let ordered := events.foldl (fun m event => m.insert event.sortKey event) ledger.observations
  checkRunning (OrderedMap.vals ordered) ∅ 0
  checkTotals spends receives.toList ∅ ∅ 0

/-! ## Applying events -/

def applyReceive (ledger : Ledger) (script : Bytes) (event : ReceiveEvent) : Except LedgerError Ledger :=
  let utxo := Utxo.ofReceive script event
  let key := event.outpoint
  match ledger.receives[key]? with
  | some existing =>
    if existing ≠ utxo then .error (.conflictingReceive event.txid.toDisplayHex event.outputIndex)
    else .ok ledger
  | none =>
    .ok { ledger with receives := ledger.receives.insert key utxo, utxos := ledger.utxos.insert key utxo }

def applySpend (ledger : Ledger) (script : Bytes) (event : SpendEvent) : Except LedgerError Ledger :=
  let key := event.spent
  match ledger.spentIndex[key]?.bind fun index => ledger.spends[index]? with
  | some existing =>
    if existing.spendingTxid ≠ event.spendingTxid ∨ existing.inputIndex ≠ event.inputIndex ∨
        existing.height ≠ event.height then
      .error (.doubleSpend event.spentTxid.toDisplayHex event.spentOutputIndex)
    else .ok ledger
  | none =>
    match ledger.receives[key]? with
    | some utxo =>
      .ok { ledger with
        utxos := ledger.utxos.erase key
        spentIndex := ledger.spentIndex.insert key ledger.spends.length
        spends := ledger.spends ++ [.ofSpend event utxo] }
    | none =>
      let unresolved : UnresolvedSpend := ⟨event, script⟩
      if unresolved ∈ ledger.unresolved then .ok ledger
      else .ok { ledger with unresolved := ledger.unresolved ++ [unresolved] }

def apply (ledger : Ledger) (script : Bytes) (event : TransparentEvent) : Except LedgerError Ledger :=
  match event with
  | .receive receive => ledger.applyReceive script receive
  | .spend spend => ledger.applySpend script spend

def observe (ledger : Ledger) (event : TransparentEvent) : Ledger :=
  { ledger with observations := ledger.observations.insert event.sortKey event }

/-- The loop of `replay` over a sorted batch. -/
def applyAll : List Entry → Ledger → Except LedgerError Unit × Ledger
  | [], ledger => (.ok (), ledger)
  | (script, event) :: entries, ledger =>
    match ledger.apply script event with
    | .error error => (.error error, ledger)
    | .ok applied => applyAll entries (applied.observe event)

/-- The checks `replay` makes before it applies anything. -/
def checkBatch (ledger : Ledger) (entries : List Entry) : Except LedgerError Unit := do
  (checkTransactionConsistency (ledger.observations.vals ++ entries.map Prod.snd)).mapError .metadata
  checkEventIdentities (ledger.unresolved.map (fun held => (held.script, .spend held.event)) ++ entries)
  ledger.checkValueTotals entries

/-- `replay`: the batch in the canonical order. -/
def replay (ledger : Ledger) (entries : List Entry) : Except LedgerError Unit × Ledger :=
  match ledger.checkBatch entries with
  | .error error => (.error error, ledger)
  | .ok () => applyAll (entries.insertionSort fun a b => a.2.sortKey ≤ b.2.sortKey) ledger

/-- The loop of `resolve_unresolved` over the spends that were pending. -/
def resolveLoop : List UnresolvedSpend → Ledger → Except LedgerError Unit × Ledger
  | [], ledger => (.ok (), ledger)
  | unresolved :: pending, ledger =>
    if unresolved.event.spent ∈ ledger.receives then
      match ledger.applySpend unresolved.script unresolved.event with
      | .error error => (.error error, ledger)
      | .ok applied => resolveLoop pending applied
    else resolveLoop pending { ledger with unresolved := ledger.unresolved ++ [unresolved] }

def resolveUnresolved (ledger : Ledger) : Except LedgerError Unit × Ledger :=
  resolveLoop ledger.unresolved { ledger with unresolved := [] }

/-- `extend`: a later batch, and then another try at every unresolved spend. -/
def extend (ledger : Ledger) (entries : List Entry) : Except LedgerError Unit × Ledger :=
  match ledger.replay entries with
  | (.error error, ledger) => (.error error, ledger)
  | (.ok (), ledger) => ledger.resolveUnresolved

/-- `truncate_above`: nothing above the height is left. -/
def truncateAbove (ledger : Ledger) (height : Nat) : Ledger :=
  let observations := ledger.observations.filter fun _ event => event.height.toNat ≤ height
  let receives := ledger.receives.filter fun _ utxo => utxo.creationHeight.toNat ≤ height
  let utxos := ledger.utxos.filter fun key _ => key ∈ receives
  let spends := ledger.spends.filter fun spend => spend.height.toNat ≤ height
  let spentIndex := spends.zipIdx.foldl (fun m (spend, index) => m.insert spend.spent index)
    (∅ : OrderedMap Outpoint Nat)
  -- An output whose spend was above the cut is unspent again.
  let utxos := receives.toList.foldl (fun m (key, utxo) =>
    if key ∈ spentIndex ∨ key ∈ m then m else m.insert key utxo) utxos
  let unresolved := ledger.unresolved.filter fun u => u.event.height.toNat ≤ height
  ⟨observations, utxos, receives, spends, spentIndex, unresolved⟩

/-! ## What the ledger reports -/

def confirmedBalance (ledger : Ledger) : Nat := (ledger.utxos.vals.map fun utxo => utxo.value.toNat).sum

end Ledger

namespace Ledger

structure TransactionSummary where
  txid : Txid
  height : Nat
  received : Nat
  spent : Nat
  metadata : Option TransactionMetadata
  ownedInputCount : Nat
  unresolvedInputCount : Nat
deriving DecidableEq

namespace TransactionSummary

def start (txid : Txid) (height : UInt32) : TransactionSummary := ⟨txid, height.toNat, 0, 0, none, 0, 0⟩

def addReceive (utxo : Utxo) (s : TransactionSummary) : TransactionSummary :=
  { s with received := s.received + utxo.value.toNat, height := min s.height utxo.creationHeight.toNat }

def addSpend (spend : ConfirmedSpend) (s : TransactionSummary) : TransactionSummary :=
  { s with spent := s.spent + spend.value.toNat, height := min s.height spend.height.toNat }

end TransactionSummary

/-- The loop of `history` over the observations: metadata, and every input once. -/
def summarizeInputs (confirmed : Outpoint → Bool) : List TransparentEvent → List Outpoint →
    OrderedMap Txid TransactionSummary → OrderedMap Txid TransactionSummary
  | [], _, byTxid => byTxid
  | event :: events, inputIds, byTxid =>
    let start := TransactionSummary.start event.txid event.height
    match event with
    | .receive _ =>
      summarizeInputs confirmed events inputIds
        (byTxid.upsert event.txid start fun s => { s with metadata := event.metadata })
    | .spend spend =>
      if spend.input ∈ inputIds then
        summarizeInputs confirmed events inputIds
          (byTxid.upsert event.txid start fun s => { s with metadata := event.metadata })
      else
        let missing := if confirmed spend.spent then 0 else 1
        summarizeInputs confirmed events (spend.input :: inputIds)
          (byTxid.upsert event.txid start fun s =>
            { s with
              metadata := event.metadata
              ownedInputCount := s.ownedInputCount + 1
              unresolvedInputCount := s.unresolvedInputCount + missing })

/-- `history`: one entry for each transaction, ascending by height and then transaction id. -/
def history (ledger : Ledger) : List TransactionSummary :=
  let byTxid := ledger.receives.vals.foldl (fun m utxo =>
    OrderedMap.upsert m utxo.txid (.start utxo.txid utxo.creationHeight) (.addReceive utxo))
    (∅ : OrderedMap Txid TransactionSummary)
  let byTxid := ledger.spends.foldl (fun m spend =>
    OrderedMap.upsert m spend.spendingTxid (.start spend.spendingTxid spend.height) (.addSpend spend)) byTxid
  let byTxid := summarizeInputs (fun o => o ∈ ledger.spentIndex) ledger.observations.vals [] byTxid
  byTxid.vals.insertionSort fun a b => toLex (a.height, a.txid) ≤ toLex (b.height, b.txid)

/-- Calls of `extend`, one for each batch, up to the first that fails. -/
def extendAll (ledger : Ledger) : List (List Entry) → Except LedgerError Unit × Ledger
  | [] => (.ok (), ledger)
  | entries :: batches =>
    match ledger.extend entries with
    | (.error error, ledger) => (.error error, ledger)
    | (.ok (), ledger) => extendAll ledger batches

inductive Call where
  | replay (entries : List Entry)
  | extend (entries : List Entry)
  | truncateAbove (height : UInt32)

def call (ledger : Ledger) : Call → Except LedgerError Unit × Ledger
  | .replay entries => ledger.replay entries
  | .extend entries => ledger.extend entries
  | .truncateAbove height => (.ok (), ledger.truncateAbove height.toNat)

/-- Calls, up to the first that fails. -/
def callAll (ledger : Ledger) : List Call → Except LedgerError Unit × Ledger
  | [] => (.ok (), ledger)
  | next :: calls =>
    match ledger.call next with
    | (.error error, ledger) => (.error error, ledger)
    | (.ok (), ledger) => callAll ledger calls

end Ledger

end Zakura
