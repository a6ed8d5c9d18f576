import Zakura.Ledger.Basic
import Zakura.Lib.Except

/-! # What a checked batch satisfies -/

namespace Zakura.Ledger

open List Transparent OrderedMap

def FactsAgree (events : Set TransparentEvent) : Prop :=
  ∀ e ∈ events, ∀ e' ∈ events, e.txid = e'.txid → e.facts = e'.facts

def factItems (events : List TransparentEvent) : List (Txid × TransparentEvent.Facts) :=
  events.map fun event => (event.txid, event.facts)

def inputItems (events : List TransparentEvent) : List (Outpoint × Outpoint) :=
  events.filterMap fun
    | .receive _ => none
    | .spend spend => some (spend.input, spend.spent)

variable {events : List TransparentEvent}

theorem checkConsistencyLoop_ok_iff {transactions : OrderedMap Txid TransparentEvent.Facts}
    {inputs : OrderedMap Outpoint Outpoint} :
    checkConsistencyLoop events transactions inputs = .ok () ↔
      (∀ e ∈ events, e.validateMetadata = .ok ()) ∧ Fits transactions (factItems events) ∧
        Fits inputs (inputItems events) := by
  induction events generalizing transactions inputs with
  | nil => simp [checkConsistencyLoop, factItems, inputItems, fits_nil]
  | cons event events ih =>
    have hfacts : factItems (event :: events) = (event.txid, event.facts) :: factItems events := rfl
    rw [checkConsistencyLoop, Except.check_bind_eq_ok, hfacts, fits_cons, forall_mem_cons]
    cases transactions.disagrees event.txid event.facts with
    | true => simp
    | false =>
      cases event with
      | receive receive =>
        have hinputs : inputItems (.receive receive :: events) = inputItems events := rfl
        simp only [Bool.false_eq_true, if_false, ih, hinputs]
        tauto
      | spend spend =>
        have hinputs : inputItems (.spend spend :: events) = (spend.input, spend.spent) :: inputItems events := rfl
        rw [hinputs, fits_cons]
        simp only [Bool.false_eq_true, if_false]
        cases inputs.disagrees spend.input spend.spent with
        | true => simp
        | false =>
          simp only [Bool.false_eq_true, if_false, ih]
          tauto

theorem checkTransactionConsistency_ok_iff :
    checkTransactionConsistency events = .ok () ↔
      (∀ e ∈ events, e.validateMetadata = .ok ()) ∧ Fits ∅ (factItems events) ∧ Fits ∅ (inputItems events) :=
  checkConsistencyLoop_ok_iff

theorem checkTransactionConsistency_subset {events' : List TransparentEvent}
    (h : checkTransactionConsistency events = .ok ()) (hsub : ∀ e ∈ events', e ∈ events) :
    checkTransactionConsistency events' = .ok () := by
  rw [checkTransactionConsistency_ok_iff] at h ⊢
  obtain ⟨hvalid, hfacts, hinputs⟩ := h
  refine ⟨fun e he => hvalid e (hsub e he), hfacts.subset ?_, hinputs.subset ?_⟩
  · intro x hx
    obtain ⟨e, he, rfl⟩ := mem_map.mp hx
    exact mem_map_of_mem (hsub e he)
  · intro x hx
    obtain ⟨e, he, hspend⟩ := mem_filterMap.mp hx
    exact mem_filterMap.mpr ⟨e, hsub e he, hspend⟩

theorem checkTransactionConsistency_facts (h : checkTransactionConsistency events = .ok ()) :
    FactsAgree { e | e ∈ events } := by
  obtain ⟨-, hfacts, -⟩ := checkTransactionConsistency_ok_iff.mp h
  intro e he e' he'
  exact hfacts.agree _ (mem_map_of_mem he) _ (mem_map_of_mem he')

/-! ## Identities -/

/-- The entries that receive an output, by the output. -/
def receiveItems (entries : List Entry) : List (Outpoint × Entry) :=
  entries.filterMap fun
    | (script, .receive receive) => some (receive.outpoint, (script, .receive receive))
    | (_, .spend _) => none

/-- The entries that spend an output, by the output. -/
def spendItems (entries : List Entry) : List (Outpoint × Entry) :=
  entries.filterMap fun
    | (_, .receive _) => none
    | (script, .spend spend) => some (spend.spent, (script, .spend spend))

variable {entries : List Entry}

theorem mem_receiveItems {o : Outpoint} {entry : Entry} :
    (o, entry) ∈ receiveItems entries ↔
      ∃ script receive, entry = (script, .receive receive) ∧ receive.outpoint = o ∧ entry ∈ entries := by
  simp only [receiveItems, mem_filterMap, Prod.exists, TransparentEvent.exists]
  grind

theorem mem_spendItems {o : Outpoint} {entry : Entry} :
    (o, entry) ∈ spendItems entries ↔
      ∃ script spend, entry = (script, .spend spend) ∧ spend.spent = o ∧ entry ∈ entries := by
  simp only [spendItems, mem_filterMap, Prod.exists, TransparentEvent.exists]
  grind

theorem checkIdentitiesLoop_ok_iff {receives spends : OrderedMap Outpoint Entry} :
    checkIdentitiesLoop entries receives spends = .ok () ↔
      Fits receives (receiveItems entries) ∧ Fits spends (spendItems entries) := by
  induction entries generalizing receives spends with
  | nil => simp [checkIdentitiesLoop, receiveItems, spendItems, fits_nil]
  | cons entry entries ih =>
    obtain ⟨script, event⟩ := entry
    cases event with
    | receive receive =>
      have hreceives : receiveItems ((script, .receive receive) :: entries) =
          (receive.outpoint, (script, .receive receive)) :: receiveItems entries := rfl
      have hspends : spendItems ((script, .receive receive) :: entries) = spendItems entries := rfl
      rw [checkIdentitiesLoop, hreceives, hspends, fits_cons]
      cases receives.disagrees receive.outpoint (script, .receive receive) <;> simp [ih]
    | spend spend =>
      have hreceives : receiveItems ((script, .spend spend) :: entries) = receiveItems entries := rfl
      have hspends : spendItems ((script, .spend spend) :: entries) =
          (spend.spent, (script, .spend spend)) :: spendItems entries := rfl
      rw [checkIdentitiesLoop, hreceives, hspends, fits_cons]
      cases spends.disagrees spend.spent (script, .spend spend) <;> simp [ih]

abbrev SpendEntry := Bytes × SpendEvent

def spendEntries : List Entry → List SpendEntry
  | [] => []
  | (_, .receive _) :: entries => spendEntries entries
  | (script, .spend spend) :: entries => (script, spend) :: spendEntries entries

theorem mem_spendEntries {script : Bytes} {spend : SpendEvent} :
    (script, spend) ∈ spendEntries entries ↔ (script, .spend spend) ∈ entries := by
  induction entries with
  | nil => simp [spendEntries]
  | cons entry entries ih =>
    obtain ⟨s, event⟩ := entry
    cases event <;> simp [spendEntries, ih]

def SpendsAgree (spends : Set SpendEntry) : Prop :=
  ∀ x ∈ spends, ∀ y ∈ spends, x.2.spent = y.2.spent → x = y

def ReceivesAgree (entries : Set Entry) : Prop :=
  ∀ s r s' r', (s, .receive r) ∈ entries → (s', .receive r') ∈ entries → r.outpoint = r'.outpoint →
    ((s, .receive r) : Entry) = (s', .receive r')

theorem checkEventIdentities_ok_iff :
    checkEventIdentities entries = .ok () ↔
      ReceivesAgree { x | x ∈ entries } ∧ SpendsAgree { x | x ∈ spendEntries entries } := by
  rw [checkEventIdentities, checkIdentitiesLoop_ok_iff]
  constructor
  · intro h
    obtain ⟨hreceives, hspends⟩ := h
    refine ⟨?_, ?_⟩
    · intro s r s' r' hr hr' hout
      exact hreceives.agree (r.outpoint, (s, .receive r)) (mem_receiveItems.mpr ⟨s, r, rfl, rfl, hr⟩)
        (r'.outpoint, (s', .receive r')) (mem_receiveItems.mpr ⟨s', r', rfl, rfl, hr'⟩) hout
    · intro x hx y hy hspent
      have hsame := hspends.agree (x.2.spent, (x.1, .spend x.2))
        (mem_spendItems.mpr ⟨x.1, x.2, rfl, rfl, mem_spendEntries.mp hx⟩) (y.2.spent, (y.1, .spend y.2))
        (mem_spendItems.mpr ⟨y.1, y.2, rfl, rfl, mem_spendEntries.mp hy⟩) hspent
      simp only [Prod.mk.injEq, TransparentEvent.spend.injEq] at hsame
      exact Prod.ext hsame.1 hsame.2
  · intro h
    obtain ⟨hreceives, hspends⟩ := h
    refine ⟨⟨by simp, ?_⟩, ⟨by simp, ?_⟩⟩
    · intro x hx y hy hout
      obtain ⟨s, r, hxe, hxo, hxm⟩ := mem_receiveItems.mp hx
      obtain ⟨s', r', hye, hyo, hym⟩ := mem_receiveItems.mp hy
      rw [hxe] at hxm ⊢
      rw [hye] at hym ⊢
      exact hreceives s r s' r' hxm hym (hxo.trans (hout.trans hyo.symm))
    · intro x hx y hy hout
      obtain ⟨s, e, hxe, hxo, hxm⟩ := mem_spendItems.mp hx
      obtain ⟨s', e', hye, hyo, hym⟩ := mem_spendItems.mp hy
      rw [hxe] at hxm ⊢
      rw [hye] at hym ⊢
      have hsame := hspends (s, e) (mem_spendEntries.mpr hxm) (s', e') (mem_spendEntries.mpr hym)
        (hxo.trans (hout.trans hyo.symm))
      rw [Prod.mk.injEq] at hsame
      rw [hsame.1, hsame.2]

/-! ## A batch -/

def openEntries (ledger : Ledger) : List Entry := ledger.unresolved.map fun held => (held.script, .spend held.event)

theorem checkBatch_ok_iff {ledger : Ledger} :
    ledger.checkBatch entries = .ok () ↔
      checkTransactionConsistency (ledger.observations.vals ++ entries.map Prod.snd) = .ok () ∧
        checkEventIdentities (openEntries ledger ++ entries) = .ok () ∧ ledger.checkValueTotals entries = .ok () := by
  simp only [checkBatch, Except.check_bind_eq_ok, Except.mapError_eq_ok, openEntries]

theorem checkBatch_ok {ledger : Ledger} (h : ledger.checkBatch entries = .ok ()) :
    FactsAgree { e | e ∈ ledger.observations.vals ++ entries.map Prod.snd } ∧
      SpendsAgree { x | x ∈ ledger.unresolved.map (fun u => (u.script, u.event)) ++ spendEntries entries } ∧
      ReceivesAgree { x | x ∈ entries } := by
  obtain ⟨hfacts, hidentities, -⟩ := checkBatch_ok_iff.mp h
  obtain ⟨hreceives, hspends⟩ := checkEventIdentities_ok_iff.mp hidentities
  refine ⟨checkTransactionConsistency_facts hfacts, ?_, ?_⟩
  · have hmem : ∀ x ∈ ledger.unresolved.map (fun u => (u.script, u.event)) ++ spendEntries entries,
        x ∈ spendEntries (openEntries ledger ++ entries) := by
      intro x hx
      refine mem_spendEntries.mpr (mem_append.mpr ?_)
      rcases mem_append.mp hx with hx | hx
      · obtain ⟨u, hu, rfl⟩ := mem_map.mp hx
        exact .inl (mem_map_of_mem hu)
      · exact .inr (mem_spendEntries.mp hx)
    exact fun x hx y hy => hspends x (hmem x hx) y (hmem y hy)
  · intro s r s' r' hr hr'
    exact hreceives s r s' r' (mem_append_right _ hr) (mem_append_right _ hr')

end Zakura.Ledger
