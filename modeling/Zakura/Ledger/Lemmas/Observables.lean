import Zakura.Ledger.Lemmas.Sums

/-! # What a ledger shows of the entries it represents -/

namespace Zakura.Ledger

open Transparent OrderedMap
open Std.ExtTreeMap (ext_getElem? getElem?_map toList_map)

variable {seen : Set Entry} {a b : Ledger}

namespace Represents

variable (ha : Represents seen a) (hb : Represents seen b)

include ha hb in
theorem receives_eq : a.receives = b.receives := by
  refine ext_getElem? fun o => Option.ext fun u => ?_
  rw [ha.holds.receives, hb.holds.receives]

include ha hb in
theorem observations_eq : a.observations = b.observations := by
  refine ext_getElem? fun k => Option.ext fun e => ?_
  rw [ha.observed, hb.observed]

theorem mem_spends (h : Represents seen a) {c : ConfirmedSpend} :
    c ∈ a.spends ↔ ∃ s e u, (s, .spend e) ∈ seen ∧ a.receives[e.spent]? = some u ∧ c = .ofSpend e u := by
  refine ⟨h.holds.confirmed c, fun hc => ?_⟩
  obtain ⟨s, e, u, hseen, hu, rfl⟩ := hc
  rcases h.holds.recorded s e hseen with hspent | hopen | hdue
  · obtain ⟨d, hd, hde⟩ := h.holds.mem_spentIndex.mp hspent
    obtain ⟨s', e', u', -, hu', rfl⟩ := h.holds.confirmed d hd
    have hagrees := h.holds.agrees s e hseen _ hd hde
    have hsame : e'.spent = e.spent := hde
    rw [hsame, hu, Option.some.injEq] at hu'
    have heq : ConfirmedSpend.ofSpend e' u' = ConfirmedSpend.ofSpend e u := by
      obtain ⟨hspending, hinput, hheight⟩ := hagrees
      have htxid := congrArg Outpoint.txid hsame
      have hindex := congrArg Outpoint.index hsame
      simp only [ConfirmedSpend.ofSpend, SpendEvent.spent] at hspending hinput hheight htxid hindex ⊢
      rw [hspending, hinput, hheight, htxid, hindex, hu']
    rwa [← heq]
  · exact absurd (mem_of_getElem? hu) (h.resolved _ hopen)
  · simp at hdue

theorem mem_unresolved (h : Represents seen a) {u : UnresolvedSpend} :
    u ∈ a.unresolved ↔ (u.script, .spend u.event) ∈ seen ∧ u.event.spent ∉ a.receives := by
  refine ⟨fun hu => ⟨h.holds.unresolved u hu, h.resolved u hu⟩, fun hu => ?_⟩
  rcases h.holds.recorded _ _ hu.1 with hspent | hopen | hdue
  · obtain ⟨utxo, hutxo⟩ := h.holds.receives_of_spent hspent
    exact absurd (mem_of_getElem? hutxo) hu.2
  · exact hopen
  · simp at hdue

include ha hb in
theorem mem_spends_iff (c : ConfirmedSpend) : c ∈ a.spends ↔ c ∈ b.spends := by
  rw [ha.mem_spends, hb.mem_spends, ha.receives_eq hb]

include ha hb in
theorem spends_perm : a.spends.Perm b.spends :=
  (List.perm_ext_iff_of_nodup (List.Nodup.of_map _ ha.holds.index.nodup)
    (List.Nodup.of_map _ hb.holds.index.nodup)).mpr (ha.mem_spends_iff hb)

include ha hb in
theorem mem_spentIndex_iff (o : Outpoint) : o ∈ a.spentIndex ↔ o ∈ b.spentIndex := by
  simp only [ha.holds.mem_spentIndex, hb.holds.mem_spentIndex, ha.mem_spends_iff hb]

include ha hb in
theorem utxos_eq : a.utxos = b.utxos := by
  refine ext_getElem? fun o => ?_
  rw [ha.holds.utxos, hb.holds.utxos, ha.receives_eq hb]
  simp only [ha.mem_spentIndex_iff hb]

include ha hb in
theorem history_eq : a.history = b.history := by
  have hconfirmed : (fun o => decide (o ∈ a.spentIndex)) = fun o => decide (o ∈ b.spentIndex) := by
    funext o
    simp only [ha.mem_spentIndex_iff hb]
  have hspends : ∀ byTxid : OrderedMap Txid TransactionSummary,
      a.spends.foldl (fun m c => OrderedMap.upsert m c.spendingTxid (.start c.spendingTxid c.height) (.addSpend c))
          byTxid =
        b.spends.foldl (fun m c => OrderedMap.upsert m c.spendingTxid (.start c.spendingTxid c.height) (.addSpend c))
          byTxid := by
    intro byTxid
    refine (ha.spends_perm hb).foldl_eq' (fun c _ d _ m => OrderedMap.upsert_comm m fun htxid => ⟨fun s => ?_, ?_⟩) _
    · simp only [TransactionSummary.addSpend, Nat.add_right_comm, min_right_comm]
    · simp only [TransactionSummary.addSpend, TransactionSummary.start, htxid, Nat.min_self, Nat.zero_add,
        Nat.add_comm, Nat.min_comm]
  simp only [history, ha.receives_eq hb, ha.observations_eq hb, hconfirmed, hspends]

end Represents

/-! ## Totals -/

theorem tally_summarizeInputs {f : TransactionSummary → Nat} (hstart : ∀ txid height, f (.start txid height) = 0)
    (hcounts : ∀ (s : TransactionSummary) metadata ownedInputCount unresolvedInputCount,
      f { s with metadata, ownedInputCount, unresolvedInputCount } = f s)
    (confirmed : Outpoint → Bool) (events : List TransparentEvent) (inputIds : List Outpoint)
    (byTxid : OrderedMap Txid TransactionSummary) (t : Txid) :
    tally f (summarizeInputs confirmed events inputIds byTxid) t = tally f byTxid t := by
  induction events generalizing inputIds byTxid with
  | nil => rfl
  | cons event events ih =>
    have hsame : ∀ (change : TransactionSummary → TransactionSummary), (∀ s, f (change s) = f s) →
        tally f (byTxid.upsert event.txid (.start event.txid event.height) change) t = tally f byTxid t := by
      intro change hchange
      rw [tally_upsert (hstart _ _) fun s => (hchange s).trans (Nat.add_zero _).symm, ite_self, Nat.add_zero]
    cases event with
    | receive receive =>
      rw [summarizeInputs, ih]
      exact hsame _ fun s => hcounts s _ _ _
    | spend spend =>
      rw [summarizeInputs]
      by_cases hknown : spend.input ∈ inputIds
      · rw [if_pos hknown, ih]
        exact hsame _ fun s => hcounts s _ _ _
      · rw [if_neg hknown, ih]
        exact hsame _ fun s => hcounts s _ _ _

theorem tally_receives (f : TransactionSummary → Nat) (n : Utxo → Nat)
    (hstart : ∀ txid height, f (.start txid height) = 0) (hadd : ∀ u s, f (.addReceive u s) = f s + n u)
    (utxos : List Utxo) (byTxid : OrderedMap Txid TransactionSummary) (t : Txid) :
    tally f (utxos.foldl (fun m utxo =>
        OrderedMap.upsert m utxo.txid (.start utxo.txid utxo.creationHeight) (.addReceive utxo)) byTxid) t =
      tally f byTxid t + ((utxos.filter fun u => u.txid = t).map n).sum :=
  tally_foldl_upsert (fun _ => decide_eq_true_iff) (fun _ => hstart _ _) hadd utxos byTxid

theorem tally_spends (f : TransactionSummary → Nat) (n : ConfirmedSpend → Nat)
    (hstart : ∀ txid height, f (.start txid height) = 0) (hadd : ∀ c s, f (.addSpend c s) = f s + n c)
    (spends : List ConfirmedSpend) (byTxid : OrderedMap Txid TransactionSummary) (t : Txid) :
    tally f (spends.foldl (fun m spend =>
        OrderedMap.upsert m spend.spendingTxid (.start spend.spendingTxid spend.height) (.addSpend spend)) byTxid) t =
      tally f byTxid t + ((spends.filter fun c => c.spendingTxid = t).map n).sum :=
  tally_foldl_upsert (fun _ => decide_eq_true_iff) (fun _ => hstart _ _) hadd spends byTxid

theorem mem_history {ledger : Ledger} {summary : TransactionSummary} (h : summary ∈ ledger.history) :
    ∃ t : Txid,
      summary.received = ((ledger.receives.vals.filter fun u => u.txid = t).map fun u => u.value.toNat).sum ∧
        summary.spent = ((ledger.spends.filter fun c => c.spendingTxid = t).map fun c => c.value.toNat).sum := by
  rw [history, List.mem_insertionSort, mem_vals] at h
  obtain ⟨t, ht⟩ := h
  refine ⟨t, ?_, ?_⟩
  · have htally := congrArg (fun x => (x.map TransactionSummary.received).getD 0) ht
    simp only [Option.map_some, Option.getD_some] at htally
    rw [← htally]
    refine (tally_summarizeInputs (fun _ _ => rfl) (fun _ _ _ _ => rfl) ..).trans ?_
    rw [tally_spends TransactionSummary.received (fun _ => 0) (fun _ _ => rfl) (fun _ _ => rfl),
      tally_receives TransactionSummary.received (fun u => u.value.toNat) (fun _ _ => rfl) (fun _ _ => rfl)]
    simp [tally]
  · have htally := congrArg (fun x => (x.map TransactionSummary.spent).getD 0) ht
    simp only [Option.map_some, Option.getD_some] at htally
    rw [← htally]
    refine (tally_summarizeInputs (fun _ _ => rfl) (fun _ _ _ _ => rfl) ..).trans ?_
    rw [tally_spends TransactionSummary.spent (fun c => c.value.toNat) (fun _ _ => rfl) (fun _ _ => rfl),
      tally_receives TransactionSummary.spent (fun _ => 0) (fun _ _ => rfl) (fun _ _ => rfl)]
    simp [tally]

theorem receivesWith_nil (ledger : Ledger) :
    receivesWith ledger [] = ledger.receives.map fun _ utxo => utxo.value.toNat := rfl

variable {ledger : Ledger}

theorem getElem?_receivesWith {o : Outpoint} {u : Utxo} (hu : ledger.receives[o]? = some u) :
    (receivesWith ledger [])[o]? = some u.value.toNat := by
  rw [receivesWith_nil, getElem?_map, hu, Option.map_some]

namespace Sound

theorem totals (h : Sound seen ledger) :
    (∀ t : Txid, sumWhere (fun o => o.txid = t) (receivesWith ledger []).toList < 2 ^ 64) ∧
      (∀ t : Txid, sumWhere (fun o => (spendersWith ledger [])[o]? = some t) (receivesWith ledger []).toList < 2 ^ 64) ∧
      sumWhere (fun o => (spendersWith ledger [])[o]? = none) (receivesWith ledger []).toList < 2 ^ 64 :=
  checkTotals_empty_iff.mp ((h.withinRange_iff h.views_self).mp h.inRange).totals

theorem history_lt (h : Sound seen ledger) {summary : TransactionSummary} (hmem : summary ∈ ledger.history) :
    summary.received < 2 ^ 64 ∧ summary.spent < 2 ^ 64 := by
  obtain ⟨hreceived, hspent, -⟩ := h.totals
  obtain ⟨t, hr, hs⟩ := mem_history hmem
  refine ⟨Nat.lt_of_le_of_lt ?_ (hreceived t), Nat.lt_of_le_of_lt ?_ (hspent t)⟩
  · rw [hr, sumWhere, vals, receivesWith_nil, toList_map, List.filter_map, List.filter_map, List.map_map,
      List.map_map]
    refine sum_map_le_of_subset _ ((nodup_toList _).filter _) fun x hx => ?_
    obtain ⟨o, u⟩ := x
    simp only [List.mem_filter, Function.comp_apply, decide_eq_true_eq] at hx ⊢
    obtain ⟨s, r, -, rfl, rfl⟩ :=
      (h.holds.receives o u).mp (Std.ExtTreeMap.mem_toList_iff_getElem?_eq_some.mp hx.1)
    exact hx
  · have hlist : ((ledger.spends.filter fun c => c.spendingTxid = t).map fun c => c.value.toNat) =
        ((ledger.spends.filter fun c => c.spendingTxid = t).map fun c => (c.spent, c.value.toNat)).map Prod.snd := by
      rw [List.map_map]
      rfl
    rw [hs, hlist]
    refine sum_map_le_of_subset _ ?_ fun x hx => ?_
    · refine List.Nodup.of_map Prod.fst ?_
      rw [List.map_map]
      exact List.Nodup.sublist (List.Sublist.map _ List.filter_sublist) h.holds.index.nodup
    · obtain ⟨c, hc, rfl⟩ := List.mem_map.mp hx
      obtain ⟨hmem, ht⟩ := List.mem_filter.mp hc
      obtain ⟨s, e, u, he, hu, rfl⟩ := h.holds.confirmed c hmem
      refine List.mem_filter.mpr ⟨Std.ExtTreeMap.mem_toList_iff_getElem?_eq_some.mpr (getElem?_receivesWith hu), ?_⟩
      refine decide_eq_true ((h.views_self.spenders _ t).mpr ⟨s, e, he, rfl, ?_⟩)
      exact of_decide_eq_true ht

theorem balance_lt (h : Sound seen ledger) (hresolved : ∀ u ∈ ledger.unresolved, u.event.spent ∉ ledger.receives) :
    ledger.confirmedBalance < 2 ^ 64 := by
  have hbalance : ledger.confirmedBalance =
      sumWhere (fun _ => True) (ledger.utxos.map fun _ utxo => utxo.value.toNat).toList := by
    simp only [confirmedBalance, vals, sumWhere, toList_map, decide_true, List.filter_true, List.map_map]
    rfl
  rw [hbalance]
  refine Nat.lt_of_le_of_lt (sumWhere_le fun o v hv _ => ?_) h.totals.2.2
  rw [getElem?_map, h.holds.utxos] at hv
  split_ifs at hv with hspent
  · simp at hv
  · obtain ⟨u, hu, rfl⟩ := Option.map_eq_some_iff.mp hv
    refine ⟨getElem?_receivesWith hu, ?_⟩
    cases hspender : (spendersWith ledger [])[o]? with
    | none => rfl
    | some t =>
      obtain ⟨s, e, he, rfl, -⟩ := (h.views_self.spenders o t).mp hspender
      rcases h.holds.recorded s e he with hin | hopen | hdue
      · exact absurd hin hspent
      · exact absurd (mem_of_getElem? hu) (hresolved _ hopen)
      · simp at hdue

end Sound

end Zakura.Ledger
