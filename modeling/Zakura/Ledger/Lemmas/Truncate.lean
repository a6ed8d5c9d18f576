import Zakura.Ledger.Lemmas.Errors
import Zakura.Ledger.Lemmas.Observables

/-! # Truncating a ledger -/

namespace Zakura.Ledger

open List Transparent OrderedMap
open Std.ExtTreeMap (getElem?_filter')

def cut (height : Nat) (seen : Set Entry) : Set Entry := { x ∈ seen | x.2.height.toNat ≤ height }

/-- A spend at or below the height consumes an output received above it. -/
def Straddles (height : Nat) (seen : Set Entry) : Prop :=
  ∃ s e s' r, (s, .spend e) ∈ seen ∧ (s', .receive r) ∈ seen ∧ r.outpoint = e.spent ∧ e.height.toNat ≤ height ∧
    height < r.height.toNat

variable {seen : Set Entry} {ledger ledger' : Ledger} {height : Nat}
  (hkeeps : ∀ c ∈ (ledger.truncateAbove height).spends, c.spent ∈ (ledger.truncateAbove height).receives)

/-! ## The totals below a height -/

section Views

variable {R R' : OrderedMap Outpoint Nat} {S S' : OrderedMap Outpoint Txid}
  {O O' : OrderedMap SortKey TransparentEvent}

theorem Views.observations_cut (h : Views seen R S O) (h' : Views (cut height seen) R' S' O') :
    O' = O.filter fun _ event => event.height.toNat ≤ height := by
  refine Std.ExtTreeMap.ext_getElem? fun k => Option.ext fun e => ?_
  rw [h'.observations, getElem?_filter', Option.filter_eq_some_iff, h.observations, decide_eq_true_eq]
  constructor
  · rintro ⟨hkey, s, hseen, hle⟩
    exact ⟨⟨hkey, s, hseen⟩, hle⟩
  · rintro ⟨⟨hkey, s, hseen⟩, hle⟩
    exact ⟨hkey, s, hseen, hle⟩

theorem Views.vals_cut (h : Views seen R S O) (h' : Views (cut height seen) R' S' O') :
    ∃ above, vals O = vals O' ++ above := by
  have hsorted : O.toList.Pairwise fun a b => a.1 < b.1 :=
    (Std.ExtTreeMap.ordered_keys_toList (t := O)).imp fun hlt => compare_lt_iff_lt.mp hlt
  have hkeys : ∀ x ∈ O.toList, x.2.height = x.1.height := by
    rintro ⟨k, e⟩ hx
    obtain ⟨rfl, -⟩ := (h.observations k e).mp (Std.ExtTreeMap.mem_toList_iff_getElem?_eq_some.mp hx)
    cases e <;> rfl
  have hpair : O.toList.Pairwise fun a b => a.2.height.toNat ≤ b.2.height.toNat := by
    refine hsorted.imp_of_mem fun ha hb hlt => ?_
    rw [hkeys _ ha, hkeys _ hb]
    exact SortKey.height_le_of_lt hlt
  have hsplit := eq_filter_append_filter_not (p := fun x => decide (x.2.height.toNat ≤ height)) hpair
    fun a b hab hb => decide_eq_true (Nat.le_trans hab (of_decide_eq_true hb))
  refine ⟨(O.toList.filter fun x => !decide (x.2.height.toNat ≤ height)).map Prod.snd, ?_⟩
  rw [vals, vals, h.observations_cut h', Std.ExtTreeMap.toList_filter, ← map_append, ← hsplit]

theorem Views.balance_lt (h : Views seen R S O) (hcoherent : Coherent seen)
    (hrunning : checkRunning (vals O) ∅ 0 = .ok ()) :
    sumWhere (fun o => S[o]? = none) R.toList < 2 ^ 64 := by
  have hmem : ∀ e, e ∈ vals O ↔ ∃ s, (s, e) ∈ seen := by
    intro e
    rw [mem_vals]
    constructor
    · rintro ⟨k, hk⟩
      exact ((h.observations k e).mp hk).2
    · exact fun hs => ⟨e.sortKey, (h.observations _ e).mpr ⟨rfl, hs⟩⟩
  have hvalues : ∀ r r', .receive r ∈ vals O → .receive r' ∈ vals O → r.outpoint = r'.outpoint → r.value = r'.value := by
    intro r r' hr hr'
    obtain ⟨s, hs⟩ := (hmem _).mp hr
    obtain ⟨s', hs'⟩ := (hmem _).mp hr'
    exact hcoherent.receives s r s' r' hs hs'
  have hbound := checkRunning_total (by simp) hvalues total_empty.symm (by simp) hrunning
  refine Nat.lt_of_le_of_lt ?_ hbound
  have hle : sumWhere (fun o => S[o]? = none) R.toList ≤
      sumWhere (fun _ => True) (unspentAfter (vals O) ∅).toList := by
    refine sumWhere_le fun o v hv hunspent => ⟨?_, trivial⟩
    obtain ⟨s, r, hr, hout, rfl⟩ := (h.receives o v).mp hv
    refine unspentAfter_of_held ?_ ?_ (.inr ⟨r, (hmem _).mpr ⟨s, hr⟩, hout⟩)
    · intro e he hspent
      obtain ⟨s', hs'⟩ := (hmem _).mp he
      rw [(h.spenders o e.spendingTxid).mpr ⟨s', e, hs', hspent, rfl⟩] at hunspent
      simp at hunspent
    · intro r' hr' hout'
      rw [hvalues r' r hr' ((hmem _).mpr ⟨s, hr⟩) (hout'.trans hout.symm)]
  simpa [sumWhere, total] using hle

/-- Totals that are in range stay so when everything above a height is removed. -/
theorem Views.inRange_cut (h : Views seen R S O) (hcoherent : Coherent seen)
    (h' : Views (cut height seen) R' S' O') (hrange : InRange R S O) : InRange R' S' O' := by
  have hrunning : checkRunning (vals O') ∅ 0 = .ok () := by
    obtain ⟨above, hvals⟩ := h.vals_cut h'
    have hall := hrange.running
    rw [hvals] at hall
    exact checkRunning_append hall
  obtain ⟨hreceived, hspent, -⟩ := checkTotals_empty_iff.mp hrange.totals
  have hR : ∀ (o : Outpoint) v, R'[o]? = some v → R[o]? = some v := by
    intro o v hv
    obtain ⟨s, r, hr, hrest⟩ := (h'.receives o v).mp hv
    exact (h.receives o v).mpr ⟨s, r, hr.1, hrest⟩
  have hS : ∀ (o : Outpoint) t, S'[o]? = some t → S[o]? = some t := by
    intro o t ht
    obtain ⟨s, e, he, hrest⟩ := (h'.spenders o t).mp ht
    exact (h.spenders o t).mpr ⟨s, e, he.1, hrest⟩
  refine ⟨hrunning, checkTotals_empty_iff.mpr ⟨?_, ?_, ?_⟩⟩
  · exact fun t => Nat.lt_of_le_of_lt (sumWhere_le fun o v hv ho => ⟨hR o v hv, ho⟩) (hreceived t)
  · exact fun t => Nat.lt_of_le_of_lt (sumWhere_le fun o v hv ho => ⟨hR o v hv, hS o t ho⟩) (hspent t)
  · exact h'.balance_lt (hcoherent.mono fun x hx => hx.1) hrunning

end Views

/-! ## The truncated ledger -/

theorem truncateAbove_receives (ledger : Ledger) (height : Nat) (o : Outpoint) (u : Utxo) :
    (ledger.truncateAbove height).receives[o]? = some u ↔
      ledger.receives[o]? = some u ∧ u.creationHeight.toNat ≤ height := by
  simp only [truncateAbove, getElem?_filter', Option.filter_eq_some_iff, decide_eq_true_eq]

theorem mem_truncateAbove_spends {c : ConfirmedSpend} :
    c ∈ (ledger.truncateAbove height).spends ↔ c ∈ ledger.spends ∧ c.height.toNat ≤ height := by
  simp only [truncateAbove, mem_filter, decide_eq_true_eq]

theorem mem_truncateAbove_unresolved {u : UnresolvedSpend} :
    u ∈ (ledger.truncateAbove height).unresolved ↔ u ∈ ledger.unresolved ∧ u.event.height.toNat ≤ height := by
  simp only [truncateAbove, mem_filter, decide_eq_true_eq]

theorem truncateAbove_observations (ledger : Ledger) (height : Nat) (k : SortKey) (e : TransparentEvent) :
    (ledger.truncateAbove height).observations[k]? = some e ↔
      ledger.observations[k]? = some e ∧ e.height.toNat ≤ height := by
  simp only [truncateAbove, getElem?_filter', Option.filter_eq_some_iff, decide_eq_true_eq]

namespace Tracks

theorem truncateAbove_index (h : Tracks seen ledger) (height : Nat) :
    IsIndex (ledger.truncateAbove height).spentIndex ((ledger.truncateAbove height).spends.map (·.spent)) := by
  have hnodup : ((ledger.truncateAbove height).spends.map (·.spent)).Nodup :=
    List.Nodup.sublist (List.Sublist.map _ filter_sublist) h.holds.index.nodup
  have hindex := isIndex_foldl_zipIdx hnodup
  rwa [zipIdx_map, foldl_map] at hindex

theorem truncateAbove_utxos (h : Tracks seen ledger) (height : Nat) (o : Outpoint) :
    (ledger.truncateAbove height).utxos[o]? =
      if o ∈ (ledger.truncateAbove height).spentIndex then none else (ledger.truncateAbove height).receives[o]? := by
  have hindex : o ∈ (ledger.truncateAbove height).spentIndex → o ∈ ledger.spentIndex := by
    intro hin
    rw [(h.truncateAbove_index height).mem_iff, mem_map] at hin
    obtain ⟨c, hc, hspent⟩ := hin
    exact h.holds.mem_spentIndex.mpr ⟨c, (mem_truncateAbove_spends.mp hc).1, hspent⟩
  have hstart : (ledger.utxos.filter fun key _ => key ∈ (ledger.truncateAbove height).receives)[o]? =
      if o ∈ ledger.spentIndex then none else (ledger.truncateAbove height).receives[o]? := by
    rw [getElem?_filter', h.holds.utxos o]
    cases hkept : (ledger.truncateAbove height).receives[o]? with
    | none => simp [not_mem_of_getElem? hkept]
    | some u =>
      rw [((truncateAbove_receives ledger height o u).mp hkept).1]
      split_ifs <;> simp [mem_of_getElem? hkept]
  have hloop : (ledger.truncateAbove height).utxos = (ledger.truncateAbove height).receives.toList.foldl
      (fun m x => if x.1 ∈ (ledger.truncateAbove height).spentIndex ∨ x.1 ∈ m then m else m.insert x.1 x.2)
      (ledger.utxos.filter fun key _ => key ∈ (ledger.truncateAbove height).receives) := rfl
  rw [hloop]
  -- Seen from one output, the loop over the receives only enters that output.
  refine foldl_toList_view (ledger.truncateAbove height).receives o (f := fun m => m[o]?)
    (p := fun t => t = if o ∈ ledger.spentIndex then none else (ledger.truncateAbove height).receives[o]?)
    (q := fun t => t = if o ∈ (ledger.truncateAbove height).spentIndex then none
      else (ledger.truncateAbove height).receives[o]?) ?_ ?_ ?_ _ hstart
  · intro m entry hne
    split_ifs
    · rfl
    · simp [hne]
  · intro u hu m hm
    simp only [hu] at hm ⊢
    by_cases hspent : o ∈ (ledger.truncateAbove height).spentIndex
    · rw [if_pos (.inl hspent), if_pos hspent, hm, if_pos (hindex hspent)]
    · by_cases hheld : o ∈ m
      · rw [if_pos (.inr hheld), if_neg hspent, hm, if_neg]
        intro hin
        rw [if_pos hin] at hm
        exact not_mem_of_getElem? hm hheld
      · rw [if_neg (by simp [hspent, hheld]), if_neg hspent, getElem?_insert_eq, if_pos rfl]
  · intro hnone t ht
    simpa [hnone] using ht

include hkeeps in
theorem truncateAbove (h : Tracks seen ledger) : Tracks (cut height seen) (ledger.truncateAbove height) := by
  have hopen : openSpends (ledger.truncateAbove height) [] ⊆ openSpends ledger [] := by
    intro x hx
    exact hx.imp_left fun hu => (mem_truncateAbove_unresolved.mp hu).1
  refine ⟨?_, ?_, ?_⟩
  · refine { receives := ?_, utxos := h.truncateAbove_utxos height, index := h.truncateAbove_index height,
             confirmed := ?_, recorded := ?_, unresolved := ?_, agrees := ?_, open_agree := ?_ }
    · intro o u
      rw [truncateAbove_receives, h.holds.receives]
      constructor
      · rintro ⟨⟨s, r, hr, hout, rfl⟩, hle⟩
        exact ⟨s, r, ⟨hr, hle⟩, hout, rfl⟩
      · rintro ⟨s, r, ⟨hr, hle⟩, hout, rfl⟩
        exact ⟨⟨s, r, hr, hout, rfl⟩, hle⟩
    · intro c hc
      obtain ⟨hmem, hle⟩ := mem_truncateAbove_spends.mp hc
      obtain ⟨s, e, u, he, hu, rfl⟩ := h.holds.confirmed c hmem
      obtain ⟨kept, hkept⟩ := mem_iff_exists.mp (hkeeps _ hc)
      have hsame := ((truncateAbove_receives ledger height _ kept).mp hkept).1
      rw [show (ConfirmedSpend.ofSpend e u).spent = e.spent from rfl, hu, Option.some.injEq] at hsame
      exact ⟨s, e, u, ⟨he, hle⟩, by rwa [hsame], rfl⟩
    · rintro s e ⟨he, hle⟩
      rcases h.holds.recorded s e he with hin | hu | hdue
      · obtain ⟨c, hc, hspent⟩ := h.holds.mem_spentIndex.mp hin
        have hheight : c.height.toNat ≤ height := by
          rw [(h.holds.agrees s e he c hc hspent).2.2]
          exact hle
        refine .inl ((h.truncateAbove_index height).mem_iff.mpr ?_)
        exact mem_map.mpr ⟨c, mem_truncateAbove_spends.mpr ⟨hc, hheight⟩, hspent⟩
      · exact .inr (.inl (mem_truncateAbove_unresolved.mpr ⟨hu, hle⟩))
      · simp at hdue
    · intro u hu
      obtain ⟨hmem, hle⟩ := mem_truncateAbove_unresolved.mp hu
      exact ⟨h.holds.unresolved u hmem, hle⟩
    · rintro s e ⟨he, -⟩ c hc
      exact h.holds.agrees s e he c (mem_truncateAbove_spends.mp hc).1
    · exact fun x hx y hy => h.holds.open_agree x (hopen hx) y (hopen hy)
  · intro k e
    rw [truncateAbove_observations, h.observed]
    constructor
    · rintro ⟨⟨hkey, s, hs⟩, hle⟩
      exact ⟨hkey, s, hs, hle⟩
    · rintro ⟨hkey, s, hs, hle⟩
      exact ⟨⟨hkey, s, hs⟩, hle⟩
  · rintro a ⟨s, ha, -⟩ b ⟨s', hb, -⟩
    exact h.facts a ⟨s, ha⟩ b ⟨s', hb⟩

end Tracks

include hkeeps in
/-- Totals that are in range stay so when the ledger is truncated. -/
theorem Sound.truncateAbove (h : Sound seen ledger) :
    Sound (cut height seen) (ledger.truncateAbove height) := by
  have hnext := h.toTracks.truncateAbove hkeeps
  refine ⟨hnext, checkTransactionConsistency_subset h.consistent ?_, (hnext.withinRange_iff hnext.views_self).mpr ?_⟩
  · intro e he
    obtain ⟨k, hk⟩ := mem_vals.mp he
    exact mem_vals.mpr ⟨k, ((truncateAbove_observations ledger height k e).mp hk).1⟩
  · exact h.views_self.inRange_cut h.coherent hnext.views_self ((h.withinRange_iff h.views_self).mp h.inRange)

include hkeeps in
theorem Represents.truncateAbove (h : Represents seen ledger) :
    Represents (cut height seen) (ledger.truncateAbove height) := by
  refine ⟨h.toTracks.truncateAbove hkeeps, fun u hu hin => ?_⟩
  obtain ⟨kept, hkept⟩ := mem_iff_exists.mp hin
  refine h.resolved u (mem_truncateAbove_unresolved.mp hu).1 ?_
  exact mem_of_getElem? ((truncateAbove_receives ledger _ _ kept).mp hkept).1

/-! ## Rebuilding -/

def OneScript (entries : Set Entry) : Prop :=
  ∀ s e s' e', (s, .spend e) ∈ entries → (s', .spend e') ∈ entries → e.spent = e'.spent → s = s'

/-- A truncation of what a run of extends built keeps the receive of every spend it keeps, unless one
straddles the height. -/
theorem Represents.keeps_iff (h : Represents seen ledger) :
    (∀ c ∈ (ledger.truncateAbove height).spends, c.spent ∈ (ledger.truncateAbove height).receives) ↔
      ¬ Straddles height seen := by
  constructor
  · rintro hkeeps ⟨s, e, s', r, he, hr, hout, hle, hlt⟩
    have hu := (h.holds.receives e.spent _).mpr ⟨s', r, hr, hout, rfl⟩
    have hc := h.mem_spends.mpr ⟨s, e, _, he, hu, rfl⟩
    have hin := hkeeps _ (mem_truncateAbove_spends.mpr ⟨hc, hle⟩)
    obtain ⟨kept, hkept⟩ := mem_iff_exists.mp hin
    obtain ⟨hsame, hbelow⟩ := (truncateAbove_receives ledger height _ kept).mp hkept
    rw [show (ConfirmedSpend.ofSpend e (.ofReceive s' r)).spent = e.spent from rfl, hu, Option.some.injEq] at hsame
    subst hsame
    exact absurd hbelow (Nat.not_le.mpr hlt)
  · intro hcut c hc
    obtain ⟨hmem, hle⟩ := mem_truncateAbove_spends.mp hc
    obtain ⟨s, e, u, he, hu, rfl⟩ := h.holds.confirmed c hmem
    obtain ⟨s', r, hr, hout, rfl⟩ := (h.holds.receives _ u).mp hu
    refine mem_of_getElem? ((truncateAbove_receives ledger height _ _).mpr ⟨hu, ?_⟩)
    by_contra habove
    exact hcut ⟨s, e, s', r, he, hr, hout, hle, Nat.lt_of_not_le habove⟩

theorem Tracks.checkEventIdentities_iff (h : Tracks seen ledger) {entries : List Entry}
    (hsub : ∀ x ∈ entries, x ∈ seen) :
    checkEventIdentities entries = .ok () ↔ OneScript { x | x ∈ entries } := by
  rw [checkEventIdentities_ok_iff]
  constructor
  · rintro ⟨-, hspends⟩ s e s' e' he he' hspent
    exact congrArg Prod.fst (hspends (s, e) (mem_spendEntries.mpr he) (s', e') (mem_spendEntries.mpr he') hspent)
  · intro hscripts
    refine ⟨?_, ?_⟩
    · intro s r s' r' hr hr' hout
      obtain ⟨rfl, rfl⟩ := h.receive_eq (hsub _ hr) (hsub _ hr') hout
      rfl
    · rintro ⟨s, e⟩ hx ⟨s', e'⟩ hy hspent
      have he := mem_spendEntries.mp hx
      have he' := mem_spendEntries.mp hy
      rw [h.spend_eq (hsub _ he) (hsub _ he') hspent, hscripts s e s' e' he he' hspent]

theorem Sound.checkBatch_cut_iff (h : Sound seen ledger) {kept : List Entry}
    (hkept : { x | x ∈ kept } = cut height seen) :
    new.checkBatch kept = .ok () ↔ OneScript (cut height seen) := by
  have hmem : ∀ x ∈ kept, x ∈ seen := by
    intro x hx
    have hcut : x ∈ cut height seen := hkept ▸ hx
    exact hcut.1
  have hconsistent : checkTransactionConsistency (new.observations.vals ++ kept.map Prod.snd) = .ok () := by
    refine checkTransactionConsistency_subset h.consistent fun e he => ?_
    rcases mem_append.mp he with he | he
    · obtain ⟨k, hk⟩ := mem_vals.mp he
      simp [new] at hk
    · obtain ⟨⟨s, e⟩, hx, rfl⟩ := mem_map.mp he
      exact mem_vals.mpr ⟨_, (h.observed _ e).mpr ⟨rfl, s, hmem _ hx⟩⟩
  have htotals : new.checkValueTotals kept = .ok () := by
    have hcoherent : Coherent (∅ ∪ { x | x ∈ kept }) := h.coherent.mono fun x hx => by
      rw [Set.empty_union] at hx
      exact hmem x hx
    have hviews := represents_new.views hcoherent
    rw [Set.empty_union, hkept] at hviews
    refine checkValueTotals_ok_iff.mpr ?_
    exact h.views_self.inRange_cut h.coherent hviews ((h.withinRange_iff h.views_self).mp h.inRange)
  have hopen : openEntries new ++ kept = kept := rfl
  rw [checkBatch_ok_iff, hopen, h.checkEventIdentities_iff hmem, hkept]
  simp only [hconsistent, htotals, true_and, and_true]

theorem replay_new {entries : List Entry} (hcheck : new.checkBatch entries = .ok ()) :
    ∃ ledger, new.replay entries = (.ok (), ledger) := by
  have hagree : ReceivesAgree { x | x ∈ inOrder entries } := by
    simpa only [mem_inOrder] using (checkBatch_ok hcheck).2.2
  have hnothing : ∀ x, ¬ Contradicts new x := by
    rintro ⟨s, r | e⟩ hcontra
    · obtain ⟨u, hu, -⟩ := hcontra
      simp [new] at hu
    · obtain ⟨c, hc, -⟩ := hcontra
      simp [new] at hc
  rcases applyAll_cases (represents_new.holds_batch hcheck fun x => mem_inOrder.mp) hagree with ⟨replayed, hall, -⟩ |
    ⟨-, entry, -, -, -, -, -, hentry, -⟩
  · rw [← replay_of_checkBatch hcheck] at hall
    exact ⟨replayed, hall⟩
  · exact absurd hentry (hnothing entry)

theorem Sound.rebuild (h : Sound seen ledger) {kept : List Entry} (hkept : { x | x ∈ kept } = cut height seen)
    (hscripts : OneScript (cut height seen)) :
    ∃ rebuilt, new.extend kept = (.ok (), rebuilt) ∧ Represents (cut height seen) rebuilt := by
  obtain ⟨replayed, hreplay⟩ := replay_new ((h.checkBatch_cut_iff hkept).mpr hscripts)
  obtain ⟨rebuilt, hok, hdone⟩ := extend_of_replay represents_new.toTracks hreplay
  rw [Set.empty_union, hkept] at hdone
  exact ⟨rebuilt, hok, hdone⟩

/-! ## Replays that leave no spend of a known output open -/

variable {entries : List Entry}

theorem applyReceive_open {script : Bytes} {r : ReceiveEvent} {applied : Ledger}
    (h : ledger.applyReceive script r = .ok applied) :
    applied.unresolved = ledger.unresolved ∧ ∀ o ∈ applied.receives, o ∈ ledger.receives ∨ o = r.outpoint := by
  unfold applyReceive at h
  dsimp only at h
  split at h
  · split_ifs at h
    cases h
    exact ⟨rfl, fun o ho => .inl ho⟩
  · cases h
    refine ⟨rfl, fun o ho => ?_⟩
    rcases Std.ExtTreeMap.mem_insert.mp ho with heq | ho
    · exact .inr (compare_eq_iff_eq.mp heq).symm
    · exact .inl ho

theorem applySpend_open {script : Bytes} {e : SpendEvent} {applied : Ledger}
    (h : ledger.applySpend script e = .ok applied) :
    applied.receives = ledger.receives ∧
      ∀ u ∈ applied.unresolved, u ∈ ledger.unresolved ∨ u.event = e ∧ e.spent ∉ ledger.receives := by
  unfold applySpend at h
  dsimp only at h
  split at h
  · split_ifs at h
    cases h
    exact ⟨rfl, fun u hu => .inl hu⟩
  · split at h
    · cases h
      exact ⟨rfl, fun u hu => .inl hu⟩
    · rename_i hnone
      split_ifs at h
      · cases h
        exact ⟨rfl, fun u hu => .inl hu⟩
      · cases h
        refine ⟨rfl, fun u hu => (mem_append.mp hu).imp_right fun hu => ?_⟩
        obtain rfl := mem_singleton.mp hu
        exact ⟨rfl, fun hin => by simp [mem_iff_exists, hnone] at hin⟩

/-- By induction along the sorted batch: an open spend's output is neither known nor still to come. -/
theorem applyAll_resolved (hsorted : entries.Pairwise fun a b => a.2.sortKey ≤ b.2.sortKey)
    (hfirst : ∀ s r s' e, (s, .receive r) ∈ entries → (s', .spend e) ∈ entries → e.spent = r.outpoint →
      (TransparentEvent.receive r).sortKey < (TransparentEvent.spend e).sortKey)
    (hopen : ∀ u ∈ ledger.unresolved, u.event.spent ∉ ledger.receives ∧
      ∀ s r, (s, .receive r) ∈ entries → u.event.spent ≠ r.outpoint)
    (happly : applyAll entries ledger = (.ok (), ledger')) :
    ∀ u ∈ ledger'.unresolved, u.event.spent ∉ ledger'.receives := by
  induction entries generalizing ledger with
  | nil =>
    obtain rfl := (Prod.mk.inj happly).2
    exact fun u hu => (hopen u hu).1
  | cons entry entries ih =>
    obtain ⟨script, event⟩ := entry
    obtain ⟨hbehind, hsorted⟩ := pairwise_cons.mp hsorted
    rw [applyAll] at happly
    cases hstep : ledger.apply script event with
    | error error => simp [hstep] at happly
    | ok applied =>
      rw [hstep] at happly
      refine ih hsorted (fun s r s' e hr he => hfirst s r s' e (mem_cons_of_mem _ hr) (mem_cons_of_mem _ he))
        (fun u hu => ?_) happly
      cases event with
      | receive receive =>
        obtain ⟨hunresolved, hreceives⟩ := applyReceive_open hstep
        obtain ⟨hunknown, hlater⟩ := hopen u (hunresolved ▸ hu)
        refine ⟨fun hin => (hreceives _ hin).elim hunknown (hlater script receive mem_cons_self), fun s r hr => ?_⟩
        exact hlater s r (mem_cons_of_mem _ hr)
      | spend spend =>
        obtain ⟨hreceives, hunresolved⟩ := applySpend_open hstep
        change u.event.spent ∉ applied.receives ∧ _
        rw [hreceives]
        rcases hunresolved u hu with hold | ⟨rfl, hunknown⟩
        · obtain ⟨hunknown, hlater⟩ := hopen u hold
          exact ⟨hunknown, fun s r hr => hlater s r (mem_cons_of_mem _ hr)⟩
        · refine ⟨hunknown, fun s r hr heq => ?_⟩
          have hlt := hfirst s r script u.event (mem_cons_of_mem _ hr) mem_cons_self heq
          exact absurd (hbehind _ hr) (not_le_of_gt hlt)

/-! ## Runs -/

/-- A truncation keeps the receive of every confirmed spend it keeps. -/
def KeepsReceives (ledger : Ledger) : Call → Prop
  | .truncateAbove height => ∀ c ∈ ledger.spends, c.height ≤ height →
      ∀ u ∈ ledger.receives[c.spent]?, u.creationHeight ≤ height
  | _ => True

/-- A bare replay brings no receive after a spend of its output: no open spend of the ledger consumes it, and none that
comes before it in the batch's own order. -/
def ReceivesFirst (ledger : Ledger) : Call → Prop
  | .replay entries => ∀ s r, (s, .receive r) ∈ entries → (∀ u ∈ ledger.unresolved, u.event.spent ≠ r.outpoint) ∧
      ∀ s' e, (s', .spend e) ∈ entries → e.spent = r.outpoint →
        (TransparentEvent.receive r).sortKey < (TransparentEvent.spend e).sortKey
  | _ => True

/-- Every call of a run meets a condition on the ledger it is made on. -/
def EachCall (p : Ledger → Call → Prop) : Ledger → List Call → Prop
  | _, [] => True
  | ledger, next :: calls => p ledger next ∧ EachCall p (ledger.call next).2 calls

theorem Sound.extendAll {batches : List (List Entry)} (h : Sound seen ledger)
    (hextend : ledger.extendAll batches = (.ok (), ledger')) : Sound (seen ∪ { x | x ∈ batches.flatten }) ledger' :=
  extendAll_induct (fun h => Sound.of_extend h.toTracks) h hextend

theorem Tracks.keeps (h : Tracks seen ledger) {height : UInt32} (hkeeps : KeepsReceives ledger (.truncateAbove height)) :
    ∀ c ∈ (ledger.truncateAbove height.toNat).spends, c.spent ∈ (ledger.truncateAbove height.toNat).receives := by
  intro c hc
  obtain ⟨hmem, hle⟩ := mem_truncateAbove_spends.mp hc
  obtain ⟨s, e, u, -, hu, rfl⟩ := h.holds.confirmed c hmem
  have hbelow := hkeeps _ hmem (UInt32.le_iff_toNat_le.mpr hle) u hu
  exact mem_of_getElem? ((truncateAbove_receives ledger _ _ u).mpr ⟨hu, UInt32.le_iff_toNat_le.mp hbelow⟩)

theorem Represents.replay (h : Represents seen ledger) (hfirst : ReceivesFirst ledger (.replay entries))
    (hreplay : ledger.replay entries = (.ok (), ledger')) : Represents (seen ∪ { x | x ∈ entries }) ledger' := by
  refine ⟨replay_spec h.toTracks hreplay, ?_⟩
  rw [replay_of_checkBatch (checkBatch_of_replay hreplay)] at hreplay
  refine applyAll_resolved (pairwise_insertionSort ..) (fun s r s' e hr he => ?_) (fun u hu => ?_) hreplay
  · exact (hfirst s r (mem_inOrder.mp hr)).2 s' e (mem_inOrder.mp he)
  · exact ⟨h.resolved u hu, fun s r hr => (hfirst s r (mem_inOrder.mp hr)).1 u hu⟩

theorem callAll_induct {p : Ledger → Call → Prop} {P : Ledger → Prop} {calls : List Call}
    (hstep : ∀ {next ledger ledger'}, P ledger → p ledger next → ledger.call next = (.ok (), ledger') → P ledger')
    (h : P ledger) (hcalls : EachCall p ledger calls) (hrun : ledger.callAll calls = (.ok (), ledger')) : P ledger' := by
  induction calls generalizing ledger with
  | nil =>
    obtain rfl := (Prod.mk.inj hrun).2
    exact h
  | cons next calls ih =>
    rw [Ledger.callAll] at hrun
    obtain ⟨hnext, hrest⟩ := hcalls
    cases hcall : ledger.call next with
    | mk result called =>
      rw [hcall] at hrun hrest
      cases result with
      | error error => simp at hrun
      | ok u => exact ih (hstep h hnext hcall) hrest hrun

theorem Sound.callAll {calls : List Call} (h : Sound seen ledger) (hkeeps : EachCall KeepsReceives ledger calls)
    (hrun : ledger.callAll calls = (.ok (), ledger')) : ∃ seen', Sound seen' ledger' := by
  refine callAll_induct (P := fun ledger => ∃ seen, Sound seen ledger) ?_ ⟨seen, h⟩ hkeeps hrun
  rintro next ledger ledger' ⟨seen, h⟩ hkeep hcall
  cases next with
  | replay entries => exact ⟨_, Sound.of_replay h.toTracks hcall⟩
  | extend entries => exact ⟨_, Sound.of_extend h.toTracks hcall⟩
  | truncateAbove height =>
    obtain rfl := (Prod.mk.inj hcall).2
    exact ⟨_, h.truncateAbove (h.keeps hkeep)⟩

theorem EachCall.and {p q : Ledger → Call → Prop} {calls : List Call} (hp : EachCall p ledger calls)
    (hq : EachCall q ledger calls) : EachCall (fun ledger next => p ledger next ∧ q ledger next) ledger calls := by
  induction calls generalizing ledger with
  | nil => trivial
  | cons next calls ih => exact ⟨⟨hp.1, hq.1⟩, ih hp.2 hq.2⟩

theorem Represents.callAll {calls : List Call} (h : Represents seen ledger) (hkeeps : EachCall KeepsReceives ledger calls)
    (hfirst : EachCall ReceivesFirst ledger calls) (hrun : ledger.callAll calls = (.ok (), ledger')) :
    ∃ seen', Represents seen' ledger' := by
  refine callAll_induct (P := fun ledger => ∃ seen, Represents seen ledger) ?_ ⟨seen, h⟩ (hkeeps.and hfirst) hrun
  rintro next ledger ledger' ⟨seen, h⟩ ⟨hkeep, hfirst⟩ hcall
  cases next with
  | replay entries => exact ⟨_, h.replay hfirst hcall⟩
  | extend entries => exact ⟨_, extend_spec h.toTracks hcall⟩
  | truncateAbove height =>
    obtain rfl := (Prod.mk.inj hcall).2
    exact ⟨_, h.truncateAbove (h.keeps hkeep)⟩

end Zakura.Ledger
