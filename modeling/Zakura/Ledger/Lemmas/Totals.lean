import Zakura.Ledger.Lemmas.Extend

/-! # The totals a ledger checks

`check_value_totals` reads three maps: the value of every known output, the transaction that spends an
output, and the events in chain order. They depend on the entries seen only, so what the check bounded
before a batch was applied stays bounded. -/

namespace Zakura.Ledger

open List Transparent OrderedMap

/-! ## What the check reads -/

def valueItems (entries : List Entry) : List (Outpoint × Nat) :=
  entries.filterMap fun entry => match entry.2 with
    | .receive e => some (e.outpoint, e.value.toNat)
    | .spend _ => none

def spenderItems (entries : List Entry) : List (Outpoint × Txid) :=
  entries.filterMap fun entry => match entry.2 with
    | .receive _ => none
    | .spend e => some (e.spent, e.spendingTxid)

def heldSpenders (ledger : Ledger) : List (Outpoint × Txid) :=
  ledger.spends.map (fun s => (s.spent, s.spendingTxid)) ++
    ledger.unresolved.map fun u => (u.event.spent, u.event.spendingTxid)

def receivesWith (ledger : Ledger) (entries : List Entry) : OrderedMap Outpoint Nat :=
  (valueItems entries).foldl (fun m x => m.insert x.1 x.2) (ledger.receives.map fun _ utxo => utxo.value.toNat)

def spendersWith (ledger : Ledger) (entries : List Entry) : OrderedMap Outpoint Txid :=
  (heldSpenders ledger ++ spenderItems entries).foldl (fun m x => m.insert x.1 x.2) ∅

def observationsWith (ledger : Ledger) (entries : List Entry) : OrderedMap SortKey TransparentEvent :=
  (entries.map fun entry => (entry.2.sortKey, entry.2)).foldl (fun m x => m.insert x.1 x.2) ledger.observations

/-- The checks of `check_value_totals` on its three maps. -/
structure InRange (receives : OrderedMap Outpoint Nat) (spenders : OrderedMap Outpoint Txid)
    (observations : OrderedMap SortKey TransparentEvent) : Prop where
  running : checkRunning (OrderedMap.vals observations) ∅ 0 = .ok ()
  totals : checkTotals spenders receives.toList ∅ ∅ 0 = .ok ()

variable {entries : List Entry}

theorem receivesWith_eq_foldl (ledger : Ledger) (entries : List Entry) :
    receivesWith ledger entries = (entries.map Prod.snd).foldl (fun m event => match event with
      | .receive e => m.insert e.outpoint e.value.toNat
      | .spend _ => m) (ledger.receives.map fun _ utxo => utxo.value.toNat) := by
  rw [receivesWith, valueItems, foldl_filterMap, foldl_map]
  congr 1
  funext m entry
  obtain ⟨script, event⟩ := entry
  cases event <;> rfl

theorem spendersWith_eq_foldl (ledger : Ledger) (entries : List Entry) :
    spendersWith ledger entries = (entries.map Prod.snd).foldl (fun m event => match event with
      | .receive _ => m
      | .spend e => m.insert e.spent e.spendingTxid)
      ((heldSpenders ledger).foldl (fun m (spent, txid) => m.insert spent txid) (∅ : OrderedMap Outpoint Txid)) := by
  rw [spendersWith, foldl_append, spenderItems, foldl_filterMap, foldl_map]
  congr 1
  funext m entry
  obtain ⟨script, event⟩ := entry
  cases event <;> rfl

theorem checkValueTotals_ok_iff {ledger : Ledger} :
    ledger.checkValueTotals entries = .ok () ↔
      InRange (receivesWith ledger entries) (spendersWith ledger entries) (observationsWith ledger entries) := by
  have hobservations : observationsWith ledger entries =
      (entries.map Prod.snd).foldl (fun m event => m.insert event.sortKey event) ledger.observations := by
    rw [observationsWith, foldl_map, foldl_map]
  have hcheck : ledger.checkValueTotals entries =
      (checkRunning (OrderedMap.vals (observationsWith ledger entries)) ∅ 0 >>= fun _ =>
        checkTotals (spendersWith ledger entries) (receivesWith ledger entries).toList ∅ ∅ 0) := by
    rw [receivesWith_eq_foldl, spendersWith_eq_foldl, hobservations]
    rfl
  rw [hcheck, Except.check_bind_eq_ok]
  exact ⟨fun h => ⟨h.1, h.2⟩, fun h => ⟨h.running, h.totals⟩⟩

/-! ## Entries determine the maps -/

/-- Entries that name one output, or one place in the order, say the same. -/
structure Coherent (seen : Set Entry) : Prop where
  receives : ∀ s r s' r', (s, .receive r) ∈ seen → (s', .receive r') ∈ seen → r.outpoint = r'.outpoint →
    r.value = r'.value
  spends : ∀ s e s' e', (s, .spend e) ∈ seen → (s', .spend e') ∈ seen → e.spent = e'.spent →
    e.spendingTxid = e'.spendingTxid
  observed : ∀ s e s' e', (s, e) ∈ seen → (s', e') ∈ seen → e.sortKey = e'.sortKey → e = e'

theorem Coherent.mono {seen seen' : Set Entry} (h : Coherent seen) (hsub : seen' ⊆ seen) : Coherent seen' where
  receives := fun s r s' r' hr hr' => h.receives s r s' r' (hsub hr) (hsub hr')
  spends := fun s e s' e' he he' => h.spends s e s' e' (hsub he) (hsub he')
  observed := fun s e s' e' he he' => h.observed s e s' e' (hsub he) (hsub he')

variable {seen : Set Entry} {ledger ledger' : Ledger}

theorem Tracks.coherent (h : Tracks seen ledger) : Coherent seen where
  receives := fun _ _ _ _ hr hr' hout => congrArg ReceiveEvent.value (h.receive_eq hr hr' hout).2
  spends := fun _ _ _ _ he he' hspent => congrArg SpendEvent.spendingTxid (h.spend_eq he he' hspent)
  observed := fun _ _ _ _ he he' => h.holds.eq_of_sortKey_eq h.facts he he'

structure Views (seen : Set Entry) (receives : OrderedMap Outpoint Nat) (spenders : OrderedMap Outpoint Txid)
    (observations : OrderedMap SortKey TransparentEvent) : Prop where
  receives : ∀ o v, receives[o]? = some v ↔ ∃ s r, (s, .receive r) ∈ seen ∧ r.outpoint = o ∧ r.value.toNat = v
  spenders : ∀ o t, spenders[o]? = some t ↔ ∃ s e, (s, .spend e) ∈ seen ∧ e.spent = o ∧ e.spendingTxid = t
  observations : ∀ k e, observations[k]? = some e ↔ e.sortKey = k ∧ ∃ s, (s, e) ∈ seen

section Views

variable {R R' : OrderedMap Outpoint Nat} {S S' : OrderedMap Outpoint Txid}
  {O O' : OrderedMap SortKey TransparentEvent}

theorem Views.inRange (h : Views seen R S O) (h' : Views seen R' S' O') (hrange : InRange R S O) :
    InRange R' S' O' := by
  have hR : R = R' := Std.ExtTreeMap.ext_getElem? fun o => Option.ext fun v => by rw [h.receives, h'.receives]
  have hS : S = S' := Std.ExtTreeMap.ext_getElem? fun o => Option.ext fun t => by rw [h.spenders, h'.spenders]
  have hO : O = O' := Std.ExtTreeMap.ext_getElem? fun k => Option.ext fun e => by
    rw [h.observations, h'.observations]
  rwa [← hR, ← hS, ← hO]

end Views

variable {o : Outpoint}

theorem mem_valueItems {v : Nat} :
    (o, v) ∈ valueItems entries ↔ ∃ s r, (s, .receive r) ∈ entries ∧ r.outpoint = o ∧ r.value.toNat = v := by
  simp [valueItems, TransparentEvent.exists]

theorem mem_spenderItems {t : Txid} :
    (o, t) ∈ spenderItems entries ↔ ∃ s e, (s, .spend e) ∈ entries ∧ e.spent = o ∧ e.spendingTxid = t := by
  simp [spenderItems, TransparentEvent.exists]

theorem Tracks.mem_heldSpenders (h : Tracks seen ledger) {t : Txid} :
    (o, t) ∈ heldSpenders ledger ↔ ∃ s e, (s, .spend e) ∈ seen ∧ e.spent = o ∧ e.spendingTxid = t := by
  simp only [heldSpenders, mem_append, mem_map, Prod.mk.injEq]
  constructor
  · intro hmem
    rcases hmem with ⟨c, hc, rfl, rfl⟩ | ⟨u, hu, rfl, rfl⟩
    · obtain ⟨s, e, u, hseen, -, rfl⟩ := h.holds.confirmed c hc
      exact ⟨s, e, hseen, rfl, rfl⟩
    · exact ⟨u.script, u.event, h.holds.unresolved u hu, rfl, rfl⟩
  · intro hmem
    obtain ⟨s, e, hseen, rfl, rfl⟩ := hmem
    rcases h.holds.recorded s e hseen with hin | hopen | hdue
    · obtain ⟨c, hc, hce⟩ := h.holds.mem_spentIndex.mp hin
      exact .inl ⟨c, hc, hce, (h.holds.agrees s e hseen c hc hce).1⟩
    · exact .inr ⟨_, hopen, rfl, rfl⟩
    · simp at hdue

theorem Tracks.views (h : Tracks seen ledger) (hcoherent : Coherent (seen ∪ { x | x ∈ entries })) :
    Views (seen ∪ { x | x ∈ entries }) (receivesWith ledger entries) (spendersWith ledger entries)
      (observationsWith ledger entries) := by
  have hheld : ∀ o v, (ledger.receives.map fun _ utxo => utxo.value.toNat)[o]? = some v ↔
      ∃ s r, (s, .receive r) ∈ seen ∧ r.outpoint = o ∧ r.value.toNat = v := by
    intro o v
    rw [Std.ExtTreeMap.getElem?_map, Option.map_eq_some_iff]
    simp only [h.holds.receives]
    constructor
    · intro hu
      obtain ⟨u, ⟨s, r, hseen, hout, rfl⟩, rfl⟩ := hu
      exact ⟨s, r, hseen, hout, rfl⟩
    · intro hr
      obtain ⟨s, r, hseen, hout, rfl⟩ := hr
      exact ⟨_, ⟨s, r, hseen, hout, rfl⟩, rfl⟩
  refine ⟨?_, ?_, ?_⟩
  · have hfits : Fits (ledger.receives.map fun _ utxo => utxo.value.toNat) (valueItems entries) := by
      refine ⟨?_, ?_⟩
      · intro x hx w hw
        obtain ⟨s, r, hr, hout, hv⟩ := mem_valueItems.mp hx
        obtain ⟨s', r', hr', hout', hv'⟩ := (hheld _ _).mp hw
        rw [← hv, ← hv', hcoherent.receives s' r' s r (.inl hr') (.inr hr) (hout'.trans hout.symm)]
      · intro x hx y hy hxy
        obtain ⟨s, r, hr, hout, hv⟩ := mem_valueItems.mp hx
        obtain ⟨s', r', hr', hout', hv'⟩ := mem_valueItems.mp hy
        rw [← hv, ← hv', hcoherent.receives s r s' r' (.inr hr) (.inr hr') (hout.trans (hxy.trans hout'.symm))]
    intro o v
    rw [receivesWith, hfits.getElem?_foldl_insert, hheld, mem_valueItems]
    simp only [Set.mem_union, Set.mem_ofPred_eq, or_and_right, exists_or]
  · have hmem : ∀ o t, (o, t) ∈ heldSpenders ledger ++ spenderItems entries ↔
        ∃ s e, (s, .spend e) ∈ seen ∪ { x | x ∈ entries } ∧ e.spent = o ∧ e.spendingTxid = t := by
      intro o t
      rw [mem_append, h.mem_heldSpenders, mem_spenderItems]
      simp only [Set.mem_union, Set.mem_ofPred_eq, or_and_right, exists_or]
    have hfits : Fits ∅ (heldSpenders ledger ++ spenderItems entries) := by
      refine ⟨by simp, ?_⟩
      intro x hx y hy hxy
      obtain ⟨s, e, he, hspent, ht⟩ := (hmem _ _).mp hx
      obtain ⟨s', e', he', hspent', ht'⟩ := (hmem _ _).mp hy
      rw [← ht, ← ht', hcoherent.spends s e s' e' he he' (hspent.trans (hxy.trans hspent'.symm))]
    intro o t
    rw [spendersWith, hfits.getElem?_foldl_insert, hmem]
    simp
  · have hfits : Fits ledger.observations (entries.map fun entry => (entry.2.sortKey, entry.2)) := by
      refine ⟨?_, ?_⟩
      · intro x hx w hw
        obtain ⟨⟨s, e⟩, he, rfl⟩ := mem_map.mp hx
        obtain ⟨hkey, s', hw⟩ := (h.observed _ w).mp hw
        exact hcoherent.observed s' w s e (.inl hw) (.inr he) hkey
      · intro x hx y hy hxy
        obtain ⟨⟨s, e⟩, he, rfl⟩ := mem_map.mp hx
        obtain ⟨⟨s', e'⟩, he', rfl⟩ := mem_map.mp hy
        exact hcoherent.observed s e s' e' (.inr he) (.inr he') hxy
    intro k e
    rw [observationsWith, hfits.getElem?_foldl_insert, h.observed]
    constructor
    · intro hk
      rcases hk with ⟨hkey, s, hs⟩ | hmem
      · exact ⟨hkey, s, .inl hs⟩
      · obtain ⟨⟨s, e'⟩, he, heq⟩ := mem_map.mp hmem
        cases heq
        exact ⟨rfl, s, .inr he⟩
    · intro hk
      obtain ⟨rfl, s, hs | hs⟩ := hk
      · exact .inl ⟨rfl, s, hs⟩
      · exact .inr (mem_map.mpr ⟨_, hs, rfl⟩)

def WithinRange (ledger : Ledger) : Prop := ledger.checkValueTotals [] = .ok ()

theorem Tracks.views_self (h : Tracks seen ledger) :
    Views seen (receivesWith ledger []) (spendersWith ledger []) (observationsWith ledger []) := by
  have hset : seen ∪ { x | x ∈ ([] : List Entry) } = seen := by simp
  have hviews : Views (seen ∪ { x | x ∈ [] }) _ _ _ := h.views (by rw [hset]; exact h.coherent)
  rwa [hset] at hviews

theorem Tracks.withinRange_iff (h : Tracks seen ledger) {R : OrderedMap Outpoint Nat} {S : OrderedMap Outpoint Txid}
    {O : OrderedMap SortKey TransparentEvent} (hviews : Views seen R S O) : WithinRange ledger ↔ InRange R S O := by
  rw [WithinRange, checkValueTotals_ok_iff]
  exact ⟨h.views_self.inRange hviews, hviews.inRange h.views_self⟩

/-- The ledger tracks the entries seen, and they pass the checks of a batch. -/
structure Sound (seen : Set Entry) (ledger : Ledger) : Prop extends Tracks seen ledger where
  consistent : checkTransactionConsistency ledger.observations.vals = .ok ()
  inRange : WithinRange ledger

theorem Sound.of_replay (h : Tracks seen ledger) (hreplay : ledger.replay entries = (.ok (), ledger')) :
    Sound (seen ∪ { x | x ∈ entries }) ledger' := by
  have hnext := replay_spec h hreplay
  obtain ⟨hfacts, -, htotals⟩ := checkBatch_ok_iff.mp (checkBatch_of_replay hreplay)
  refine ⟨hnext, checkTransactionConsistency_subset hfacts ?_, ?_⟩
  · intro e he
    obtain ⟨k, hk⟩ := mem_vals.mp he
    obtain ⟨rfl, s, hseen | hentry⟩ := (hnext.observed k e).mp hk
    · exact mem_append_left _ (mem_vals.mpr ⟨_, (h.observed _ e).mpr ⟨rfl, s, hseen⟩⟩)
    · exact mem_append_right _ (mem_map_of_mem hentry)
  · exact (hnext.withinRange_iff (h.views hnext.coherent)).mpr (checkValueTotals_ok_iff.mp htotals)

theorem Sound.of_tracks (h : Sound seen ledger) (h' : Tracks seen ledger') : Sound seen ledger' := by
  have hobservations : ledger'.observations = ledger.observations :=
    Std.ExtTreeMap.ext_getElem? fun k => Option.ext fun e => by rw [h'.observed, h.observed]
  refine ⟨h', by rw [hobservations]; exact h.consistent, ?_⟩
  exact (h'.withinRange_iff h.views_self).mpr ((h.withinRange_iff h.views_self).mp h.inRange)

theorem Sound.of_extend (h : Tracks seen ledger) (hextend : ledger.extend entries = (.ok (), ledger')) :
    Sound (seen ∪ { x | x ∈ entries }) ledger' := by
  obtain ⟨replayed, hreplay⟩ := replay_of_extend hextend
  exact (Sound.of_replay h hreplay).of_tracks (extend_spec h hextend).toTracks

theorem sound_new : Sound ∅ new := by
  refine ⟨represents_new.toTracks, ?_, ?_⟩
  · have hnil : (new : Ledger).observations.vals = [] := by decide +kernel
    rw [hnil]
    rfl
  · unfold WithinRange
    decide +kernel

end Zakura.Ledger
