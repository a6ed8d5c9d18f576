import Zakura.Ledger.Lemmas.Represents

/-! # Extending keeps the representation -/

namespace Zakura.Ledger

open List Transparent

def Observed (seen : Set Entry) (ledger : Ledger) : Prop :=
  ∀ k e, ledger.observations[k]? = some e ↔ e.sortKey = k ∧ ∃ s, (s, e) ∈ seen

def eventsOf (seen : Set Entry) : Set TransparentEvent := { e | ∃ s, (s, e) ∈ seen }

variable {seen : Set Entry} {due : List SpendEntry} {ledger ledger' : Ledger}

variable {s s' : Bytes}

/-- Events of one sort key are equal: the key determines a spend up to its metadata, and a receive up to its
metadata and what the ledger compares. -/
theorem Holds.eq_of_sortKey_eq (h : Holds seen due ledger) (hfacts : FactsAgree (eventsOf seen)) {e e' : TransparentEvent}
    (he : (s, e) ∈ seen) (he' : (s', e') ∈ seen) (hkey : e.sortKey = e'.sortKey) : e = e' := by
  have htxid : e.txid = e'.txid := by
    have hk := congrArg SortKey.txid hkey
    cases e <;> cases e' <;> exact hk
  have hsame := hfacts e ⟨s, he⟩ e' ⟨s', he'⟩ htxid
  simp only [TransparentEvent.facts, TransparentEvent.Facts.mk.injEq] at hsame
  obtain ⟨hheight, hposition, hmetadata, hcoinbase⟩ := hsame
  cases e with
  | receive r =>
    cases e' with
    | receive r' =>
      simp only [TransparentEvent.sortKey, SortKey.mk.injEq] at hkey
      obtain ⟨-, -, -, hid, hout, -, -⟩ := hkey
      have hpoint : r'.outpoint = r.outpoint := Outpoint.ext hid.symm hout.symm
      have hr := (h.receives r.outpoint _).mpr ⟨s, r, he, rfl, rfl⟩
      have hr' := (h.receives r.outpoint _).mpr ⟨s', r', he', hpoint, rfl⟩
      have hvalue := congrArg Utxo.value (Option.some.inj (hr.symm.trans hr'))
      simp only [TransparentEvent.height, TransparentEvent.transactionIndex, TransparentEvent.metadata,
        TransparentEvent.coinbase, Utxo.ofReceive] at hheight hposition hmetadata hcoinbase hvalue
      cases r
      cases r'
      simp_all
    | spend p => simp [TransparentEvent.sortKey] at hkey
  | spend p =>
    cases e' with
    | receive r => simp [TransparentEvent.sortKey] at hkey
    | spend p' =>
      simp only [TransparentEvent.sortKey, SortKey.mk.injEq] at hkey
      simp only [TransparentEvent.metadata] at hmetadata
      cases p
      cases p'
      simp_all

/-! ## A batch -/

theorem Holds.apply (h : Holds seen (spendEntries (entry :: entries)) ledger)
    (happly : ledger.apply entry.1 entry.2 = .ok ledger') :
    Holds (insert entry seen) (spendEntries entries) (ledger'.observe entry.2) := by
  obtain ⟨script, event⟩ := entry
  have hobserve : ∀ {seen' : Set Entry} {due' : List SpendEntry}, Holds seen' due' ledger' →
      Holds seen' due' (ledger'.observe event) := fun h' => { h' with }
  cases event with
  | receive receive => exact hobserve (Holds.applyReceive h happly)
  | spend spend => exact hobserve (Holds.applySpend h happly)

variable {script : Bytes}

theorem applyReceive_observations {event : ReceiveEvent} (h : ledger.applyReceive script event = .ok ledger') :
    ledger'.observations = ledger.observations := by
  rw [applyReceive] at h
  split at h
  · split_ifs at h
    rw [Except.ok.inj h]
  · rw [← Except.ok.inj h]

theorem applySpend_observations {event : SpendEvent} (h : ledger.applySpend script event = .ok ledger') :
    ledger'.observations = ledger.observations := by
  rw [applySpend] at h
  split at h
  · split_ifs at h
    rw [Except.ok.inj h]
  · split at h
    · rw [← Except.ok.inj h]
    · simp only at h
      split_ifs at h
      · rw [Except.ok.inj h]
      · rw [← Except.ok.inj h]

theorem Observed.observe {entry : Entry} (h : Observed seen ledger)
    (hsame : ledger'.observations = ledger.observations)
    (hunique : ∀ s e, (s, e) ∈ seen → e.sortKey = entry.2.sortKey → e = entry.2) :
    Observed (insert entry seen) (ledger'.observe entry.2) := by
  intro k e
  simp only [Ledger.observe, hsame, OrderedMap.getElem?_insert_eq]
  by_cases hk : entry.2.sortKey = k
  · rw [if_pos hk, Option.some.injEq]
    constructor
    · intro he
      subst he
      exact ⟨hk, entry.1, .inl rfl⟩
    · intro he
      obtain ⟨hkey, s, heq | hmem⟩ := he
      · rw [← heq]
      · exact (hunique s e hmem (hkey.trans hk.symm)).symm
  · rw [if_neg hk, h k e]
    constructor
    · intro he
      obtain ⟨hkey, s, hmem⟩ := he
      exact ⟨hkey, s, .inr hmem⟩
    · intro he
      obtain ⟨hkey, s, heq | hmem⟩ := he
      · rw [← heq] at hk
        exact absurd hkey hk
      · exact ⟨hkey, s, hmem⟩

variable {entries : List Entry}

theorem applyAll_spec (h : Holds seen (spendEntries entries) ledger) (hobserved : Observed seen ledger)
    (hfacts : FactsAgree (eventsOf (seen ∪ { x | x ∈ entries }))) (happly : applyAll entries ledger = (.ok (), ledger')) :
    Holds (seen ∪ { x | x ∈ entries }) [] ledger' ∧ Observed (seen ∪ { x | x ∈ entries }) ledger' := by
  induction entries generalizing seen ledger with
  | nil =>
    obtain rfl := (Prod.mk.inj happly).2
    simpa [spendEntries] using And.intro h hobserved
  | cons entry entries ih =>
    have hset : seen ∪ { x | x ∈ entry :: entries } = insert entry seen ∪ { x | x ∈ entries } := by
      ext x
      simp only [Set.mem_union, Set.mem_ofPred_eq, mem_cons, Set.mem_insert_iff]
      tauto
    obtain ⟨script, event⟩ := entry
    rw [applyAll] at happly
    cases hstep : ledger.apply script event with
    | error error => simp [hstep] at happly
    | ok applied =>
      simp only [hstep] at happly
      rw [hset] at hfacts ⊢
      have hnext := h.apply hstep
      have hsame : applied.observations = ledger.observations := by
        cases event with
        | receive receive => exact applyReceive_observations hstep
        | spend spend => exact applySpend_observations hstep
      have hunique : ∀ s e, (s, e) ∈ seen → e.sortKey = event.sortKey → e = event := by
        intro s e hmem hkey
        refine hnext.eq_of_sortKey_eq ?_ (.inr hmem) (.inl rfl) hkey
        intro a ha b hb
        obtain ⟨sa, ha⟩ := ha
        obtain ⟨sb, hb⟩ := hb
        exact hfacts a ⟨sa, .inl ha⟩ b ⟨sb, .inl hb⟩
      exact ih hnext (hobserved.observe hsame hunique) hfacts happly

/-- The ledger tracks the entries seen: nothing is due. -/
structure Tracks (seen : Set Entry) (ledger : Ledger) : Prop where
  holds : Holds seen [] ledger
  observed : Observed seen ledger
  facts : FactsAgree (eventsOf seen)

/-- The ledger represents the entries seen: only spends of unknown outputs are open. -/
structure Represents (seen : Set Entry) (ledger : Ledger) : Prop extends Tracks seen ledger where
  resolved : ∀ u ∈ ledger.unresolved, u.event.spent ∉ ledger.receives

theorem Tracks.receive_eq (h : Tracks seen ledger) {r r' : ReceiveEvent} (hr : (s, .receive r) ∈ seen)
    (hr' : (s', .receive r') ∈ seen) (hout : r.outpoint = r'.outpoint) :
    s = s' ∧ r = r' := by
  have hfirst := (h.holds.receives r.outpoint _).mpr ⟨s, r, hr, rfl, rfl⟩
  have hsecond := (h.holds.receives r.outpoint _).mpr ⟨s', r', hr', hout.symm, rfl⟩
  have hutxo := Option.some.inj (hfirst.symm.trans hsecond)
  have htxid : r.txid = r'.txid := congrArg Outpoint.txid hout
  have hfacts := h.facts (.receive r) ⟨s, hr⟩ (.receive r') ⟨s', hr'⟩ htxid
  simp only [TransparentEvent.facts, TransparentEvent.Facts.mk.injEq, TransparentEvent.height,
    TransparentEvent.transactionIndex] at hfacts
  have hindex : r.outputIndex = r'.outputIndex := congrArg Outpoint.index hout
  have hkey : (TransparentEvent.receive r).sortKey = (TransparentEvent.receive r').sortKey := by
    simp only [TransparentEvent.sortKey, hfacts, htxid, hindex]
  exact ⟨congrArg Utxo.script hutxo, TransparentEvent.receive.inj (h.holds.eq_of_sortKey_eq h.facts hr hr' hkey)⟩

/-- One output is spent by one event, whatever scripts it is indexed under. -/
theorem Tracks.spend_eq (h : Tracks seen ledger) {e e' : SpendEvent} (he : (s, .spend e) ∈ seen)
    (he' : (s', .spend e') ∈ seen) (hspent : e.spent = e'.spent) : e = e' := by
  have hconfirmed : e.spent ∈ ledger.spentIndex → e = e' := by
    intro hin
    obtain ⟨c, hc, hce⟩ := h.holds.mem_spentIndex.mp hin
    obtain ⟨htxid, hinput, -⟩ := h.holds.agrees s e he c hc hce
    obtain ⟨htxid', hinput', -⟩ := h.holds.agrees s' e' he' c hc (hce.trans hspent)
    rw [htxid] at htxid'
    rw [hinput] at hinput'
    have hfacts := h.facts (.spend e) ⟨s, he⟩ (.spend e') ⟨s', he'⟩ htxid'
    simp only [TransparentEvent.facts, TransparentEvent.Facts.mk.injEq, TransparentEvent.height,
      TransparentEvent.transactionIndex] at hfacts
    have hout := congrArg Outpoint.txid hspent
    have hindex := congrArg Outpoint.index hspent
    simp only [SpendEvent.spent] at hout hindex
    have hkey : (TransparentEvent.spend e).sortKey = (TransparentEvent.spend e').sortKey := by
      simp only [TransparentEvent.sortKey, hfacts, htxid', hinput', hout, hindex]
    exact TransparentEvent.spend.inj (h.holds.eq_of_sortKey_eq h.facts he he' hkey)
  rcases h.holds.recorded s e he with hin | hopen
  · exact hconfirmed hin
  · rcases h.holds.recorded s' e' he' with hin' | hopen'
    · exact hconfirmed (hspent ▸ hin')
    · exact congrArg Prod.snd (h.holds.open_agree _ hopen _ hopen' hspent)

theorem represents_new : Represents ∅ new where
  holds := holds_new
  observed := by simp [Observed, new]
  facts := by simp [FactsAgree, eventsOf]
  resolved := by simp [new]

theorem Tracks.holds_batch {part : List Entry} (h : Tracks seen ledger) (hcheck : ledger.checkBatch entries = .ok ())
    (hpart : ∀ x ∈ part, x ∈ entries) :
    Holds seen (spendEntries part) ledger := by
  obtain ⟨-, hspends, -⟩ := checkBatch_ok hcheck
  refine { h.holds with recorded := ?_, open_agree := ?_ }
  · intro s e hseen
    rcases h.holds.recorded s e hseen with hin | hopen | hin
    · exact .inl hin
    · exact .inr (.inl hopen)
    · simp at hin
  · have hopen : ∀ x ∈ openSpends ledger (spendEntries part),
        x ∈ ledger.unresolved.map (fun u => (u.script, u.event)) ++ spendEntries entries := by
      intro x hx
      rcases hx with hx | hx
      · exact mem_append_left _ (mem_map.mpr ⟨_, hx, rfl⟩)
      · exact mem_append_right _ (mem_spendEntries.mpr (hpart _ (mem_spendEntries.mp hx)))
    exact fun x hx y hy => hspends x (hopen x hx) y (hopen y hy)

theorem Tracks.facts_batch (h : Tracks seen ledger) (hcheck : ledger.checkBatch entries = .ok ()) :
    FactsAgree (eventsOf (seen ∪ { x | x ∈ entries })) := by
  obtain ⟨hfacts, -, -⟩ := checkBatch_ok hcheck
  have hmem : ∀ e ∈ eventsOf (seen ∪ { x | x ∈ entries }),
      e ∈ ledger.observations.vals ++ entries.map Prod.snd := by
    intro e he
    obtain ⟨s, hseen | hentry⟩ := he
    · refine mem_append_left _ (OrderedMap.mem_vals.mpr ⟨e.sortKey, ?_⟩)
      exact (h.observed _ e).mpr ⟨rfl, s, hseen⟩
    · exact mem_append_right _ (mem_map_of_mem hentry)
  exact fun a ha b hb => hfacts a (hmem a ha) b (hmem b hb)

theorem Tracks.applyAll_batch {part : List Entry} (h : Tracks seen ledger) (hcheck : ledger.checkBatch entries = .ok ())
    (hpart : ∀ x ∈ part, x ∈ entries) (happly : applyAll part ledger = (.ok (), ledger')) :
    Tracks (seen ∪ { x | x ∈ part }) ledger' := by
  have hfacts : FactsAgree (eventsOf (seen ∪ { x | x ∈ part })) := by
    have hsub : eventsOf (seen ∪ { x | x ∈ part }) ⊆ eventsOf (seen ∪ { x | x ∈ entries }) := by
      intro e he
      obtain ⟨s, hs⟩ := he
      exact ⟨s, hs.imp_right (hpart _)⟩
    exact fun a ha b hb => h.facts_batch hcheck a (hsub ha) b (hsub hb)
  obtain ⟨hholds, hobserved⟩ := applyAll_spec (h.holds_batch hcheck hpart) h.observed hfacts happly
  exact ⟨hholds, hobserved, hfacts⟩

def inOrder (entries : List Entry) : List Entry := entries.insertionSort fun a b => a.2.sortKey ≤ b.2.sortKey

theorem mem_inOrder {x : Entry} : x ∈ inOrder entries ↔ x ∈ entries := mem_insertionSort _

theorem replay_of_checkBatch (hcheck : ledger.checkBatch entries = .ok ()) :
    ledger.replay entries = applyAll (inOrder entries) ledger := by
  rw [replay, hcheck]
  rfl

theorem checkBatch_of_replay (hreplay : ledger.replay entries = (.ok (), ledger')) :
    ledger.checkBatch entries = .ok () := by
  cases hcheck : ledger.checkBatch entries with
  | error error =>
    rw [replay, hcheck] at hreplay
    simp at hreplay
  | ok u => rfl

theorem replay_spec (h : Tracks seen ledger) (hreplay : ledger.replay entries = (.ok (), ledger')) :
    Tracks (seen ∪ { x | x ∈ entries }) ledger' := by
  have hcheck := checkBatch_of_replay hreplay
  rw [replay_of_checkBatch hcheck] at hreplay
  have htracks := h.applyAll_batch hcheck (fun x => mem_inOrder.mp) hreplay
  simpa only [mem_inOrder] using htracks

/-! ## Resolving -/

theorem applySpend_frame {event : SpendEvent} (hknown : event.spent ∈ ledger.receives)
    (h : ledger.applySpend script event = .ok ledger') :
    ledger'.unresolved = ledger.unresolved ∧ ledger'.receives = ledger.receives := by
  obtain ⟨utxo, hutxo⟩ := OrderedMap.mem_iff_exists.mp hknown
  rw [applySpend] at h
  split at h
  · split_ifs at h
    rw [Except.ok.inj h]
    exact ⟨rfl, rfl⟩
  · simp only [hutxo, Except.ok.injEq] at h
    subst h
    exact ⟨rfl, rfl⟩

/-- Every pending spend was seen before, so none of them is refused. -/
theorem resolveLoop_spec {pending : List UnresolvedSpend}
    (h : Holds seen (pending.map fun u => (u.script, u.event)) ledger)
    (hpending : ∀ u ∈ pending, (u.script, .spend u.event) ∈ seen)
    (hresolved : ∀ u ∈ ledger.unresolved, u.event.spent ∉ ledger.receives) :
    ∃ ledger', resolveLoop pending ledger = (.ok (), ledger') ∧ Holds seen [] ledger' ∧
      (∀ u ∈ ledger'.unresolved, u.event.spent ∉ ledger'.receives) ∧ ledger'.observations = ledger.observations := by
  induction pending generalizing ledger with
  | nil => exact ⟨ledger, rfl, h, hresolved, rfl⟩
  | cons unresolved pending ih =>
    have hfirst := hpending unresolved mem_cons_self
    have hseen : insert (unresolved.script, .spend unresolved.event) seen = seen := Set.insert_eq_of_mem hfirst
    have hrest : ∀ u ∈ pending, (u.script, .spend u.event) ∈ seen :=
      fun u hu => hpending u (mem_cons_of_mem _ hu)
    rw [resolveLoop]
    by_cases hknown : unresolved.event.spent ∈ ledger.receives
    · rw [if_pos hknown]
      cases hstep : ledger.applySpend unresolved.script unresolved.event with
      | error error =>
        have hcontra : Contradicts ledger (unresolved.script, .spend unresolved.event) :=
          h.apply_eq_error_iff.mp ⟨error, hstep⟩
        obtain ⟨c, hc, hspent, hdiffer⟩ := hcontra
        exact absurd (h.agrees _ _ hfirst c hc hspent) hdiffer
      | ok applied =>
        have hnext := Holds.applySpend h hstep
        rw [hseen] at hnext
        obtain ⟨hunresolved, hreceives⟩ := applySpend_frame hknown hstep
        have hopen : ∀ u ∈ applied.unresolved, u.event.spent ∉ applied.receives := by
          rw [hunresolved, hreceives]
          exact hresolved
        obtain ⟨ledger', hloop, hholds, hdone, hobserved⟩ := ih hnext hrest hopen
        exact ⟨ledger', hloop, hholds, hdone, hobserved.trans (applySpend_observations hstep)⟩
    · rw [if_neg hknown]
      have hunspent : unresolved.event.spent ∉ ledger.spentIndex := by
        intro hspent
        obtain ⟨u, hu⟩ := h.receives_of_spent hspent
        exact hknown (OrderedMap.mem_of_getElem? hu)
      have hnext := Holds.spend_parked h hunspent (ledger.unresolved ++ [unresolved]) (fun u => by simp)
      rw [hseen] at hnext
      have hopen : ∀ u ∈ ledger.unresolved ++ [unresolved], u.event.spent ∉ ledger.receives := by
        intro u hu
        rcases mem_append.mp hu with hu | hu
        · exact hresolved u hu
        · rw [mem_singleton.mp hu]
          exact hknown
      exact ih hnext hrest hopen

theorem resolveUnresolved_spec (h : Tracks seen ledger) :
    ∃ ledger', ledger.resolveUnresolved = (.ok (), ledger') ∧ Represents seen ledger' := by
  have hpending : Holds seen (ledger.unresolved.map fun u => (u.script, u.event)) { ledger with unresolved := [] } := by
    have hopen : ∀ x, x ∈ openSpends { ledger with unresolved := [] }
        (ledger.unresolved.map fun u => (u.script, u.event)) ↔ x ∈ openSpends ledger [] := by
      intro x
      obtain ⟨s, e⟩ := x
      simp only [openSpends, Set.mem_ofPred_eq, mem_map, Prod.mk.injEq, not_mem_nil, false_or, or_false]
      constructor
      · intro hu
        obtain ⟨⟨event, script⟩, hu, rfl, rfl⟩ := hu
        exact hu
      · intro hu
        exact ⟨_, hu, rfl, rfl⟩
    refine { h.holds with recorded := ?_, unresolved := by simp, open_agree := ?_ }
    · intro s e hseen
      rw [hopen]
      exact h.holds.recorded s e hseen
    · exact fun x hx y hy => h.holds.open_agree x ((hopen x).mp hx) y ((hopen y).mp hy)
  obtain ⟨ledger', hloop, hdone, hresolved, hsame⟩ := resolveLoop_spec hpending h.holds.unresolved (by simp)
  refine ⟨ledger', hloop, ⟨hdone, ?_, h.facts⟩, hresolved⟩
  intro k e
  rw [hsame]
  exact h.observed k e

theorem extend_of_replay {replayed : Ledger} (h : Tracks seen ledger) (hreplay : ledger.replay entries = (.ok (), replayed))
    :
    ∃ ledger', ledger.extend entries = (.ok (), ledger') ∧ Represents (seen ∪ { x | x ∈ entries }) ledger' := by
  obtain ⟨ledger', hresolve, hdone⟩ := resolveUnresolved_spec (replay_spec h hreplay)
  exact ⟨ledger', by rw [extend, hreplay]; exact hresolve, hdone⟩

theorem replay_of_extend (hextend : ledger.extend entries = (.ok (), ledger')) :
    ∃ replayed, ledger.replay entries = (.ok (), replayed) := by
  cases hreplay : ledger.replay entries with
  | mk result replayed =>
    cases result with
    | error error =>
      rw [extend, hreplay] at hextend
      simp at hextend
    | ok u => exact ⟨replayed, rfl⟩

theorem extend_spec (h : Tracks seen ledger) (hextend : ledger.extend entries = (.ok (), ledger')) :
    Represents (seen ∪ { x | x ∈ entries }) ledger' := by
  obtain ⟨replayed, hreplay⟩ := replay_of_extend hextend
  obtain ⟨extended, hok, hdone⟩ := extend_of_replay h hreplay
  rw [hok, Prod.mk.injEq] at hextend
  rwa [← hextend.2]

theorem flatten_cons_eq (entries : List Entry) (batches : List (List Entry)) :
    { x | x ∈ (entries :: batches).flatten } = { x | x ∈ entries } ∪ { x | x ∈ batches.flatten } := by
  ext x
  simp

/-- A run of accepted batches keeps what one accepted batch keeps. -/
theorem extendAll_induct {P : Set Entry → Ledger → Prop} {batches : List (List Entry)}
    (hstep : ∀ {seen ledger entries ledger'}, P seen ledger → ledger.extend entries = (.ok (), ledger') →
      P (seen ∪ { x | x ∈ entries }) ledger')
    (h : P seen ledger) (hextend : ledger.extendAll batches = (.ok (), ledger')) :
    P (seen ∪ { x | x ∈ batches.flatten }) ledger' := by
  induction batches generalizing seen ledger with
  | nil =>
    obtain rfl := (Prod.mk.inj hextend).2
    simpa using h
  | cons entries batches ih =>
    rw [extendAll] at hextend
    cases hfirst : ledger.extend entries with
    | mk result extended =>
      cases result with
      | error error => simp [hfirst] at hextend
      | ok u =>
        simp only [hfirst] at hextend
        have hrest := ih (hstep h hfirst) hextend
        rwa [Set.union_assoc, ← flatten_cons_eq] at hrest

theorem extendAll_spec {batches : List (List Entry)} (h : Represents seen ledger)
    (hextend : ledger.extendAll batches = (.ok (), ledger')) : Represents (seen ∪ { x | x ∈ batches.flatten }) ledger' :=
  extendAll_induct (fun h => extend_spec h.toTracks) h hextend

end Zakura.Ledger
