import Zakura.Ledger.Lemmas.Checks

/-! # A ledger represents the entries it was given

The invariant relates the ledger to the set of entries seen so far. Spends that are still to be applied, or
applied again, are carried along as `due`. -/

namespace Zakura.Ledger

open List Transparent

def ConfirmedSpend.Agrees (c : ConfirmedSpend) (e : SpendEvent) : Prop :=
  c.spendingTxid = e.spendingTxid ∧ c.inputIndex = e.inputIndex ∧ c.height = e.height

/-- The entry contradicts a receive or a confirmed spend the ledger holds. -/
def Contradicts (ledger : Ledger) : Entry → Prop
  | (script, .receive receive) => ∃ u, ledger.receives[receive.outpoint]? = some u ∧ u ≠ .ofReceive script receive
  | (_, .spend spend) => ∃ c ∈ ledger.spends, c.spent = spend.spent ∧ ¬ c.Agrees spend

def openSpends (ledger : Ledger) (due : List SpendEntry) : Set SpendEntry :=
  { x | ⟨x.2, x.1⟩ ∈ ledger.unresolved ∨ x ∈ due }

/-- The ledger's outputs and spends are those of the entries seen. -/
structure Holds (seen : Set Entry) (due : List SpendEntry) (ledger : Ledger) : Prop where
  receives : ∀ o u, ledger.receives[o]? = some u ↔
    ∃ s r, (s, .receive r) ∈ seen ∧ r.outpoint = o ∧ Utxo.ofReceive s r = u
  utxos : ∀ o : Outpoint, ledger.utxos[o]? = if o ∈ ledger.spentIndex then none else ledger.receives[o]?
  index : OrderedMap.IsIndex ledger.spentIndex (ledger.spends.map (·.spent))
  confirmed : ∀ c ∈ ledger.spends, ∃ s e u, (s, .spend e) ∈ seen ∧ ledger.receives[e.spent]? = some u ∧
    c = .ofSpend e u
  recorded : ∀ s e, (s, .spend e) ∈ seen → e.spent ∈ ledger.spentIndex ∨ (s, e) ∈ openSpends ledger due
  unresolved : ∀ u ∈ ledger.unresolved, (u.script, .spend u.event) ∈ seen
  agrees : ∀ s e, (s, .spend e) ∈ seen → ∀ c ∈ ledger.spends, c.spent = e.spent → c.Agrees e
  open_agree : SpendsAgree (openSpends ledger due)

variable {seen : Set Entry} {due : List SpendEntry} {ledger : Ledger} {script : Bytes} {event : SpendEvent}

theorem holds_new : Holds ∅ [] new where
  receives := by simp [new]
  utxos := by simp [new]
  index := OrderedMap.isIndex_empty
  confirmed := by simp [new]
  recorded := by simp
  unresolved := by simp [new]
  agrees := by simp
  open_agree := by simp [SpendsAgree, openSpends, new]

namespace Holds

variable {o : Outpoint}

theorem mem_spentIndex (h : Holds seen due ledger) :
    o ∈ ledger.spentIndex ↔ ∃ c ∈ ledger.spends, c.spent = o := by
  rw [h.index.mem_iff, mem_map]

variable {c : ConfirmedSpend}

theorem spends_eq (h : Holds seen due ledger) {d : ConfirmedSpend} (hc : c ∈ ledger.spends) (hd : d ∈ ledger.spends)
    (hspent : c.spent = d.spent) : c = d :=
  inj_on_of_nodup_map h.index.nodup hc hd hspent

theorem receives_of_spent (h : Holds seen due ledger) (ho : o ∈ ledger.spentIndex) :
    ∃ u, ledger.receives[o]? = some u := by
  obtain ⟨c, hc, rfl⟩ := h.mem_spentIndex.mp ho
  obtain ⟨_, e, u, -, hu, rfl⟩ := h.confirmed c hc
  exact ⟨u, hu⟩

/-! ## Receives -/

variable {ledger' : Ledger}

theorem applyReceive (h : Holds seen due ledger) {script : Bytes} {event : ReceiveEvent}
    (happly : ledger.applyReceive script event = .ok ledger') :
    Holds (insert (script, .receive event) seen) due ledger' := by
  rw [Ledger.applyReceive] at happly
  cases hknown : ledger.receives[event.outpoint]? with
  | some existing =>
    simp only [hknown] at happly
    split_ifs at happly with hsame
    obtain rfl := Except.ok.inj happly
    have hexisting : existing = Utxo.ofReceive script event := not_not.mp hsame
    refine { h with receives := ?_, confirmed := ?_, recorded := ?_, unresolved := ?_, agrees := ?_ }
    · intro o u
      rw [h.receives o u]
      constructor
      · intro hr
        obtain ⟨s, r, hmem, hrest⟩ := hr
        exact ⟨s, r, .inr hmem, hrest⟩
      · intro hr
        obtain ⟨s, r, hmem, rfl, rfl⟩ := hr
        rcases hmem with heq | hmem
        · cases heq
          exact (h.receives _ _).mp (by rw [hknown, hexisting])
        · exact ⟨s, r, hmem, rfl, rfl⟩
    · intro c hc
      obtain ⟨s, e, u, hmem, hrest⟩ := h.confirmed c hc
      exact ⟨s, e, u, .inr hmem, hrest⟩
    · intro s e hmem
      exact h.recorded s e (by simpa using hmem)
    · intro u hu
      exact .inr (h.unresolved u hu)
    · intro s e hmem
      exact h.agrees s e (by simpa using hmem)
  | none =>
    simp only [hknown, Except.ok.injEq] at happly
    subst happly
    have hunspent : event.outpoint ∉ ledger.spentIndex := by
      intro hspent
      obtain ⟨u, hu⟩ := h.receives_of_spent hspent
      simp [hknown] at hu
    refine { receives := ?_, utxos := ?_, index := h.index, confirmed := ?_, recorded := ?_, unresolved := ?_,
             agrees := ?_, open_agree := h.open_agree }
    · intro o u
      rw [OrderedMap.getElem?_insert_eq]
      by_cases ho : event.outpoint = o
      · subst ho
        rw [if_pos rfl, Option.some.injEq]
        constructor
        · intro hu
          exact ⟨script, event, .inl rfl, rfl, hu⟩
        · intro hr
          obtain ⟨s, r, hmem, hout, hu⟩ := hr
          rcases hmem with heq | hmem
          · cases heq
            exact hu
          · have hsome := (h.receives _ u).mpr ⟨s, r, hmem, hout, hu⟩
            simp [hknown] at hsome
      · rw [if_neg ho, h.receives o u]
        constructor
        · intro hr
          obtain ⟨s, r, hmem, hrest⟩ := hr
          exact ⟨s, r, .inr hmem, hrest⟩
        · intro hr
          obtain ⟨s, r, hmem, hout, hu⟩ := hr
          rcases hmem with heq | hmem
          · cases heq
            exact absurd hout ho
          · exact ⟨s, r, hmem, hout, hu⟩
    · intro o
      simp only [OrderedMap.getElem?_insert_eq]
      by_cases ho : event.outpoint = o
      · subst ho
        simp [hunspent]
      · simpa [ho] using h.utxos o
    · intro c hc
      obtain ⟨s, e, u, hmem, hu, rfl⟩ := h.confirmed c hc
      have hne : event.outpoint ≠ e.spent := by
        intro heq
        rw [← heq, hknown] at hu
        simp at hu
      exact ⟨s, e, u, .inr hmem, by simpa [hne] using hu, rfl⟩
    · intro s e hmem
      exact h.recorded s e (by simpa using hmem)
    · intro u hu
      exact .inr (h.unresolved u hu)
    · intro s e hmem
      exact h.agrees s e (by simpa using hmem)

/-! ## Spends -/

theorem spend_known (h : Holds seen ((script, event) :: due) ledger) (hc : c ∈ ledger.spends)
    (hspent : c.spent = event.spent) (hagrees : c.Agrees event) :
    Holds (insert (script, .spend event) seen) due ledger := by
  have hmem := h.mem_spentIndex.mpr ⟨c, hc, hspent⟩
  refine { h with receives := ?_, confirmed := ?_, recorded := ?_, unresolved := ?_, agrees := ?_, open_agree := ?_ }
  · intro o u
    simpa using h.receives o u
  · intro d hd
    obtain ⟨s, e, u, hseen, hrest⟩ := h.confirmed d hd
    exact ⟨s, e, u, .inr hseen, hrest⟩
  · intro s e hseen
    rcases hseen with heq | hseen
    · cases heq
      exact .inl hmem
    · rcases h.recorded s e hseen with hin | hopen | hin
      · exact .inl hin
      · exact .inr (.inl hopen)
      · rcases mem_cons.mp hin with heq | hin
        · cases heq
          exact .inl hmem
        · exact .inr (.inr hin)
  · intro u hu
    exact .inr (h.unresolved u hu)
  · intro s e hseen d hd hde
    rcases hseen with heq | hseen
    · cases heq
      rw [h.spends_eq hd hc (hde.trans hspent.symm)]
      exact hagrees
    · exact h.agrees s e hseen d hd hde
  · intro x hx y hy hxy
    exact h.open_agree x (hx.imp_right (mem_cons_of_mem _)) y (hy.imp_right (mem_cons_of_mem _)) hxy

theorem spend_confirmed (h : Holds seen ((script, event) :: due) ledger) {utxo : Utxo}
    (hunspent : event.spent ∉ ledger.spentIndex) (hutxo : ledger.receives[event.spent]? = some utxo) :
    Holds (insert (script, .spend event) seen) due
      { ledger with
        utxos := ledger.utxos.erase event.spent
        spentIndex := ledger.spentIndex.insert event.spent ledger.spends.length
        spends := ledger.spends ++ [.ofSpend event utxo] } := by
  -- Every spend of this output seen before is still open, so it is this one.
  have hsame : ∀ s e, (s, .spend e) ∈ seen → e.spent = event.spent → e = event := by
    intro s e hseen hspent
    rcases h.recorded s e hseen with hin | hopen
    · exact absurd (hspent ▸ hin) hunspent
    · exact congrArg Prod.snd
        (h.open_agree (s, e) hopen (script, event) (.inr mem_cons_self) hspent)
  refine { receives := ?_, utxos := ?_, index := ?_, confirmed := ?_, recorded := ?_, unresolved := ?_,
           agrees := ?_, open_agree := ?_ }
  · intro o u
    simpa using h.receives o u
  · intro o
    simp only [OrderedMap.getElem?_erase_eq, Std.ExtTreeMap.mem_insert, compare_eq_iff_eq]
    by_cases ho : event.spent = o
    · simp [ho]
    · simpa [ho] using h.utxos o
  · have hlength : ledger.spends.length = (ledger.spends.map (·.spent)).length := (length_map _).symm
    rw [map_append, hlength]
    exact h.index.append hunspent
  · intro c hc
    rcases mem_append.mp hc with hc | hc
    · obtain ⟨s, e, u, hseen, hrest⟩ := h.confirmed c hc
      exact ⟨s, e, u, .inr hseen, hrest⟩
    · exact ⟨script, event, utxo, .inl rfl, hutxo, mem_singleton.mp hc⟩
  · intro s e hseen
    rcases hseen with heq | hseen
    · cases heq
      simp
    · rcases h.recorded s e hseen with hin | hopen | hin
      · exact .inl (Std.ExtTreeMap.mem_insert.mpr (.inr hin))
      · exact .inr (.inl hopen)
      · rcases mem_cons.mp hin with heq | hin
        · cases heq
          simp
        · exact .inr (.inr hin)
  · intro u hu
    exact .inr (h.unresolved u hu)
  · intro s e hseen c hc hce
    rcases mem_append.mp hc with hc | hc
    · rcases hseen with heq | hseen
      · cases heq
        exact absurd (h.mem_spentIndex.mpr ⟨c, hc, hce⟩) hunspent
      · exact h.agrees s e hseen c hc hce
    · obtain rfl := mem_singleton.mp hc
      rcases hseen with heq | hseen
      · cases heq
        exact ⟨rfl, rfl, rfl⟩
      · obtain rfl := hsame s e hseen hce.symm
        exact ⟨rfl, rfl, rfl⟩
  · intro x hx y hy hxy
    exact h.open_agree x (hx.imp_right (mem_cons_of_mem _)) y (hy.imp_right (mem_cons_of_mem _)) hxy

theorem spend_parked (h : Holds seen ((script, event) :: due) ledger)
    (hunspent : event.spent ∉ ledger.spentIndex) (unresolved : List UnresolvedSpend)
    (hmem : ∀ u, u ∈ unresolved ↔ u ∈ ledger.unresolved ∨ u = ⟨event, script⟩) :
    Holds (insert (script, .spend event) seen) due { ledger with unresolved } := by
  have hopen : ∀ x, x ∈ openSpends { ledger with unresolved } due ↔
      x ∈ openSpends ledger ((script, event) :: due) := by
    intro x
    obtain ⟨s, e⟩ := x
    simp only [openSpends, Set.mem_ofPred_eq, hmem, UnresolvedSpend.mk.injEq, mem_cons, Prod.mk.injEq]
    tauto
  refine { receives := ?_, utxos := h.utxos, index := h.index, confirmed := ?_, recorded := ?_,
           unresolved := ?_, agrees := ?_, open_agree := ?_ }
  · intro o u
    simpa using h.receives o u
  · intro c hc
    obtain ⟨s, e, u, hseen, hrest⟩ := h.confirmed c hc
    exact ⟨s, e, u, .inr hseen, hrest⟩
  · intro s e hseen
    rw [hopen]
    rcases hseen with heq | hseen
    · cases heq
      exact .inr (.inr mem_cons_self)
    · exact h.recorded s e hseen
  · intro u hu
    rcases (hmem u).mp hu with hu | rfl
    · exact .inr (h.unresolved u hu)
    · exact .inl rfl
  · intro s e hseen c hc hce
    rcases hseen with heq | hseen
    · cases heq
      exact absurd (h.mem_spentIndex.mpr ⟨c, hc, hce⟩) hunspent
    · exact h.agrees s e hseen c hc hce
  · intro x hx y hy hxy
    exact h.open_agree x ((hopen x).mp hx) y ((hopen y).mp hy) hxy

theorem lookup_spend (h : Holds seen due ledger) :
    (ledger.spentIndex[o]?.bind fun i => ledger.spends[i]?) = some c ↔ c ∈ ledger.spends ∧ c.spent = o := by
  rw [Option.bind_eq_some_iff]
  constructor
  · intro hbind
    obtain ⟨i, hi, hc⟩ := hbind
    have hout := (h.index o i).mp hi
    rw [getElem?_map, hc, Option.map_some, Option.some.injEq] at hout
    exact ⟨List.mem_of_getElem? hc, hout⟩
  · intro hc
    obtain ⟨hmem, rfl⟩ := hc
    obtain ⟨i, hi⟩ := mem_iff_getElem?.mp hmem
    refine ⟨i, (h.index _ i).mpr ?_, hi⟩
    rw [getElem?_map, hi, Option.map_some]

theorem applySpend_cases (h : Holds seen due ledger) (happly : ledger.applySpend script event = .ok ledger') :
    (ledger' = ledger ∧ ∃ c ∈ ledger.spends, c.spent = event.spent ∧ c.Agrees event) ∨
      ((∀ c ∈ ledger.spends, c.spent ≠ event.spent) ∧ ∃ u, ledger.receives[event.spent]? = some u ∧
        ledger' = { ledger with
          utxos := ledger.utxos.erase event.spent
          spentIndex := ledger.spentIndex.insert event.spent ledger.spends.length
          spends := ledger.spends ++ [.ofSpend event u] }) ∨
      ((∀ c ∈ ledger.spends, c.spent ≠ event.spent) ∧ ledger.receives[event.spent]? = none ∧
        ledger' = { ledger with unresolved := if (⟨event, script⟩ : UnresolvedSpend) ∈ ledger.unresolved
          then ledger.unresolved else ledger.unresolved ++ [⟨event, script⟩] }) := by
  rw [Ledger.applySpend] at happly
  cases hlookup : ledger.spentIndex[event.spent]?.bind fun i => ledger.spends[i]? with
  | some c =>
    simp only [hlookup] at happly
    split_ifs at happly with hdifferent
    simp only [not_or, not_not] at hdifferent
    obtain ⟨hmem, hspent⟩ := h.lookup_spend.mp hlookup
    exact .inl ⟨(Except.ok.inj happly).symm, c, hmem, hspent, hdifferent⟩
  | none =>
    have hnone : ∀ c ∈ ledger.spends, c.spent ≠ event.spent := by
      intro c hc hspent
      rw [h.lookup_spend.mpr ⟨hc, hspent⟩] at hlookup
      simp at hlookup
    simp only [hlookup] at happly
    cases hknown : ledger.receives[event.spent]? with
    | some u =>
      simp only [hknown, Except.ok.injEq] at happly
      exact .inr (.inl ⟨hnone, u, rfl, happly.symm⟩)
    | none =>
      simp only [hknown] at happly
      refine .inr (.inr ⟨hnone, rfl, ?_⟩)
      split_ifs at happly with hheld
      · rw [if_pos hheld]
        exact (Except.ok.inj happly).symm
      · rw [if_neg hheld]
        exact (Except.ok.inj happly).symm

theorem applySpend (h : Holds seen ((script, event) :: due) ledger)
    (happly : ledger.applySpend script event = .ok ledger') :
    Holds (insert (script, .spend event) seen) due ledger' := by
  have hunspent : (∀ c ∈ ledger.spends, c.spent ≠ event.spent) → event.spent ∉ ledger.spentIndex := by
    intro hnone hin
    obtain ⟨c, hc, hspent⟩ := h.mem_spentIndex.mp hin
    exact hnone c hc hspent
  rcases h.applySpend_cases happly with ⟨rfl, c, hc, hspent, hagrees⟩ | ⟨hnone, u, hu, rfl⟩ | ⟨hnone, -, rfl⟩
  · exact h.spend_known hc hspent hagrees
  · exact h.spend_confirmed (hunspent hnone) hu
  · refine h.spend_parked (hunspent hnone) _ fun u => ?_
    split_ifs with hheld
    · constructor
      · exact .inl
      · rintro (hu | rfl)
        · exact hu
        · exact hheld
    · simp

theorem apply_eq_error_iff (h : Holds seen due ledger) {entry : Entry} :
    (∃ error, ledger.apply entry.1 entry.2 = .error error) ↔ Contradicts ledger entry := by
  obtain ⟨script, event⟩ := entry
  cases event with
  | receive receive =>
    simp only [Ledger.apply, Ledger.applyReceive, Contradicts]
    cases ledger.receives[receive.outpoint]? with
    | none => simp
    | some u =>
      by_cases hu : u = .ofReceive script receive <;> simp [hu]
  | spend spend =>
    simp only [Ledger.apply, Ledger.applySpend, Contradicts]
    cases hlookup : ledger.spentIndex[spend.spent]?.bind fun i => ledger.spends[i]? with
    | none =>
      have hnone : ¬ ∃ c ∈ ledger.spends, c.spent = spend.spent ∧ ¬ c.Agrees spend := by
        rintro ⟨c, hc, hspent, -⟩
        rw [h.lookup_spend.mpr ⟨hc, hspent⟩] at hlookup
        simp at hlookup
      simp only [hnone, iff_false]
      rintro ⟨error, herror⟩
      split at herror
      · simp at herror
      · split_ifs at herror
    | some c =>
      obtain ⟨hmem, hspent⟩ := h.lookup_spend.mp hlookup
      have hagrees : c.Agrees spend ↔ ¬ (c.spendingTxid ≠ spend.spendingTxid ∨ c.inputIndex ≠ spend.inputIndex ∨
          c.height ≠ spend.height) := by
        simp only [ConfirmedSpend.Agrees, not_or, not_not]
      have hone : (∃ d ∈ ledger.spends, d.spent = spend.spent ∧ ¬ d.Agrees spend) ↔ ¬ c.Agrees spend := by
        constructor
        · rintro ⟨d, hd, hdspent, hd'⟩
          rwa [h.spends_eq hmem hd (hspent.trans hdspent.symm)]
        · exact fun hc => ⟨c, hmem, hspent, hc⟩
      rw [hone, hagrees, not_not]
      simp only
      split_ifs with hdifferent <;> simp [hdifferent]

end Holds

end Zakura.Ledger
