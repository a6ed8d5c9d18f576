import Zakura.Ledger.Lemmas.Extend
import Zakura.Lib.Lists

/-! # What a failed batch leaves behind

The checks before a batch compare its entries with each other and with the unresolved spends. A receive or a
spend that contradicts one the ledger already holds is found only when its turn comes. -/

namespace Zakura.Ledger

open List Transparent

variable {seen : Set Entry} {due : List SpendEntry} {ledger ledger' : Ledger} {script : Bytes}

namespace Holds

theorem contradicts_apply (h : Holds seen (spendEntries (entry :: entries)) ledger)
    (hagree : ReceivesAgree { x | x ∈ entry :: entries }) (happly : ledger.apply entry.1 entry.2 = .ok ledger')
    {other : Entry} (hother : other ∈ entries) : Contradicts ledger' other ↔ Contradicts ledger other := by
  obtain ⟨script, event⟩ := entry
  obtain ⟨script', event'⟩ := other
  cases event with
  | receive receive =>
    have hcases : ledger' = ledger ∨ ledger.receives[receive.outpoint]? = none ∧ ledger' = { ledger with
        receives := ledger.receives.insert receive.outpoint (.ofReceive script receive)
        utxos := ledger.utxos.insert receive.outpoint (.ofReceive script receive) } := by
      simp only [Ledger.apply, Ledger.applyReceive] at happly
      split at happly
      · split_ifs at happly
        exact .inl (Except.ok.inj happly).symm
      · exact .inr ⟨by assumption, (Except.ok.inj happly).symm⟩
    rcases hcases with rfl | ⟨hnone, rfl⟩
    · rfl
    · cases event' with
      | spend spend' => rfl
      | receive receive' =>
        simp only [Contradicts, OrderedMap.getElem?_insert_eq]
        by_cases hout : receive.outpoint = receive'.outpoint
        · -- The batch agrees on this output, so the two entries are one.
          have hsame := hagree _ _ _ _ mem_cons_self (mem_cons_of_mem _ hother) hout
          cases hsame
          simp [hnone]
        · simp [hout]
  | spend spend =>
    rcases h.applySpend_cases happly with ⟨rfl, -⟩ | ⟨hnone, u, -, rfl⟩ | ⟨-, -, rfl⟩
    · rfl
    · cases event' with
      | receive receive' => rfl
      | spend spend' =>
        simp only [Contradicts, mem_append, mem_singleton]
        by_cases hspent : spend.spent = spend'.spent
        · have hsame := h.open_agree (script, spend) (.inr (by simp [spendEntries])) (script', spend')
            (.inr (mem_cons_of_mem _ (mem_spendEntries.mpr hother))) hspent
          cases hsame
          constructor
          · rintro ⟨c, hc | rfl, hcspent, hdiffer⟩
            · exact absurd hcspent (hnone c hc)
            · exact absurd ⟨rfl, rfl, rfl⟩ hdiffer
          · rintro ⟨c, hc, hcspent, -⟩
            exact absurd hcspent (hnone c hc)
        · constructor
          · rintro ⟨c, hc | rfl, hcspent, hdiffer⟩
            · exact ⟨c, hc, hcspent, hdiffer⟩
            · exact absurd hcspent hspent
          · rintro ⟨c, hc, hrest⟩
            exact ⟨c, .inl hc, hrest⟩
    · cases event' <;> rfl

end Holds

variable {entries : List Entry}

theorem applyAll_cons (entry : Entry) (entries : List Entry) (ledger : Ledger) :
    applyAll (entry :: entries) ledger = match ledger.apply entry.1 entry.2 with
      | .error error => (.error error, ledger)
      | .ok applied => applyAll entries (applied.observe entry.2) := rfl

theorem applyAll_cases (h : Holds seen (spendEntries entries) ledger) (hagree : ReceivesAgree { x | x ∈ entries }) :
    (∃ ledger', applyAll entries ledger = (.ok (), ledger') ∧ ∀ x ∈ entries, ¬ Contradicts ledger x) ∨
      ∃ front entry back error ledger', entries = front ++ entry :: back ∧ (∀ x ∈ front, ¬ Contradicts ledger x) ∧
        Contradicts ledger entry ∧ applyAll front ledger = (.ok (), ledger') ∧
        applyAll entries ledger = (.error error, ledger') := by
  induction entries generalizing seen ledger with
  | nil => exact .inl ⟨ledger, rfl, by simp⟩
  | cons entry entries ih =>
    cases happly : ledger.apply entry.1 entry.2 with
    | error error =>
      refine .inr ⟨[], entry, entries, error, ledger, rfl, by simp, ?_, rfl, ?_⟩
      · exact h.apply_eq_error_iff.mp ⟨error, happly⟩
      · rw [applyAll_cons, happly]
    | ok applied =>
      have hfirst : ¬ Contradicts ledger entry := by
        intro hcontra
        obtain ⟨error, herror⟩ := h.apply_eq_error_iff.mpr hcontra
        rw [happly] at herror
        simp at herror
      have hsame : ∀ x ∈ entries, (Contradicts (applied.observe entry.2) x ↔ Contradicts ledger x) := by
        intro x hx
        have hobserve : Contradicts (applied.observe entry.2) x ↔ Contradicts applied x := by
          obtain ⟨s, e⟩ := x
          cases e <;> rfl
        rw [hobserve, h.contradicts_apply hagree happly hx]
      have hrest : ReceivesAgree { x | x ∈ entries } := fun s r s' r' hr hr' =>
        hagree s r s' r' (mem_cons_of_mem _ hr) (mem_cons_of_mem _ hr')
      rcases ih (h.apply happly) hrest with ⟨ledger', hall, hnone⟩ |
        ⟨front, other, back, error, ledger', rfl, hfront, hother, happlied, hall⟩
      · refine .inl ⟨ledger', by rw [applyAll_cons, happly]; exact hall, ?_⟩
        intro x hx
        rcases mem_cons.mp hx with rfl | hx
        · exact hfirst
        · exact fun hcontra => hnone x hx ((hsame x hx).mpr hcontra)
      · refine .inr ⟨entry :: front, other, back, error, ledger', rfl, ?_, ?_, ?_, ?_⟩
        · intro x hx
          rcases mem_cons.mp hx with rfl | hx
          · exact hfirst
          · exact fun hcontra => hfront x hx ((hsame x (mem_append_left _ hx)).mpr hcontra)
        · exact (hsame other (by simp)).mp hother
        · rw [applyAll_cons, happly]
          exact happlied
        · rw [applyAll_cons, happly]
          exact hall

/-! ## Known events -/

def Knows (ledger : Ledger) (event : TransparentEvent) : Prop := ledger.observations[event.sortKey]? = some event

theorem Tracks.knows_iff (h : Tracks seen ledger) {event : TransparentEvent} :
    Knows ledger event ↔ ∃ s, (s, event) ∈ seen := by
  rw [Knows, h.observed]
  simp

structure Unchanged (before after : Ledger) : Prop where
  utxos : after.utxos = before.utxos
  spends : after.spends = before.spends
  unresolved : after.unresolved = before.unresolved
  balance : after.confirmedBalance = before.confirmedBalance
  history : after.history = before.history

theorem Unchanged.refl (ledger : Ledger) : Unchanged ledger ledger := ⟨rfl, rfl, rfl, rfl, rfl⟩

variable {entry : Entry}

theorem Represents.apply_known (h : Represents seen ledger) (hcheck : ledger.checkBatch entries = .ok ())
    (hentry : entry ∈ entries) (hknown : Knows ledger entry.2) (hfits : ¬ Contradicts ledger entry) :
    ledger.apply entry.1 entry.2 = .ok ledger ∧ ledger.observe entry.2 = ledger := by
  obtain ⟨script, event⟩ := entry
  obtain ⟨s, hseen⟩ := h.knows_iff.mp hknown
  have hobserve : ledger.observe event = ledger := by
    have hsame : ledger.observations.insert event.sortKey event = ledger.observations := by
      refine Std.ExtTreeMap.ext_getElem? fun k => ?_
      rw [OrderedMap.getElem?_insert_eq]
      split_ifs with hk
      · rw [← hk]
        exact hknown.symm
      · rfl
    rw [observe, hsame]
  refine ⟨?_, hobserve⟩
  cases happly : ledger.apply script event with
  | error error => exact absurd (h.holds.apply_eq_error_iff.mp ⟨error, happly⟩) hfits
  | ok applied =>
    cases event with
    | receive receive =>
      have hheld := (h.holds.receives receive.outpoint _).mpr ⟨s, receive, hseen, rfl, rfl⟩
      simp only [Ledger.apply, applyReceive, hheld] at happly
      split_ifs at happly
      rw [happly]
    | spend spend =>
      have hrecorded := h.holds.recorded s spend hseen
      rcases h.holds.applySpend_cases happly with ⟨rfl, -⟩ | ⟨hnone, u, hu, -⟩ | ⟨hnone, -, rfl⟩
      · rfl
      · rcases hrecorded with hin | hopen | hdue
        · obtain ⟨c, hc, hspent⟩ := h.holds.mem_spentIndex.mp hin
          exact absurd hspent (hnone c hc)
        · exact absurd (OrderedMap.mem_of_getElem? hu) (h.resolved _ hopen)
        · simp at hdue
      · rcases hrecorded with hin | hopen | hdue
        · obtain ⟨c, hc, hspent⟩ := h.holds.mem_spentIndex.mp hin
          exact absurd hspent (hnone c hc)
        · -- The checks compare the batch with the unresolved spends, so the script is the same too.
          have hscript := (checkBatch_ok hcheck).2.1 (s, spend) (mem_append_left _ (mem_map.mpr ⟨_, hopen, rfl⟩))
            (script, spend) (mem_append_right _ (mem_spendEntries.mpr hentry)) rfl
          cases hscript
          rw [if_pos hopen]
        · simp at hdue

variable {part : List Entry}

theorem Represents.applyAll_known (h : Represents seen ledger) (hcheck : ledger.checkBatch entries = .ok ())
    (hpart : ∀ x ∈ part, x ∈ entries) (hknown : ∀ x ∈ part, Knows ledger x.2) (hfits : ∀ x ∈ part, ¬ Contradicts ledger x) :
    applyAll part ledger = (.ok (), ledger) := by
  induction part with
  | nil => rfl
  | cons entry part ih =>
    obtain ⟨happly, hobserve⟩ := h.apply_known hcheck (hpart entry mem_cons_self)
      (hknown entry mem_cons_self) (hfits entry mem_cons_self)
    rw [applyAll_cons, happly]
    simp only [hobserve]
    exact ih (fun x hx => hpart x (mem_cons_of_mem _ hx)) (fun x hx => hknown x (mem_cons_of_mem _ hx))
      fun x hx => hfits x (mem_cons_of_mem _ hx)

theorem Tracks.changed_of_new (h : Tracks seen ledger) (hcheck : ledger.checkBatch entries = .ok ())
    (hpart : ∀ x ∈ part, x ∈ entries) (happly : applyAll part ledger = (.ok (), ledger')) (hentry : entry ∈ part)
    (hnew : ¬ Knows ledger entry.2) : ¬ Unchanged ledger ledger' := by
  intro hsame
  have hnext := h.applyAll_batch hcheck hpart happly
  have hmem : entry ∈ seen ∪ { x | x ∈ part } := .inr hentry
  obtain ⟨script, event⟩ := entry
  rw [h.knows_iff] at hnew
  cases event with
  | receive receive =>
    have hafter := (hnext.holds.receives receive.outpoint _).mpr ⟨script, receive, hmem, rfl, rfl⟩
    have hbefore : ledger.receives[receive.outpoint]? = none := by
      cases hheld : ledger.receives[receive.outpoint]? with
      | none => rfl
      | some u =>
        obtain ⟨s, r, hseen, hout, -⟩ := (h.holds.receives _ u).mp hheld
        obtain ⟨-, rfl⟩ := hnext.receive_eq (.inl hseen) hmem hout
        exact absurd ⟨s, hseen⟩ hnew
    have hutxo := hnext.holds.utxos receive.outpoint
    rw [hsame.utxos, h.holds.utxos, hbefore, ite_self, hafter] at hutxo
    split_ifs at hutxo with hspent
    obtain ⟨c, hc, hcspent⟩ := hnext.holds.mem_spentIndex.mp hspent
    rw [hsame.spends] at hc
    obtain ⟨u, hu⟩ := h.holds.receives_of_spent (h.holds.mem_spentIndex.mpr ⟨c, hc, hcspent⟩)
    simp [hbefore] at hu
  | spend spend =>
    rcases hnext.holds.recorded script spend hmem with hin | hopen | hdue
    · obtain ⟨c, hc, hcspent⟩ := hnext.holds.mem_spentIndex.mp hin
      rw [hsame.spends] at hc
      obtain ⟨s, e, u, hseen, -, rfl⟩ := h.holds.confirmed c hc
      obtain rfl := hnext.spend_eq (.inl hseen) hmem hcspent
      exact hnew ⟨s, hseen⟩
    · rw [hsame.unresolved] at hopen
      exact hnew ⟨script, h.holds.unresolved _ hopen⟩
    · simp at hdue

/-- A batch that passes the checks is interrupted after something new was applied. -/
def Interrupted (ledger : Ledger) (entries : List Entry) : Prop :=
  ledger.checkBatch entries = .ok () ∧ ∃ front entry back, inOrder entries = front ++ entry :: back ∧
    (∀ x ∈ front, ¬ Contradicts ledger x) ∧ Contradicts ledger entry ∧ ∃ x ∈ front, ¬ Knows ledger x.2

theorem Represents.replay_atomic_iff (h : Represents seen ledger) :
    (∀ error ledger', ledger.replay entries = (.error error, ledger') → Unchanged ledger ledger') ↔
      ¬ Interrupted ledger entries := by
  cases hcheck : ledger.checkBatch entries with
  | error error =>
    have hinterrupted : ¬ Interrupted ledger entries := fun hi => by simpa [hcheck] using hi.1
    simp only [replay, hcheck, hinterrupted, not_false_eq_true, iff_true]
    intro error ledger' heq
    rw [← (Prod.mk.inj heq).2]
    exact .refl ledger
  | ok u =>
    rw [replay_of_checkBatch hcheck]
    have hagree : ReceivesAgree { x | x ∈ inOrder entries } := by
      simpa only [mem_inOrder] using (checkBatch_ok hcheck).2.2
    rcases applyAll_cases (h.holds_batch hcheck fun x => mem_inOrder.mp) hagree with ⟨ledger', hall, hnone⟩ |
      ⟨front, entry, back, error, ledger', hsplit, hfront, hentry, happlied, hall⟩
    · have hinterrupted : ¬ Interrupted ledger entries := by
        rintro ⟨-, front, entry, back, hsplit, -, hentry, -⟩
        exact hnone entry (by simp [hsplit]) hentry
      simp [hall, hinterrupted]
    · have hpart : ∀ x ∈ front, x ∈ entries := fun x hx => mem_inOrder.mp (by simp [hsplit, hx])
      rw [hall]
      constructor
      · rintro hatomic ⟨-, front', entry', back', hsplit', hfront', hentry', x, hx, hnew⟩
        obtain ⟨rfl, -⟩ := eq_of_append_cons_eq (hsplit.symm.trans hsplit') hfront hentry hfront' hentry'
        exact h.changed_of_new hcheck hpart happlied hx hnew (hatomic error ledger' rfl)
      · intro hinterrupted error' after heq
        have hknown : ∀ x ∈ front, Knows ledger x.2 := by
          intro x hx
          by_contra hnew
          exact hinterrupted ⟨hcheck, front, entry, back, hsplit, hfront, hentry, x, hx, hnew⟩
        rw [h.applyAll_known hcheck hpart hknown hfront, Prod.mk.injEq] at happlied
        rw [← (Prod.mk.inj heq).2, ← happlied.2]
        exact .refl ledger

theorem Tracks.extend_eq_error_iff (h : Tracks seen ledger) {error : LedgerError} :
    ledger.extend entries = (.error error, ledger') ↔ ledger.replay entries = (.error error, ledger') := by
  cases hreplay : ledger.replay entries with
  | mk result replayed =>
    cases result with
    | error error' => simp [extend, hreplay]
    | ok u =>
      obtain ⟨extended, hok, -⟩ := extend_of_replay h hreplay
      simp [hok]

end Zakura.Ledger
