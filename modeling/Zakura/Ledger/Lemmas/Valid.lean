import Zakura.Ledger.Lemmas.Truncate

/-! # Entries a ledger accepts as a whole

Whether a ledger that already holds some entries accepts others depends only on whether an empty one accepts all
of them at once. -/

namespace Zakura.Ledger

open List Transparent OrderedMap

def Valid (entries : List Entry) : Prop := new.checkBatch entries = .ok ()

variable {entries entries' : List Entry} {ledger : Ledger}

theorem Valid.agree (h : Valid entries) :
    ReceivesAgree { x | x ∈ entries } ∧ SpendsAgree { x | x ∈ spendEntries entries } := by
  obtain ⟨-, hidentities, -⟩ := checkBatch_ok_iff.mp h
  exact checkEventIdentities_ok_iff.mp hidentities

theorem Valid.oneScript (h : Valid entries) : OneScript { x | x ∈ entries } :=
  fun s e s' e' he he' hspent =>
    congrArg Prod.fst (h.agree.2 (s, e) (mem_spendEntries.mpr he) (s', e') (mem_spendEntries.mpr he') hspent)

theorem Valid.replay (h : Valid entries) :
    ∃ ledger, new.replay entries = (.ok (), ledger) ∧ Sound { x | x ∈ entries } ledger := by
  obtain ⟨ledger, hreplay⟩ := replay_new h
  have hsound := Sound.of_replay represents_new.toTracks hreplay
  rw [Set.empty_union] at hsound
  exact ⟨ledger, hreplay, hsound⟩

theorem Valid.identities (h : Valid entries) (hsub : ∀ x ∈ entries', x ∈ entries) :
    checkEventIdentities entries' = .ok () := by
  obtain ⟨ledger, -, hsound⟩ := h.replay
  exact (hsound.checkEventIdentities_iff hsub).mpr fun s e s' e' he he' => h.oneScript s e s' e' (hsub _ he) (hsub _ he')

theorem Sound.valid_cut {seen : Set Entry} {height : Nat} (h : Sound seen ledger) (hscripts : OneScript seen)
    (hentries : { x | x ∈ entries } = cut height seen) : Valid entries :=
  (h.checkBatch_cut_iff hentries).mpr fun s e s' e' he he' => hscripts s e s' e' he.1 he'.1

theorem valid_nil : Valid [] := by
  unfold Valid
  decide +kernel

theorem Sound.valid {seen : Set Entry} (h : Sound seen ledger) (hscripts : OneScript seen)
    (hentries : { x | x ∈ entries } = seen) : Valid entries := by
  -- Every height lies below the cut.
  have hall : Ledger.cut (2 ^ 32) seen = seen := Set.sep_eq_self_iff_mem_true.mpr fun x _ => x.2.height.toNat_lt.le
  exact h.valid_cut hscripts (hentries.trans hall.symm)

theorem Valid.congr (h : Valid entries) (hsame : ∀ x, x ∈ entries ↔ x ∈ entries') : Valid entries' := by
  obtain ⟨ledger, -, hsound⟩ := h.replay
  exact hsound.valid h.oneScript (Set.ext fun x => (hsame x).symm)

theorem Valid.cut (h : Valid entries) (height : Nat)
    (hcut : ∀ x, x ∈ entries' ↔ x ∈ entries ∧ x.2.height.toNat ≤ height) : Valid entries' := by
  obtain ⟨ledger, -, hsound⟩ := h.replay
  exact hsound.valid_cut h.oneScript (Set.ext hcut)

theorem Sound.replay_of_valid (h : Sound { x | x ∈ entries } ledger) (hvalid : Valid (entries ++ entries')) :
    ∃ ledger', ledger.replay entries' = (.ok (), ledger') := by
  obtain ⟨all, -, hall⟩ := hvalid.replay
  obtain ⟨hreceives, hspends⟩ := hvalid.agree
  obtain ⟨hfacts, -⟩ := checkBatch_ok_iff.mp hvalid
  have hunion : { x | x ∈ entries } ∪ { x | x ∈ entries' } = { x | x ∈ entries ++ entries' } := by
    ext x
    simp
  have hcheck : ledger.checkBatch entries' = .ok () := by
    refine checkBatch_ok_iff.mpr ⟨?_, ?_, ?_⟩
    · refine checkTransactionConsistency_subset hfacts fun e he => ?_
      rcases mem_append.mp he with he | he
      · obtain ⟨k, hk⟩ := mem_vals.mp he
        obtain ⟨-, s, hs⟩ := (h.observed k e).mp hk
        exact mem_append_right _ (mem_map.mpr ⟨_, mem_append_left _ hs, rfl⟩)
      · obtain ⟨x, hx, rfl⟩ := mem_map.mp he
        exact mem_append_right _ (mem_map_of_mem (mem_append_right _ hx))
    · refine hvalid.identities fun x hx => ?_
      rcases mem_append.mp hx with hx | hx
      · obtain ⟨u, hu, rfl⟩ := mem_map.mp hx
        exact mem_append_left _ (h.holds.unresolved u hu)
      · exact mem_append_right _ hx
    · have hviews := h.views (hunion ▸ hall.coherent)
      rw [hunion] at hviews
      exact checkValueTotals_ok_iff.mpr ((hall.withinRange_iff hviews).mp hall.inRange)
  have hfits : ∀ x ∈ entries', ¬ Contradicts ledger x := by
    rintro ⟨s, r | e⟩ hx hcontra
    · obtain ⟨u, hu, hne⟩ := hcontra
      obtain ⟨s', r', hr', hout, rfl⟩ := (h.holds.receives _ u).mp hu
      cases hreceives s' r' s r (mem_append_left _ hr') (mem_append_right _ hx) hout
      exact hne rfl
    · obtain ⟨c, hc, hspent, hne⟩ := hcontra
      obtain ⟨s', e', u, he', hu, rfl⟩ := h.holds.confirmed c hc
      have hsame := hspends (s', e') (mem_spendEntries.mpr (mem_append_left _ he')) (s, e)
        (mem_spendEntries.mpr (mem_append_right _ hx)) hspent
      cases hsame
      exact hne ⟨rfl, rfl, rfl⟩
  have hagree : ReceivesAgree { x | x ∈ inOrder entries' } := by
    simpa only [mem_inOrder] using (checkBatch_ok hcheck).2.2
  rcases applyAll_cases (h.holds_batch hcheck fun x => mem_inOrder.mp) hagree with ⟨replayed, hdone, -⟩ |
    ⟨front, entry, back, -, -, hsplit, -, hentry, -⟩
  · rw [← replay_of_checkBatch hcheck] at hdone
    exact ⟨replayed, hdone⟩
  · exact absurd hentry (hfits entry (mem_inOrder.mp (by simp [hsplit])))

/-- A ledger that holds valid entries accepts others exactly when all are valid together, up to the scripts of
spends, which a ledger does not compare once it has confirmed one. -/
theorem Sound.valid_append_iff (h : Sound { x | x ∈ entries } ledger) :
    Valid (entries ++ entries') ↔
      OneScript { x | x ∈ entries ++ entries' } ∧ ∃ ledger', ledger.replay entries' = (.ok (), ledger') := by
  constructor
  · intro hvalid
    exact ⟨hvalid.oneScript, h.replay_of_valid hvalid⟩
  · rintro ⟨hscripts, ledger', hreplay⟩
    refine (Sound.of_replay h.toTracks hreplay).valid ?_ ?_
    · simpa [OneScript] using hscripts
    · ext x
      simp

end Zakura.Ledger
