import Mathlib.Data.UInt
import Zakura.Ledger.Lemmas.Valid

/-! # Properties of the ledger

The order of arrival does not matter, and what failed calls, truncations and sums can do to a ledger. -/

namespace Zakura.Ledger

open List Transparent Zakura.Except

variable {a b ledger : Ledger}

/-! ## Order of arrival -/

/-- Any two ways to order one collection of entries and to split it into batches end, when every call
succeeds, in the same outputs, balance, spends and history. -/
theorem extend_order_independent {first second : List (List Entry)}
    (hsame : ∀ entry, entry ∈ first.flatten ↔ entry ∈ second.flatten)
    (ha : new.extendAll first = (.ok (), a)) (hb : new.extendAll second = (.ok (), b)) :
    a.utxos = b.utxos ∧ a.confirmedBalance = b.confirmedBalance ∧ (∀ c, c ∈ a.spends ↔ c ∈ b.spends) ∧
      (∀ u, u ∈ a.unresolved ↔ u ∈ b.unresolved) ∧ a.history = b.history := by
  have hra := extendAll_spec represents_new ha
  have hrb := extendAll_spec represents_new hb
  have hset : { x | x ∈ first.flatten } = { x | x ∈ second.flatten } := Set.ext hsame
  rw [← hset] at hrb
  have hutxos := hra.utxos_eq hrb
  refine ⟨hutxos, ?_, hra.mem_spends_iff hrb, ?_, hra.history_eq hrb⟩
  · rw [confirmedBalance, confirmedBalance, hutxos]
  · intro u
    rw [hra.mem_unresolved, hrb.mem_unresolved, hra.receives_eq hrb]

namespace Sample

def txid (b : UInt8) : Txid := ⟨⟨List.replicate 32 b, length_replicate⟩⟩

def received : Entry := ([0x51], .receive ⟨none, 10, txid 1, 3, 0, 700, false⟩)

def spent : Entry := ([0x51], .spend ⟨none, 12, txid 2, 1, 0, txid 1, 0⟩)

def foreign : Entry := ([0x52], .spend ⟨none, 11, txid 3, 1, 0, txid 9, 4⟩)

end Sample

open Sample

/-- A receive before its spend, and the spend first with the receive delivered twice. -/
theorem extend_order_independent_sample :
    (new.extendAll [[received], [spent, foreign]]).2.history =
      (new.extendAll [[foreign, spent], [received, received]]).2.history := by
  have hsame : ∀ (r p f : Entry) (entry : Entry), entry ∈ [[r], [p, f]].flatten ↔
      entry ∈ [[f, p], [r, r]].flatten := by
    intro r p f entry
    simp only [flatten_cons, mem_append, mem_cons, flatten_nil, not_mem_nil]
    tauto
  have ha : (new.extendAll [[received], [spent, foreign]]).1 = .ok () := by decide +kernel
  have hb : (new.extendAll [[foreign, spent], [received, received]]).1 = .ok () := by
    decide +kernel
  generalize hfirst : new.extendAll [[received], [spent, foreign]] = first at ha ⊢
  generalize hsecond : new.extendAll [[foreign, spent], [received, received]] = second
    at hb ⊢
  obtain ⟨_, a⟩ := first
  obtain ⟨_, b⟩ := second
  subst ha hb
  exact (extend_order_independent (hsame _ _ _) hfirst hsecond).2.2.2.2

/-! ## Failed calls -/

/-- A failed call on a ledger built by extends leaves it as it was, exactly when no entry that contradicts a
receive or a confirmed spend of the ledger follows, in chain order, an event the ledger did not know. -/
theorem failed_call_unchanged_iff {batches : List (List Entry)} (hbuilt : new.extendAll batches = (.ok (), ledger))
    (entries : List Entry) :
    (∀ error after, ledger.replay entries = (.error error, after) ∨ ledger.extend entries = (.error error, after) →
        Unchanged ledger after) ↔ ¬ Interrupted ledger entries := by
  have h := extendAll_spec represents_new hbuilt
  rw [← h.replay_atomic_iff]
  constructor
  · exact fun hall error after hreplay => hall error after (.inl hreplay)
  · intro hall error after hfailed
    rcases hfailed with hreplay | hextend
    · exact hall error after hreplay
    · exact hall error after (h.extend_eq_error_iff.mp hextend)

namespace Sample

def earlier : Entry := ([0x51], .receive ⟨none, 5, txid 4, 3, 0, 100, false⟩)

def forged : Entry := ([0x51], .receive ⟨none, 10, txid 1, 3, 0, 800, false⟩)

end Sample

/-- The forged receive alone is refused and nothing changes. -/
theorem failed_call_unchanged_forged :
    Unchanged (new.extendAll [[received]]).2
      ((new.extendAll [[received]]).2.extend [forged]).2 := by
  have hbuilt : (new.extendAll [[received]]).1 = .ok () := by decide +kernel
  have hfailed : ((new.extendAll [[received]]).2.extend [forged]).1 =
      .error (.conflictingReceive (txid 1).toDisplayHex 0) := by
    decide +kernel
  refine (failed_call_unchanged_iff (eq_mk_of_fst hbuilt) [forged]).mpr ?_ _ _ (.inr (eq_mk_of_fst hfailed))
  -- Nothing stands before the only entry of the batch.
  rintro ⟨-, front, entry, back, hsplit, -, -, x, hx, -⟩
  have hlength := congrArg List.length hsplit
  simp only [inOrder, length_insertionSort, length_append, length_cons, length_nil] at hlength
  have hpos := length_pos_of_mem hx
  omega

/-- Together with an earlier receive it is refused after that receive was applied. -/
theorem failed_call_partial :
    ∃ (batches : List (List Entry)) (ledger : Ledger) (entries : List Entry) (error : LedgerError) (after : Ledger),
      new.extendAll batches = (.ok (), ledger) ∧ ledger.extend entries = (.error error, after) ∧
        ledger.confirmedBalance = 700 ∧ after.confirmedBalance = 800 := by
  refine ⟨[[received]], (new.extendAll [[received]]).2, [earlier, forged],
    .conflictingReceive (txid 1).toDisplayHex 0, _, eq_mk_of_fst ?_, eq_mk_of_fst ?_, ?_, ?_⟩
  all_goals decide +kernel

/-! ## Truncation -/

structure SameView (a b : Ledger) : Prop where
  utxos : a.utxos = b.utxos
  spends : ∀ c, c ∈ a.spends ↔ c ∈ b.spends
  unresolved : ∀ u, u ∈ a.unresolved ↔ u ∈ b.unresolved
  history : a.history = b.history

/-- Truncating a ledger built by extends gives what an empty ledger gives for the entries at or below the height,
exactly when no spend at or below it consumes an output received above it and each of these spends is indexed
under one script. -/
theorem truncateAbove_eq_rebuild_iff {batches : List (List Entry)} (hbuilt : new.extendAll batches = (.ok (), ledger))
    (height : UInt32) :
    (∃ rebuilt, new.extend (batches.flatten.filter fun x => x.2.height ≤ height) = (.ok (), rebuilt) ∧
        SameView (ledger.truncateAbove height.toNat) rebuilt) ↔
      ¬ Straddles height.toNat { x | x ∈ batches.flatten } ∧
        OneScript (cut height.toNat { x | x ∈ batches.flatten }) := by
  have hsound := sound_new.extendAll hbuilt
  have h := extendAll_spec represents_new hbuilt
  rw [Set.empty_union] at hsound h
  have hkept : { x | x ∈ batches.flatten.filter fun x => x.2.height ≤ height } =
      cut height.toNat { x | x ∈ batches.flatten } := by
    ext x
    simp only [cut, Set.mem_ofPred_eq, mem_filter, decide_eq_true_eq, UInt32.le_iff_toNat_le]
  constructor
  · rintro ⟨rebuilt, hok, hsame⟩
    have hrebuilt := extend_spec represents_new.toTracks hok
    rw [Set.empty_union, hkept] at hrebuilt
    refine ⟨?_, (hsound.checkBatch_cut_iff hkept).mp (checkBatch_of_replay (replay_of_extend hok).choose_spec)⟩
    rintro ⟨s, e, s', r, he, hr, hout, hle, hlt⟩
    have hu := (h.holds.receives e.spent _).mpr ⟨s', r, hr, hout, rfl⟩
    have hc := mem_truncateAbove_spends.mpr ⟨h.mem_spends.mpr ⟨s, e, _, he, hu, rfl⟩, hle⟩
    -- The rebuilt ledger would have to know the receive, which is above the height.
    have hspent := hrebuilt.holds.mem_spentIndex.mpr ⟨_, (hsame.spends _).mp hc, rfl⟩
    obtain ⟨u, hu'⟩ := hrebuilt.holds.receives_of_spent hspent
    obtain ⟨s'', r', ⟨hr', hle'⟩, hout', -⟩ := (hrebuilt.holds.receives _ u).mp hu'
    obtain ⟨-, rfl⟩ := h.receive_eq hr hr' (hout.trans hout'.symm)
    exact absurd hle' (Nat.not_le.mpr hlt)
  · rintro ⟨hcut, hscripts⟩
    obtain ⟨rebuilt, hok, hrebuilt⟩ := hsound.rebuild hkept hscripts
    have htruncated := h.truncateAbove (h.keeps_iff.mpr hcut)
    refine ⟨rebuilt, hok, htruncated.utxos_eq hrebuilt, htruncated.mem_spends_iff hrebuilt, fun u => ?_,
      htruncated.history_eq hrebuilt⟩
    rw [htruncated.mem_unresolved, hrebuilt.mem_unresolved, htruncated.receives_eq hrebuilt]

/-- A spend above the height is undone. -/
theorem truncateAbove_eq_rebuild_sample :
    ∃ rebuilt, new.extend ([[received], [spent, foreign]].flatten.filter
        fun x => x.2.height ≤ 11) = (.ok (), rebuilt) ∧
      SameView ((new.extendAll [[received], [spent, foreign]]).2.truncateAbove 11) rebuilt := by
  have hbuilt : (new.extendAll [[received], [spent, foreign]]).1 = .ok () := by decide +kernel
  have hmem : ∀ x, x ∈ [[received], [spent, foreign]].flatten ↔
      x = received ∨ x = spent ∨ x = foreign := by
    simp
  refine (truncateAbove_eq_rebuild_iff (eq_mk_of_fst hbuilt) 11).mpr ⟨?_, ?_⟩
  · rintro ⟨-, -, s, r, -, hr, -, -, hlt⟩
    rcases (hmem _).mp hr with heq | heq | heq
    · cases heq
      exact absurd hlt (by decide)
    · simp [spent] at heq
    · simp [foreign] at heq
  · -- The foreign spend is the only one at or below the height.
    have honly : ∀ s e, (s, .spend e) ∈ cut 11 { x | x ∈ [[received], [spent, foreign]].flatten } →
        s = [0x52] := by
      rintro s e ⟨he, hle⟩
      rcases (hmem _).mp he with heq | heq | heq
      · simp [received] at heq
      · cases heq
        exact absurd hle (by decide)
      · exact congrArg Prod.fst heq
    exact fun s e s' e' he he' _ => (honly s e he).trans (honly s' e' he').symm

namespace Sample

def late : Entry := ([0x51], .receive ⟨none, 12, txid 1, 3, 0, 700, false⟩)

def early : Entry := ([0x51], .spend ⟨none, 10, txid 2, 1, 0, txid 1, 0⟩)

end Sample

/-- The spend of an output received above the height stays confirmed, where rebuilding leaves it unresolved. -/
theorem truncateAbove_ne_rebuild :
    ∃ (batches : List (List Entry)) (ledger rebuilt : Ledger), new.extendAll batches = (.ok (), ledger) ∧
      new.extend (batches.flatten.filter fun x => x.2.height ≤ 11) = (.ok (), rebuilt) ∧
      (ledger.truncateAbove 11).spends.length = 1 ∧ rebuilt.spends = [] ∧ rebuilt.unresolved.length = 1 := by
  refine ⟨[[late, early]], (new.extendAll [[late, early]]).2, (new.extend [early]).2,
    eq_mk_of_fst ?_, eq_mk_of_fst ?_, ?_, ?_, ?_⟩
  all_goals decide +kernel

/-! ## Totals -/

/-- In every run of calls whose truncations keep the receive of every spend they keep, the totals of each
transaction are in range. So is the balance where no spend of a known output is left open, which holds in every
run whose bare replays bring no receive after a spend of its output. -/
theorem totals_in_range {calls : List Call} (hkeeps : EachCall KeepsReceives new calls)
    (hrun : new.callAll calls = (.ok (), ledger)) :
    (∀ summary ∈ ledger.history, summary.received < 2 ^ 64 ∧ summary.spent < 2 ^ 64) ∧
      ((∀ u ∈ ledger.unresolved, u.event.spent ∉ ledger.receives) → ledger.confirmedBalance < 2 ^ 64) ∧
      (EachCall ReceivesFirst new calls → ledger.confirmedBalance < 2 ^ 64) := by
  obtain ⟨seen, hsound⟩ := sound_new.callAll hkeeps hrun
  refine ⟨fun summary hmem => hsound.history_lt hmem, hsound.balance_lt, fun hfirst => ?_⟩
  obtain ⟨seen', hrepresents⟩ := represents_new.callAll hkeeps hfirst hrun
  exact hsound.balance_lt hrepresents.resolved

namespace Sample

def half (b : UInt8) (height : UInt32) : Entry := ([0x51], .receive ⟨none, height, txid b, 3, 0, 2 ^ 63, false⟩)

/-- Bare replays and an extend, a truncation that undoes the newest receive, and a replay of an older one. -/
def orderly : List Call :=
  [.replay [received], .extend [spent, foreign], .replay [half 4 13], .truncateAbove 12, .replay [earlier]]

end Sample

theorem receivesFirst_single {script : Bytes} {r : ReceiveEvent} (h : ∀ u ∈ ledger.unresolved, u.event.spent ≠ r.outpoint) :
    ReceivesFirst ledger (.replay [(script, .receive r)]) := by
  intro s r' hr
  cases mem_singleton.mp hr
  exact ⟨h, fun s' e he => by simp at he⟩

theorem totals_in_range_orderly : (new.callAll orderly).2.confirmedBalance = 100 ∧
    (∀ summary ∈ (new.callAll orderly).2.history, summary.received < 2 ^ 64 ∧ summary.spent < 2 ^ 64) ∧
    (new.callAll orderly).2.confirmedBalance < 2 ^ 64 := by
  have hrun : (new.callAll orderly).1 = .ok () := by decide +kernel
  have hkeeps : EachCall KeepsReceives new orderly := by
    refine ⟨trivial, trivial, trivial, ?_, trivial, trivial⟩
    show ∀ c ∈ _, _ → ∀ u ∈ _, _
    decide +kernel
  have hfirst : EachCall ReceivesFirst new orderly := by
    refine ⟨receivesFirst_single ?_, trivial, receivesFirst_single ?_, trivial, receivesFirst_single ?_, trivial⟩
    all_goals decide +kernel
  obtain ⟨hhistory, -, hbalance⟩ := totals_in_range hkeeps (eq_mk_of_fst hrun)
  exact ⟨by decide +kernel, hhistory, hbalance hfirst⟩

/-- Two ways past the check. A spend replayed before its receive is not resolved, so its output is still counted. A spend
that a truncation keeps without its receive stays confirmed, and the output is counted when it comes again. -/
theorem totals_overflow :
    (∃ ledger, new.callAll [.replay [spent], .replay [half 1 10], .replay [half 4 13]] = (.ok (), ledger) ∧
      2 ^ 64 ≤ ledger.confirmedBalance) ∧
    ∃ ledger, new.callAll [.extend [late, early], .truncateAbove 11, .extend [half 1 9], .extend [half 4 13]] =
      (.ok (), ledger) ∧ 2 ^ 64 ≤ ledger.confirmedBalance := by
  refine ⟨⟨_, eq_mk_of_fst ?_, ?_⟩, _, eq_mk_of_fst ?_, ?_⟩
  all_goals decide +kernel

/-! ## Redelivery -/

theorem Represents.sameView {seen : Set Entry} (ha : Represents seen a) (hb : Represents seen b) : SameView a b :=
  ⟨ha.utxos_eq hb, ha.mem_spends_iff hb,
    fun u => by rw [ha.mem_unresolved, hb.mem_unresolved, ha.receives_eq hb], ha.history_eq hb⟩

/-- A ledger rolled back to a height shows the same as before once everything above it is delivered again, whatever part
of the rest comes with it. -/
theorem redelivery_restores {batches : List (List Entry)} {again : List Entry} {height : Nat}
    (hbuilt : new.extendAll batches = (.ok (), ledger)) (hscripts : OneScript { x | x ∈ batches.flatten })
    (hcut : ¬ Straddles height { x | x ∈ batches.flatten }) (hknown : ∀ x ∈ again, x ∈ batches.flatten)
    (habove : ∀ x ∈ batches.flatten, height < x.2.height.toNat → x ∈ again) :
    ∃ after, (ledger.truncateAbove height).extend again = (.ok (), after) ∧ SameView after ledger := by
  have hsound := sound_new.extendAll hbuilt
  have h := extendAll_spec represents_new hbuilt
  rw [Set.empty_union] at hsound h
  have htruncated := hsound.truncateAbove (h.keeps_iff.mpr hcut)
  have hkept : { x | x ∈ batches.flatten.filter fun x => x.2.height.toNat ≤ height } =
      cut height { x | x ∈ batches.flatten } := by
    ext x
    simp only [cut, Set.mem_ofPred_eq, mem_filter, decide_eq_true_eq]
  have hall : cut height { x | x ∈ batches.flatten } ∪ { x | x ∈ again } = { x | x ∈ batches.flatten } := by
    ext x
    refine ⟨fun hx => hx.elim (·.1) (hknown x), fun hx => ?_⟩
    exact (Nat.lt_or_ge height x.2.height.toNat).elim (fun hlt => .inr (habove x hx hlt)) fun hle => .inl ⟨hx, hle⟩
  rw [← hkept] at htruncated hall
  have hvalid : Valid (batches.flatten.filter (fun x => x.2.height.toNat ≤ height) ++ again) := by
    refine hsound.valid hscripts (Eq.trans ?_ hall)
    ext x
    simp
  obtain ⟨replayed, hreplay⟩ := htruncated.replay_of_valid hvalid
  obtain ⟨after, hafter, hrepresents⟩ := extend_of_replay htruncated.toTracks hreplay
  rw [hall] at hrepresents
  exact ⟨after, hafter, hrepresents.sameView h⟩

/-- A spend is rolled back and comes again, twice, with the receive it consumes. -/
theorem redelivery_restores_spent :
    ∃ after, ((new.extendAll [[received, foreign], [spent]]).2.truncateAbove 11).extend [spent, received, spent] =
        (.ok (), after) ∧
      SameView after (new.extendAll [[received, foreign], [spent]]).2 := by
  have hspend : ∀ s e, (s, .spend e) ∈ [[received, foreign], [spent]].flatten →
      (s, .spend e) = foreign ∨ (s, .spend e) = spent := by
    intro s e he
    simpa [received] using he
  refine @redelivery_restores _ [[received, foreign], [spent]] _ _ (eq_mk_of_fst (by decide +kernel)) ?_ ?_ (by simp) ?_
  · intro s e s' e' he he' heq
    rcases hspend s e he with h | h <;> rcases hspend s' e' he' with h' | h' <;> cases h <;> cases h'
    · rfl
    · exact absurd heq (by decide)
    · exact absurd heq (by decide)
    · rfl
  · rintro ⟨-, -, s, r, -, hr, -, -, hlt⟩
    have hreceived : (s, .receive r) = received := by simpa [foreign, spent] using hr
    cases hreceived
    exact absurd hlt (by decide)
  · intro x hx habove
    have hx' : x = received ∨ x = foreign ∨ x = spent := by simpa using hx
    rcases hx' with rfl | rfl | rfl
    · exact absurd habove (by decide)
    · exact absurd habove (by decide)
    · exact mem_cons_self

end Zakura.Ledger
