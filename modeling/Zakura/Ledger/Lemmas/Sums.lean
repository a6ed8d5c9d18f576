import Zakura.Ledger.Lemmas.Totals

/-! # What the value checks bound -/

namespace Zakura.Ledger

open List Transparent OrderedMap Zakura.Except

/-! ## The running balance -/

/-- The outputs the running balance counts after some events. -/
def unspentAfter : List TransparentEvent → OrderedMap Outpoint Nat → OrderedMap Outpoint Nat
  | [], unspent => unspent
  | .receive event :: events, unspent => unspentAfter events (unspent.insert event.outpoint event.value.toNat)
  | .spend event :: events, unspent => unspentAfter events (unspent.erase event.spent)

theorem checkedAdd_eq_ok {a b c : Nat} : checkedAdd a b = .ok c ↔ a + b < 2 ^ 64 ∧ a + b = c := by
  rw [checkedAdd]
  split_ifs with h
  · simp only [Except.ok.injEq, h, true_and]
  · simp only [h, false_and]

theorem erase_eq_self {κ ν : Type} [LinearOrder κ] {m : OrderedMap κ ν} {k : κ} (hk : m[k]? = none) :
    m.erase k = m := by
  refine Std.ExtTreeMap.ext_getElem? fun a => ?_
  rw [getElem?_erase_eq]
  split_ifs with ha
  · rw [← ha, hk]
  · rfl

variable {events : List TransparentEvent} {unspent : OrderedMap Outpoint Nat} {running : Nat}

theorem checkRunning_total (hagree : ∀ r, .receive r ∈ events → ∀ v, unspent[r.outpoint]? = some v → v = r.value.toNat)
    (hpairs : ∀ r r', .receive r ∈ events → .receive r' ∈ events → r.outpoint = r'.outpoint → r.value = r'.value)
    (hrunning : running = total unspent) (hlt : running < 2 ^ 64) (h : checkRunning events unspent running = .ok ()) :
    total (unspentAfter events unspent) < 2 ^ 64 := by
  induction events generalizing unspent running with
  | nil =>
    rw [unspentAfter, ← hrunning]
    exact hlt
  | cons event events ih =>
    have hpairs' : ∀ r r', .receive r ∈ events → .receive r' ∈ events → r.outpoint = r'.outpoint →
        r.value = r'.value :=
      fun r r' hr hr' => hpairs r r' (mem_cons_of_mem _ hr) (mem_cons_of_mem _ hr')
    cases event with
    | receive event =>
      have hnext : ∀ r, .receive r ∈ events →
          ∀ v, (unspent.insert event.outpoint event.value.toNat)[r.outpoint]? = some v → v = r.value.toNat := by
        intro r hr v hv
        rw [getElem?_insert_eq] at hv
        split_ifs at hv with hout
        · rw [← Option.some.inj hv, hpairs event r mem_cons_self (mem_cons_of_mem _ hr) hout]
        · exact hagree r (mem_cons_of_mem _ hr) v hv
      rw [checkRunning] at h
      cases hknown : unspent[event.outpoint]? with
      | none =>
        simp only [hknown, Option.isNone_none, if_true, bind_eq_ok, checkedAdd_eq_ok] at h
        obtain ⟨_, ⟨hfits, rfl⟩, hrest⟩ := h
        exact ih hnext hpairs' (by rw [total_insert hknown, hrunning]) hfits hrest
      | some value =>
        simp only [hknown, Option.isNone_some, Bool.false_eq_true, if_false] at h
        have hsame : unspent.insert event.outpoint event.value.toNat = unspent := by
          refine Std.ExtTreeMap.ext_getElem? fun o => ?_
          rw [getElem?_insert_eq]
          split_ifs with ho
          · rw [← ho, hknown, hagree event mem_cons_self value hknown]
          · rfl
        refine ih hnext hpairs' ?_ hlt h
        rw [hsame, hrunning]
    | spend event =>
      have hnext : ∀ r, .receive r ∈ events → ∀ v, (unspent.erase event.spent)[r.outpoint]? = some v →
          v = r.value.toNat := by
        intro r hr v hv
        rw [getElem?_erase_eq] at hv
        split_ifs at hv
        exact hagree r (mem_cons_of_mem _ hr) v hv
      rw [checkRunning] at h
      cases hknown : unspent[event.spent]? with
      | none =>
        simp only [hknown] at h
        have hsame := erase_eq_self hknown
        refine ih hnext hpairs' ?_ hlt (by rwa [hsame])
        rw [hsame, hrunning]
      | some value =>
        simp only [hknown] at h
        refine ih hnext hpairs' ?_ (Nat.lt_of_le_of_lt (Nat.sub_le ..) hlt) h
        rw [total_erase hknown, hrunning]

theorem checkRunning_append {front back : List TransparentEvent}
    (h : checkRunning (front ++ back) unspent running = .ok ()) : checkRunning front unspent running = .ok () := by
  induction front generalizing unspent running with
  | nil => rfl
  | cons event front ih =>
    cases event with
    | receive event =>
      rw [cons_append, checkRunning] at h
      rw [checkRunning]
      cases hknown : unspent[event.outpoint]? with
      | none =>
        simp only [hknown, Option.isNone_none, if_true, bind_eq_ok] at h ⊢
        obtain ⟨sum, hsum, hrest⟩ := h
        exact ⟨sum, hsum, ih hrest⟩
      | some value =>
        simp only [hknown, Option.isNone_some, Bool.false_eq_true, if_false] at h ⊢
        exact ih h
    | spend event =>
      rw [cons_append, checkRunning] at h
      rw [checkRunning]
      cases hknown : unspent[event.spent]? with
      | none =>
        simp only [hknown] at h ⊢
        exact ih h
      | some value =>
        simp only [hknown] at h ⊢
        exact ih h

theorem unspentAfter_of_held {o : Outpoint} {v : Nat} (hspends : ∀ e, .spend e ∈ events → e.spent ≠ o)
    (hagree : ∀ r, .receive r ∈ events → r.outpoint = o → r.value.toNat = v)
    (h : unspent[o]? = some v ∨ ∃ r, .receive r ∈ events ∧ r.outpoint = o) :
    (unspentAfter events unspent)[o]? = some v := by
  induction events generalizing unspent with
  | nil => simpa [unspentAfter] using h
  | cons event events ih =>
    have hspends' : ∀ e, .spend e ∈ events → e.spent ≠ o := fun e he => hspends e (mem_cons_of_mem _ he)
    have hagree' : ∀ r, .receive r ∈ events → r.outpoint = o → r.value.toNat = v :=
      fun r hr => hagree r (mem_cons_of_mem _ hr)
    cases event with
    | receive event =>
      rw [unspentAfter]
      refine ih hspends' hagree' ?_
      rw [getElem?_insert_eq]
      by_cases hout : event.outpoint = o
      · exact .inl (by rw [if_pos hout, hagree event mem_cons_self hout])
      · rw [if_neg hout]
        rcases h with h | ⟨r, hr, hrout⟩
        · exact .inl h
        · rcases mem_cons.mp hr with heq | hr
          · cases heq
            exact absurd hrout hout
          · exact .inr ⟨r, hr, hrout⟩
    | spend event =>
      rw [unspentAfter]
      refine ih hspends' hagree' ?_
      rw [getElem?_erase_eq, if_neg (hspends event mem_cons_self)]
      rcases h with h | ⟨r, hr, hrout⟩
      · exact .inl h
      · exact .inr ⟨r, by simpa using hr, hrout⟩

/-! ## The totals of each transaction -/

def sumWhere (p : Outpoint → Prop) [DecidablePred p] (receives : List (Outpoint × Nat)) : Nat :=
  ((receives.filter fun x => p x.1).map Prod.snd).sum

theorem sumWhere_cons (p : Outpoint → Prop) [DecidablePred p] (o : Outpoint) (v : Nat)
    (receives : List (Outpoint × Nat)) :
    sumWhere p ((o, v) :: receives) = (if p o then v else 0) + sumWhere p receives := by
  by_cases h : p o <;> simp [sumWhere, h]

variable {R : OrderedMap Outpoint Nat}

theorem sumWhere_le {p q : Outpoint → Prop} [DecidablePred p] [DecidablePred q] {R' : OrderedMap Outpoint Nat}
    (h : ∀ o v, R'[o]? = some v → p o → R[o]? = some v ∧ q o) : sumWhere p R'.toList ≤ sumWhere q R.toList := by
  refine sum_map_le_of_subset _ ((nodup_toList _).filter _) fun x hx => ?_
  obtain ⟨o, v⟩ := x
  simp only [mem_filter, Std.ExtTreeMap.mem_toList_iff_getElem?_eq_some, decide_eq_true_eq] at hx ⊢
  exact h o v hx.1 hx.2

theorem checkTotals_ok_iff {spends : OrderedMap Outpoint Txid} {receives : List (Outpoint × Nat)}
    {received spent : OrderedMap Txid Nat} {balance : Nat} (hreceived : ∀ t : Txid, received[t]?.getD 0 < 2 ^ 64)
    (hspent : ∀ t : Txid, spent[t]?.getD 0 < 2 ^ 64) (hbalance : balance < 2 ^ 64) :
    checkTotals spends receives received spent balance = .ok () ↔
      (∀ t : Txid, received[t]?.getD 0 + sumWhere (fun o => o.txid = t) receives < 2 ^ 64) ∧
        (∀ t : Txid, spent[t]?.getD 0 + sumWhere (fun o => spends[o]? = some t) receives < 2 ^ 64) ∧
        balance + sumWhere (fun o => spends[o]? = none) receives < 2 ^ 64 := by
  induction receives generalizing received spent balance with
  | nil => simpa [checkTotals, sumWhere] using ⟨hreceived, hspent, hbalance⟩
  | cons x receives ih =>
    obtain ⟨o, v⟩ := x
    have hupdate : ∀ (m : OrderedMap Txid Nat) (k t : Txid), m[k]?.getD 0 + v < 2 ^ 64 →
        (∀ t : Txid, m[t]?.getD 0 < 2 ^ 64) → (m.insert k (m[k]?.getD 0 + v))[t]?.getD 0 < 2 ^ 64 := by
      intro m k t hsum hall
      rw [getElem?_insert_eq]
      split_ifs
      · exact hsum
      · exact hall t
    have hshift : ∀ (m : OrderedMap Txid Nat) (k t : Txid) (p : Outpoint → Prop) [DecidablePred p],
        (p o ↔ k = t) → (m.insert k (m[k]?.getD 0 + v))[t]?.getD 0 + sumWhere p receives =
          m[t]?.getD 0 + sumWhere p ((o, v) :: receives) := by
      intro m k t p _ hp
      rw [getElem?_insert_eq, sumWhere_cons]
      by_cases hk : k = t
      · rw [if_pos hk, if_pos (hp.mpr hk), hk, Option.getD_some, Nat.add_assoc]
      · rw [if_neg hk, if_neg (mt hp.mp hk), Nat.zero_add]
    simp only [checkTotals, bind_eq_ok, checkedAdd_eq_ok]
    by_cases hfirst : received[o.txid]?.getD 0 + v < 2 ^ 64
    · have hsums : ∀ t : Txid, (received.insert o.txid (received[o.txid]?.getD 0 + v))[t]?.getD 0 +
          sumWhere (fun o => o.txid = t) receives =
            received[t]?.getD 0 + sumWhere (fun o => o.txid = t) ((o, v) :: receives) :=
        fun t => hshift received o.txid t _ Iff.rfl
      have hnext := fun t => hupdate received o.txid t hfirst hreceived
      simp only [hfirst, true_and, exists_eq_left']
      cases hspender : spends[o]? with
      | some spender =>
        simp only [bind_eq_ok, checkedAdd_eq_ok]
        by_cases hsecond : spent[spender]?.getD 0 + v < 2 ^ 64
        · simp only [hsecond, true_and, exists_eq_left']
          rw [ih hnext (fun t => hupdate spent spender t hsecond hspent) hbalance]
          have hspents : ∀ t : Txid, (spent.insert spender (spent[spender]?.getD 0 + v))[t]?.getD 0 +
              sumWhere (fun o => spends[o]? = some t) receives =
                spent[t]?.getD 0 + sumWhere (fun o => spends[o]? = some t) ((o, v) :: receives) :=
            fun t => hshift spent spender t _ (by rw [hspender, Option.some.injEq])
          simp only [hsums, hspents]
          rw [sumWhere_cons (fun o => spends[o]? = none), if_neg (by simp [hspender]), Nat.zero_add]
        · simp only [hsecond, false_and, exists_false, false_iff]
          intro h
          have hat := h.2.1 spender
          rw [sumWhere_cons, if_pos hspender] at hat
          omega
      | none =>
        simp only [bind_eq_ok, checkedAdd_eq_ok]
        by_cases hthird : balance + v < 2 ^ 64
        · simp only [hthird, true_and, exists_eq_left']
          rw [ih hnext hspent hthird]
          simp only [hsums]
          have hspents : ∀ t : Txid, sumWhere (fun o => spends[o]? = some t) ((o, v) :: receives) =
              sumWhere (fun o => spends[o]? = some t) receives := by
            intro t
            rw [sumWhere_cons, if_neg (by simp [hspender]), Nat.zero_add]
          simp only [hspents]
          rw [sumWhere_cons (fun o => spends[o]? = none), if_pos hspender, Nat.add_assoc]
        · simp only [hthird, false_and, exists_false, false_iff]
          intro h
          have hat := h.2.2
          rw [sumWhere_cons, if_pos hspender] at hat
          omega
    · simp only [hfirst, false_and, exists_false, false_iff]
      intro h
      have hat := h.1 o.txid
      rw [sumWhere_cons, if_pos rfl] at hat
      omega

theorem checkTotals_empty_iff {S : OrderedMap Outpoint Txid} :
    checkTotals S R.toList ∅ ∅ 0 = .ok () ↔
    (∀ t : Txid, sumWhere (fun o => o.txid = t) R.toList < 2 ^ 64) ∧
      (∀ t : Txid, sumWhere (fun o => S[o]? = some t) R.toList < 2 ^ 64) ∧
      sumWhere (fun o => S[o]? = none) R.toList < 2 ^ 64 := by
  rw [checkTotals_ok_iff (by simp) (by simp) (by simp)]
  simp only [Std.ExtTreeMap.getElem?_empty, Option.getD_none, Nat.zero_add]

end Zakura.Ledger
