import Mathlib.Algebra.Order.Ring.Nat

/-! # Reading a range in batches

A loop asks a source for what lies from a cursor on, checks the answer, and moves the cursor by the items it got, until the
end of the range. The cursor is a 64-bit word. -/

namespace Zakura

open List

section

variable {T Request Answer α σ ε : Type} (fetch : Request → T → Except ε Answer × T) (request : Nat → Request)
  (check : Answer → Request → Except ε (List α)) (step : σ → Answer → List α → σ) (bound : Nat)

/-- The loop, over at most the given rounds; nothing if they do not suffice. -/
def fetchLoop : Nat → Nat → σ → T → Option (Except ε σ × T)
  | 0, _, _, _ => none
  | rounds + 1, next, state, source =>
    if next < bound then
      match fetch (request next) source with
      | (.error error, source) => some (.error error, source)
      | (.ok answer, source) =>
        match check answer (request next) with
        | .error error => some (.error error, source)
        | .ok items => fetchLoop rounds ((next + items.length) % 2 ^ 64) (step state answer items) source
    else some (.ok state, source)

variable {fetch request check step bound}

variable {rounds next : Nat} {state final : σ} {source last : T}

/-- What a round that does not end the loop does. -/
theorem fetchLoop_round (hnext : next < bound)
    (h : fetchLoop fetch request check step bound (rounds + 1) next state source = some (.ok final, last)) :
    ∃ answer items source', check answer (request next) = .ok items ∧
      fetchLoop fetch request check step bound rounds ((next + items.length) % 2 ^ 64) (step state answer items) source' =
        some (.ok final, last) := by
  rw [fetchLoop, if_pos hnext] at h
  split at h
  next => cases h
  next answer source' _ =>
    split at h
    next => cases h
    next items hcheck => exact ⟨answer, items, source', hcheck, h⟩

/-- Every word is below the end, so the cursor never reaches it. -/
theorem fetchLoop_ne_ok (hnext : next < 2 ^ 64) :
    fetchLoop fetch request check step (2 ^ 64) rounds next state source ≠ some (.ok final, last) := by
  induction rounds generalizing next state source with
  | zero =>
    intro h
    cases h
  | succ rounds ih =>
    intro h
    obtain ⟨answer, items, source', -, h⟩ := fetchLoop_round hnext h
    exact ih (Nat.mod_lt _ (by decide)) h

/-- What every accepted answer carries on from the cursor holds at the end of a loop that succeeds. -/
theorem fetchLoop_ok {I : Nat → σ → Prop} (hbound : bound ≤ 2 ^ 64)
    (hstep : ∀ next state answer items, next < bound → I next state → check answer (request next) = .ok items →
      next + items.length ≤ bound ∧ I (next + items.length) (step state answer items))
    (hnext : next ≤ bound) (hword : next < 2 ^ 64) (hinit : I next state)
    (h : fetchLoop fetch request check step bound rounds next state source = some (.ok final, last)) : I bound final := by
  rcases Nat.lt_or_eq_of_le hbound with hbound | rfl
  · induction rounds generalizing next state source with
    | zero => cases h
    | succ rounds ih =>
      by_cases hlt : next < bound
      · obtain ⟨answer, items, source', hcheck, h⟩ := fetchLoop_round hlt h
        obtain ⟨hle, hkept⟩ := hstep next state answer items hlt hinit hcheck
        have hsmall : next + items.length < 2 ^ 64 := by omega
        rw [Nat.mod_eq_of_lt hsmall] at h
        exact ih hle hsmall hkept h
      · rw [fetchLoop, if_neg hlt] at h
        cases h
        obtain rfl : next = bound := by omega
        exact hinit
  · exact absurd h (fetchLoop_ne_ok hword)

end

/-! ## Visiting the items -/

/-- Each visit adds the item to a trace, its result to those found, and one to a count. -/
structure Visits {σ α β : Type} (visit : σ → α → σ) (trace : σ → List α) (found : σ → List β) (count : σ → Nat)
    (result : α → Option β) : Prop where
  trace : ∀ s a, trace (visit s a) = trace s ++ [a]
  found : ∀ s a, found (visit s a) = found s ++ (result a).toList
  count : ∀ s a, count (visit s a) = count s + 1

section

variable {T Request Answer α β σ ε : Type} {fetch : Request → T → Except ε Answer × T} {request : Nat → Request}
  {check : Answer → Request → Except ε (List α)} {visit : σ → α → σ} {charge : σ → Answer → σ} {trace : σ → List α}
  {found : σ → List β} {count : σ → Nat} {result : α → Option β} {bound : Nat}

/-- What a state reports of the items visited since the cursor was at `start`. -/
structure Reports (trace : σ → List α) (found : σ → List β) (count : σ → Nat) (result : α → Option β)
    (P : Nat → α → Prop) (start next : Nat) (state : σ) : Prop where
  length : start + (trace state).length = next
  holds : ∀ i a, (trace state)[i]? = some a → P (start + i) a
  found : found state = (trace state).filterMap result
  count : count state = (trace state).length

variable {P : Nat → α → Prop} {start next : Nat} {state : σ}

theorem Reports.foldl (hvisit : Visits visit trace found count result) {items : List α}
    (h : Reports trace found count result P start next state) (hitems : ∀ i a, items[i]? = some a → P (next + i) a) :
    Reports trace found count result P start (next + items.length) (items.foldl visit state) := by
  induction items generalizing next state with
  | nil => exact h
  | cons a items ih =>
    have hnext : Reports trace found count result P start (next + 1) (visit state a) := by
      refine ⟨?_, fun i b hb => ?_, ?_, ?_⟩
      · rw [hvisit.trace, length_append, length_singleton, ← Nat.add_assoc, h.length]
      · rw [hvisit.trace] at hb
        by_cases hi : i < (trace state).length
        · rw [getElem?_append_left hi] at hb
          exact h.holds i b hb
        · rw [getElem?_append_right (Nat.not_lt.mp hi), getElem?_singleton] at hb
          have hlast : i = (trace state).length := by
            by_contra hne
            rw [if_neg (by omega)] at hb
            cases hb
          rw [hlast, Nat.sub_self, if_pos rfl] at hb
          cases hb
          rw [hlast, h.length]
          exact hitems 0 a rfl
      · rw [hvisit.found, hvisit.trace, filterMap_append, h.found]
        cases hr : result a <;> simp [hr]
      · rw [hvisit.count, hvisit.trace, length_append, h.count, length_singleton]
    have hrest := ih hnext fun i b hb => by
      have := hitems (i + 1) b hb
      rwa [Nat.add_assoc, Nat.add_comm 1 i]
    rw [length_cons, foldl_cons, Nat.add_comm items.length 1, ← Nat.add_assoc]
    exact hrest

/-- What is found is what the visited items have, if each result says what its item has. -/
theorem Reports.mem_found {ι : Type} {pick : β → ι → Prop} {Q : α → ι → Prop}
    (h : Reports trace found count result P start next state)
    (hresult : ∀ n a, P n a → ∀ x, (∃ b, result a = some b ∧ pick b x) ↔ Q a x) (x : ι) :
    (∃ b ∈ found state, pick b x) ↔ ∃ a ∈ trace state, Q a x := by
  rw [h.found]
  constructor
  · rintro ⟨b, hb, hpick⟩
    obtain ⟨a, ha, hab⟩ := mem_filterMap.mp hb
    obtain ⟨i, hi⟩ := mem_iff_getElem?.mp ha
    exact ⟨a, ha, (hresult _ a (h.holds i a hi) x).mp ⟨b, hab, hpick⟩⟩
  · rintro ⟨a, ha, hq⟩
    obtain ⟨i, hi⟩ := mem_iff_getElem?.mp ha
    obtain ⟨b, hab, hpick⟩ := (hresult _ a (h.holds i a hi) x).mpr hq
    exact ⟨b, mem_filterMap.mpr ⟨a, ha, hab⟩, hpick⟩

/-- A loop that succeeds has visited an item for every position of the range, in order, and reports their results. -/
theorem fetchLoop_reports (hvisit : Visits visit trace found count result)
    (hcharge : ∀ s a, trace (charge s a) = trace s ∧ found (charge s a) = found s ∧ count (charge s a) = count s)
    (hbound : bound ≤ 2 ^ 64)
    (hcheck : ∀ next answer items, next < bound → check answer (request next) = .ok items →
      next + items.length ≤ bound ∧ ∀ i a, items[i]? = some a → P (next + i) a)
    {rounds : Nat} {final : σ} {source last : T} (hstart : start ≤ bound) (hword : start < 2 ^ 64)
    (hinit : Reports trace found count result P start start state)
    (h : fetchLoop fetch request check (fun s answer items => items.foldl visit (charge s answer))
      bound rounds start state source = some (.ok final, last))
    :
    Reports trace found count result P start bound final := by
  refine fetchLoop_ok hbound (fun next state answer items hlt hstate hok => ?_) hstart hword hinit h
  obtain ⟨hle, hitems⟩ := hcheck next answer items hlt hok
  obtain ⟨htrace, hfound, hcount⟩ := hcharge state answer
  refine ⟨hle, Reports.foldl hvisit ⟨?_, ?_, ?_, ?_⟩ hitems⟩
  · rw [htrace, hstate.length]
  · rw [htrace]
    exact hstate.holds
  · rw [htrace, hfound, hstate.found]
  · rw [htrace, hcount, hstate.count]

end

end Zakura
