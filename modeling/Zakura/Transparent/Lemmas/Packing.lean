import Zakura.Transparent.Packing
import Zakura.Transparent.Lemmas.Compact

/-! # Fragments

The greedy fragments of a run: what they hold, where one ends, and that the incremental summary counts them. -/

namespace Zakura.Transparent

open List Compact

namespace Compact

theorem encodedLenFrom_append (previous : Option TransparentEvent) (events later : List TransparentEvent) :
    encodedLenFrom previous (events ++ later) =
      encodedLenFrom previous events + encodedLenFrom (events.getLast?.or previous) later := by
  induction events generalizing previous with
  | nil => simp [encodedLenFrom]
  | cons first events ih =>
    rw [cons_append, encodedLenFrom, ih, encodedLenFrom, Nat.add_assoc, getLast?_cons]
    cases events.getLast? <;> rfl

theorem encodedLen_append (events later : List TransparentEvent) :
    encodedLen (events ++ later) = encodedLen events + encodedLenFrom events.getLast? later := by
  rw [encodedLen, encodedLenFrom_append, Option.or_none, encodedLen]

theorem encodedLen_concat (events : List TransparentEvent) (event : TransparentEvent) :
    encodedLen (events ++ [event]) = encodedLen events + eventLen event events.getLast? :=
  encodedLen_append events [event]

@[simp] theorem encodedLen_singleton (event : TransparentEvent) : encodedLen [event] = eventLen event none := by
  simp [encodedLen, encodedLenFrom]

theorem eventLen_le (event : TransparentEvent) (previous : Option TransparentEvent) :
    eventLen event previous ≤ fragmentPayload := by
  have hmetadata : event.metadata.elim 0 TransactionMetadata.encodedLen ≤ 15 := by
    cases event.metadata with
    | none => exact Nat.zero_le _
    | some metadata => exact metadata.length_encode.symm.trans_le metadata.length_encode_le
  have hpayload : fragmentPayload = 4052 := rfl
  unfold eventLen
  split
  · simp only [receiveBytes]
    omega
  · simp only [localSpendBytes, spendBytes]
    split_ifs <;> omega

/-- A local spend takes 43 bytes and follows a receive of 51. -/
theorem mul_length_le (previous : Option TransparentEvent) (events : List TransparentEvent) :
    47 * events.length ≤ encodedLenFrom previous events + match previous with
      | some (.receive _) => 4
      | _ => 0 := by
  induction events generalizing previous with
  | nil => exact Nat.zero_le _
  | cons event events ih =>
    have hrest := ih (some event)
    rw [encodedLenFrom, length_cons]
    cases event with
    | receive r =>
      simp only [eventLen, receiveBytes] at hrest ⊢
      omega
    | spend s =>
      by_cases hlocal : isLocal (.spend s) previous
      · obtain ⟨r, rfl, -⟩ := outpoint_of_isLocal hlocal
        simp only [eventLen, hlocal, if_true, localSpendBytes] at hrest ⊢
        omega
      · simp only [eventLen, hlocal, Bool.false_eq_true, if_false, spendBytes] at hrest ⊢
        omega

theorem length_le_of_fits {events : List TransparentEvent} (h : encodedLen events ≤ fragmentPayload) :
    events.length ≤ 86 := by
  have hlength : 47 * events.length ≤ encodedLen events := mul_length_le none events
  have hpayload : fragmentPayload = 4052 := rfl
  omega

end Compact

/-- Where a new fragment starts: the event would not have fitted into the one before. -/
def BoundaryAfter (fragment next : List TransparentEvent) : Prop :=
  ∀ first ∈ next.head?, fragmentPayload < encodedLen fragment + eventLen first fragment.getLast?

theorem fragmentsFrom_cons (event : TransparentEvent) (events current : List TransparentEvent) (bytes : Nat) :
    fragmentsFrom (event :: events) current bytes =
      if fragmentPayload < bytes + eventLen event current.getLast? then
        current :: fragmentsFrom events [event] (eventLen event none)
      else fragmentsFrom events (current ++ [event]) (bytes + eventLen event current.getLast?) := rfl

theorem fragments_cons (event : TransparentEvent) (events : List TransparentEvent) :
    fragments (event :: events) = fragmentsFrom events [event] (encodedLen [event]) := by
  unfold fragments
  rw [fragmentsFrom_cons, if_neg (by simpa using eventLen_le event none)]
  simp

/-- A split of a run into pieces that are not empty, fit, and end where the next event would not. -/
structure Greedy (events : List TransparentEvent) (parts : List (List TransparentEvent)) : Prop where
  flatten : parts.flatten = events
  fits : ∀ part ∈ parts, part ≠ [] ∧ encodedLen part ≤ fragmentPayload
  boundary : parts.IsChain BoundaryAfter

/-- By induction on the events; the fragment being filled begins the first one. -/
theorem fragmentsFrom_greedy (events : List TransparentEvent) {current : List TransparentEvent} (hne : current ≠ [])
    (hfits : encodedLen current ≤ fragmentPayload) :
    ∃ more rest, fragmentsFrom events current (encodedLen current) = (current ++ more) :: rest ∧
      Greedy (current ++ events) ((current ++ more) :: rest) := by
  induction events generalizing current with
  | nil => exact ⟨[], [], by simp [fragmentsFrom, hne], by simp, by simp [hne, hfits], List.IsChain.singleton _⟩
  | cons event events ih =>
    rw [fragmentsFrom_cons, ← encodedLen_concat]
    split_ifs with hfull
    · have hfirst : encodedLen [event] ≤ fragmentPayload := by
        rw [encodedLen_singleton]
        exact eventLen_le event none
      obtain ⟨more, rest, hrest, hgreedy⟩ := ih (cons_ne_nil event []) hfirst
      rw [← encodedLen_singleton, hrest]
      refine ⟨[], _, by rw [append_nil], ?_, ?_, ?_⟩
      · rw [append_nil, flatten_cons, hgreedy.flatten, singleton_append]
      · rw [append_nil]
        exact forall_mem_cons.mpr ⟨⟨hne, hfits⟩, hgreedy.fits⟩
      · rw [append_nil]
        refine List.IsChain.cons_cons (fun first hmem => ?_) hgreedy.boundary
        obtain rfl : event = first := by simpa using hmem
        rwa [← encodedLen_concat]
    · obtain ⟨more, rest, hrest, hgreedy⟩ := ih (by simp) (Nat.le_of_not_lt hfull)
      rw [append_assoc, singleton_append] at hrest hgreedy
      exact ⟨event :: more, rest, hrest, by simpa using hgreedy⟩

theorem fragments_greedy (events : List TransparentEvent) : Greedy events (fragments events) := by
  cases events with
  | nil => exact ⟨rfl, forall_mem_nil _, List.IsChain.nil⟩
  | cons event events =>
    rw [fragments_cons]
    obtain ⟨more, rest, hrest, hgreedy⟩ := fragmentsFrom_greedy events (cons_ne_nil event [])
      (by rw [encodedLen_singleton]; exact eventLen_le event none)
    rw [hrest]
    exact hgreedy

/-- Events that fit are taken into the fragment being filled. -/
theorem fragmentsFrom_append (current more rest : List TransparentEvent)
    (hfits : encodedLen (current ++ more) ≤ fragmentPayload) :
    fragmentsFrom (more ++ rest) current (encodedLen current) =
      fragmentsFrom rest (current ++ more) (encodedLen (current ++ more)) := by
  induction more generalizing current with
  | nil => rw [append_nil, nil_append]
  | cons event more ih =>
    rw [append_cons] at hfits ⊢
    have hle : encodedLen (current ++ [event]) ≤ fragmentPayload := by
      rw [encodedLen_append (current ++ [event])] at hfits
      omega
    rw [cons_append, fragmentsFrom_cons, ← encodedLen_concat, if_neg (Nat.not_lt.mpr hle), ih _ hfits]

/-- The fragments are the only split into pieces that fit and end where the next event would not. -/
theorem Greedy.eq_fragments {events : List TransparentEvent} {parts : List (List TransparentEvent)}
    (h : Greedy events parts) : parts = fragments events := by
  obtain ⟨rfl, hparts, hchain⟩ := h
  induction parts with
  | nil => rfl
  | cons part parts ih =>
    obtain ⟨⟨hne, hfits⟩, hrest⟩ := forall_mem_cons.mp hparts
    have hstart : fragments (part ++ parts.flatten) = fragmentsFrom parts.flatten part (encodedLen part) :=
      fragmentsFrom_append [] part parts.flatten hfits
    rw [flatten_cons, hstart]
    cases parts with
    | nil => simp [fragmentsFrom, hne]
    | cons next later =>
      obtain ⟨first, rest, rfl⟩ := exists_cons_of_ne_nil (hrest next mem_cons_self).1
      obtain ⟨hboundary, hchain⟩ := isChain_cons_cons.mp hchain
      have hlater := ih hrest hchain
      rw [flatten_cons, cons_append, fragments_cons, encodedLen_singleton] at hlater
      rw [flatten_cons, cons_append, fragmentsFrom_cons, if_pos (hboundary first rfl), ← hlater]

/-! ## The summary of a run -/

namespace HistoryLayout

theorem pushWithPayload_zero {history : HistoryLayout} (h : history.inline = []) (event : TransparentEvent)
    (payload : Nat) :
    history.pushWithPayload event 0 payload = { history with events := history.events + 1 }.page event payload := by
  obtain ⟨events, inline, fragments, tailBytes, pagedBytes, lastPaged⟩ := history
  subst h
  rfl

@[simp] theorem page_events (history : HistoryLayout) (event : TransparentEvent) (payload : Nat) :
    (history.page event payload).events = history.events := by
  simp only [page]
  split_ifs <;> rfl

@[simp] theorem page_inline (history : HistoryLayout) (event : TransparentEvent) (payload : Nat) :
    (history.page event payload).inline = history.inline := by
  simp only [page]
  split_ifs <;> rfl

/-- The summary agrees with the fragments: those before the one being filled, and that one's bytes and last event. -/
structure Summarizes (history : HistoryLayout) (before : List (List TransparentEvent)) (current : List TransparentEvent) :
    Prop where
  events : history.events = (before ++ [current]).flatten.length
  inline : history.inline = []
  fragments : history.fragments = before.length + 1
  tailBytes : history.tailBytes = encodedLen current
  pagedBytes : history.pagedBytes = (before.map encodedLen).sum + encodedLen current
  lastPaged : history.lastPaged = current.getLast?

theorem Summarizes.foldl {history : HistoryLayout} {before : List (List TransparentEvent)}
    {current : List TransparentEvent} (h : history.Summarizes before current) (hne : current ≠ [])
    (events : List TransparentEvent) :
    ∃ before' last, before ++ fragmentsFrom events current (encodedLen current) = before' ++ [last] ∧
      (events.foldl (fun history event => history.pushWithPayload event 0 fragmentPayload) history).Summarizes
        before' last := by
  induction events generalizing history before current with
  | nil => exact ⟨before, current, by simp [fragmentsFrom, hne], h⟩
  | cons event events ih =>
    rw [foldl_cons, pushWithPayload_zero h.inline, fragmentsFrom_cons]
    by_cases hfull : fragmentPayload < encodedLen current + eventLen event current.getLast?
    · have hstep : ({ history with events := history.events + 1 }.page event fragmentPayload).Summarizes
          (before ++ [current]) [event] := by
        refine ⟨by simp [h.events, Nat.add_assoc], by simp [h.inline], ?_, ?_, ?_, ?_⟩ <;>
          simp [page, h.fragments, h.tailBytes, h.pagedBytes, h.lastPaged, hfull]
      obtain ⟨before', last, heq, hsum⟩ := ih hstep (cons_ne_nil event [])
      refine ⟨before', last, ?_, hsum⟩
      rw [if_pos hfull, ← heq, encodedLen_singleton, append_assoc, singleton_append]
    · have hstep : ({ history with events := history.events + 1 }.page event fragmentPayload).Summarizes
          before (current ++ [event]) := by
        refine ⟨by simp [h.events, Nat.add_assoc], by simp [h.inline], ?_, ?_, ?_, ?_⟩ <;>
          simp [page, h.fragments, h.tailBytes, h.pagedBytes, h.lastPaged, hfull, encodedLen_concat, Nat.add_assoc]
      obtain ⟨before', last, heq, hsum⟩ := ih hstep (by simp)
      refine ⟨before', last, ?_, hsum⟩
      rw [if_neg hfull, ← heq, encodedLen_concat]

/-- The summary of a run with no inline allowance. -/
def summarize (events : List TransparentEvent) : HistoryLayout :=
  events.foldl (fun history event => history.pushWithPayload event 0 fragmentPayload) {}

theorem summarize_fragments (events : List TransparentEvent) :
    (summarize events).events = (Transparent.fragments events).flatten.length ∧
      (summarize events).fragments = (Transparent.fragments events).length ∧
      (summarize events).pagedBytes = ((Transparent.fragments events).map encodedLen).sum ∧
      (summarize events).tailBytes = ((Transparent.fragments events).getLast?.map encodedLen).getD 0 := by
  cases events with
  | nil => exact ⟨rfl, rfl, rfl, rfl⟩
  | cons event events =>
    have hfirst : (pushWithPayload {} event 0 fragmentPayload).Summarizes [] [event] := by
      refine ⟨rfl, rfl, rfl, ?_, ?_, rfl⟩ <;> simp [pushWithPayload, page]
    obtain ⟨before, last, heq, hsum⟩ := hfirst.foldl (cons_ne_nil event []) events
    rw [summarize, foldl_cons, fragments_cons, ← nil_append (fragmentsFrom _ _ _), heq]
    refine ⟨hsum.events, hsum.fragments.trans (by simp), hsum.pagedBytes.trans (by simp), hsum.tailBytes.trans (by simp)⟩

end HistoryLayout

end Zakura.Transparent
