import Zakura.Transparent.PageRow

/-! # Packing histories into rows

The summary of one history's fragments, kept event by event, and the greedy fragments themselves. -/

namespace Zakura.Transparent

structure HistoryLayout where
  events : Nat := 0
  inline : List TransparentEvent := []
  fragments : Nat := 0
  tailBytes : Nat := 0
  pagedBytes : Nat := 0
  lastPaged : Option TransparentEvent := none
deriving DecidableEq

namespace HistoryLayout

/-- The event that leaves the inline suffix joins the last fragment or starts another one. -/
def page (history : HistoryLayout) (older : TransparentEvent) (payload : Nat) : HistoryLayout :=
  let len := Compact.eventLen older history.lastPaged
  if history.fragments = 0 ∨ payload < history.tailBytes + len then
    let len := Compact.eventLen older none
    { history with fragments := history.fragments + 1, tailBytes := len,
                   pagedBytes := history.pagedBytes + len, lastPaged := some older }
  else
    { history with tailBytes := history.tailBytes + len, pagedBytes := history.pagedBytes + len,
                   lastPaged := some older }

/-- `push_with_payload`. The source counts events in a `u32` and panics at the event that does not fit
(`checked_add(1).expect`); since a summary's count is the number of events pushed, that is the event after
the first 2^32 - 1. -/
def pushWithPayload (history : HistoryLayout) (event : TransparentEvent) (inline payload : Nat) :
    HistoryLayout :=
  let history := { history with events := history.events + 1, inline := history.inline ++ [event] }
  match history.inline with
  | older :: rest => if history.inline.length ≤ inline then history
      else { history with inline := rest }.page older payload
  | [] => history

end HistoryLayout

/-- The loop of `fragments`, with the fragment being filled and its bytes. -/
def fragmentsFrom : List TransparentEvent → List TransparentEvent → Nat → List (List TransparentEvent)
  | [], current, _ => if current.isEmpty then [] else [current]
  | event :: events, current, bytes =>
    let len := Compact.eventLen event current.getLast?
    if fragmentPayload < bytes + len then
      current :: fragmentsFrom events [event] (Compact.eventLen event none)
    else fragmentsFrom events (current ++ [event]) (bytes + len)

def fragments (events : List TransparentEvent) : List (List TransparentEvent) := fragmentsFrom events [] 0

end Zakura.Transparent
