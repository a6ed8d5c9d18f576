import Zakura.Lib.Tiles

/-! # Cutting a sequence greedily

From a position the next piece ends where a rule says; pieces are cut one after another while they end below a
limit. What a limit has cut, a higher limit cuts too, and goes on from there. -/

namespace Zakura

variable {next : Nat → Option Nat} {limit limit' fuel fuel' start last : Nat}

/-- The pieces from a position, each with its first and last position. Every piece moves the position up, so the
limit bounds the fuel. -/
def pieces (next : Nat → Option Nat) (limit : Nat) : Nat → Nat → List (Nat × Nat)
  | 0, _ => []
  | fuel + 1, start =>
    match next start with
    | none => []
    | some last => if last < limit then (start, last) :: pieces next limit fuel (last + 1) else []

def behind (start : Nat) (cut : List (Nat × Nat)) : Nat := (cut.getLast?.map fun piece => piece.2 + 1).getD start

theorem behind_cons (start : Nat) (piece : Nat × Nat) (cut : List (Nat × Nat)) :
    behind start (piece :: cut) = behind (piece.2 + 1) cut := by
  cases cut with
  | nil => rfl
  | cons second rest =>
    rw [behind, List.getLast?_cons_cons, behind]
    rfl

def Forward (next : Nat → Option Nat) : Prop := ∀ start last, next start = some last → start ≤ last

theorem pieces_none (h : next start = none) : pieces next limit fuel start = [] := by
  cases fuel with
  | zero => rfl
  | succ fuel => rw [pieces, h]

theorem pieces_cut (h : next start = some last) (hlast : last < limit) :
    pieces next limit (fuel + 1) start = (start, last) :: pieces next limit fuel (last + 1) := by
  rw [pieces, h]
  exact if_pos hlast

theorem pieces_stop (h : next start = some last) (hlast : ¬ last < limit) : pieces next limit fuel start = [] := by
  cases fuel with
  | zero => rfl
  | succ fuel =>
    rw [pieces, h]
    exact if_neg hlast

theorem pieces_fuel (hnext : Forward next) (hfuel : limit ≤ start + fuel) (hfuel' : limit ≤ start + fuel') :
    pieces next limit fuel start = pieces next limit fuel' start := by
  induction fuel generalizing fuel' start with
  | zero =>
    cases hstart : next start with
    | none => rw [pieces_none hstart, pieces_none hstart]
    | some last =>
      have hle := hnext start last hstart
      have hstop : ¬ last < limit := by omega
      rw [pieces_stop hstart hstop, pieces_stop hstart hstop]
  | succ fuel ih =>
    cases hstart : next start with
    | none => rw [pieces_none hstart, pieces_none hstart]
    | some last =>
      have hle := hnext start last hstart
      by_cases hlast : last < limit
      · cases fuel' with
        | zero => omega
        | succ fuel' =>
          have hrest : pieces next limit fuel (last + 1) = pieces next limit fuel' (last + 1) :=
            ih (by omega) (by omega)
          rw [pieces_cut hstart hlast, pieces_cut hstart hlast, hrest]
      · rw [pieces_stop hstart hlast, pieces_stop hstart hlast]

theorem pieces_tiles (hnext : Forward next) :
    Tiles (fun piece : Nat × Nat => piece.1) (fun piece => piece.2) start (pieces next limit fuel start)
      (behind start (pieces next limit fuel start)) := by
  induction fuel generalizing start with
  | zero => rfl
  | succ fuel ih =>
    cases hstart : next start with
    | none =>
      rw [pieces_none hstart]
      rfl
    | some last =>
      by_cases hlast : last < limit
      · rw [pieces_cut hstart hlast, behind_cons]
        exact ⟨rfl, hnext start last hstart, ih⟩
      · rw [pieces_stop hstart hlast]
        rfl

theorem le_behind_pieces (hnext : Forward next) (limit fuel start : Nat) :
    start ≤ behind start (pieces next limit fuel start) :=
  Nat.le_trans (Nat.le_add_right _ _) (pieces_tiles hnext).length_le

theorem pieces_append (hnext : Forward next) (hle : limit ≤ limit') (hfuel : limit' ≤ start + fuel) :
    pieces next limit' fuel start =
      pieces next limit fuel start ++ pieces next limit' fuel (behind start (pieces next limit fuel start)) := by
  induction fuel generalizing start with
  | zero => rfl
  | succ fuel ih =>
    cases hstart : next start with
    | none =>
      rw [pieces_none hstart, pieces_none hstart]
      exact (pieces_none hstart).symm
    | some last =>
      have hforward := hnext start last hstart
      by_cases hlast : last < limit
      · have hbehind := le_behind_pieces hnext limit fuel (last + 1)
        rw [pieces_cut hstart hlast, pieces_cut hstart (Nat.lt_of_lt_of_le hlast hle), behind_cons, List.cons_append]
        have hrest := ih (show limit' ≤ last + 1 + fuel by omega)
        rw [hrest]
        refine congrArg (fun rest => (start, last) :: (pieces next limit fuel (last + 1) ++ rest)) ?_
        exact pieces_fuel hnext (by omega) (by omega)
      · rw [pieces_stop hstart hlast]
        rfl

/-- Behind the last piece nothing is left to cut: the next piece, if there is one, reaches the limit. -/
theorem next_behind_pieces (hnext : Forward next) (hfuel : limit ≤ start + fuel)
    (h : next (behind start (pieces next limit fuel start)) = some last) : limit ≤ last := by
  induction fuel generalizing start with
  | zero =>
    have hle := hnext start last h
    omega
  | succ fuel ih =>
    cases hstart : next start with
    | none =>
      rw [pieces_none hstart] at h
      exact absurd (hstart.symm.trans h) (by simp)
    | some first =>
      have hle := hnext start first hstart
      by_cases hfirst : first < limit
      · rw [pieces_cut hstart hfirst, behind_cons] at h
        exact ih (by omega) h
      · rw [pieces_stop hstart hfirst] at h
        obtain rfl := Option.some_inj.mp (hstart.symm.trans h)
        omega

theorem pieces_mem {piece : Nat × Nat} (h : piece ∈ pieces next limit fuel start) :
    next piece.1 = some piece.2 ∧ piece.2 < limit := by
  induction fuel generalizing start with
  | zero => exact absurd h List.not_mem_nil
  | succ fuel ih =>
    cases hstart : next start with
    | none =>
      rw [pieces_none hstart] at h
      exact absurd h List.not_mem_nil
    | some last =>
      by_cases hlast : last < limit
      · rw [pieces_cut hstart hlast] at h
        obtain rfl | h := List.mem_cons.mp h
        · exact ⟨hstart, hlast⟩
        · exact ih h
      · rw [pieces_stop hstart hlast] at h
        exact absurd h List.not_mem_nil

end Zakura
