import Zakura.Lib.BinarySearch

/-! # Intervals that tile a range

The elements of a list cover closed intervals, each starting right after the one before it. -/

namespace Zakura

open List

variable {α : Type} {lo hi : α → Nat} {start stop mid : Nat} {xs ys : List α} {x y : α}

/-- The intervals tile `[start, stop)` in the list's order. -/
def Tiles (lo hi : α → Nat) : Nat → List α → Nat → Prop
  | start, [], stop => start = stop
  | start, x :: xs, stop => lo x = start ∧ lo x ≤ hi x ∧ Tiles lo hi (hi x + 1) xs stop

theorem Tiles.append (h : Tiles lo hi start xs mid) (h' : Tiles lo hi mid ys stop) :
    Tiles lo hi start (xs ++ ys) stop := by
  induction xs generalizing start with
  | nil =>
    obtain rfl : start = mid := h
    exact h'
  | cons x xs ih => exact ⟨h.1, h.2.1, ih h.2.2⟩

section

variable (h : Tiles lo hi start xs stop)

include h

theorem Tiles.length_le : start + xs.length ≤ stop := by
  induction xs generalizing start with
  | nil => exact Nat.le_of_eq h
  | cons x xs ih =>
    obtain ⟨hlo, hle, hrest⟩ := h
    have := ih hrest
    rw [length_cons]
    omega

theorem Tiles.bounds (hx : x ∈ xs) : start ≤ lo x ∧ lo x ≤ hi x ∧ hi x < stop := by
  induction xs generalizing start with
  | nil => exact absurd hx not_mem_nil
  | cons y xs ih =>
    obtain ⟨hlo, hle, hrest⟩ := h
    obtain rfl | hx := mem_cons.mp hx
    · have := hrest.length_le
      exact ⟨Nat.le_of_eq hlo.symm, hle, by omega⟩
    · obtain ⟨hy, hbounds⟩ := ih hrest hx
      exact ⟨by omega, hbounds⟩

theorem Tiles.head (hx : xs.head? = some x) : lo x = start := by
  cases xs with
  | nil => cases hx
  | cons y xs =>
    obtain rfl := Option.some_inj.mp hx
    exact h.1

theorem Tiles.last (hx : xs.getLast? = some x) : hi x + 1 = stop := by
  induction xs generalizing start with
  | nil => cases hx
  | cons y xs ih =>
    cases xs with
    | nil =>
      obtain rfl := Option.some_inj.mp hx
      exact h.2.2
    | cons z zs => exact ih h.2.2 hx

theorem Tiles.pairwise : xs.Pairwise fun x y => hi x < lo y := by
  induction xs generalizing start with
  | nil => exact List.Pairwise.nil
  | cons x xs ih =>
    refine pairwise_cons.mpr ⟨fun y hy => ?_, ih h.2.2⟩
    exact (h.2.2.bounds hy).1

theorem Tiles.covered {n : Nat} (hstart : start ≤ n) (hstop : n < stop) : ∃ x ∈ xs, lo x ≤ n ∧ n ≤ hi x := by
  induction xs generalizing start with
  | nil =>
    obtain rfl : start = stop := h
    omega
  | cons x xs ih =>
    obtain ⟨hlo, -, hrest⟩ := h
    by_cases hn : n ≤ hi x
    · exact ⟨x, mem_cons_self, by omega, hn⟩
    · obtain ⟨y, hy, hcover⟩ := ih hrest (by omega)
      exact ⟨y, mem_cons_of_mem x hy, hcover⟩

end

theorem Tiles.shift {tile : List (Nat × Nat)} (h : Tiles (·.1) (·.2) start tile stop) (offset : Nat) :
    Tiles (fun range : Nat × Nat => range.1) (fun range => range.2) (offset + start)
      (tile.map fun range => (offset + range.1, offset + range.2)) (offset + stop) := by
  induction tile generalizing start with
  | nil => exact congrArg (offset + ·) h
  | cons range tile ih =>
    obtain ⟨rfl, hle, hrest⟩ := h
    exact ⟨rfl, Nat.add_le_add_left hle offset, ih hrest⟩

/-- The point at which the interval of an index starts; the range's end behind the last. -/
def startAt (lo : α → Nat) (xs : List α) (stop index : Nat) : Nat := (xs[index]?.map lo).getD stop

theorem startAt_of_getElem? {index : Nat} (h : xs[index]? = some x) : startAt lo xs stop index = lo x := by
  rw [startAt, h, Option.map_some, Option.getD_some]

theorem startAt_of_length_le {index : Nat} (h : xs.length ≤ index) : startAt lo xs stop index = stop := by
  rw [startAt, getElem?_eq_none h, Option.map_none, Option.getD_none]

theorem Tiles.split (h : Tiles lo hi start xs stop) {index : Nat} (hindex : index ≤ xs.length) :
    Tiles lo hi start (xs.take index) (startAt lo xs stop index) ∧
      Tiles lo hi (startAt lo xs stop index) (xs.drop index) stop := by
  induction index generalizing start xs with
  | zero =>
    cases xs with
    | nil => exact ⟨h, rfl⟩
    | cons x xs => exact ⟨h.1.symm, ⟨rfl, h.2⟩⟩
  | succ index ih =>
    cases xs with
    | nil => exact absurd hindex (Nat.not_succ_le_zero index)
    | cons x xs =>
      obtain ⟨hlo, hle, hrest⟩ := h
      obtain ⟨htake, hdrop⟩ := ih hrest (Nat.le_of_succ_le_succ hindex)
      exact ⟨⟨hlo, hle, htake⟩, hdrop⟩

theorem Tiles.slice (h : Tiles lo hi start xs stop) {i j : Nat} (hij : i ≤ j) (hj : j ≤ xs.length) :
    Tiles lo hi (startAt lo xs stop i) ((xs.drop i).take (j - i)) (startAt lo xs stop j) := by
  obtain ⟨-, hdrop⟩ := h.split (Nat.le_trans hij hj)
  obtain ⟨htake, -⟩ := hdrop.split (show j - i ≤ (xs.drop i).length by rw [length_drop]; omega)
  have hstart : startAt lo (xs.drop i) stop (j - i) = startAt lo xs stop j := by
    rw [startAt, getElem?_drop, Nat.add_sub_cancel' hij, startAt]
  rwa [hstart] at htake

theorem tiles_of_isChain (hchain : xs.IsChain fun x y => hi x + 1 = lo y) (hle : ∀ x ∈ xs, lo x ≤ hi x)
    (hfirst : xs.head?.map lo = some start) (hlast : (xs.getLast?.map fun x => hi x + 1) = some stop) :
    Tiles lo hi start xs stop := by
  induction xs generalizing start with
  | nil => cases hfirst
  | cons x xs ih =>
    refine ⟨Option.some_inj.mp hfirst, hle x mem_cons_self, ?_⟩
    cases xs with
    | nil => exact Option.some_inj.mp hlast
    | cons y ys =>
      obtain ⟨hxy, hchain⟩ := isChain_cons_cons.mp hchain
      refine ih hchain (fun z hz => hle z (mem_cons_of_mem x hz)) ?_ ?_
      · rw [hxy, head?_cons, Option.map_some]
      · rwa [getLast?_cons_cons] at hlast

theorem Tiles.map_iff {β : Type} {f : β → α} {zs : List β} :
    Tiles lo hi start (zs.map f) stop ↔ Tiles (fun z => lo (f z)) (fun z => hi (f z)) start zs stop := by
  induction zs generalizing start with
  | nil => rfl
  | cons z zs ih => exact and_congr_right fun _ => and_congr_right fun _ => ih

theorem Tiles.stop_eq (h : Tiles lo hi start xs stop) (h' : Tiles lo hi start xs mid) : stop = mid := by
  induction xs generalizing start with
  | nil => exact h.symm.trans h'
  | cons x xs ih => exact ih h.2.2 h'.2.2

theorem Tiles.lt_of_index_lt (h : Tiles lo hi start xs stop) {i j : Nat} (hx : xs[i]? = some x) (hy : xs[j]? = some y)
    (hij : i < j) : hi x < lo y := by
  obtain ⟨hilt, rfl⟩ := List.getElem?_eq_some_iff.mp hx
  obtain ⟨hjlt, rfl⟩ := List.getElem?_eq_some_iff.mp hy
  exact pairwise_iff_getElem.mp h.pairwise i j hilt hjlt hij

theorem Tiles.eq_of_covers (h : Tiles lo hi start xs stop) (hx : x ∈ xs) (hy : y ∈ xs) {n : Nat}
    (hxn : lo x ≤ n ∧ n ≤ hi x) (hyn : lo y ≤ n ∧ n ≤ hi y) : x = y := by
  obtain ⟨i, hxi⟩ := mem_iff_getElem?.mp hx
  obtain ⟨j, hyj⟩ := mem_iff_getElem?.mp hy
  rcases Nat.lt_trichotomy i j with hij | rfl | hij
  · have := h.lt_of_index_lt hxi hyj hij
    omega
  · exact Option.some_inj.mp (hxi.symm.trans hyj)
  · have := h.lt_of_index_lt hyj hxi hij
    omega

/-! ## Searching a tiling -/

def sideOfInterval (lo hi : α → Nat) (n : Nat) (x : α) : Ordering :=
  if hi x < n then .lt else if n < lo x then .gt else .eq

theorem sideOfInterval_eq {n : Nat} : sideOfInterval lo hi n x = .eq ↔ lo x ≤ n ∧ n ≤ hi x := by
  unfold sideOfInterval
  split_ifs <;> simp <;> omega

theorem sideOfInterval_lt {n : Nat} : sideOfInterval lo hi n x = .lt ↔ hi x < n := by
  unfold sideOfInterval
  split_ifs <;> simp <;> omega

theorem sideOfInterval_gt {n : Nat} (hle : lo x ≤ hi x) : sideOfInterval lo hi n x = .gt ↔ n < lo x := by
  unfold sideOfInterval
  split_ifs <;> simp <;> omega

theorem Tiles.ordered (h : Tiles lo hi start xs stop) (n : Nat) : Ordered (sideOfInterval lo hi n) xs := by
  refine h.pairwise.imp_of_mem fun {a b} ha hb hab => ?_
  have hale := (h.bounds ha).2.1
  have hble := (h.bounds hb).2.1
  rw [sideOfInterval_lt, sideOfInterval_lt, ne_eq, ne_eq, sideOfInterval_gt hale, sideOfInterval_gt hble]
  omega

theorem Tiles.search_eq_some (h : Tiles lo hi start xs stop) {n : Nat} :
    ((binarySearchBy (sideOfInterval lo hi n) xs).toOption.bind fun index => xs[index]?) = some x ↔
      x ∈ xs ∧ lo x ≤ n ∧ n ≤ hi x := by
  constructor
  · intro hfind
    cases hsearch : binarySearchBy (sideOfInterval lo hi n) xs with
    | error index =>
      rw [hsearch] at hfind
      cases hfind
    | ok index =>
      rw [hsearch] at hfind
      obtain ⟨found, hfound, heq⟩ := binarySearchBy_ok hsearch
      obtain rfl := Option.some_inj.mp (hfound.symm.trans hfind)
      exact ⟨List.mem_of_getElem? hfound, sideOfInterval_eq.mp heq⟩
  · rintro ⟨hmem, hcovers⟩
    obtain ⟨index, hsearch⟩ := (binarySearchBy_isOk (h.ordered n)).mpr ⟨x, hmem, sideOfInterval_eq.mpr hcovers⟩
    obtain ⟨found, hfound, heq⟩ := binarySearchBy_ok hsearch
    obtain rfl := h.eq_of_covers (List.mem_of_getElem? hfound) hmem (sideOfInterval_eq.mp heq) hcovers
    rw [hsearch]
    exact hfound

end Zakura
