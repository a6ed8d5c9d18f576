import Mathlib.Data.List.Basic

/-! # Binary search

The search of the standard library: it halves a window that keeps every element not above what is searched for, and
looks at the one element left. -/

namespace Zakura

open List

variable {α : Type}

/-- The loop over the window's base and size; every round shrinks it, so the fuel is its size. -/
def searchLoop (cmp : α → Ordering) (xs : List α) : Nat → Nat → Nat → Nat
  | 0, base, _ => base
  | fuel + 1, base, size =>
    if 1 < size then
      let half := size / 2
      let mid := base + half
      let base := if xs[mid]?.any (cmp · = .gt) then base else mid
      searchLoop cmp xs fuel base (size - half)
    else base

/-- `binary_search_by`: the index of an equal element, or where one could be inserted. -/
def binarySearchBy (cmp : α → Ordering) (xs : List α) : Except Nat Nat :=
  let base := searchLoop cmp xs xs.length 0 xs.length
  match xs[base]? with
  | none => .error 0
  | some x =>
    match cmp x with
    | .eq => .ok base
    | .lt => .error (base + 1)
    | .gt => .error base

/-- What satisfies the predicate is below the point searched for, the rest above. -/
def sideOf (p : α → Bool) (x : α) : Ordering := if p x then .lt else .gt

/-- `partition_point`: how many elements satisfy the predicate, if those that do come first. -/
def partitionPoint (p : α → Bool) (xs : List α) : Nat :=
  match binarySearchBy (sideOf p) xs with
  | .ok i => i
  | .error i => i

def Ordered (cmp : α → Ordering) (xs : List α) : Prop :=
  xs.Pairwise fun a b => (cmp b = .lt → cmp a = .lt) ∧ (cmp b ≠ .gt → cmp a ≠ .gt)

variable {cmp : α → Ordering} {xs : List α}

variable {i j : Nat} {a b : α}

theorem Ordered.gt_of_le (h : Ordered cmp xs) (ha : xs[i]? = some a) (hb : xs[j]? = some b) (hij : i ≤ j)
    (hgt : cmp a = .gt) : cmp b = .gt := by
  obtain rfl | hlt := Nat.eq_or_lt_of_le hij
  · obtain rfl := Option.some_inj.mp (ha.symm.trans hb)
    exact hgt
  · obtain ⟨hi, rfl⟩ := List.getElem?_eq_some_iff.mp ha
    obtain ⟨hj, rfl⟩ := List.getElem?_eq_some_iff.mp hb
    by_contra hne
    exact (pairwise_iff_getElem.mp h i j hi hj hlt).2 hne hgt

theorem Ordered.lt_of_lt (h : Ordered cmp xs) (ha : xs[i]? = some a) (hb : xs[j]? = some b) (hij : i < j)
    (hlt : cmp b = .lt) : cmp a = .lt := by
  obtain ⟨hi, rfl⟩ := List.getElem?_eq_some_iff.mp ha
  obtain ⟨hj, rfl⟩ := List.getElem?_eq_some_iff.mp hb
  exact (pairwise_iff_getElem.mp h i j hi hj hij).1 hlt

/-- What holds of the position the search ends on: it is the first, or not above; and all after it are above. -/
structure Found (cmp : α → Ordering) (xs : List α) (base : Nat) : Prop where
  lt_length : base < xs.length
  front : base = 0 ∨ ∃ x, xs[base]? = some x ∧ cmp x ≠ .gt
  after : ∀ j x, base < j → xs[j]? = some x → cmp x = .gt

/-- By induction on the rounds: everything behind the window is above, and its base is the first position or not
above. -/
theorem searchLoop_found (h : Ordered cmp xs) {fuel base size : Nat} (hfuel : size ≤ fuel + 1) (hsize : 0 < size)
    (hwindow : base + size ≤ xs.length) (hfront : base = 0 ∨ ∃ x, xs[base]? = some x ∧ cmp x ≠ .gt)
    (hafter : ∀ j x, base + size ≤ j → xs[j]? = some x → cmp x = .gt) :
    Found cmp xs (searchLoop cmp xs fuel base size) := by
  induction fuel generalizing base size with
  | zero => exact ⟨by rw [searchLoop]; omega, hfront, fun j x hj => hafter j x (by rw [searchLoop] at hj; omega)⟩
  | succ fuel ih =>
    rw [searchLoop]
    split
    · have hmid : base + size / 2 < xs.length := by omega
      obtain ⟨x, hx⟩ : ∃ x, xs[base + size / 2]? = some x := ⟨_, getElem?_eq_getElem hmid⟩
      dsimp only
      rw [hx, Option.any_some]
      by_cases hgt : cmp x = .gt
      · rw [if_pos (decide_eq_true hgt)]
        refine ih (by omega) (by omega) (by omega) hfront fun j y hj hy => ?_
        exact h.gt_of_le hx hy (by omega) hgt
      · rw [if_neg (by simpa using hgt)]
        refine ih (by omega) (by omega) (by omega) (.inr ⟨x, hx, hgt⟩) fun j y hj hy => ?_
        exact hafter j y (by omega) hy
    · exact ⟨by omega, hfront, fun j x hj => hafter j x (by omega)⟩

theorem searchLoop_spec (h : Ordered cmp xs) (hne : xs ≠ []) :
    Found cmp xs (searchLoop cmp xs xs.length 0 xs.length) := by
  have hpos := length_pos_iff.mpr hne
  refine searchLoop_found h (by omega) hpos (by omega) (.inl rfl) fun j x hj hx => ?_
  obtain ⟨hlt, -⟩ := List.getElem?_eq_some_iff.mp hx
  omega

theorem binarySearchBy_ok (h : binarySearchBy cmp xs = .ok i) : ∃ x, xs[i]? = some x ∧ cmp x = .eq := by
  unfold binarySearchBy at h
  dsimp only at h
  split at h
  · cases h
  · rename_i x hx
    split at h
    · rename_i heq
      obtain rfl := Except.ok.inj h
      exact ⟨x, hx, heq⟩
    · cases h
    · cases h

theorem binarySearchBy_error (hordered : Ordered cmp xs) (h : binarySearchBy cmp xs = .error i) :
    i ≤ xs.length ∧ ∀ j x, xs[j]? = some x → (j < i → cmp x = .lt) ∧ (i ≤ j → cmp x = .gt) := by
  by_cases hne : xs = []
  · subst hne
    obtain rfl := Except.error.inj h
    exact ⟨Nat.le_refl _, fun j x hx => (nomatch hx)⟩
  · have hfound := searchLoop_spec hordered hne
    unfold binarySearchBy at h
    generalize searchLoop cmp xs xs.length 0 xs.length = base at h hfound
    obtain ⟨hlt, hfront, hafter⟩ := hfound
    obtain ⟨x, hx⟩ : ∃ x, xs[base]? = some x := ⟨_, getElem?_eq_getElem hlt⟩
    simp only [hx] at h
    cases hcmp : cmp x with
    | eq =>
      rw [hcmp] at h
      cases h
    | lt =>
      rw [hcmp] at h
      obtain rfl := Except.error.inj h
      refine ⟨hlt, fun j y hy => ⟨fun hj => ?_, fun hj => hafter j y hj hy⟩⟩
      obtain rfl | hj := Nat.eq_or_lt_of_le (Nat.le_of_lt_succ hj)
      · obtain rfl := Option.some_inj.mp (hx.symm.trans hy)
        exact hcmp
      · exact hordered.lt_of_lt hy hx hj hcmp
    | gt =>
      rw [hcmp] at h
      obtain rfl := Except.error.inj h
      -- The base is above, so it is the first position.
      obtain rfl : base = 0 := by
        refine hfront.resolve_right fun ⟨y, hy, hyc⟩ => hyc ?_
        obtain rfl := Option.some_inj.mp (hx.symm.trans hy)
        exact hcmp
      exact ⟨Nat.zero_le _, fun j y hy => ⟨fun hj => absurd hj (Nat.not_lt_zero j),
        fun hj => hordered.gt_of_le hx hy hj hcmp⟩⟩

theorem binarySearchBy_isOk (h : Ordered cmp xs) :
    (∃ i, binarySearchBy cmp xs = .ok i) ↔ ∃ x ∈ xs, cmp x = .eq := by
  constructor
  · rintro ⟨i, hi⟩
    obtain ⟨x, hx, heq⟩ := binarySearchBy_ok hi
    exact ⟨x, mem_of_getElem? hx, heq⟩
  · rintro ⟨x, hmem, heq⟩
    obtain ⟨j, hj⟩ := mem_iff_getElem?.mp hmem
    cases hsearch : binarySearchBy cmp xs with
    | ok i => exact ⟨i, rfl⟩
    | error i =>
      obtain ⟨hbelow, habove⟩ := (binarySearchBy_error h hsearch).2 j x hj
      obtain hlt | hge := Nat.lt_or_ge j i
      · exact absurd (heq.symm.trans (hbelow hlt)) (by decide)
      · exact absurd (heq.symm.trans (habove hge)) (by decide)

variable {p : α → Bool} {x : α}

theorem sideOf_eq_lt : sideOf p x = .lt ↔ p x = true := by
  unfold sideOf
  cases p x <;> simp

theorem sideOf_eq_gt : sideOf p x = .gt ↔ ¬ p x = true := by
  unfold sideOf
  cases p x <;> simp

theorem partitionPoint_spec (h : xs.Pairwise fun a b => p b = true → p a = true) :
    partitionPoint p xs ≤ xs.length ∧
      ∀ j x, xs[j]? = some x → (j < partitionPoint p xs ↔ p x = true) := by
  have hordered : Ordered (sideOf p) xs := by
    refine h.imp fun {a b} hab => ⟨fun hb => sideOf_eq_lt.mpr (hab (sideOf_eq_lt.mp hb)), fun hb => ?_⟩
    rw [ne_eq, sideOf_eq_gt, not_not] at hb ⊢
    exact hab hb
  rw [partitionPoint]
  cases hsearch : binarySearchBy (sideOf p) xs with
  | ok i =>
    obtain ⟨x, -, hx⟩ := binarySearchBy_ok hsearch
    unfold sideOf at hx
    split at hx <;> cases hx
  | error i =>
    obtain ⟨hle, hsides⟩ := binarySearchBy_error hordered hsearch
    refine ⟨hle, fun j x hx => ⟨fun hj => sideOf_eq_lt.mp ((hsides j x hx).1 hj), fun hp => ?_⟩⟩
    by_contra hge
    exact sideOf_eq_gt.mp ((hsides j x hx).2 (Nat.not_lt.mp hge)) hp

end Zakura
