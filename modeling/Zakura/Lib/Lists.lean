import Mathlib.Data.List.Nodup
import Mathlib.Data.List.Perm.Basic

/-! # Lists with one element of a kind

Where the only element with a key stands, in a list and in the rows of a table. -/

namespace Zakura

open List

variable {α κ : Type}

theorem flatMap_eq_singleton {f : Nat → List α} {a : α} {k : Nat} (hf : ∀ j, f j = if j = k then [a] else [])
    {numbers : List Nat} (hnodup : numbers.Nodup) (hk : k ∈ numbers) : numbers.flatMap f = [a] := by
  induction numbers with
  | nil => simp at hk
  | cons j numbers ih =>
    rw [nodup_cons] at hnodup
    rw [flatMap_cons, hf j]
    by_cases hj : j = k
    · subst hj
      have hrest : numbers.flatMap f = [] := by
        rw [flatMap_eq_nil_iff]
        intro i hi
        rw [hf i, if_neg]
        rintro rfl
        exact hnodup.1 hi
      rw [if_pos rfl, hrest, append_nil]
    · have hmem : k ∈ numbers := by
        rcases mem_cons.mp hk with rfl | hmem
        · exact absurd rfl hj
        · exact hmem
      rw [if_neg hj, nil_append, ih hnodup.2 hmem]

theorem flatMap_filter_perm {f : α → Nat} {n : Nat} {xs : List α} (h : ∀ x ∈ xs, f x < n) :
    ((List.range n).flatMap fun k => xs.filter fun x => f x = k).Perm xs := by
  induction xs with
  | nil => simp
  | cons x xs ih =>
    obtain ⟨hx, hrest⟩ := forall_mem_cons.mp h
    have hsplit : ∀ k, (x :: xs).filter (fun y => f y = k) =
        (if k = f x then [x] else []) ++ xs.filter fun y => f y = k := by
      intro k
      by_cases hk : k = f x
      · subst hk
        simp
      · have hne : f x ≠ k := fun heq => hk heq.symm
        simp [hk, hne]
    simp only [hsplit]
    refine (flatMap_append_perm _ _ _).symm.trans ?_
    rw [flatMap_eq_singleton (fun _ => rfl) nodup_range (mem_range.mpr hx), singleton_append]
    exact (ih hrest).cons x

theorem eq_of_append_cons_eq {p : α → Prop} {front front' back back' : List α} {a a' : α}
    (h : front ++ a :: back = front' ++ a' :: back') (hfront : ∀ x ∈ front, ¬ p x) (ha : p a)
    (hfront' : ∀ x ∈ front', ¬ p x) (ha' : p a') : front = front' ∧ a = a' := by
  induction front generalizing front' with
  | nil =>
    cases front' with
    | nil => exact ⟨rfl, (List.cons.inj h).1⟩
    | cons x front' =>
      obtain rfl := (List.cons.inj h).1
      exact absurd ha (hfront' a mem_cons_self)
  | cons x front ih =>
    cases front' with
    | nil =>
      obtain rfl := (List.cons.inj h).1
      exact absurd ha' (hfront x mem_cons_self)
    | cons y front' =>
      obtain ⟨rfl, hrest⟩ := List.cons.inj h
      obtain ⟨rfl, rfl⟩ := ih hrest (fun z hz => hfront z (mem_cons_of_mem _ hz))
        fun z hz => hfront' z (mem_cons_of_mem _ hz)
      exact ⟨rfl, rfl⟩

theorem eq_filter_append_filter_not {p : α → Bool} {r : α → α → Prop} {xs : List α} (h : xs.Pairwise r)
    (hp : ∀ a b, r a b → p b = true → p a = true) : xs = xs.filter p ++ xs.filter (fun x => !p x) := by
  induction xs with
  | nil => rfl
  | cons x xs ih =>
    obtain ⟨hx, hxs⟩ := pairwise_cons.mp h
    cases hpx : p x with
    | true =>
      rw [filter_cons_of_pos hpx, filter_cons_of_neg (by simp [hpx]), cons_append, ← ih hxs]
    | false =>
      have hnone : xs.filter p = [] := by
        refine filter_eq_nil_iff.mpr fun y hy hpy => ?_
        rw [hp x y (hx y hy) hpy] at hpx
        simp at hpx
      have hall : xs.filter (fun y => !p y) = xs := by
        rw [hnone, nil_append] at ih
        exact (ih hxs).symm
      rw [filter_cons_of_neg (by simp [hpx]), filter_cons_of_pos (by simp [hpx]), hnone, hall, nil_append]

theorem forall₂_getElem? {α β : Type*} {r : α → β → Prop} {as : List α} {bs : List β} (h : List.Forall₂ r as bs) (i : Nat) :
    (as[i]? = none ∧ bs[i]? = none) ∨ ∃ a b, as[i]? = some a ∧ bs[i]? = some b ∧ r a b := by
  induction h generalizing i with
  | nil => exact Or.inl ⟨rfl, rfl⟩
  | cons hab _ ih =>
    cases i with
    | zero => exact Or.inr ⟨_, _, rfl, rfl, hab⟩
    | succ i => exact ih i

theorem flatMap_range'_eq_drop {α β : Type*} {l : List α} {f : α → List β} {g : Nat → List β}
    (h : ∀ i a, l[i]? = some a → g i = f a) (i : Nat) :
    (List.range' i (l.length - i)).flatMap g = (l.drop i).flatMap f := by
  have hmap : (List.range' i (l.length - i)).map g = (l.drop i).map f := by
    refine ext_getElem? fun k => ?_
    rw [getElem?_map, getElem?_map, getElem?_drop]
    rcases Nat.lt_or_ge (i + k) l.length with hlt | hge
    · rw [getElem?_range' (by omega), getElem?_eq_getElem hlt, Option.map_some, Option.map_some, Nat.one_mul,
        h (i + k) _ (getElem?_eq_getElem hlt)]
    · rw [getElem?_eq_none hge, getElem?_eq_none (by rw [length_range']; omega), Option.map_none,
        Option.map_none]
  rw [flatMap_def, flatMap_def, hmap]

theorem eq_map_decide {α : Type} {found : List Bool} {xs : List α} {P : α → Prop} [DecidablePred P]
    (hlength : found.length = xs.length) (h : ∀ (i : Nat) x, xs[i]? = some x → (found[i]? = some true ↔ P x)) :
    found = xs.map fun x => decide (P x) := by
  refine ext_getElem? fun i => ?_
  rw [getElem?_map]
  cases hx : xs[i]? with
  | none =>
    rw [List.getElem?_eq_none_iff] at hx
    rw [getElem?_eq_none (by omega)]
    rfl
  | some x =>
    obtain ⟨hi, -⟩ := List.getElem?_eq_some_iff.mp hx
    have hmark := h i x hx
    rw [getElem?_eq_getElem (by omega)] at hmark ⊢
    rw [Option.some_inj] at hmark
    rw [Option.map_some, Option.some_inj, Bool.eq_iff_iff, hmark, decide_eq_true_eq]

theorem find?_key_eq_some {α κ : Type*} [DecidableEq κ] {key : α → κ} {xs : List α} {k : κ} {a : α}
    (hinj : ∀ a ∈ xs, ∀ b ∈ xs, key a = key b → a = b) : xs.find? (key · = k) = some a ↔ a ∈ xs ∧ key a = k := by
  have hkey : ∀ {b}, xs.find? (key · = k) = some b → key b = k := fun hb => by simpa using find?_some hb
  constructor
  · intro h
    exact ⟨mem_of_find?_eq_some h, hkey h⟩
  · rintro ⟨ha, rfl⟩
    obtain ⟨b, hb⟩ := Option.isSome_iff_exists.mp (find?_isSome (p := (key · = key a)).mpr ⟨a, ha, decide_eq_true rfl⟩)
    rw [hb, hinj b (mem_of_find?_eq_some hb) a ha (hkey hb)]

end Zakura
