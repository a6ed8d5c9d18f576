import Mathlib.Data.List.Sort
import Mathlib.Data.List.Destutter

/-! # Lists in the order of a key -/

namespace Zakura

open List

section MaxByKey

variable {α κ : Type} [LinearOrder κ] {key : α → κ} {xs : List α}

def maxByKey (key : α → κ) (xs : List α) : Option α :=
  xs.foldl (fun best x => if best.any fun b => key x < key b then best else some x) none

theorem maxByKey_concat (xs : List α) (x : α) :
    maxByKey key (xs ++ [x]) =
      if (maxByKey key xs).any fun b => key x < key b then maxByKey key xs else some x := by
  rw [maxByKey, foldl_append]
  rfl

theorem maxByKey_eq_some {b : α} (h : maxByKey key xs = some b) : b ∈ xs ∧ ∀ x ∈ xs, key x ≤ key b := by
  induction xs using List.reverseRecOn generalizing b with
  | nil => simp [maxByKey] at h
  | append_singleton xs x ih =>
    rw [maxByKey_concat] at h
    cases hbest : maxByKey key xs with
    | none =>
      -- Only an empty list has no best element.
      have hnil : xs = [] := by
        cases xs using List.reverseRecOn with
        | nil => rfl
        | append_singleton xs y =>
          rw [maxByKey_concat] at hbest
          split_ifs at hbest with hy
          simp [hbest] at hy
      subst hnil
      simp_all
    | some best =>
      obtain ⟨hmem, hle⟩ := ih hbest
      simp only [hbest, Option.any_some, decide_eq_true_eq] at h
      split_ifs at h with hlt
      · cases h
        refine ⟨mem_append_left _ hmem, fun y hy => ?_⟩
        rcases mem_append.mp hy with hy | hy
        · exact hle y hy
        · rw [mem_singleton.mp hy]
          exact hlt.le
      · cases h
        refine ⟨by simp, fun y hy => ?_⟩
        rcases mem_append.mp hy with hy | hy
        · exact (hle y hy).trans (not_lt.mp hlt)
        · rw [mem_singleton.mp hy]

theorem maxByKey_eq_none : maxByKey key xs = none ↔ xs = [] := by
  cases xs using List.reverseRecOn with
  | nil => simp [maxByKey]
  | append_singleton xs x =>
    rw [maxByKey_concat]
    cases hbest : maxByKey key xs <;> simp
    split_ifs <;> simp

theorem maxByKey_eq_of_lt {a : α} (ha : a ∈ xs) (hlt : ∀ x ∈ xs, x ≠ a → key x < key a) :
    maxByKey key xs = some a := by
  cases hbest : maxByKey key xs with
  | none => simp [maxByKey_eq_none.mp hbest] at ha
  | some b =>
    obtain ⟨hb, hle⟩ := maxByKey_eq_some hbest
    by_contra hne
    exact (hle a ha).not_gt (hlt b hb fun heq => hne (by rw [heq]))

theorem maxByKey_eq_getLast? (h : xs.Pairwise fun a b => key a < key b) : maxByKey key xs = xs.getLast? := by
  cases xs using List.reverseRecOn with
  | nil => rfl
  | append_singleton xs x =>
    rw [getLast?_append, getLast?_singleton, Option.some_or]
    refine maxByKey_eq_of_lt (by simp) fun y hy hne => ?_
    rcases mem_append.mp hy with hy | hy
    · exact (pairwise_append.mp h).2.2 y hy x (mem_singleton_self x)
    · exact absurd (mem_singleton.mp hy) hne

end MaxByKey

section Destutter

variable {α : Type} [DecidableEq α]

theorem mem_destutter'_ne {a b : α} {xs : List α} : a ∈ xs.destutter' (· ≠ ·) b ↔ a ∈ b :: xs := by
  induction xs generalizing b with
  | nil => simp
  | cons x xs ih =>
    by_cases hx : b ≠ x
    · rw [destutter'_cons_pos _ hx, mem_cons, ih, mem_cons (l := x :: xs)]
    · rw [destutter'_cons_neg _ hx, ih, not_not.mp hx]
      simp

@[simp] theorem mem_destutter_ne {a : α} {xs : List α} : a ∈ xs.destutter (· ≠ ·) ↔ a ∈ xs := by
  cases xs with
  | nil => simp
  | cons x xs => rw [destutter_cons', mem_destutter'_ne]

end Destutter

section Sorting

variable {α κ : Type} [LinearOrder κ] {key : α → κ}

theorem insertionSort_concat_of_sorted {as bs : List α} {x : α}
    (hsorted : (as ++ bs).Pairwise fun a b => key a ≤ key b) (has : ∀ a ∈ as, key a < key x)
    (hbs : ∀ b ∈ bs, key x < key b) :
    (as ++ bs ++ [x]).insertionSort (fun a b => key a ≤ key b) = as ++ x :: bs := by
  induction as with
  | nil =>
    simp only [nil_append] at hsorted ⊢
    induction bs with
    | nil => simp
    | cons b bs ih =>
      obtain ⟨hb, hrest⟩ := pairwise_cons.mp hsorted
      have hx := hbs b mem_cons_self
      rw [cons_append, insertionSort_cons, ih (fun c hc => hbs c (mem_cons_of_mem _ hc)) hrest]
      rw [orderedInsert_cons, if_neg hx.not_ge]
      cases bs with
      | nil => simp
      | cons c bs => rw [orderedInsert_cons, if_pos (hb c mem_cons_self)]
  | cons a as ih =>
    obtain ⟨ha, hrest⟩ := pairwise_cons.mp hsorted
    simp only [cons_append, insertionSort_cons]
    rw [ih hrest fun c hc => has c (mem_cons_of_mem _ hc)]
    cases as with
    | nil => rw [nil_append, orderedInsert_cons, if_pos (has a mem_cons_self).le]
    | cons c as => rw [cons_append, orderedInsert_cons, if_pos (ha c (by simp))]

theorem eq_of_mem_iff_of_sorted {xs ys : List α} (hx : xs.Pairwise fun a b => key a < key b)
    (hy : ys.Pairwise fun a b => key a < key b) (h : ∀ a, a ∈ xs ↔ a ∈ ys) : xs = ys := by
  have hnodup : ∀ {zs : List α}, zs.Pairwise (fun a b => key a < key b) → zs.Nodup :=
    fun hz => hz.imp fun hlt heq => hlt.ne (congrArg key heq)
  refine List.Perm.eq_of_pairwise (fun a b _ _ hab hba => ?_) hx hy ((perm_ext_iff_of_nodup (hnodup hx) (hnodup hy)).mpr h)
  exact absurd hab hba.not_gt

end Sorting

end Zakura
