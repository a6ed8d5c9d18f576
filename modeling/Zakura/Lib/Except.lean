import Mathlib.Data.List.Forall2

/-! # Computations that may fail

When a composite computation succeeds, and what its parts then returned. -/

namespace Zakura.Except

open List

variable {ε α β : Type}

variable {x : Except ε α} {f : α → Except ε β} {b : β}

@[simp] theorem bind_eq_ok : (x >>= f) = .ok b ↔ ∃ a, x = .ok a ∧ f a = .ok b := by
  cases x <;> simp [bind, Except.bind]

theorem ok_bind (a : α) (f : α → Except ε β) : ((.ok a : Except ε α) >>= f) = f a := rfl

theorem check_bind_eq_ok {x : Except ε Unit} {f : Unit → Except ε β} :
    (x >>= f) = .ok b ↔ x = .ok () ∧ f () = .ok b := by
  cases x <;> simp [bind, Except.bind]

variable {a : α}

@[simp] theorem pure_eq_ok {b : α} : (pure a : Except ε α) = .ok b ↔ a = b := by
  simp [pure, Except.pure]

@[simp] theorem mapError_eq_ok {ε' : Type} {f : ε → ε'} : x.mapError f = .ok a ↔ x = .ok a := by
  cases x <;> simp [Except.mapError]

@[simp] theorem map_eq_ok {f : α → β} : x.map f = .ok b ↔ ∃ a, x = .ok a ∧ f a = b := by
  cases x <;> simp [Except.map]

variable {xs : List α} {ys : List β}

theorem mapM_eq_ok : xs.mapM f = .ok ys ↔ List.Forall₂ (fun x y => f x = .ok y) xs ys := by
  induction xs generalizing ys with
  | nil => cases ys <;> simp [pure, Except.pure]
  | cons x xs ih =>
    simp only [mapM_cons, bind_eq_ok, pure_eq_ok, ih]
    constructor
    · rintro ⟨y, hy, ys, hys, rfl⟩
      exact .cons hy hys
    · intro h
      obtain ⟨y, ys', hy, hys, rfl⟩ := List.forall₂_cons_left_iff.mp h
      exact ⟨y, hy, ys', hys, rfl⟩

theorem mapM_ok_eq_map {g : α → β} (hg : ∀ x y, f x = .ok y → g x = y) (h : xs.mapM f = .ok ys) : ys = xs.map g := by
  have hrel := List.forall₂_map_left_iff.mpr ((mapM_eq_ok.mp h).imp hg)
  rw [List.forall₂_eq_eq_eq] at hrel
  exact hrel.symm

theorem mapM_ok_of_mem (h : xs.mapM f = .ok ys) {x : α} (hx : x ∈ xs) : ∃ y ∈ ys, f x = .ok y := by
  have hrel := mapM_eq_ok.mp h
  clear h
  induction hrel with
  | nil => simp at hx
  | @cons _ y _ _ hfirst _ ih =>
    rcases mem_cons.mp hx with rfl | hx
    · exact ⟨y, mem_cons_self, hfirst⟩
    · obtain ⟨y', hy', hf⟩ := ih hx
      exact ⟨y', mem_cons_of_mem _ hy', hf⟩

theorem mapM_ok_of_forall (h : ∀ x ∈ xs, ∃ y, f x = .ok y) : ∃ ys, xs.mapM f = .ok ys := by
  induction xs with
  | nil => exact ⟨[], rfl⟩
  | cons x xs ih =>
    obtain ⟨y, hy⟩ := h x mem_cons_self
    obtain ⟨ys, hys⟩ := ih fun x hx => h x (mem_cons_of_mem _ hx)
    exact ⟨y :: ys, mapM_eq_ok.mpr (.cons hy (mapM_eq_ok.mp hys))⟩

theorem mapM_ok_mem (h : xs.mapM f = .ok ys) {y : β} (hy : y ∈ ys) : ∃ x ∈ xs, f x = .ok y := by
  have hrel := mapM_eq_ok.mp h
  clear h
  induction hrel with
  | nil => simp at hy
  | @cons x _ _ _ hfirst _ ih =>
    rcases mem_cons.mp hy with rfl | hy
    · exact ⟨x, mem_cons_self, hfirst⟩
    · obtain ⟨x', hx', hf⟩ := ih hy
      exact ⟨x', mem_cons_of_mem _ hx', hf⟩


theorem mapM_eq_some {f : α → Option β} :
    xs.mapM f = some ys ↔ List.Forall₂ (fun x y => f x = some y) xs ys := by
  induction xs generalizing ys with
  | nil => cases ys <;> simp
  | cons x xs ih =>
    simp only [mapM_cons, Option.bind_eq_bind, Option.bind_eq_some_iff, Option.pure_def, Option.some.injEq, ih]
    constructor
    · rintro ⟨y, hy, ys, hys, rfl⟩
      exact .cons hy hys
    · intro h
      obtain ⟨y, ys', hy, hys, rfl⟩ := List.forall₂_cons_left_iff.mp h
      exact ⟨y, hy, ys', hys, rfl⟩

theorem forM_eq_ok {f : α → Except ε Unit} : xs.forM f = .ok () ↔ ∀ x ∈ xs, f x = .ok () := by
  induction xs with
  | nil => exact ⟨fun _ x hx => absurd hx not_mem_nil, fun _ => rfl⟩
  | cons x xs ih =>
    rw [forall_mem_cons, ← ih]
    exact check_bind_eq_ok

theorem ite_error_eq_ok {c : Prop} [Decidable c] {e : ε} :
    (if c then .error e else x) = .ok a ↔ ¬ c ∧ x = .ok a := by
  by_cases hc : c
  · rw [if_pos hc]
    exact ⟨fun h => (nomatch h), fun h => absurd hc h.1⟩
  · rw [if_neg hc]
    exact ⟨fun h => ⟨hc, h⟩, fun h => h.2⟩

theorem eq_mk_of_fst {x : α × β} (h : x.1 = a) : x = (a, x.2) := Prod.ext h rfl

end Zakura.Except
