import Zakura.Lib.Reader

/-! # Concatenated encodings

When the elements of a list can be recovered from the concatenation of their encodings. -/

namespace Zakura

open List

variable {α β γ : Type}

variable {f : α → β} {g : α → γ} {xs ys : List α}

theorem map_eq_of_map_eq (h : xs.map f = ys.map f) (hfg : ∀ x y, f x = f y → g x = g y) : xs.map g = ys.map g := by
  induction xs generalizing ys with
  | nil => cases ys <;> simp_all
  | cons x xs ih =>
    cases ys with
    | nil => simp at h
    | cons y ys =>
      simp only [map_cons, List.cons.injEq] at h ⊢
      exact ⟨hfg x y h.1, ih h.2⟩

theorem map_pair_eq (hf : xs.map f = ys.map f) (hg : xs.map g = ys.map g) :
    xs.map (fun x => (f x, g x)) = ys.map fun x => (f x, g x) := by
  induction xs generalizing ys with
  | nil => cases ys <;> simp_all
  | cons x xs ih =>
    cases ys with
    | nil => simp at hf
    | cons y ys =>
      simp only [map_cons, List.cons.injEq, Prod.mk.injEq] at hf hg ⊢
      exact ⟨⟨hf.1, hg.1⟩, ih hf.2 hg.2⟩

theorem map_eq_of_flatMap_eq {f : α → Bytes} {n : Nat} (hn : 0 < n) (hf : ∀ x, (f x).length = n)
    (h : xs.flatMap f = ys.flatMap f) : xs.map f = ys.map f := by
  induction xs generalizing ys with
  | nil =>
    cases ys with
    | nil => rfl
    | cons y ys =>
      have hlen := congrArg List.length h
      simp only [flatMap_nil, length_nil, flatMap_cons, length_append, hf] at hlen
      omega
  | cons x xs ih =>
    cases ys with
    | nil =>
      have hlen := congrArg List.length h
      simp only [flatMap_nil, length_nil, flatMap_cons, length_append, hf] at hlen
      omega
    | cons y ys =>
      simp only [flatMap_cons] at h
      obtain ⟨hxy, hrest⟩ := List.append_inj h (by rw [hf, hf])
      rw [map_cons, map_cons, hxy, ih hrest]

theorem Reader.Reads.flatMap_injective {ε : Type} {p : Reader ε α} {valid encode} (h : Reads p valid encode)
    (hpos : ∀ x, encode x ≠ []) (hxs : ∀ x ∈ xs, valid x) (hys : ∀ y ∈ ys, valid y)
    (heq : xs.flatMap encode = ys.flatMap encode) : xs = ys := by
  induction xs generalizing ys with
  | nil =>
    cases ys with
    | nil => rfl
    | cons y ys => simp [hpos] at heq
  | cons x xs ih =>
    cases ys with
    | nil => simp [hpos] at heq
    | cons y ys =>
      simp only [flatMap_cons] at heq
      have hx := h.run_encode (hxs x (by simp)) (xs.flatMap encode)
      rw [heq, h.run_encode (hys y (by simp)) (ys.flatMap encode)] at hx
      simp only [Except.ok.injEq, Prod.mk.injEq] at hx
      rw [← hx.1, ih (fun z hz => hxs z (by simp [hz])) (fun z hz => hys z (by simp [hz])) hx.2.symm]

end Zakura
