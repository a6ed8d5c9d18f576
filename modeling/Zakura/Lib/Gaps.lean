import Mathlib.Data.List.Pairwise
import Mathlib.Order.Bounds.Basic
import Mathlib.Order.Interval.Set.Basic
import Mathlib.Order.UpperLower.Basic

/-! # The gaps that a set leaves in an interval

A list of gaps is given by three facts: no gap is empty, two gaps do not touch, and together they hold exactly the
numbers missed. These make each of them a maximal interval of missed numbers, and leave out none. -/

namespace Zakura

open List

/-- A maximal interval of numbers from `start` to `through` that are not covered. -/
structure IsGap (covered : Set Nat) (start through : Nat) (gap : Nat × Nat) : Prop where
  start_le : start ≤ gap.1
  le : gap.1 ≤ gap.2
  le_through : gap.2 ≤ through
  missed : ∀ n, gap.1 ≤ n → n ≤ gap.2 → n ∉ covered
  left : gap.1 = start ∨ gap.1 - 1 ∈ covered
  right : gap.2 = through ∨ gap.2 + 1 ∈ covered

namespace IsGap

variable {covered : Set Nat} {start through : Nat} {gap gap' : Nat × Nat} {n : Nat}

theorem bounds_le (h : IsGap covered start through gap) (h' : IsGap covered start through gap')
    (hn : gap.1 ≤ n ∧ n ≤ gap.2) (hn' : gap'.1 ≤ n ∧ n ≤ gap'.2) : gap.1 ≤ gap'.1 ∧ gap'.2 ≤ gap.2 := by
  constructor
  · by_contra hlt
    have hcovered := h.left.resolve_left (by have := h'.start_le; omega)
    exact h'.missed _ (by omega) (by omega) hcovered
  · by_contra hlt
    have hcovered := h.right.resolve_left (by have := h'.le_through; omega)
    exact h'.missed _ (by omega) (by omega) hcovered

theorem eq_of_meet (h : IsGap covered start through gap) (h' : IsGap covered start through gap')
    (hn : gap.1 ≤ n ∧ n ≤ gap.2) (hn' : gap'.1 ≤ n ∧ n ≤ gap'.2) : gap = gap' := by
  obtain ⟨hfst, hsnd⟩ := h.bounds_le h' hn hn'
  obtain ⟨hfst', hsnd'⟩ := h'.bounds_le h hn' hn
  exact Prod.ext (hfst.antisymm hfst') (hsnd'.antisymm hsnd)

end IsGap

structure Gaps (covered : Set Nat) (start through : Nat) (gaps : List (Nat × Nat)) : Prop where
  le : ∀ gap ∈ gaps, gap.1 ≤ gap.2
  separated : gaps.Pairwise fun a b => a.2 + 1 < b.1
  exact : ∀ n, (∃ gap ∈ gaps, gap.1 ≤ n ∧ n ≤ gap.2) ↔ start ≤ n ∧ n ≤ through ∧ n ∉ covered

namespace Gaps

variable {covered : Set Nat} {start through : Nat} {gaps : List (Nat × Nat)} {gap gap' : Nat × Nat}

theorem congr {covered' : Set Nat} (h : Gaps covered start through gaps)
    (heq : ∀ n, start ≤ n → n ≤ through → (n ∈ covered' ↔ n ∈ covered)) : Gaps covered' start through gaps := by
  refine ⟨h.le, h.separated, fun n => ?_⟩
  rw [h.exact]
  refine and_congr_right fun hstart => and_congr_right fun hthrough => ?_
  rw [heq n hstart hthrough]

theorem nil (hall : ∀ n, start ≤ n → n ≤ through → n ∈ covered) : Gaps covered start through [] := by
  refine ⟨fun _ h => absurd h not_mem_nil, .nil, fun n => ⟨fun ⟨_, h, _⟩ => absurd h not_mem_nil, ?_⟩⟩
  rintro ⟨hstart, hthrough, hmissed⟩
  exact absurd (hall n hstart hthrough) hmissed

theorem skip {middle : Nat} (h : Gaps covered middle through gaps) (hle : start ≤ middle)
    (hall : ∀ n, start ≤ n → n < middle → n ∈ covered) : Gaps covered start through gaps := by
  refine ⟨h.le, h.separated, fun n => ?_⟩
  rw [h.exact]
  refine ⟨fun ⟨hstart, hrest⟩ => ⟨hle.trans hstart, hrest⟩, fun ⟨hstart, hthrough, hmissed⟩ => ⟨?_, hthrough, hmissed⟩⟩
  by_contra hlt
  exact hmissed (hall n hstart (not_le.mp hlt))

theorem cons {last middle : Nat} (h : Gaps covered middle through gaps) (hle : start ≤ last) (hlast : last ≤ through)
    (hmissed : ∀ n, start ≤ n → n ≤ last → n ∉ covered) (hlt : last + 1 < middle)
    (hall : ∀ n, last < n → n < middle → n ∈ covered) : Gaps covered start through ((start, last) :: gaps) := by
  have hafter : ∀ gap ∈ gaps, middle ≤ gap.1 := fun gap hgap =>
    ((h.exact gap.1).mp ⟨gap, hgap, le_rfl, h.le gap hgap⟩).1
  refine ⟨forall_mem_cons.mpr ⟨hle, h.le⟩, pairwise_cons.mpr ⟨?_, h.separated⟩, fun n => ?_⟩
  · intro gap hgap
    exact hlt.trans_le (hafter gap hgap)
  · simp only [mem_cons, exists_eq_or_imp, h.exact]
    constructor
    · rintro (⟨hstart, hle'⟩ | ⟨hstart, hthrough, hn⟩)
      · exact ⟨hstart, hle'.trans hlast, hmissed n hstart hle'⟩
      · exact ⟨by omega, hthrough, hn⟩
    · rintro ⟨hstart, hthrough, hn⟩
      by_cases hin : n ≤ last
      · exact .inl ⟨hstart, hin⟩
      · refine .inr ⟨?_, hthrough, hn⟩
        by_contra hbefore
        exact hn (hall n (not_le.mp hin) (not_le.mp hbefore))

theorem singleton (hle : start ≤ through) (hmissed : ∀ n, start ≤ n → n ≤ through → n ∉ covered) :
    Gaps covered start through [(start, through)] := by
  refine ⟨fun gap hgap => ?_, pairwise_singleton _ _, fun n => ?_⟩
  · rwa [mem_singleton.mp hgap]
  · simp only [mem_singleton, exists_eq_left]
    exact ⟨fun ⟨hstart, hthrough⟩ => ⟨hstart, hthrough, hmissed n hstart hthrough⟩,
      fun ⟨hstart, hthrough, _⟩ => ⟨hstart, hthrough⟩⟩

theorem apart (h : Gaps covered start through gaps) (hgap : gap ∈ gaps) (hgap' : gap' ∈ gaps) :
    gap = gap' ∨ gap.2 + 1 < gap'.1 ∨ gap'.2 + 1 < gap.1 := by
  by_cases heq : gap = gap'
  · exact .inl heq
  · have hsymm : gaps.Pairwise fun a b => a.2 + 1 < b.1 ∨ b.2 + 1 < a.1 := h.separated.imp .inl
    have : Std.Symm fun a b : Nat × Nat => a.2 + 1 < b.1 ∨ b.2 + 1 < a.1 := ⟨fun _ _ => Or.symm⟩
    exact .inr (hsymm.forall hgap hgap' heq)

theorem not_mem_of_touching (h : Gaps covered start through gaps) (hgap : gap ∈ gaps) {n : Nat}
    (hn : n + 1 = gap.1 ∨ n = gap.2 + 1) : ¬ ∃ other ∈ gaps, other.1 ≤ n ∧ n ≤ other.2 := by
  rintro ⟨other, hother, hle, hge⟩
  have := h.le gap hgap
  rcases h.apart hgap hother with rfl | hlt | hlt <;> omega

theorem isGap (h : Gaps covered start through gaps) (hgap : gap ∈ gaps) : IsGap covered start through gap := by
  have hle := h.le gap hgap
  obtain ⟨hstart, -, -⟩ := (h.exact gap.1).mp ⟨gap, hgap, le_rfl, hle⟩
  obtain ⟨-, hthrough, -⟩ := (h.exact gap.2).mp ⟨gap, hgap, hle, le_rfl⟩
  refine ⟨hstart, hle, hthrough, fun n hn hn' => ((h.exact n).mp ⟨gap, hgap, hn, hn'⟩).2.2, ?_, ?_⟩
  · by_contra hleft
    obtain ⟨hne, hmissed⟩ := not_or.mp hleft
    have hbefore := (h.exact (gap.1 - 1)).mpr ⟨by omega, by omega, hmissed⟩
    exact h.not_mem_of_touching hgap (.inl (by omega)) hbefore
  · by_contra hright
    obtain ⟨hne, hmissed⟩ := not_or.mp hright
    have hafter := (h.exact (gap.2 + 1)).mpr ⟨by omega, by omega, hmissed⟩
    exact h.not_mem_of_touching hgap (.inr rfl) hafter

theorem mem_iff (h : Gaps covered start through gaps) : gap ∈ gaps ↔ IsGap covered start through gap := by
  refine ⟨h.isGap, fun hgap => ?_⟩
  have hfirst := hgap.missed gap.1 le_rfl hgap.le
  obtain ⟨found, hfound, hin⟩ := (h.exact gap.1).mpr ⟨hgap.start_le, hgap.le.trans hgap.le_through, hfirst⟩
  obtain rfl := hgap.eq_of_meet (h.isGap hfound) ⟨le_rfl, hgap.le⟩ hin
  exact hfound

theorem covered_before (h : Gaps covered start through gaps) {n : Nat} (hstart : start ≤ n) (hthrough : n ≤ through)
    (hbefore : ∀ gap ∈ gaps.head?, n < gap.1) : n ∈ covered := by
  by_contra hmissed
  obtain ⟨gap, hgap, hle, -⟩ := (h.exact n).mpr ⟨hstart, hthrough, hmissed⟩
  cases gaps with
  | nil => cases hgap
  | cons first rest =>
    have hfirst := hbefore first rfl
    rcases mem_cons.mp hgap with rfl | hrest
    · omega
    · have hlt := rel_of_pairwise_cons h.separated hrest
      have := h.le first mem_cons_self
      omega

/-- How far the interval is covered without a gap. -/
def reach (through : Nat) (gaps : List (Nat × Nat)) : Nat := (gaps.head?.map Prod.fst).elim through (· - 1)

theorem isGreatest_reach (h : Gaps covered start through gaps) (hstart : 0 < start) :
    IsGreatest {v | v ≤ through ∧ ∀ n, start ≤ n → n ≤ v → n ∈ covered} (reach through gaps) := by
  cases hfirst : gaps.head? with
  | none =>
    rw [reach, hfirst]
    refine ⟨⟨le_rfl, fun n hn hle => h.covered_before hn hle ?_⟩, fun v hv => hv.1⟩
    simp [hfirst]
  | some gap =>
    rw [reach, hfirst]
    have hgap := h.isGap (mem_of_mem_head? hfirst)
    have hle := hgap.start_le
    have hle' := hgap.le.trans hgap.le_through
    refine ⟨⟨(Nat.sub_le _ _).trans hle', fun n hn hbefore => h.covered_before hn ?_ ?_⟩, fun v hv => ?_⟩
    · exact hbefore.trans ((Nat.sub_le _ _).trans hle')
    · rintro other hother
      cases hfirst.symm.trans hother
      change n ≤ gap.1 - 1 at hbefore
      omega
    · change v ≤ gap.1 - 1
      by_contra hlt
      exact hgap.missed gap.1 le_rfl hgap.le (hv.2 gap.1 hle (by omega))

end Gaps

theorem isGreatest_inter {α : Type*} [LinearOrder α] {s t : Set α} {a b : α} (hs : IsLowerSet s) (ht : IsLowerSet t)
    (ha : IsGreatest s a) (hb : IsGreatest t b) : IsGreatest (s ∩ t) (min a b) :=
  ⟨⟨hs (min_le_left a b) ha.1, ht (min_le_right a b) hb.1⟩, fun _ hv => le_min (ha.2 hv.1) (hb.2 hv.2)⟩

end Zakura
