import Mathlib.Data.List.Induction
import Mathlib.Tactic.SplitIfs
import Zakura.Recovery.Step

/-! # What an accepted step is -/

namespace Zakura.Recovery

open Receiver (Hash RawRecord)

variable {page : LookupPage} {work : LookupWork}

structure Accepted (page : LookupPage) (work : LookupWork) (lastShard : StepShard) (first : Nat) : Prop where
  last : page.shards.getLast? = some lastShard
  start : page.first work = some first
  ordered : page.Ordered first
  begins : ∀ s ∈ page.shards, s.excluded = true → ∀ c, page.resumes work s.index = some c → c.segment = 0 ∧ c.last = none
  expected : page.expected work lastShard = some (page.checkedThrough, page.next)
  ends : page.next = none → lastShard.endHeight = page.publication.ending.height

structure AcceptedEmpty (page : LookupPage) (work : LookupWork) : Prop where
  shards : page.shards = []
  past : page.publication.ending.height < work.fromHeight
  segment : page.segment = none
  records : page.records = []
  checkedThrough : page.checkedThrough = none
  next : page.next = none

theorem begins_iff : (page.shards.any fun s =>
      s.excluded && (page.resumes work s.index).any fun c => 0 < c.segment || c.last.isSome) = false ↔
    ∀ s ∈ page.shards, s.excluded = true → ∀ c, page.resumes work s.index = some c → c.segment = 0 ∧ c.last = none := by
  rw [List.any_eq_false]
  refine forall₂_congr fun s _ => ?_
  cases s.excluded <;> cases page.resumes work s.index <;> simp

theorem validStep_iff : page.validStep work = true ↔
    AcceptedEmpty page work ∨ ∃ lastShard first, Accepted page work lastShard first := by
  unfold LookupPage.validStep
  cases hlast : page.shards.getLast? with
  | none =>
    have hnil := List.getLast?_eq_none_iff.mp hlast
    simp only [Bool.and_eq_true, decide_eq_true_eq, Option.isNone_iff_eq_none, List.isEmpty_iff]
    constructor
    · intro ⟨⟨⟨⟨hpast, hsegment⟩, hrecords⟩, hchecked⟩, hnext⟩
      exact Or.inl ⟨hnil, hpast, hsegment, hrecords, hchecked, hnext⟩
    · intro h
      rcases h with h | ⟨_, _, h⟩
      · exact ⟨⟨⟨⟨h.past, h.segment⟩, h.records⟩, h.checkedThrough⟩, h.next⟩
      · cases hlast.symm.trans h.last
  | some lastShard =>
    have hne : page.shards ≠ [] := by
      intro hnil
      rw [hnil] at hlast
      cases hlast
    have hiff : (AcceptedEmpty page work ∨ ∃ lastShard first, Accepted page work lastShard first) ↔
        ∃ first, Accepted page work lastShard first := by
      constructor
      · intro h
        rcases h with h | ⟨shard, first, h⟩
        · exact absurd h.shards hne
        · obtain rfl := Option.some.inj (hlast.symm.trans h.last)
          exact ⟨first, h⟩
      · intro ⟨first, h⟩
        exact Or.inr ⟨lastShard, first, h⟩
    rw [hiff]
    cases hfirst : page.first work with
    | none =>
      refine ⟨fun h => absurd h Bool.false_ne_true, fun ⟨first, h⟩ => ?_⟩
      cases hfirst.symm.trans h.start
    | some first =>
      cases hexpected : page.expected work lastShard with
      | none =>
        simp only [hexpected, Bool.and_false]
        refine ⟨fun h => absurd h Bool.false_ne_true, fun ⟨first, h⟩ => ?_⟩
        cases hexpected.symm.trans h.expected
      | some expected =>
        simp only [hexpected, Bool.and_eq_true, decide_eq_true_eq, Bool.not_eq_true', Bool.and_eq_false_iff, begins_iff,
          decide_eq_false_iff_not, not_not, Option.isNone_eq_false_iff]
        constructor
        · intro ⟨⟨hordered, hbegins⟩, hends, hequal⟩
          refine ⟨first, hlast, hfirst, hordered, hbegins, hequal ▸ hexpected, fun hnone => ?_⟩
          rcases hends with hsome | hend
          · rw [← hequal, hnone] at hsome
            cases hsome
          · exact hend
        · intro ⟨first', h⟩
          obtain rfl := Option.some.inj (hfirst.symm.trans h.start)
          have hequal := Option.some.inj (hexpected.symm.trans h.expected)
          refine ⟨⟨h.ordered, h.begins⟩, ?_, hequal.symm⟩
          rw [hequal]
          cases hnext : page.next with
          | none => exact Or.inr (h.ends hnext)
          | some c => exact Or.inl rfl

namespace Accepted

variable {lastShard : StepShard} {first : Nat}

theorem index (h : Accepted page work lastShard first) {i : Nat} {s : StepShard} (hs : page.shards[i]? = some s) :
    s.index = first + i ∧ s.index < page.inventoryShards ∧ 0 < s.segments := by
  have hmem : (s, first + i) ∈ page.shards.zipIdx first := List.mk_add_mem_zipIdx_iff_getElem?.mpr hs
  obtain ⟨hindex, hlt, hsegments, _⟩ := h.ordered.1 _ hmem
  exact ⟨hindex, hindex ▸ hlt, hsegments⟩

theorem last_getElem? (h : Accepted page work lastShard first) : page.shards[page.shards.length - 1]? = some lastShard := by
  rw [← List.getLast?_eq_getElem?]
  exact h.last

theorem length_pos (h : Accepted page work lastShard first) : 0 < page.shards.length := by
  have := (List.getElem?_eq_some_iff.mp h.last_getElem?).1
  omega

theorem excluded (h : Accepted page work lastShard first) {i : Nat} {s : StepShard} (hs : page.shards[i]? = some s)
    (hi : i + 1 < page.shards.length) : s.excluded = true := by
  have hchain := List.isChain_iff_getElem.mp h.ordered.2.2 i hi
  obtain ⟨_, rfl⟩ := List.getElem?_eq_some_iff.mp hs
  exact hchain.2

end Accepted

end Zakura.Recovery
