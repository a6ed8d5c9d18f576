import Zakura.Client.MemoryStore
import Mathlib.Order.Interval.Set.Basic

/-! # The heights a script's ranges cover

A commit's range is either held by another one or replaces what lies inside it, a rollback cuts and a promotion
only renames. Each says what happens to the set of covered heights. -/

namespace Zakura.Client

open List

def CoverageRange.heights (range : CoverageRange) : Set Nat := Set.Icc range.startHeight range.endHeight

def heights (ranges : List CoverageRange) : Set Nat := {height | ∃ range ∈ ranges, height ∈ range.heights}

def settledHeights (ranges : List CoverageRange) : Set Nat := heights (ranges.filter fun range => range.kind = .settled)

variable {ranges ranges' : List CoverageRange} {range old : CoverageRange}

theorem CoverageRange.Inside.subset (h : old.Inside range) : old.heights ⊆ range.heights :=
  Set.Icc_subset_Icc h.1 h.2

theorem mem_settledHeights {height : Nat} :
    height ∈ settledHeights ranges ↔ ∃ range ∈ ranges, range.kind = .settled ∧ height ∈ range.heights := by
  simp [settledHeights, heights, and_assoc]

theorem mem_mergeCoverage : range ∈ mergeCoverage ranges ↔ range ∈ ranges := by
  rw [mergeCoverage, mem_destutter_ne, mem_insertionSort]

theorem mergeCoverage_sublist (ranges : List CoverageRange) :
    ∃ sorted, sorted.Perm ranges ∧ sorted.Pairwise (fun a b => a.bounds ≤ b.bounds) ∧
      (mergeCoverage ranges).Sublist sorted :=
  ⟨ranges.insertionSort fun a b => a.bounds ≤ b.bounds, perm_insertionSort _ _,
    pairwise_insertionSort _ _, destutter_sublist _ _⟩

theorem heights_mergeCoverage (ranges : List CoverageRange) : heights (mergeCoverage ranges) = heights ranges := by
  simp only [heights, mem_mergeCoverage]

/-! ## Adding a range -/

theorem held_iff : held ranges range = true ↔
    ∃ old ∈ ranges, old.startHeight ≤ range.startHeight ∧ range.endHeight ≤ old.endHeight ∧
      old.bounds ≠ range.bounds ∧ ∀ other ∈ ranges, other.startHeight ≤ range.startHeight → other.bounds ≤ old.bounds := by
  rw [held, holder]
  cases hbest : maxByKey (·.bounds) (ranges.filter fun old => old.startHeight ≤ range.startHeight) with
  | none =>
    have hnone := filter_eq_nil_iff.mp (maxByKey_eq_none.mp hbest)
    simp only [Option.any_none, Bool.false_eq_true, false_iff]
    rintro ⟨old, hold, hstart, -⟩
    exact hnone old hold (decide_eq_true hstart)
  | some best =>
    obtain ⟨hmem, hmax⟩ := maxByKey_eq_some hbest
    simp only [mem_filter, decide_eq_true_eq] at hmem hmax
    simp only [Option.any_some, decide_eq_true_eq]
    constructor
    · intro h
      exact ⟨best, hmem.1, hmem.2, h.1, h.2, fun other hother hstart => hmax other ⟨hother, hstart⟩⟩
    · rintro ⟨old, hold, hstart, hend, hne, hother⟩
      -- The two are both largest, so they have the same bounds.
      have hbounds : best.bounds = old.bounds := le_antisymm (hother best hmem.1 hmem.2) (hmax old ⟨hold, hstart⟩)
      have hends : best.endHeight = old.endHeight := congrArg (fun bounds => (ofLex bounds).2) hbounds
      exact ⟨hends ▸ hend, hbounds ▸ hne⟩

theorem subset_of_held (h : held ranges range = true) : range.heights ⊆ heights ranges := by
  obtain ⟨old, hold, hstart, hend, -⟩ := held_iff.mp h
  exact fun height hin => ⟨old, hold, hstart.trans hin.1, hin.2.trans hend⟩

theorem coverRange_of_held (h : held ranges range = true) : coverRange ranges range = ranges := if_pos h

theorem mem_coverRange (h : ¬ held ranges range = true) :
    old ∈ coverRange ranges range ↔ (old ∈ ranges ∧ ¬ old.Inside range) ∨ old = range := by
  rw [coverRange, if_neg h]
  dsimp only
  split_ifs with hkept
  · simp only [mem_mergeCoverage, mem_filter, decide_eq_true_eq] at hkept ⊢
    constructor
    · exact Or.inl
    · rintro (hold | rfl)
      · exact hold
      · exact hkept
  · simp [mem_mergeCoverage]

theorem heights_coverRange (ranges : List CoverageRange) (range : CoverageRange) :
    heights (coverRange ranges range) = heights ranges ∪ range.heights := by
  by_cases h : held ranges range = true
  · rw [coverRange_of_held h, Set.union_eq_self_of_subset_right (subset_of_held h)]
  · ext height
    constructor
    · rintro ⟨old, hold, hin⟩
      rcases (mem_coverRange h).mp hold with ⟨hold, -⟩ | rfl
      · exact .inl ⟨old, hold, hin⟩
      · exact .inr hin
    · rintro (⟨old, hold, hin⟩ | hin)
      · by_cases hinside : old.Inside range
        · exact ⟨range, (mem_coverRange h).mpr (.inr rfl), hinside.subset hin⟩
        · exact ⟨old, (mem_coverRange h).mpr (.inl ⟨hold, hinside⟩), hin⟩
      · exact ⟨range, (mem_coverRange h).mpr (.inr rfl), hin⟩

/-- A range just written is its own holder, so writing it again is not refused as held. -/
theorem not_held_coverRange (h : ¬ held ranges range = true) : ¬ held (coverRange ranges range) range = true := by
  intro hheld
  obtain ⟨old, hold, hstart, hend, hne, hmax⟩ := held_iff.mp hheld
  rcases (mem_coverRange h).mp hold with ⟨hold, hinside⟩ | rfl
  · -- A kept range that holds the new one starts with it and is longer: the largest such one held it before.
    have hle := hmax range ((mem_coverRange h).mpr (.inr rfl)) le_rfl
    rw [CoverageRange.bounds, CoverageRange.bounds, Prod.Lex.toLex_le_toLex] at hle
    rcases hle with hlt | ⟨heq, hle⟩
    · exact absurd hstart hlt.not_ge
    · refine h (held_iff.mpr ⟨old, hold, hstart, hend, hne, fun other hother hbelow => ?_⟩)
      by_cases hin : other.Inside range
      · rw [CoverageRange.bounds, CoverageRange.bounds, Prod.Lex.toLex_le_toLex]
        rcases hbelow.lt_or_eq with hlt | hsame
        · exact absurd hin.1 hlt.not_ge
        · exact .inr ⟨hsame.trans heq, hin.2.trans hle⟩
      · exact hmax other ((mem_coverRange h).mpr (.inl ⟨hother, hin⟩)) hbelow
  · exact hne rfl

theorem coverRange_of_not_held (h : ¬ held ranges range = true) :
    coverRange ranges range = mergeCoverage (ranges.filter (fun old => ¬ old.Inside range) ++ [range]) := by
  have hself : range.Inside range := ⟨le_rfl, le_rfl⟩
  rw [coverRange, if_neg h]
  dsimp only
  rw [if_neg (by simp [hself])]

theorem coverRange_split (h : ¬ held ranges range = true) :
    ∃ below above, coverRange ranges range = below ++ range :: above ∧
      (below ++ range :: above).Pairwise (fun a b => a.bounds ≤ b.bounds) ∧
      (∀ old ∈ below ++ above, ¬ old.Inside range) := by
  have hself : range.Inside range := ⟨le_rfl, le_rfl⟩
  have hkept : range ∉ ranges.filter fun old => ¬ old.Inside range := by simp [hself]
  obtain ⟨below, above, hsplit⟩ := append_of_mem ((mem_coverRange h).mpr (.inr rfl))
  obtain ⟨sorted, hperm, hordered, hsublist⟩ :=
    mergeCoverage_sublist (ranges.filter (fun old => ¬ old.Inside range) ++ [range])
  rw [← coverRange_of_not_held h, hsplit] at hsublist
  refine ⟨below, above, hsplit, hordered.sublist hsublist, fun old hold hin => ?_⟩
  -- A range inside the new one is the new one itself, which stands only once.
  have heq : old = range := by
    have hmem : old ∈ coverRange ranges range := by
      rw [hsplit]
      simp only [mem_append, mem_cons] at hold ⊢
      tauto
    rcases (mem_coverRange h).mp hmem with ⟨-, hout⟩ | heq
    · exact absurd hin hout
    · exact heq
  have hcount := hsublist.count_le range
  rw [hperm.count_eq] at hcount
  simp only [count_append, count_cons_self, count_nil, count_eq_zero.mpr hkept] at hcount
  rw [heq, mem_append, ← count_pos_iff, ← count_pos_iff] at hold
  omega

theorem coverRange_coverRange (ranges : List CoverageRange) (range : CoverageRange) :
    coverRange (coverRange ranges range) range = coverRange ranges range := by
  by_cases h : held ranges range = true
  · rw [coverRange_of_held h, coverRange_of_held h]
  have hself : range.Inside range := ⟨le_rfl, le_rfl⟩
  obtain ⟨below, above, hsplit, hsorted, hout⟩ := coverRange_split h
  have hfilter : (below ++ range :: above).filter (fun old => ¬ old.Inside range) = below ++ above := by
    rw [filter_append, filter_cons_of_neg (by simpa using hself), ← filter_append]
    exact filter_eq_self.mpr fun old hold => decide_eq_true (hout old hold)
  have hrange : range ∉ below ++ above := fun hmem => hout range hmem hself
  have hsame : ∀ old : CoverageRange, old.bounds = range.bounds → old.Inside range := by
    intro old heq
    have hbounds := Prod.mk.inj (congrArg ofLex heq)
    exact ⟨hbounds.1.ge, hbounds.2.le⟩
  obtain ⟨hbelow, habove, hacross⟩ := pairwise_append.mp hsorted
  rw [pairwise_cons] at habove
  have hsort : (below ++ above ++ [range]).insertionSort (fun a b => a.bounds ≤ b.bounds) = below ++ range :: above := by
    refine insertionSort_concat_of_sorted ?_ (fun a ha => ?_) fun b hb => ?_
    · exact pairwise_append.mpr
        ⟨hbelow, habove.2, fun a ha b hb => hacross a ha b (mem_cons_of_mem _ hb)⟩
    · exact lt_of_le_of_ne (hacross a ha range mem_cons_self) fun heq =>
        hout a (mem_append_left _ ha) (hsame a heq)
    · exact lt_of_le_of_ne (habove.1 b hb) fun heq => hout b (mem_append_right _ hb) (hsame b heq.symm)
  have hchain : (below ++ range :: above).destutter (· ≠ ·) = below ++ range :: above := by
    rw [← hsplit, coverRange, if_neg h]
    exact destutter_idem _ _
  have hagain : coverRange (coverRange ranges range) range = mergeCoverage (below ++ above ++ [range]) := by
    rw [coverRange, if_neg (not_held_coverRange h)]
    dsimp only
    rw [hsplit, hfilter, if_neg hrange]
  rw [hagain, hsplit]
  exact (congrArg (List.destutter (· ≠ ·)) hsort).trans hchain

/-- The settled heights a written range keeps: all of them if it is settled or held, and otherwise those the
settled ranges outside it cover. -/
theorem settledHeights_subset_coverRange_iff :
    settledHeights ranges ⊆ settledHeights (coverRange ranges range) ↔
      range.kind = .settled ∨ held ranges range = true ∨
        ∀ old ∈ ranges, old.kind = .settled → old.Inside range →
          old.heights ⊆ settledHeights (ranges.filter fun old => ¬ old.Inside range) := by
  by_cases hheld : held ranges range = true
  · simp [coverRange_of_held hheld, hheld]
  by_cases hkind : range.kind = .settled
  · simp only [hkind, true_or, iff_true]
    intro height hin
    obtain ⟨old, hold, hsettled, hin⟩ := mem_settledHeights.mp hin
    by_cases hinside : old.Inside range
    · exact mem_settledHeights.mpr ⟨range, (mem_coverRange hheld).mpr (.inr rfl), hkind, hinside.subset hin⟩
    · exact mem_settledHeights.mpr ⟨old, (mem_coverRange hheld).mpr (.inl ⟨hold, hinside⟩), hsettled, hin⟩
  -- A provisional range that is not held leaves the settled ranges outside it.
  have hafter : settledHeights (coverRange ranges range) =
      settledHeights (ranges.filter fun old => ¬ old.Inside range) := by
    ext height
    simp only [mem_settledHeights, mem_coverRange hheld, mem_filter, decide_eq_true_eq]
    constructor
    · rintro ⟨old, hold | rfl, hsettled, hin⟩
      · exact ⟨old, hold, hsettled, hin⟩
      · exact absurd hsettled hkind
    · rintro ⟨old, hold, hsettled, hin⟩
      exact ⟨old, .inl hold, hsettled, hin⟩
  rw [hafter]
  simp only [hkind, hheld, false_or, Bool.false_eq_true]
  constructor
  · intro h old hold hsettled _ height hin
    exact h (mem_settledHeights.mpr ⟨old, hold, hsettled, hin⟩)
  · intro h height hin
    obtain ⟨old, hold, hsettled, hin⟩ := mem_settledHeights.mp hin
    by_cases hinside : old.Inside range
    · exact h old hold hsettled hinside hin
    · exact mem_settledHeights.mpr ⟨old, mem_filter.mpr ⟨hold, decide_eq_true hinside⟩, hsettled, hin⟩

/-! ## Cutting and promoting -/

theorem heights_cut (accepted : Anchor) (ranges : List CoverageRange) :
    heights (ranges.filterMap (cutRange accepted)) = heights ranges ∩ Set.Iic accepted.height := by
  ext height
  constructor
  · rintro ⟨cut, hcut, hin⟩
    obtain ⟨range, hmem, hcut⟩ := mem_filterMap.mp hcut
    rw [cutRange] at hcut
    split_ifs at hcut with hstart hend
    · cases hcut
      exact ⟨⟨range, hmem, hin.1, hin.2.trans hend.le⟩, hin.2⟩
    · cases hcut
      exact ⟨⟨cut, hmem, hin⟩, hin.2.trans (not_lt.mp hend)⟩
  · rintro ⟨⟨range, hmem, hin⟩, hle⟩
    have hstart : ¬ accepted.height < range.startHeight := not_lt.mpr (hin.1.trans hle)
    by_cases hend : accepted.height < range.endHeight
    · exact ⟨{ range with endHeight := accepted.height, terminalBlockHash := accepted.hash },
        mem_filterMap.mpr ⟨range, hmem, by rw [cutRange, if_neg hstart, if_pos hend]⟩, hin.1, hle⟩
    · refine ⟨range, mem_filterMap.mpr ⟨range, hmem, ?_⟩, hin⟩
      rw [cutRange, if_neg hstart, if_neg hend]

theorem heights_promoteRange (shardId : Nat) (revisionDigest : Bytes) (range : CoverageRange) :
    (promoteRange shardId revisionDigest range).heights = range.heights := by
  rw [promoteRange]
  split_ifs <;> rfl

theorem heights_promote (shardId : Nat) (revisionDigest : Bytes) (ranges : List CoverageRange) :
    heights (mergeCoverage (ranges.map (promoteRange shardId revisionDigest))) = heights ranges := by
  rw [heights_mergeCoverage]
  simp only [heights, mem_map, exists_exists_and_eq_and, heights_promoteRange]

end Zakura.Client
