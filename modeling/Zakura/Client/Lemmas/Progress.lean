import Zakura.Client.Lemmas.Coverage
import Zakura.Client.Progress
import Zakura.Lib.Gaps

/-! # The gaps and the reach of a script's ranges -/

namespace Zakura.Client

open List Zakura.Transparent Zakura.Except

variable {ranges : List CoverageRange} {range : CoverageRange} {start through next height : Nat}

theorem notMem_heights_of_lt (h : ∀ range ∈ ranges, height < range.startHeight) : height ∉ heights ranges := by
  rintro ⟨range, hmem, hstart, -⟩
  exact absurd hstart (not_le.mpr (h range hmem))

theorem mem_heights_cons_of_notMem (h : height ∉ range.heights) :
    height ∈ heights (range :: ranges) ↔ height ∈ heights ranges := by
  simp [heights, h]

theorem gaps_front {gaps : List (Nat × Nat)} (hgaps : Gaps (heights ranges) (range.endHeight + 1) through gaps)
    (hstart : range.startHeight ≤ through) (hnext : next ≤ range.endHeight) (hvalid : range.startHeight ≤ range.endHeight)
    (hbefore : ∀ n, n < range.startHeight → n ∉ heights ranges) (hmem : range ∈ ranges) :
    Gaps (heights ranges) next through
      ((if next < range.startHeight then [(next, range.startHeight - 1)] else []) ++ gaps) := by
  have hinside : ∀ n, range.startHeight ≤ n → n < range.endHeight + 1 → n ∈ heights ranges :=
    fun n hfirst hlast => ⟨range, hmem, hfirst, Nat.le_of_lt_succ hlast⟩
  split_ifs with hgap
  · refine hgaps.cons (by omega) (by omega) ?_ (by omega) ?_
    · exact fun n _ hn => hbefore n (by omega)
    · exact fun n hn => hinside n (by omega)
  · exact hgaps.skip (by omega) fun n hn => hinside n (by omega)

theorem gaps_uncoveredFrom (hsorted : ranges.Pairwise fun a b => a.startHeight ≤ b.startHeight) (hnext : next ≤ through) :
    Gaps (heights ranges) next through (uncoveredFrom through ranges next) := by
  induction ranges generalizing next with
  | nil => exact .singleton hnext fun n _ _ => notMem_heights_of_lt fun _ h => absurd h not_mem_nil
  | cons range ranges ih =>
    obtain ⟨hlater, hsorted⟩ := pairwise_cons.mp hsorted
    have hbefore : ∀ n, n < range.startHeight → n ∉ heights (range :: ranges) := by
      intro n hn
      refine notMem_heights_of_lt (forall_mem_cons.mpr ⟨hn, fun later hmem => ?_⟩)
      exact hn.trans_le (hlater later hmem)
    rw [uncoveredFrom]
    by_cases hskip : range.endHeight < next ∨ range.endHeight < range.startHeight
    · rw [if_pos hskip]
      refine (ih hsorted hnext).congr fun n hn _ => mem_heights_cons_of_notMem fun hin => ?_
      have hstart : range.startHeight ≤ n := hin.1
      have hend : n ≤ range.endHeight := hin.2
      omega
    rw [if_neg hskip]
    by_cases hpast : through < range.startHeight
    · rw [if_pos hpast]
      exact .singleton hnext fun n _ hn => hbefore n (hn.trans_lt hpast)
    rw [if_neg hpast]
    obtain ⟨hend, hvalid⟩ := not_or.mp hskip
    by_cases hlast : through ≤ range.endHeight
    · have hnone : Gaps (heights (range :: ranges)) (range.endHeight + 1) through [] :=
        .nil fun n hn hthrough => by omega
      have hfront := gaps_front hnone (not_lt.mp hpast) (not_lt.mp hend) (not_lt.mp hvalid) hbefore mem_cons_self
      rw [append_nil] at hfront
      simpa only [if_pos hlast] using hfront
    · have hrest : Gaps (heights (range :: ranges)) (range.endHeight + 1) through
          (uncoveredFrom through ranges (max next (range.endHeight + 1))) := by
        rw [max_eq_right (by omega)]
        refine (ih hsorted (by omega)).congr fun n hn _ => mem_heights_cons_of_notMem fun hin => ?_
        exact absurd hin.2 (not_le.mpr hn)
      simp only [if_neg hlast]
      exact gaps_front hrest (not_lt.mp hpast) (not_lt.mp hend) (not_lt.mp hvalid) hbefore mem_cons_self

theorem gaps_uncovered (ranges : List CoverageRange) (start through : Nat) :
    Gaps (heights ranges) start through (uncovered ranges start through) := by
  rw [uncovered]
  split_ifs with hempty
  · exact .nil fun n hn hthrough => absurd (hn.trans hthrough) (not_le.mpr hempty)
  · have hgaps := gaps_uncoveredFrom (pairwise_insertionSort (fun a b => a.startHeight ≤ b.startHeight) ranges)
      (not_lt.mp hempty)
    refine hgaps.congr fun n _ _ => ?_
    simp only [heights, mem_insertionSort]

theorem checkedGap_eq (next startHeight : Nat) :
    checkedGap next startHeight = some (if next < startHeight then [(next, startHeight - 1)] else []) := by
  rw [checkedGap]
  split_ifs with hbefore
  · rw [checkedSub, if_pos (by omega), Option.map_some]
  · rfl

theorem checkedUncoveredFrom_eq (hthrough : through < 2 ^ 64) :
    checkedUncoveredFrom through ranges next = some (uncoveredFrom through ranges next) := by
  induction ranges generalizing next with
  | nil => rfl
  | cons range ranges ih =>
    rw [checkedUncoveredFrom, uncoveredFrom]
    rw [checkedGap_eq, Option.bind_eq_bind, Option.bind_some, ih, apply_ite some, apply_ite some]
    by_cases hlast : through ≤ range.endHeight
    · simp only [if_pos hlast]
      rfl
    · -- The range ends before the target, so there is a height after it.
      have hafter : checkedAdd range.endHeight 1 = some (range.endHeight + 1) := if_pos (by omega)
      simp only [if_neg hlast, hafter, ih]
      rfl

theorem checkedUncovered_eq (ranges : List CoverageRange) (start : Nat) (hthrough : through < 2 ^ 64) :
    checkedUncovered ranges start through = some (uncovered ranges start through) := by
  rw [checkedUncovered, uncovered]
  split_ifs
  · rfl
  · exact checkedUncoveredFrom_eq hthrough

/-! ## The reach of all scripts -/

/-- The values up to the target such that every script's heights from its start to the value are in its set. -/
def coveredThrough (covered : List CoverageRange → Set Nat) (start through : Nat)
    (saved : List (ScriptEntry × List CoverageRange)) : Set Nat :=
  {v | v ≤ through ∧ ∀ entry ∈ saved, ∀ height, max entry.1.requiredFrom start ≤ height → height ≤ v →
    height ∈ covered entry.2}

variable {covered : List CoverageRange → Set Nat} {saved : List (ScriptEntry × List CoverageRange)}
  {entry : ScriptEntry × List CoverageRange}

theorem isLowerSet_coveredThrough : IsLowerSet (coveredThrough covered start through saved) :=
  fun _ _ hle h => ⟨hle.trans h.1, fun entry hentry height hstart hv => h.2 entry hentry height hstart (hv.trans hle)⟩

theorem coveredThrough_concat : coveredThrough covered start through (saved ++ [entry]) =
    coveredThrough covered start through saved ∩ coveredThrough covered start through [entry] := by
  ext v
  simp only [coveredThrough, Set.mem_inter_iff, Set.mem_ofPred_eq, forall_mem_append]
  exact and_and_left

theorem isGreatest_reachOf (hstart : 0 < start) (ranges : List CoverageRange) :
    IsGreatest {v | v ≤ through ∧ ∀ height, start ≤ height → height ≤ v → height ∈ heights ranges}
      (reachOf ranges start through) :=
  (gaps_uncovered ranges start through).isGreatest_reach hstart

theorem isGreatest_singleton {reach : Nat}
    (hreach : IsGreatest {v | v ≤ through ∧ ∀ height, max entry.1.requiredFrom start ≤ height → height ≤ v →
      height ∈ covered entry.2} reach) :
    IsGreatest (coveredThrough covered start through [entry]) reach := by
  simpa only [coveredThrough, mem_singleton, forall_eq] using hreach

/-- The loop over the scripts keeps the greatest values that all scripts so far are covered and settled through. -/
theorem isGreatest_foldl_narrow (hstart : 0 < start) (saved : List (ScriptEntry × List CoverageRange)) :
    IsGreatest (coveredThrough heights start through saved) (saved.foldl (narrow start through) (through, through)).1 ∧
      IsGreatest (coveredThrough settledHeights start through saved)
        (saved.foldl (narrow start through) (through, through)).2 := by
  induction saved using List.reverseRecOn with
  | nil =>
    have hnone : ∀ covered, IsGreatest (coveredThrough covered start through []) through :=
      fun _ => ⟨⟨le_rfl, fun _ h => absurd h not_mem_nil⟩, fun _ h => h.1⟩
    exact ⟨hnone heights, hnone settledHeights⟩
  | append_singleton saved entry ih =>
    have hfrom : 0 < max entry.1.requiredFrom start := hstart.trans_le (le_max_right _ _)
    rw [foldl_concat, coveredThrough_concat, coveredThrough_concat]
    exact ⟨isGreatest_inter isLowerSet_coveredThrough isLowerSet_coveredThrough ih.1
        (isGreatest_singleton (isGreatest_reachOf hfrom _)),
      isGreatest_inter isLowerSet_coveredThrough isLowerSet_coveredThrough ih.2
        (isGreatest_singleton (isGreatest_reachOf hfrom _))⟩

/-- Nothing is asked of the heights before the set, so its floor never raises the reach. -/
theorem isGreatest_max_floor {reach : Nat} (h : IsGreatest (coveredThrough covered start through saved) reach)
    (hstart : 0 < start) (hthrough : start - 1 ≤ through) :
    max reach (min (start - 1) through) = reach ∧
      IsGreatest {v | start - 1 ≤ v ∧ v ∈ coveredThrough covered start through saved} reach := by
  have hfloor : start - 1 ≤ reach := by
    refine h.2 ⟨hthrough, fun entry _ height hfrom hle => ?_⟩
    have := (le_max_right _ _).trans hfrom
    omega
  exact ⟨max_eq_left ((min_le_left _ _).trans hfloor), ⟨hfloor, h.1⟩, fun v hv => h.2 hv.2⟩

theorem coverage_eq_ok {S : Type} [BoundStore S] {store : S} {set : SetIdentity} {anchor : Option Anchor}
    {entries : List ScriptEntry} {ranges : Bytes → List CoverageRange} {target : Nat}
    (hset : BoundStore.setIdentity store = .ok (some set)) (hanchor : WalletStore.anchor store = .ok anchor)
    (hscripts : WalletStore.scripts store = .ok entries)
    (hranges : ∀ entry ∈ entries, WalletStore.coverage store entry.script = .ok (ranges entry.script)) :
    let reached := (entries.map fun entry => (entry, ranges entry.script)).foldl (narrow set.startHeight target)
      (target, target)
    coverage store (some target) =
      .ok (max reached.1 (min (set.startHeight - 1) target), max reached.2 (min (set.startHeight - 1) target)) := by
  have hsaved : entries.mapM (fun entry => do
      let ranges ← WalletStore.coverage store entry.script
      pure (entry, ranges)) = .ok (entries.map fun entry => (entry, ranges entry.script)) := by
    refine mapM_eq_ok.mpr (List.forall₂_map_right_iff.mpr (List.forall₂_same.mpr fun entry hentry => ?_))
    rw [hranges entry hentry]
    rfl
  rw [coverage, hset, ok_bind, hscripts, ok_bind, hanchor, ok_bind, hsaved, ok_bind]
  cases entries with
  | nil =>
    have hfloor : max target (min (set.startHeight - 1) target) = target := max_eq_left (min_le_right _ _)
    simp only [map_nil, foldl_nil, hfloor]
    rfl
  | cons entry entries => rfl

end Zakura.Client
