import Zakura.Client.Lemmas.Coverage
import Zakura.Client.SqliteStore

/-! # Coverage in a table

The rows of a script, read in order, are the list of ranges that the store in memory keeps. -/

namespace Zakura.Client

open Std.ExtTreeMap (getElem?_filter' getElem?_map)

variable {ranges : List CoverageRange} {range : CoverageRange}

def InOrder (ranges : List CoverageRange) : Prop := ranges.Pairwise fun a b => a.startHeight < b.startHeight

theorem bounds_le_of_start_lt {a b : CoverageRange} (h : a.startHeight < b.startHeight) : a.bounds < b.bounds :=
  Prod.Lex.toLex_lt_toLex.mpr (.inl h)

theorem InOrder.eq_of_start_eq (h : InOrder ranges) {a b : CoverageRange} (ha : a ∈ ranges) (hb : b ∈ ranges)
    (hstart : a.startHeight = b.startHeight) : a = b := by
  have hnodup : (ranges.map (·.startHeight)).Nodup := List.pairwise_map.mpr (h.imp fun hlt => hlt.ne)
  exact List.inj_on_of_nodup_map hnodup ha hb hstart

theorem InOrder.mergeCoverage (h : InOrder ranges) : mergeCoverage ranges = ranges := by
  have hsorted : ranges.insertionSort (fun a b => a.bounds ≤ b.bounds) = ranges :=
    List.Pairwise.insertionSort_eq (h.imp fun hlt => (bounds_le_of_start_lt hlt).le)
  have hchain : ranges.IsChain (· ≠ ·) := (h.imp fun hlt heq => hlt.ne (congrArg _ heq)).isChain
  exact (congrArg (List.destutter (· ≠ ·)) hsorted).trans (List.destutter_of_isChain _ _ hchain)

theorem InOrder.start_ne (h : InOrder ranges) (hheld : ¬ held ranges range = true) {old : CoverageRange}
    (hold : old ∈ ranges) (hout : ¬ old.Inside range) : old.startHeight ≠ range.startHeight := by
  intro hstart
  have hend : range.endHeight < old.endHeight := by
    by_contra hle
    exact hout ⟨hstart.ge, not_lt.mp hle⟩
  refine hheld (held_iff.mpr ⟨old, hold, hstart.le, hend.le, ?_, fun other hother hbelow => ?_⟩)
  · intro heq
    have hsame : old.endHeight = range.endHeight := congrArg (fun bounds => (ofLex bounds).2) heq
    exact hend.ne' hsame
  · rcases (hbelow.trans_eq hstart.symm).lt_or_eq with hlt | heq
    · exact (bounds_le_of_start_lt hlt).le
    · rw [h.eq_of_start_eq hother hold heq]

theorem InOrder.coverRange (h : InOrder ranges) (range : CoverageRange) : InOrder (coverRange ranges range) := by
  by_cases hheld : held ranges range = true
  · rwa [coverRange_of_held hheld]
  rw [coverRange_of_not_held hheld]
  obtain ⟨sorted, hperm, hordered, hsublist⟩ :=
    mergeCoverage_sublist (ranges.filter (fun old => ¬ old.Inside range) ++ [range])
  have hnodup : ((ranges.filter (fun old => ¬ old.Inside range) ++ [range]).map (·.startHeight)).Nodup := by
    rw [List.map_append, List.nodup_append]
    refine ⟨List.pairwise_map.mpr ((h.filter _).imp fun hlt => hlt.ne), List.nodup_singleton _, ?_⟩
    intro a ha b hb
    obtain ⟨old, hold, rfl⟩ := List.mem_map.mp ha
    obtain rfl := List.mem_singleton.mp hb
    rw [List.mem_filter, decide_eq_true_eq] at hold
    exact h.start_ne hheld hold.1 hold.2
  have hstarts := List.pairwise_map.mp ((hperm.map _).nodup_iff.mpr hnodup)
  refine (hstarts.and hordered).sublist hsublist |>.imp fun {a b} hab => ?_
  obtain ⟨hne, hle⟩ := hab
  rw [CoverageRange.bounds, CoverageRange.bounds, Prod.Lex.toLex_le_toLex] at hle
  rcases hle with hlt | ⟨heq, -⟩
  · exact hlt
  · exact absurd heq hne

/-! ## The table -/

namespace SqliteStore

variable {coverage : OrderedMap CoverageKey CoverageRange} {script : Bytes}

def CoverageKeyed (coverage : OrderedMap CoverageKey CoverageRange) : Prop :=
  ∀ (key : CoverageKey) (range : CoverageRange), coverage[key]? = some range → range.key = key

theorem CoverageKeyed.mem_coverageOf (h : CoverageKeyed coverage) {range : CoverageRange} :
    range ∈ coverageOf coverage script ↔ coverage[range.key]? = some range ∧ range.script = script := by
  simp only [coverageOf, OrderedMap.mem_vals, getElem?_filter', Option.filter_eq_some_iff,
    decide_eq_true_eq]
  constructor
  · rintro ⟨key, hkey, rfl⟩
    obtain rfl := h key range hkey
    exact ⟨hkey, rfl⟩
  · rintro ⟨hkey, rfl⟩
    exact ⟨range.key, hkey, rfl⟩

theorem CoverageKeyed.inOrder (h : CoverageKeyed coverage) (script : Bytes) : InOrder (coverageOf coverage script) := by
  rw [InOrder, coverageOf, OrderedMap.vals, List.pairwise_map]
  have hordered := Std.ExtTreeMap.ordered_keys_toList (t := coverage.filter fun key _ => (ofLex key).1 = script)
  refine hordered.imp_of_mem fun {a b} ha hb hlt => ?_
  have hown : ∀ entry ∈ (coverage.filter fun key _ => (ofLex key).1 = script).toList,
      entry.2.key = entry.1 ∧ entry.2.script = script := by
    rintro ⟨key, range⟩ hentry
    rw [Std.ExtTreeMap.mem_toList_iff_getElem?_eq_some, getElem?_filter', Option.filter_eq_some_iff,
      decide_eq_true_eq] at hentry
    have hkey := h key range hentry.1
    exact ⟨hkey, by rw [← hentry.2, ← hkey]; rfl⟩
  obtain ⟨hakey, hascript⟩ := hown a ha
  obtain ⟨hbkey, hbscript⟩ := hown b hb
  rw [compare_lt_iff_lt, ← hakey, ← hbkey, CoverageRange.key, CoverageRange.key, Prod.Lex.toLex_lt_toLex, hascript,
    hbscript] at hlt
  rcases hlt with hlt | ⟨-, hlt⟩
  · exact absurd hlt (lt_irrefl _)
  · exact hlt

theorem CoverageKeyed.held_eq (h : CoverageKeyed coverage) (range : CoverageRange) :
    held coverage range = Client.held (coverageOf coverage range.script) range := by
  have horder := h.inOrder range.script
  have hsorted : ((coverageOf coverage range.script).filter fun old => old.startHeight ≤ range.startHeight).Pairwise
      fun a b => a.bounds < b.bounds := (horder.filter _).imp bounds_le_of_start_lt
  rw [held, Client.held, holder, maxByKey_eq_getLast? hsorted]

/-- The table holds the ranges of every script, each script's in order. -/
structure CoverageSim (coverage : OrderedMap CoverageKey CoverageRange) (ranges : Bytes → List CoverageRange) : Prop where
  keyed : CoverageKeyed coverage
  inOrder : ∀ script, InOrder (ranges script)
  mem_iff : ∀ range : CoverageRange, coverage[range.key]? = some range ↔ range ∈ ranges range.script
  script_eq : ∀ script, ∀ range ∈ ranges script, range.script = script

variable {saved : Bytes → List CoverageRange}

theorem CoverageSim.coverageOf_eq (h : CoverageSim coverage saved) (script : Bytes) :
    coverageOf coverage script = saved script := by
  refine eq_of_mem_iff_of_sorted (h.keyed.inOrder script) (h.inOrder script) fun range => ?_
  rw [h.keyed.mem_coverageOf, h.mem_iff]
  constructor
  · rintro ⟨hmem, rfl⟩
    exact hmem
  · intro hmem
    have hscript := h.script_eq script range hmem
    exact ⟨by rwa [hscript], hscript⟩

theorem coverageSim_empty : CoverageSim ∅ fun _ => [] where
  keyed := by simp [CoverageKeyed]
  inOrder _ := List.Pairwise.nil
  mem_iff := by simp
  script_eq := by simp

/-! ### A commit -/

theorem getElem?_replaced {key : CoverageKey} {old : CoverageRange} :
    (coverage.filter fun key old => ¬ ((ofLex key).1 = range.script ∧ old.Inside range))[key]? = some old ↔
      coverage[key]? = some old ∧ ¬ ((ofLex key).1 = range.script ∧ old.Inside range) := by
  rw [getElem?_filter', Option.filter_eq_some_iff, decide_eq_true_eq]

theorem key_eq_iff {a b : CoverageRange} : a.key = b.key ↔ a.script = b.script ∧ a.startHeight = b.startHeight := by
  rw [CoverageRange.key, CoverageRange.key, toLex_inj, Prod.mk.injEq]

theorem CoverageSim.place_free (h : CoverageSim coverage saved) (hheld : ¬ Client.held (saved range.script) range = true) :
    range.key ∉ coverage.filter fun key old => ¬ ((ofLex key).1 = range.script ∧ old.Inside range) := by
  intro hmem
  obtain ⟨old, hold⟩ := OrderedMap.mem_iff_exists.mp hmem
  obtain ⟨hold, hout⟩ := getElem?_replaced.mp hold
  have hkey := h.keyed _ _ hold
  obtain ⟨hscript, hstart⟩ := key_eq_iff.mp hkey
  rw [← hkey, h.mem_iff, hscript] at hold
  exact (h.inOrder range.script).start_ne hheld hold (fun hin => hout ⟨rfl, hin⟩) hstart

theorem CoverageSim.coverRange (h : CoverageSim coverage saved) (range : CoverageRange) :
    ∃ after, coverRange coverage range = .ok after ∧
      CoverageSim after (Function.update saved range.script (Client.coverRange (saved range.script) range)) := by
  rw [SqliteStore.coverRange, h.keyed.held_eq, h.coverageOf_eq]
  by_cases hheld : Client.held (saved range.script) range = true
  · rw [if_pos hheld, coverRange_of_held hheld, Function.update_eq_self]
    exact ⟨coverage, rfl, h⟩
  rw [if_neg hheld, insertCoverage, if_neg (h.place_free hheld)]
  refine ⟨_, rfl, fun key old hold => ?_, fun script => ?_, fun old => ?_, fun script old hold => ?_⟩
  · rw [OrderedMap.getElem?_insert_eq] at hold
    split_ifs at hold with hkey
    · cases hold
      exact hkey
    · exact h.keyed key old (getElem?_replaced.mp hold).1
  · rw [Function.update_apply]
    split_ifs
    · exact (h.inOrder range.script).coverRange range
    · exact h.inOrder script
  · have hplace : (ofLex old.key).1 = old.script := rfl
    rw [OrderedMap.getElem?_insert_eq, Function.update_apply]
    by_cases hscript : old.script = range.script
    · rw [if_pos hscript, mem_coverRange hheld]
      split_ifs with hkey
      · constructor
        · intro hsame
          exact .inr (Option.some.inj hsame).symm
        · rintro (⟨hold, hout⟩ | rfl)
          · exact absurd (key_eq_iff.mp hkey).2.symm ((h.inOrder range.script).start_ne hheld hold hout)
          · rfl
      · rw [getElem?_replaced, h.mem_iff, hplace, hscript]
        constructor
        · rintro ⟨hold, hout⟩
          exact .inl ⟨hold, fun hin => hout ⟨rfl, hin⟩⟩
        · rintro (⟨hold, hout⟩ | rfl)
          · exact ⟨hold, fun hin => hout hin.2⟩
          · exact absurd rfl hkey
    · rw [if_neg hscript, if_neg fun hkey => hscript (key_eq_iff.mp hkey).1.symm, getElem?_replaced, h.mem_iff, hplace]
      exact and_iff_left fun hin => hscript hin.1
  · rw [Function.update_apply] at hold
    split_ifs at hold with hscript
    · rw [mem_coverRange hheld] at hold
      rcases hold with ⟨hold, -⟩ | rfl
      · exact (h.script_eq _ old hold).trans hscript.symm
      · exact hscript.symm
    · exact h.script_eq script old hold

theorem CoverageSim.coverScripts {ranges : OrderedMap Bytes (List CoverageRange)}
    (h : CoverageSim coverage fun script => ranges[script]?.getD []) (commit : ShardCommit) :
    ∃ after, commit.coveredScripts.foldlM (fun coverage script => SqliteStore.coverRange coverage (commit.range script))
        coverage = .ok after ∧
      CoverageSim after fun script => (MemoryStore.coverScripts ranges commit)[script]?.getD [] := by
  rw [MemoryStore.coverScripts]
  induction commit.coveredScripts generalizing coverage ranges with
  | nil => exact ⟨coverage, rfl, h⟩
  | cons script scripts ih =>
    obtain ⟨next, hnext, hsim⟩ := h.coverRange (commit.range script)
    have hinsert : Function.update (fun script => ranges[script]?.getD []) script
        (Client.coverRange (ranges[script]?.getD []) (commit.range script)) = fun other =>
          (ranges.insert script (Client.coverRange (ranges[script]?.getD []) (commit.range script)))[other]?.getD [] := by
      funext other
      rw [Function.update_apply, OrderedMap.getElem?_insert_eq]
      by_cases hother : script = other
      · rw [if_pos hother.symm, if_pos hother]
        rfl
      · rw [if_neg (Ne.symm hother), if_neg hother]
    obtain ⟨after, hafter, hdone⟩ := ih (hinsert ▸ hsim)
    refine ⟨after, ?_, hdone⟩
    rw [List.foldlM_cons, hnext]
    exact hafter

/-! ### A rollback -/

theorem startHeight_of_cutRange {accepted : Anchor} {old : CoverageRange} (h : cutRange accepted old = some range) :
    old.startHeight ≤ accepted.height ∧ range = if accepted.height < old.endHeight then
      { old with endHeight := accepted.height, terminalBlockHash := accepted.hash } else old := by
  rw [cutRange] at h
  split_ifs at h with hstart hend
  · cases h
    exact ⟨not_lt.mp hstart, (if_pos hend).symm⟩
  · cases h
    exact ⟨not_lt.mp hstart, (if_neg hend).symm⟩

theorem CoverageSim.rollback (h : CoverageSim coverage saved) (accepted : Anchor) :
    CoverageSim ((coverage.filter fun key _ => (ofLex key).2 ≤ accepted.height).map fun _ range =>
        if accepted.height < range.endHeight then
          { range with endHeight := accepted.height, terminalBlockHash := accepted.hash } else range)
      fun script => (saved script).filterMap (cutRange accepted) := by
  have hrow : ∀ (key : CoverageKey) (range : CoverageRange),
      ((coverage.filter fun key _ => (ofLex key).2 ≤ accepted.height).map fun _ range =>
        if accepted.height < range.endHeight then
          { range with endHeight := accepted.height, terminalBlockHash := accepted.hash } else range)[key]? = some range ↔
      ∃ old, coverage[key]? = some old ∧ cutRange accepted old = some range := by
    intro key range
    rw [getElem?_map, getElem?_filter', Option.map_eq_some_iff]
    refine exists_congr fun old => ?_
    rw [Option.filter_eq_some_iff, decide_eq_true_eq, and_assoc]
    refine and_congr_right fun hold => ?_
    have hkey := h.keyed key old hold
    have hstart : (ofLex key).2 = old.startHeight := by
      rw [← hkey]
      rfl
    rw [hstart, cutRange]
    by_cases hbelow : old.startHeight ≤ accepted.height
    · rw [if_neg (not_lt.mpr hbelow)]
      split_ifs <;> simp [hbelow]
    · rw [if_pos (not_le.mp hbelow)]
      simp [hbelow]
  have hsame : ∀ old range : CoverageRange, cutRange accepted old = some range → range.key = old.key ∧
      range.script = old.script ∧ range.startHeight = old.startHeight := by
    intro old range hcut
    obtain ⟨-, rfl⟩ := startHeight_of_cutRange hcut
    split_ifs <;> exact ⟨rfl, rfl, rfl⟩
  refine ⟨fun key range hrange => ?_, fun script => ?_, fun range => ?_, fun script range hrange => ?_⟩
  · obtain ⟨old, hold, hcut⟩ := (hrow _ _).mp hrange
    rw [(hsame old range hcut).1, h.keyed key old hold]
  · refine List.pairwise_filterMap.mpr ((h.inOrder script).imp fun {a b} hlt a' ha b' hb => ?_)
    rwa [(hsame a a' ha).2.2, (hsame b b' hb).2.2]
  · rw [hrow, List.mem_filterMap]
    refine exists_congr fun old => and_congr_left fun hcut => ?_
    rw [(hsame old range hcut).1, (hsame old range hcut).2.1, h.mem_iff]
  · obtain ⟨old, hold, hcut⟩ := List.mem_filterMap.mp hrange
    rw [(hsame old range hcut).2.1, h.script_eq script old hold]

/-! ### A promotion -/

theorem foldlM_insertCoverage {rows : List CoverageRange} (hkeys : rows.Pairwise fun a b => a.key ≠ b.key)
    (hfree : ∀ row ∈ rows, row.key ∉ coverage) :
    ∃ after, rows.foldlM insertCoverage coverage = .ok after ∧ ∀ (key : CoverageKey) (range : CoverageRange),
      after[key]? = some range ↔ coverage[key]? = some range ∨ range ∈ rows ∧ range.key = key := by
  induction rows generalizing coverage with
  | nil => exact ⟨coverage, rfl, by simp⟩
  | cons row rows ih =>
    obtain ⟨hrow, hrest⟩ := List.pairwise_cons.mp hkeys
    have hplace := hfree row List.mem_cons_self
    have hnext : ∀ other ∈ rows, other.key ∉ coverage.insert row.key row := by
      intro other hother hmem
      rcases Std.ExtTreeMap.mem_insert.mp hmem with heq | hmem
      · exact hrow other hother (compare_eq_iff_eq.mp heq)
      · exact hfree other (List.mem_cons_of_mem _ hother) hmem
    obtain ⟨after, hafter, hheld⟩ := ih hrest hnext
    refine ⟨after, ?_, fun key range => ?_⟩
    · rw [List.foldlM_cons, insertCoverage, if_neg hplace]
      exact hafter
    · rw [hheld, OrderedMap.getElem?_insert_eq, List.mem_cons]
      by_cases hkey : row.key = key
      · subst hkey
        have hnone : coverage[row.key]? = none := Std.ExtTreeMap.getElem?_eq_none hplace
        rw [if_pos rfl, hnone, Option.some.injEq]
        constructor
        · rintro (rfl | ⟨hmem, hsame⟩)
          · exact .inr ⟨.inl rfl, rfl⟩
          · exact .inr ⟨.inr hmem, hsame⟩
        · rintro (hfalse | ⟨rfl | hmem, hsame⟩)
          · cases hfalse
          · exact .inl rfl
          · exact .inr ⟨hmem, hsame⟩
      · rw [if_neg hkey]
        refine or_congr_right (and_congr_left fun hsame => ?_)
        rw [or_iff_right]
        rintro rfl
        exact hkey hsame

theorem CoverageKeyed.writeCoverage (h : CoverageKeyed coverage) (script : Bytes) :
    writeCoverage coverage script (mergeCoverage (coverageOf coverage script)) = .ok coverage := by
  have horder := h.inOrder script
  have hkept : ∀ (key : CoverageKey) (range : CoverageRange),
      (coverage.filter fun key _ => (ofLex key).1 ≠ script)[key]? = some range ↔
        coverage[key]? = some range ∧ (ofLex key).1 ≠ script := by
    intro key range
    rw [getElem?_filter', Option.filter_eq_some_iff, decide_eq_true_eq]
  have hkeys : (coverageOf coverage script).Pairwise fun a b => a.key ≠ b.key :=
    horder.imp fun hlt heq => hlt.ne (key_eq_iff.mp heq).2
  have hfree : ∀ row ∈ coverageOf coverage script, row.key ∉ coverage.filter fun key _ => (ofLex key).1 ≠ script := by
    intro row hrow hmem
    obtain ⟨old, hold⟩ := OrderedMap.mem_iff_exists.mp hmem
    exact ((hkept _ _).mp hold).2 (h.mem_coverageOf.mp hrow).2
  obtain ⟨after, hafter, hheld⟩ := foldlM_insertCoverage hkeys hfree
  rw [SqliteStore.writeCoverage, horder.mergeCoverage, hafter]
  refine congrArg Except.ok (Std.ExtTreeMap.ext_getElem? fun key => Option.ext fun range => ?_)
  rw [hheld, hkept, h.mem_coverageOf]
  constructor
  · rintro (⟨hrow, -⟩ | ⟨⟨hrow, -⟩, rfl⟩)
    · exact hrow
    · exact hrow
  · intro hrow
    obtain rfl := h key range hrow
    by_cases hscript : range.script = script
    · exact .inr ⟨⟨hrow, hscript⟩, rfl⟩
    · exact .inl ⟨hrow, hscript⟩

theorem CoverageKeyed.rewrite (h : CoverageKeyed coverage) (scripts : List Bytes) :
    scripts.foldlM (fun coverage script =>
      SqliteStore.writeCoverage coverage script (mergeCoverage (coverageOf coverage script))) coverage = .ok coverage := by
  induction scripts with
  | nil => rfl
  | cons script scripts ih =>
    rw [List.foldlM_cons, h.writeCoverage]
    exact ih

theorem promoteRange_frame (shardId : Nat) (revisionDigest : Bytes) (range : CoverageRange) :
    (promoteRange shardId revisionDigest range).script = range.script ∧
      (promoteRange shardId revisionDigest range).startHeight = range.startHeight := by
  rw [promoteRange]
  split_ifs <;> exact ⟨rfl, rfl⟩

theorem CoverageSim.promote (h : CoverageSim coverage saved) (shardId : Nat) (revisionDigest : Bytes) :
    CoverageSim (coverage.map fun _ range => promoteRange shardId revisionDigest range)
      fun script => mergeCoverage ((saved script).map (promoteRange shardId revisionDigest)) := by
  have hframe := promoteRange_frame shardId revisionDigest
  have hkey : ∀ range, (promoteRange shardId revisionDigest range).key = range.key :=
    fun range => key_eq_iff.mpr (hframe range)
  have horder : ∀ script, InOrder ((saved script).map (promoteRange shardId revisionDigest)) := by
    intro script
    refine List.pairwise_map.mpr ((h.inOrder script).imp fun {a b} hlt => ?_)
    rwa [(hframe a).2, (hframe b).2]
  simp only [(horder _).mergeCoverage]
  refine ⟨fun key range hrange => ?_, horder, fun range => ?_, fun script range hrange => ?_⟩
  · rw [getElem?_map, Option.map_eq_some_iff] at hrange
    obtain ⟨old, hold, rfl⟩ := hrange
    rw [hkey, h.keyed key old hold]
  · rw [getElem?_map, Option.map_eq_some_iff, List.mem_map]
    refine exists_congr fun old => and_congr_left fun hsame => ?_
    rw [← hsame, hkey, (hframe old).1, h.mem_iff]
  · obtain ⟨old, hold, rfl⟩ := List.mem_map.mp hrange
    rw [(hframe old).1, h.script_eq script old hold]

end SqliteStore

end Zakura.Client
