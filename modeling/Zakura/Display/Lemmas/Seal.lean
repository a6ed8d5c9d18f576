import Zakura.Display.Seal
import Zakura.Lib.Pieces

/-! # The seal planner as a greedy cut

From a block on, the next archive ends at the first block where the buckets reach their target; the margin below the
tip is the limit up to which archives are cut. -/

namespace Zakura.Display

open List

variable {params : DisplaySealParams} {start : Nat} {counts : List HeightCounts}

/-! ## The criterion -/

def bucketSums (sums : List Nat) (blocks : List HeightCounts) : List Nat :=
  blocks.foldl (fun sums block => addCounts sums block.archive) sums

def reached (params : DisplaySealParams) (blocks : List HeightCounts) : Bool :=
  (bucketSums (List.replicate params.nArchive 0) blocks).all fun sum => params.archiveTarget ≤ sum

def inBucket (bucket : Nat) (block : HeightCounts) : Nat := (block.archive[bucket]?.map UInt32.toNat).getD 0

theorem length_addCounts (sums : List Nat) (counts : List UInt32) : (addCounts sums counts).length = sums.length := by
  fun_induction addCounts sums counts with
  | case1 sum sums count counts ih => rw [length_cons, length_cons, ih]
  | case2 => rfl

variable {sums : List Nat} {bucket sum : Nat}

theorem getElem?_addCounts {counts : List UInt32} (hget : sums[bucket]? = some sum) (hsum : sum < 2 ^ 64) :
    (addCounts sums counts)[bucket]? = some ((sum + (counts[bucket]?.map UInt32.toNat).getD 0) % 2 ^ 64) := by
  fun_induction addCounts sums counts generalizing bucket with
  | case1 first sums count counts ih =>
    cases bucket with
    | zero =>
      obtain rfl := Option.some_inj.mp hget
      rfl
    | succ bucket => exact ih hget
  | case2 sums counts hshort =>
    have hnone : counts[bucket]? = none := by
      cases sums with
      | nil => cases hget
      | cons first sums =>
        cases counts with
        | nil => rfl
        | cons count counts => exact absurd rfl (hshort first sums count counts rfl)
    rw [hget, hnone, Option.map_none, Option.getD_none, Nat.add_zero, Nat.mod_eq_of_lt hsum]

theorem length_bucketSums (sums : List Nat) (blocks : List HeightCounts) :
    (bucketSums sums blocks).length = sums.length := by
  induction blocks generalizing sums with
  | nil => rfl
  | cons block blocks ih => rw [bucketSums, foldl_cons, ← bucketSums, ih, length_addCounts]

variable {blocks : List HeightCounts}

theorem getElem?_bucketSums (hget : sums[bucket]? = some sum) (hsum : sum < 2 ^ 64) :
    (bucketSums sums blocks)[bucket]? = some ((sum + (blocks.map (inBucket bucket)).sum) % 2 ^ 64) := by
  induction blocks generalizing sums sum with
  | nil =>
    rw [map_nil, sum_nil, Nat.add_zero, Nat.mod_eq_of_lt hsum]
    exact hget
  | cons block blocks ih =>
    have hstep : (addCounts sums block.archive)[bucket]? = some ((sum + inBucket bucket block) % 2 ^ 64) :=
      getElem?_addCounts hget hsum
    rw [bucketSums, foldl_cons, ← bucketSums, ih hstep (Nat.mod_lt _ (by decide)), map_cons, sum_cons,
      Nat.mod_add_mod, Nat.add_assoc]

theorem reached_iff (hsums : ∀ bucket < params.nArchive, (blocks.map (inBucket bucket)).sum < 2 ^ 64) :
    reached params blocks = true ↔
      ∀ bucket < params.nArchive, params.archiveTarget ≤ (blocks.map (inBucket bucket)).sum := by
  have hget : ∀ bucket < params.nArchive, (bucketSums (List.replicate params.nArchive 0) blocks)[bucket]? =
      some (blocks.map (inBucket bucket)).sum := by
    intro bucket hbucket
    have hzero : (List.replicate params.nArchive 0)[bucket]? = some 0 := by
      rw [getElem?_replicate, if_pos hbucket]
    rw [getElem?_bucketSums hzero (by decide), Nat.zero_add, Nat.mod_eq_of_lt (hsums bucket hbucket)]
  rw [reached, all_eq_true]
  constructor
  · intro h bucket hbucket
    exact of_decide_eq_true (h _ (List.mem_of_getElem? (hget bucket hbucket)))
  · intro h sum hsum
    obtain ⟨bucket, hbucket⟩ := mem_iff_getElem?.mp hsum
    have hlt := (List.getElem?_eq_some_iff.mp hbucket).1
    rw [length_bucketSums, length_replicate] at hlt
    obtain rfl := Option.some_inj.mp ((hget bucket hlt).symm.trans hbucket)
    exact decide_eq_true (h bucket hlt)

/-! ## The boundary -/

variable {height : Nat}

theorem boundaryLoop_eq_some {i : Nat} :
    boundaryLoop params start i sums blocks = some height ↔
      ∃ j < blocks.length, height = (start + (i + j)) % 2 ^ 64 ∧
        ((bucketSums sums (blocks.take (j + 1))).all fun sum => params.archiveTarget ≤ sum) = true ∧
        ∀ k < j, ¬ ((bucketSums sums (blocks.take (k + 1))).all fun sum => params.archiveTarget ≤ sum) = true := by
  induction blocks generalizing i sums with
  | nil => exact ⟨fun h => (nomatch h), fun ⟨j, hj, _⟩ => absurd hj (Nat.not_lt_zero j)⟩
  | cons block blocks ih =>
    rw [boundaryLoop]
    by_cases hmet : ((addCounts sums block.archive).all fun sum => params.archiveTarget ≤ sum) = true
    · rw [if_pos hmet]
      constructor
      · rintro h
        exact ⟨0, Nat.succ_pos _, (Option.some_inj.mp h).symm, hmet, fun k hk => absurd hk (Nat.not_lt_zero k)⟩
      · rintro ⟨j, -, rfl, -, hleast⟩
        cases j with
        | zero => rfl
        | succ j => exact absurd hmet (hleast 0 (Nat.succ_pos j))
    · rw [if_neg hmet, ih]
      constructor
      · rintro ⟨j, hj, rfl, hj', hleast⟩
        refine ⟨j + 1, Nat.succ_lt_succ hj, by rw [Nat.add_assoc i 1 j, Nat.add_comm 1 j], hj', fun k hk => ?_⟩
        cases k with
        | zero => exact hmet
        | succ k => exact hleast k (Nat.lt_of_succ_lt_succ hk)
      · rintro ⟨j, hj, rfl, hj', hleast⟩
        cases j with
        | zero => exact absurd hj' hmet
        | succ j =>
          refine ⟨j, Nat.lt_of_succ_lt_succ hj, by rw [Nat.add_assoc i 1 j, Nat.add_comm 1 j], hj', fun k hk => ?_⟩
          exact hleast (k + 1) (Nat.succ_lt_succ hk)

def span (counts : List HeightCounts) (first last : Nat) : List HeightCounts :=
  (counts.drop first).take (last + 1 - first)

def nextSeal (params : DisplaySealParams) (counts : List HeightCounts) (first : Nat) : Option Nat :=
  (List.range counts.length).find? fun last => first ≤ last ∧ reached params (span counts first last)

variable {first : Nat}

theorem nextSeal_eq_some {last : Nat} :
    nextSeal params counts first = some last ↔
      first ≤ last ∧ last < counts.length ∧ reached params (span counts first last) = true ∧
        ∀ k, first ≤ k → k < last → ¬ reached params (span counts first k) = true := by
  rw [nextSeal, find?_range_eq_some, decide_eq_true_eq, mem_range]
  constructor
  · rintro ⟨⟨hle, hmet⟩, hlt, hleast⟩
    refine ⟨hle, hlt, hmet, fun k hk hkl hkmet => ?_⟩
    have := hleast k hkl
    rw [Bool.not_eq_true', decide_eq_false_iff_not] at this
    exact this ⟨hk, hkmet⟩
  · rintro ⟨hle, hlt, hmet, hleast⟩
    refine ⟨⟨hle, hmet⟩, hlt, fun k hkl => ?_⟩
    rw [Bool.not_eq_true', decide_eq_false_iff_not]
    exact fun ⟨hk, hkmet⟩ => hleast k hk hkl hkmet

theorem exists_nextSeal {last : Nat} (hle : first ≤ last) (hlt : last < counts.length)
    (hmet : reached params (span counts first last) = true) :
    ∃ k, nextSeal params counts first = some k ∧ k ≤ last := by
  cases hnext : nextSeal params counts first with
  | none =>
    have hno := List.find?_eq_none.mp hnext last (mem_range.mpr hlt)
    exact absurd (decide_eq_true ⟨hle, hmet⟩) hno
  | some k =>
    refine ⟨k, rfl, Nat.le_of_not_lt fun hk => ?_⟩
    exact (nextSeal_eq_some.mp hnext).2.2.2 last hle hk hmet

theorem nextSeal_forward : Forward (nextSeal params counts) := fun _ _ h => (nextSeal_eq_some.mp h).1

variable {tip : Nat}

theorem archiveBoundary_eq_some (htip : tip ≤ counts.length) (hfit : start + tip ≤ 2 ^ 64) :
    archiveBoundary params (start + first) ((counts.take tip).drop first) = some height ↔
      ∃ last, nextSeal params counts first = some last ∧ last < tip ∧ height = start + last := by
  have hspan : ∀ j, first + j < tip → ((counts.take tip).drop first).take (j + 1) = span counts first (first + j) := by
    intro j hj
    rw [span, drop_take, take_take, Nat.min_eq_left (by omega), show first + j + 1 - first = j + 1 by omega]
  rw [archiveBoundary, boundaryLoop_eq_some, length_drop, length_take, Nat.min_eq_left htip]
  constructor
  · rintro ⟨j, hj, rfl, hmet, hleast⟩
    refine ⟨first + j, nextSeal_eq_some.mpr ⟨Nat.le_add_right _ _, by omega, ?_, fun k hk hkj => ?_⟩, by omega, ?_⟩
    · rw [hspan j (by omega)] at hmet
      exact hmet
    · have := hleast (k - first) (by omega)
      rw [hspan (k - first) (by omega), Nat.add_sub_cancel' hk] at this
      exact this
    · rw [Nat.zero_add, Nat.mod_eq_of_lt (by omega), Nat.add_assoc]
  · rintro ⟨last, hnext, hlt, rfl⟩
    obtain ⟨hle, -, hmet, hleast⟩ := nextSeal_eq_some.mp hnext
    refine ⟨last - first, by omega, ?_, ?_, fun k hk => ?_⟩
    · rw [Nat.zero_add, Nat.add_assoc, Nat.add_sub_cancel' hle, Nat.mod_eq_of_lt (by omega)]
    · rw [hspan (last - first) (by omega), Nat.add_sub_cancel' hle]
      exact hmet
    · rw [hspan k (by omega)]
      exact hleast (first + k) (Nat.le_add_right _ _) (by omega)

/-! ## Planning -/

def atHeights (start : Nat) (piece : Nat × Nat) : Nat × Nat := (start + piece.1, start + piece.2)

variable {base fuel : Nat}

theorem planLoop_eq (hbase : base < tip) (htip : tip ≤ counts.length) (hfit : start + tip + params.reorgMargin ≤ 2 ^ 64) :
    planLoop params (start + base) (start + tip - 1) ((counts.take tip).drop base) fuel first =
      (pieces (nextSeal params counts) (tip - params.reorgMargin) fuel (base + first)).map (atHeights start) := by
  induction fuel generalizing first with
  | zero => rfl
  | succ fuel ih =>
    have hlength : ((counts.take tip).drop base).length = tip - base := by
      rw [length_drop, length_take, Nat.min_eq_left htip]
    rw [planLoop, hlength]
    by_cases hfirst : first < tip - base
    · rw [if_pos hfirst, drop_drop]
      dsimp only
      have hwrap : (start + base + first) % 2 ^ 64 = start + (base + first) := by
        rw [Nat.mod_eq_of_lt (by omega), Nat.add_assoc]
      rw [hwrap]
      have hboundary (height : Nat) :
          archiveBoundary params (start + (base + first)) ((counts.take tip).drop (base + first)) = some height ↔ _ :=
        archiveBoundary_eq_some htip (by omega)
      cases hfound : archiveBoundary params (start + (base + first)) ((counts.take tip).drop (base + first)) with
      | none =>
        -- The next archive, if there is one, ends at the tip or above.
        cases hnext : nextSeal params counts (base + first) with
        | none => rw [pieces_none hnext, map_nil]
        | some last =>
          have hlast : ¬ last < tip := fun hlt =>
            absurd ((hboundary (start + last)).mpr ⟨last, hnext, hlt, rfl⟩) (by rw [hfound]; simp)
          rw [pieces_stop hnext (by omega), map_nil]
      | some height =>
        obtain ⟨last, hnext, hlt, rfl⟩ := (hboundary height).mp hfound
        dsimp only
        rw [Nat.mod_eq_of_lt (show start + last + params.reorgMargin < 2 ^ 64 by omega)]
        by_cases hmargin : last < tip - params.reorgMargin
        · have hforward := nextSeal_forward _ _ hnext
          rw [if_neg (by omega), pieces_cut hnext hmargin, map_cons, ih,
            show base + (start + last - (start + base) + 1) = last + 1 by omega]
          rfl
        · rw [if_pos (by omega), pieces_stop hnext hmargin, map_nil]
    · rw [if_neg hfirst]
      cases hnext : nextSeal params counts (base + first) with
      | none => rw [pieces_none hnext, map_nil]
      | some last =>
        have hforward := nextSeal_forward _ _ hnext
        rw [pieces_stop hnext (by omega), map_nil]

theorem planSeals_eq (hbase : base ≤ tip) (htip : tip ≤ counts.length) (hfuel : tip ≤ fuel)
    (hfit : start + tip + params.reorgMargin ≤ 2 ^ 64) :
    planSeals params (start + base) ((counts.take tip).drop base) =
      (pieces (nextSeal params counts) (tip - params.reorgMargin) fuel base).map (atHeights start) := by
  have hlength : ((counts.take tip).drop base).length = tip - base := by
    rw [length_drop, length_take, Nat.min_eq_left htip]
  rw [planSeals, hlength]
  obtain rfl | hlt := Nat.eq_or_lt_of_le hbase
  · rw [Nat.sub_self]
    cases hnext : nextSeal params counts base with
    | none => rw [pieces_none hnext, map_nil]
    | some last =>
      have hforward := nextSeal_forward _ _ hnext
      rw [pieces_stop hnext (by omega), map_nil]
  · obtain ⟨last, hlast⟩ := Nat.exists_eq_succ_of_ne_zero (show tip - base ≠ 0 by omega)
    rw [hlast]
    dsimp only
    rw [show (start + base + last) % 2 ^ 64 = start + tip - 1 by
      rw [Nat.mod_eq_of_lt (by omega)]
      omega]
    rw [planLoop_eq hlt htip hfit, Nat.add_zero]
    refine congrArg (List.map (atHeights start)) (pieces_fuel nextSeal_forward ?_ ?_)
    · omega
    · omega

theorem unsealedAfter_eq (start unsealed : Nat) (cut : List (Nat × Nat)) :
    unsealedAfter start unsealed (cut.map (atHeights start)) = behind unsealed cut := by
  rw [unsealedAfter, behind, getLast?_map, Option.map_map]
  refine congrArg (fun f : Nat × Nat → Nat => (cut.getLast?.map f).getD unsealed) (funext fun piece => ?_)
  change start + piece.2 - start + 1 = piece.2 + 1
  omega

theorem behind_pieces_le {limit : Nat} :
    behind first (pieces (nextSeal params counts) limit fuel first) ≤ max first limit := by
  rw [behind]
  cases hlast : (pieces (nextSeal params counts) limit fuel first).getLast? with
  | none => exact Nat.le_max_left _ _
  | some piece =>
    have := (pieces_mem (mem_of_getLast? hlast)).2
    exact Nat.le_trans this (Nat.le_max_right _ _)

/-- By induction on the tips: each plan goes on where the seals before it ended. -/
theorem planTips_eq {tips : List Nat} {unsealed : Nat} (hsorted : tips.Pairwise (· ≤ ·))
    (hbound : ∀ tip ∈ tips, tip ≤ counts.length) (hfuel : counts.length ≤ fuel)
    (hfit : start + counts.length + params.reorgMargin ≤ 2 ^ 64) (hunsealed : ∀ tip ∈ tips, unsealed ≤ tip)
    (hlast : tips.getLast? = some tip) :
    planTips params start counts tips unsealed =
      (pieces (nextSeal params counts) (tip - params.reorgMargin) fuel unsealed).map (atHeights start) := by
  induction tips generalizing unsealed with
  | nil => cases hlast
  | cons first tips ih =>
    have hfirst := hbound first mem_cons_self
    obtain ⟨hle, hsorted⟩ := pairwise_cons.mp hsorted
    have hplan : planSeals params (start + unsealed) ((counts.take first).drop unsealed) = _ :=
      planSeals_eq (hunsealed first mem_cons_self) hfirst (Nat.le_trans hfirst hfuel) (by omega)
    rw [planTips, hplan, unsealedAfter_eq]
    cases tips with
    | nil =>
      have heq : first = tip := Option.some_inj.mp hlast
      rw [planTips, append_nil, heq]
    | cons second tips =>
      rw [getLast?_cons_cons] at hlast
      have htip : tip ∈ second :: tips := mem_of_getLast? hlast
      have hfirstTip := hle tip htip
      have hbehind : behind unsealed (pieces (nextSeal params counts) (first - params.reorgMargin) fuel unsealed) ≤
          first := by
        have := hunsealed first mem_cons_self
        exact Nat.le_trans behind_pieces_le (by omega)
      rw [ih hsorted (fun t ht => hbound t (mem_cons_of_mem first ht))
        (fun t ht => Nat.le_trans hbehind (hle t ht)) hlast, ← map_append]
      refine congrArg (List.map (atHeights start)) (pieces_append nextSeal_forward (by omega) ?_).symm
      have := hbound tip (mem_cons_of_mem first htip)
      omega

end Zakura.Display
