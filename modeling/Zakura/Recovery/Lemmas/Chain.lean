import Mathlib.Data.List.Chain
import Zakura.Recovery.Lemmas.Step

/-! # Chains of accepted steps

Each step of a request carries the cursor the step before it returned. What a cursor stands for: every required
shard before its own is covered, and so are the segments before its own. -/

namespace Zakura.Recovery

open List

open Receiver (Hash RawRecord)

/-! ## Inventories -/

structure ListedShard where
  startHeight : Nat
  endHeight : Nat
  segments : Nat
deriving DecidableEq

/-- The contiguous shards of an inventory. -/
structure Listing where
  id : Hash
  shards : List ListedShard
  nonempty : shards ≠ []
  ordered : ∀ s ∈ shards, s.startHeight ≤ s.endHeight
  contiguous : shards.IsChain fun a b => a.endHeight + 1 = b.startHeight

namespace Listing

def lastShard (inv : Listing) : ListedShard := inv.shards.getLast inv.nonempty

theorem getElem?_last (inv : Listing) : inv.shards[inv.shards.length - 1]? = some inv.lastShard := by
  rw [← getLast?_eq_getElem?]
  exact getLast?_eq_getLast_of_ne_nil inv.nonempty

variable {i j : Nat} {a b : ListedShard}

theorem end_lt_start (inv : Listing) (hij : i < j) (ha : inv.shards[i]? = some a) (hb : inv.shards[j]? = some b) :
    a.endHeight < b.startHeight := by
  induction j generalizing b with
  | zero => omega
  | succ j ih =>
    obtain ⟨hlt, hget⟩ := List.getElem?_eq_some_iff.mp hb
    have hnext := isChain_iff_getElem.mp inv.contiguous j hlt
    rw [hget] at hnext
    have hj : inv.shards[j]? = some inv.shards[j] := getElem?_eq_getElem (by omega)
    rcases Nat.lt_succ_iff_lt_or_eq.mp hij with hlt | rfl
    · have hstep := ih hlt hj
      have horder := inv.ordered _ (List.mem_of_getElem? hj)
      omega
    · obtain rfl := Option.some.inj (ha.symm.trans hj)
      omega

theorem end_lt_end (inv : Listing) (hij : i < j) (ha : inv.shards[i]? = some a) (hb : inv.shards[j]? = some b) :
    a.endHeight < b.endHeight :=
  Nat.lt_of_lt_of_le (inv.end_lt_start hij ha hb) (inv.ordered _ (List.mem_of_getElem? hb))

/-- The page is of this inventory, and describes every shard it visited as the inventory lists it. -/
structure Describes (inv : Listing) (page : LookupPage) : Prop where
  id : page.publication.id = inv.id
  ending : page.publication.ending.height = inv.lastShard.endHeight
  count : page.inventoryShards = inv.shards.length
  shards : ∀ s ∈ page.shards, inv.shards[s.index]? = some ⟨s.startHeight, s.endHeight, s.segments⟩

end Listing

/-! ## Steps and what they cover -/

structure LookupStep where
  work : LookupWork
  page : LookupPage

namespace LookupStep

def lastRecord (s : LookupStep) (shard : Nat) : Option RawRecord :=
  (s.page.records.getLast?.map (·.record)).or ((s.page.resumes s.work shard).bind (·.last))

/-- The segment the step read to its end: to a last page, or without finding a record. -/
def finished (s : LookupStep) : Option (Nat × Nat) :=
  s.page.segment.bind fun ref =>
    if (s.lastRecord ref.shard).all fun r => r.page + 1 = r.total then some (ref.shard, ref.segment) else none

/-- The step covered a shard by its filter, from the shard's beginning. -/
def Excludes (s : LookupStep) (i : Nat) : Prop :=
  (∃ shard ∈ s.page.shards, shard.index = i ∧ shard.excluded = true) ∧
    ∀ c, s.page.resumes s.work i = some c → c.segment = 0 ∧ c.last = none

end LookupStep

def finishedBy (steps : List LookupStep) : List (Nat × Nat) := steps.filterMap LookupStep.finished

def segmentsOf (shard count : Nat) : List (Nat × Nat) := (List.range count).map (shard, ·)

/-- A shard was excluded by its filter from its beginning, or had all of its segments finished in order. -/
def Covered (steps : List LookupStep) (i segments : Nat) : Prop :=
  (∃ s ∈ steps, s.Excludes i) ∨ (segmentsOf i segments).Sublist (finishedBy steps)

/-! ## Chains -/

/-- The height that `record_lookup` saves as checked after a step, by the one saved before. -/
def LookupStep.saves (checked : Option Nat) (s : LookupStep) : Option Nat :=
  if s.page.next.isNone then some s.page.publication.ending.height else s.page.checkedThrough.or checked

def checkedBy (steps : List LookupStep) : Option Nat := steps.foldl LookupStep.saves none

/-- `progress_of`: the first unchecked height of a request. -/
def firstUnchecked (start : Nat) (checked : Option Nat) : Nat :=
  (checked.map fun height => max start (min (height + 1) (2 ^ 32 - 1))).getD start

/-- A fresh request from a height, then steps that each carry the cursor of the one before and start at what is then
the first unchecked height. -/
structure Chain (inv : Listing) (fromHeight : Nat) (steps : List LookupStep) : Prop where
  describes : ∀ s ∈ steps, inv.Describes s.page
  valid : ∀ s ∈ steps, s.page.validStep s.work = true
  request : ∀ done s rest, steps = done ++ s :: rest → s.work.fromHeight = firstUnchecked fromHeight (checkedBy done)
  fresh : ∀ s, steps.head? = some s → ∀ c, s.work.cursor = some c → c.inventory ≠ inv.id
  carries : steps.IsChain fun a b => b.work.cursor = a.page.next

theorem Chain.of_prefix {inv : Listing} {fromHeight : Nat} {steps done : List LookupStep} (h : Chain inv fromHeight steps)
    (hdone : done <+: steps) : Chain inv fromHeight done := by
  obtain ⟨rest, rfl⟩ := hdone
  refine ⟨fun s hs => h.describes s (mem_append_left _ hs), fun s hs => h.valid s (mem_append_left _ hs),
    fun front s back hsplit => h.request front s (back ++ rest) ?_, fun s hs => ?_, (isChain_append.mp h.carries).1⟩
  · rw [hsplit, append_assoc, cons_append]
  · cases done with
    | nil => cases hs
    | cons a done => exact h.fresh s hs

variable {i : Nat}

theorem covered_append {steps : List LookupStep} {segments : Nat} (h : Covered steps i segments) (s : LookupStep) :
    Covered (steps ++ [s]) i segments := by
  rcases h with ⟨t, ht, hexcludes⟩ | hsub
  · exact Or.inl ⟨t, mem_append_left _ ht, hexcludes⟩
  · refine Or.inr (hsub.trans ?_)
    rw [finishedBy, finishedBy, filterMap_append]
    exact sublist_append_left ..

/-! ## Positions -/

structure Position (inv : Listing) (fromHeight : Nat) (steps : List LookupStep) (shard segment : Nat) : Prop where
  before : ∀ i listed, i < shard → inv.shards[i]? = some listed → fromHeight ≤ listed.endHeight →
    Covered steps i listed.segments
  segments : (segmentsOf shard segment).Sublist (finishedBy steps)

variable {inv : Listing} {fromHeight : Nat} {steps : List LookupStep} {s : LookupStep} {lastShard : StepShard}
  {first : Nat}

def CoveredThrough (inv : Listing) (fromHeight : Nat) (steps : List LookupStep) (height : Nat) : Prop :=
  ∀ i listed, inv.shards[i]? = some listed → fromHeight ≤ listed.endHeight → listed.endHeight ≤ height →
    Covered steps i listed.segments

variable {height : Nat}

theorem coveredThrough_append (h : CoveredThrough inv fromHeight steps height) (s : LookupStep) :
    CoveredThrough inv fromHeight (steps ++ [s]) height :=
  fun i listed hi hfrom hle => covered_append (h i listed hi hfrom hle) s

/-- Every required shard that ends below a height is covered. -/
def CoveredBelow (inv : Listing) (fromHeight : Nat) (steps : List LookupStep) (height : Nat) : Prop :=
  ∀ i listed, inv.shards[i]? = some listed → fromHeight ≤ listed.endHeight → listed.endHeight < height →
    Covered steps i listed.segments

theorem coveredBelow_firstUnchecked {checked : Option Nat}
    (h : ∀ height, checked = some height → CoveredThrough inv fromHeight steps height) :
    CoveredBelow inv fromHeight steps (firstUnchecked fromHeight checked) := by
  intro i listed hi hfrom hlt
  cases checked with
  | none => exact absurd hlt (Nat.not_lt.mpr hfrom)
  | some height =>
    refine h height rfl i listed hi hfrom ?_
    have hlt' : listed.endHeight < max fromHeight (min (height + 1) (2 ^ 32 - 1)) := hlt
    omega

variable {shard segment : Nat} {listed : ListedShard}

theorem Position.coveredThrough (h : Position inv fromHeight steps shard segment) (hi : i < shard)
    (hlisted : inv.shards[i]? = some listed) :
    CoveredThrough inv fromHeight steps listed.endHeight := by
  intro j other hj hfrom hle
  refine h.before j other (Nat.lt_of_not_le fun hge => ?_) hj hfrom
  have hlt := inv.end_lt_end (Nat.lt_of_lt_of_le hi hge) hlisted hj
  omega

theorem Position.next_segment (h : Position inv fromHeight (steps ++ [s]) shard segment)
    (hsegments : (segmentsOf shard segment).Sublist (finishedBy steps)) (hfinished : s.finished = some (shard, segment)) :
    Position inv fromHeight (steps ++ [s]) shard (segment + 1) := by
  refine ⟨h.before, ?_⟩
  have hlast : finishedBy (steps ++ [s]) = finishedBy steps ++ [(shard, segment)] := by
    rw [finishedBy, filterMap_append, ← finishedBy, filterMap_cons, hfinished, filterMap_nil]
  rw [hlast, segmentsOf, range_succ, map_append]
  exact hsegments.append (List.Sublist.refl _)

theorem Position.append (h : Position inv fromHeight steps shard segment) (s : LookupStep) :
    Position inv fromHeight (steps ++ [s]) shard segment := by
  refine ⟨fun i listed hi hlisted hfrom => covered_append (h.before i listed hi hlisted hfrom) s, h.segments.trans ?_⟩
  rw [finishedBy, finishedBy, filterMap_append]
  exact sublist_append_left ..

theorem Position.next_shard (h : Position inv fromHeight steps shard segment) (hlisted : inv.shards[shard]? = some listed)
    (hcovered : Covered steps shard listed.segments) :
    Position inv fromHeight steps (shard + 1) 0 := by
  refine ⟨fun i other hi hother hfrom => ?_, nil_sublist _⟩
  rcases Nat.lt_succ_iff_lt_or_eq.mp hi with hlt | rfl
  · exact h.before i other hlt hother hfrom
  · obtain rfl := Option.some.inj (hlisted.symm.trans hother)
    exact hcovered

/-! ## One step -/

section

variable (h : Accepted s.page s.work lastShard first) (hdescribes : inv.Describes s.page)

include h in
theorem Accepted.covered {shard : StepShard} (hshard : shard ∈ s.page.shards) (hexcluded : shard.excluded = true)
    (steps : List LookupStep) (segments : Nat) :
    Covered (steps ++ [s]) shard.index segments :=
  Or.inl ⟨s, mem_append_right _ (mem_singleton_self s), ⟨shard, hshard, rfl, hexcluded⟩,
    h.begins shard hshard hexcluded⟩

def LookupStep.startSegment (s : LookupStep) : Nat := ((s.page.cursorOf s.work).map (·.segment)).getD 0

include h in
theorem Accepted.readingAt_fst :
    (s.page.readingAt s.work lastShard.index).1 = if s.page.shards.length - 1 = 0 then s.startSegment else 0 := by
  have hlast := (h.index h.last_getElem?).1
  have hfirst := h.start
  unfold LookupPage.first at hfirst
  rw [LookupPage.readingAt, LookupPage.resumes, LookupStep.startSegment]
  cases hcursor : s.page.cursorOf s.work with
  | none => simp
  | some c =>
    rw [hcursor] at hfirst
    obtain rfl := Option.some.inj hfirst
    by_cases hone : s.page.shards.length - 1 = 0
    · rw [if_pos hone, Option.filter_some, if_pos (by rw [hlast, hone]; simp)]
      rfl
    · rw [if_neg hone, Option.filter_some, if_neg (by rw [hlast]; simpa using hone)]
      rfl

include h hdescribes in
theorem Accepted.position (hstart : Position inv fromHeight steps first s.startSegment) :
    Position inv fromHeight (steps ++ [s]) lastShard.index (s.page.readingAt s.work lastShard.index).1 := by
  have hvisited : ∀ k, k < s.page.shards.length →
      Position inv fromHeight (steps ++ [s]) (first + k) (if k = 0 then s.startSegment else 0) := by
    intro k
    induction k with
    | zero => exact fun _ => hstart.append s
    | succ k ih =>
      intro hk
      obtain ⟨shard, hshard⟩ : ∃ shard, s.page.shards[k]? = some shard := ⟨_, getElem?_eq_getElem (by omega)⟩
      have hmem := List.mem_of_getElem? hshard
      have hindex := (h.index hshard).1
      have hnext := (ih (by omega)).next_shard (hindex ▸ hdescribes.shards shard hmem)
        (hindex ▸ h.covered hmem (h.excluded hshard hk) steps _)
      rwa [if_neg (Nat.succ_ne_zero k), ← Nat.add_assoc]
  have hlast := (h.index h.last_getElem?).1
  have hpos := h.length_pos
  have hreach := hvisited (s.page.shards.length - 1) (by omega)
  rw [← hlast] at hreach
  rw [h.readingAt_fst]
  exact hreach

include h in
theorem Accepted.segments (hstart : Position inv fromHeight steps first s.startSegment) :
    (segmentsOf lastShard.index (s.page.readingAt s.work lastShard.index).1).Sublist (finishedBy steps) := by
  rw [h.readingAt_fst]
  split_ifs with hone
  · have hlast := (h.index h.last_getElem?).1
    rw [hone, Nat.add_zero] at hlast
    rw [hlast]
    exact hstart.segments
  · exact nil_sublist _

/-- What a step's report says of what is covered after it. -/
structure Reports (inv : Listing) (fromHeight : Nat) (steps : List LookupStep) (page : LookupPage) : Prop where
  checked : ∀ height, page.checkedThrough = some height → CoveredThrough inv fromHeight steps height
  continues : ∀ c, page.next = some c → c.inventory = inv.id ∧ Position inv fromHeight steps c.shard c.segment
  complete : page.next = none → Position inv fromHeight steps inv.shards.length 0

theorem reports_completes (hdescribes : inv.Describes s.page) (hlisted : inv.shards[lastShard.index]? =
      some ⟨lastShard.startHeight, lastShard.endHeight, lastShard.segments⟩)
    (hposition : Position inv fromHeight steps (lastShard.index + 1) 0)
    (hreport : (s.page.checkedThrough, s.page.next) = s.page.completes lastShard) :
    Reports inv fromHeight steps s.page := by
  obtain ⟨hchecked, hnext⟩ := Prod.mk.inj hreport
  have hlt := (List.getElem?_eq_some_iff.mp hlisted).1
  refine ⟨fun height hheight => ?_, fun c hc => ?_, fun hnone => ?_⟩
  · obtain rfl := Option.some.inj (hchecked.symm.trans hheight)
    exact hposition.coveredThrough (Nat.lt_succ_self _) hlisted
  · rw [hc] at hnext
    split_ifs at hnext
    obtain rfl := Option.some.inj hnext
    exact ⟨hdescribes.id, hposition⟩
  · rw [hnone, hdescribes.count] at hnext
    split_ifs at hnext with hmore
    have hend : lastShard.index + 1 = inv.shards.length := by omega
    rwa [← hend]

include h hdescribes in
theorem reports_continues (hread : lastShard.excluded = false) {last : Option RawRecord}
    (hposition : Position inv fromHeight steps lastShard.index segment)
    (hchecked : s.page.checkedThrough = s.page.excludedEnd)
    (hnext : s.page.next = some (s.page.continueAt lastShard.index segment last)) :
    Reports inv fromHeight steps s.page := by
  refine ⟨fun height hheight => ?_, fun c hc => ?_, fun hnone => ?_⟩
  · rw [hchecked, LookupPage.excludedEnd, Option.map_eq_some_iff] at hheight
    obtain ⟨shard, hfind, rfl⟩ := hheight
    have hmem := mem_reverse.mp (mem_of_find?_eq_some hfind)
    obtain ⟨k, hk⟩ := mem_iff_getElem?.mp hmem
    have hexcluded := find?_some hfind
    have hlt : k < s.page.shards.length - 1 := by
      refine Nat.lt_of_le_of_ne (by have := (List.getElem?_eq_some_iff.mp hk).1; omega) ?_
      rintro rfl
      obtain rfl := Option.some.inj (hk.symm.trans h.last_getElem?)
      rw [hread] at hexcluded
      cases hexcluded
    have hindex := (h.index hk).1
    have hlast := (h.index h.last_getElem?).1
    exact hposition.coveredThrough (by omega) (hdescribes.shards shard hmem)
  · rw [hc] at hnext
    obtain rfl := Option.some.inj hnext
    exact ⟨hdescribes.id, hposition⟩
  · rw [hnone] at hnext
    cases hnext

theorem readingAt_snd (s : LookupStep) (shard : Nat) :
    (s.page.records.getLast?.map (·.record)).or (s.page.readingAt s.work shard).2 = s.lastRecord shard := by
  rw [LookupStep.lastRecord, LookupPage.readingAt]
  cases s.page.resumes s.work shard <;> rfl

theorem finished_of_last {ref : SegmentRef} (href : s.page.segment = some ref)
    (hlast : ((s.lastRecord ref.shard).all fun r => r.page + 1 = r.total) = true) :
    s.finished = some (ref.shard, ref.segment) := by
  rw [LookupStep.finished, href, Option.bind_some, if_pos hlast]

include h hdescribes in
theorem Accepted.reports_finishes (hread : lastShard.excluded = false) (hlt : segment < lastShard.segments)
    (hposition : Position inv fromHeight (steps ++ [s]) lastShard.index (segment + 1))
    (hreport : s.page.finishes lastShard segment = (s.page.checkedThrough, s.page.next)) :
    Reports inv fromHeight (steps ++ [s]) s.page := by
  have hlisted := hdescribes.shards lastShard (List.mem_of_getElem? h.last_getElem?)
  unfold LookupPage.finishes at hreport
  split_ifs at hreport with hmore
  · obtain ⟨hchecked, hnext⟩ := Prod.mk.inj hreport
    exact reports_continues h hdescribes hread hposition hchecked.symm hnext.symm
  · have hend : segment + 1 = lastShard.segments := by omega
    rw [hend] at hposition
    exact reports_completes hdescribes hlisted (hposition.next_shard hlisted (Or.inr hposition.segments)) hreport.symm

include h hdescribes in
theorem Accepted.reports (hstart : Position inv fromHeight steps first s.startSegment) :
    Reports inv fromHeight (steps ++ [s]) s.page := by
  have hposition := h.position hdescribes hstart
  have hsegments := h.segments hstart
  have hmem := List.mem_of_getElem? h.last_getElem?
  have hlisted := hdescribes.shards lastShard hmem
  have hexpected := h.expected
  unfold LookupPage.expected at hexpected
  cases hread : lastShard.excluded with
  | true =>
    rw [if_pos hread] at hexpected
    split_ifs at hexpected
    exact reports_completes hdescribes hlisted (hposition.next_shard hlisted (h.covered hmem hread steps _))
      (Option.some.inj hexpected).symm
  | false =>
    rw [if_neg (by rw [hread]; exact Bool.false_ne_true)] at hexpected
    have hrecord := readingAt_snd s lastShard.index
    obtain ⟨⟨segment, prior⟩, hreading⟩ : ∃ reading, s.page.readingAt s.work lastShard.index = reading := ⟨_, rfl⟩
    rw [hreading] at hposition hsegments hexpected hrecord
    dsimp only at hposition hsegments hexpected hrecord
    split_ifs at hexpected with hbad
    rw [hrecord] at hexpected
    rw [not_or] at hbad
    obtain ⟨ref, href, hsame⟩ : ∃ ref, s.page.segment = some ref ∧
        (ref.shard, ref.segment) = (lastShard.index, segment) := by
      cases href : s.page.segment with
      | none => simp [href] at hbad
      | some ref => exact ⟨ref, rfl, by simpa [href] using hbad.1⟩
    obtain ⟨hshard, hsegment⟩ := Prod.mk.inj hsame
    have hfinish : ((s.lastRecord lastShard.index).all fun r => r.page + 1 = r.total) = true →
        Position inv fromHeight (steps ++ [s]) lastShard.index (segment + 1) := by
      intro hall
      have hfinished := finished_of_last href (hshard ▸ hall)
      rw [hsame] at hfinished
      exact hposition.next_segment hsegments hfinished
    cases hlast : s.lastRecord lastShard.index with
    | none =>
      rw [hlast] at hexpected hfinish
      exact h.reports_finishes hdescribes hread (by omega) (hfinish rfl) (Option.some.inj hexpected)
    | some record =>
      rw [hlast] at hexpected hfinish
      dsimp only at hexpected
      split_ifs at hexpected with hpage
      · obtain ⟨hchecked, hnext⟩ := Prod.mk.inj (Option.some.inj hexpected)
        exact reports_continues h hdescribes hread hposition hchecked.symm hnext.symm
      · exact h.reports_finishes hdescribes hread (by omega) (hfinish (by simpa using hpage)) (Option.some.inj hexpected)

/-! ## Whole chains -/

include h hdescribes in
theorem Accepted.position_fresh (hfresh : s.page.cursorOf s.work = none)
    (hbelow : CoveredBelow inv fromHeight steps s.work.fromHeight) :
    Position inv fromHeight steps first s.startSegment := by
  have hfirst := h.start
  unfold LookupPage.first at hfirst
  rw [hfresh] at hfirst
  rw [LookupStep.startSegment, hfresh]
  refine ⟨fun i listed hi hlisted hfrom => hbelow i listed hlisted hfrom ?_, nil_sublist _⟩
  cases hshards : s.page.shards with
  | nil =>
    rw [hshards] at hfirst
    cases hfirst
  | cons start rest =>
    rw [hshards] at hfirst
    dsimp only at hfirst
    split_ifs at hfirst with hbad
    obtain rfl := Option.some.inj hfirst
    have hstart := hdescribes.shards start (by rw [hshards]; exact mem_cons_self)
    have hlt := inv.end_lt_start hi hlisted hstart
    dsimp only at hlt
    omega

include h in
theorem Accepted.position_resumes {c : LookupCursor} (hcursor : s.page.cursorOf s.work = some c)
    (hposition : Position inv fromHeight steps c.shard c.segment) :
    Position inv fromHeight steps first s.startSegment := by
  have hfirst := h.start
  unfold LookupPage.first at hfirst
  rw [hcursor] at hfirst
  obtain rfl := Option.some.inj hfirst
  rw [LookupStep.startSegment, hcursor]
  exact hposition

end

theorem Listing.end_le_last (inv : Listing) (hi : inv.shards[i]? = some listed) :
    listed.endHeight ≤ inv.lastShard.endHeight := by
  have hlt := (List.getElem?_eq_some_iff.mp hi).1
  rcases Nat.lt_or_eq_of_le (Nat.le_sub_one_of_lt hlt) with hbefore | rfl
  · exact Nat.le_of_lt (inv.end_lt_end hbefore hi inv.getElem?_last)
  · obtain rfl := Option.some.inj (hi.symm.trans inv.getElem?_last)
    exact Nat.le_refl _

theorem AcceptedEmpty.reports (h : AcceptedEmpty s.page s.work) (hdescribes : inv.Describes s.page)
    (hbelow : CoveredBelow inv fromHeight steps s.work.fromHeight) : Reports inv fromHeight (steps ++ [s]) s.page := by
  refine ⟨fun height hheight => ?_, fun c hc => ?_, fun _ => ⟨fun i listed _ hi hfrom => ?_, nil_sublist _⟩⟩
  · cases h.checkedThrough.symm.trans hheight
  · cases h.next.symm.trans hc
  · have hlast := inv.end_le_last hi
    have hpast := h.past
    rw [hdescribes.ending] at hpast
    exact covered_append (hbelow i listed hi hfrom (Nat.lt_of_le_of_lt hlast hpast)) s

theorem Reports.coveredThrough_saves (h : Reports inv fromHeight (steps ++ [s]) s.page)
    {checked : Option Nat} (hchecked : ∀ height, checked = some height → CoveredThrough inv fromHeight steps height)
    (hheight : s.saves checked = some height) : CoveredThrough inv fromHeight (steps ++ [s]) height := by
  unfold LookupStep.saves at hheight
  split_ifs at hheight with hnext
  · obtain rfl := Option.some.inj hheight
    intro i listed hi hfrom _
    exact (h.complete (Option.isNone_iff_eq_none.mp hnext)).before i listed (List.getElem?_eq_some_iff.mp hi).1 hi hfrom
  · rcases Option.or_eq_some_iff.mp hheight with hreported | ⟨-, hbefore⟩
    · exact h.checked height hreported
    · exact coveredThrough_append (hchecked height hbefore) s

/-- By induction on the steps: the last one reports what is covered, and so does the height saved as checked. -/
theorem Chain.covered (h : Chain inv fromHeight steps) :
    (∀ s, steps.getLast? = some s → Reports inv fromHeight steps s.page) ∧
      ∀ height, checkedBy steps = some height → CoveredThrough inv fromHeight steps height := by
  induction steps using List.reverseRecOn with
  | nil => exact ⟨fun s hs => (by cases hs), fun height hheight => (by cases hheight)⟩
  | append_singleton steps s ih =>
    obtain ⟨hreports, hchecked⟩ := ih (h.of_prefix (prefix_append ..))
    have hmem : s ∈ steps ++ [s] := mem_append_right _ (mem_singleton_self s)
    have hdescribes := h.describes s hmem
    have hbelow : CoveredBelow inv fromHeight steps s.work.fromHeight := by
      rw [h.request steps s [] rfl]
      exact coveredBelow_firstUnchecked hchecked
    have hreport : Reports inv fromHeight (steps ++ [s]) s.page := by
      rcases validStep_iff.mp (h.valid s hmem) with hempty | ⟨lastShard, first, haccepted⟩
      · exact hempty.reports hdescribes hbelow
      · refine haccepted.reports hdescribes ?_
        cases hcursor : s.page.cursorOf s.work with
        | none => exact haccepted.position_fresh hdescribes hcursor hbelow
        | some c =>
          have hwork := (Option.filter_eq_some_iff.mp hcursor).1
          cases hlast : steps.getLast? with
          | none =>
            -- The first request has no cursor of this inventory.
            obtain rfl := getLast?_eq_none_iff.mp hlast
            have hid := (Option.filter_eq_some_iff.mp hcursor).2
            rw [hdescribes.id] at hid
            exact absurd (of_decide_eq_true hid) (h.fresh s rfl c hwork)
          | some t =>
            obtain ⟨front, rfl⟩ := getLast?_eq_some_iff.mp hlast
            have hchain := h.carries
            rw [append_assoc, isChain_append, singleton_append, isChain_pair] at hchain
            have hcarries : s.work.cursor = t.page.next := hchain.2.1
            exact haccepted.position_resumes hcursor ((hreports t hlast).continues c (hcarries ▸ hwork)).2
    refine ⟨fun t ht => ?_, fun height hheight => ?_⟩
    · rw [getLast?_concat] at ht
      cases ht
      exact hreport
    · rw [checkedBy, foldl_append] at hheight
      exact hreport.coveredThrough_saves hchecked hheight

theorem Chain.coveredThrough (h : Chain inv fromHeight steps) (hs : s ∈ steps)
    (hheight : s.page.checkedThrough = some height) : CoveredThrough inv fromHeight steps height := by
  induction steps using List.reverseRecOn with
  | nil => cases hs
  | append_singleton steps t ih =>
    rcases mem_append.mp hs with hs | hs
    · exact coveredThrough_append (ih (h.of_prefix (prefix_append ..)) hs) t
    · obtain rfl := mem_singleton.mp hs
      exact (h.covered.1 s getLast?_concat).checked height hheight

/-! ## What determines a report -/

section

variable {page other : LookupPage} {work : LookupWork} (hpage : inv.Describes page) (hother : inv.Describes other)
  (hshards : page.shards = other.shards)

include hpage hother hshards

theorem finishes_congr (shard : StepShard) (segment : Nat) :
    page.completes shard = other.completes shard ∧ page.finishes shard segment = other.finishes shard segment := by
  have hid := hpage.id.trans hother.id.symm
  have hcount := hpage.count.trans hother.count.symm
  have hcompletes : page.completes shard = other.completes shard := by
    rw [LookupPage.completes, LookupPage.completes, LookupPage.continueAt, LookupPage.continueAt, hid, hcount]
  refine ⟨hcompletes, ?_⟩
  rw [LookupPage.finishes, LookupPage.finishes, hcompletes, LookupPage.excludedEnd, LookupPage.excludedEnd, hshards,
    LookupPage.continueAt, LookupPage.continueAt, hid]

theorem expected_congr (hrecord : page.records.getLast?.map (·.record) = other.records.getLast?.map (·.record))
    {shard : StepShard} {report report' : Option Nat × Option LookupCursor}
    (hreport : page.expected work shard = some report) (hreport' : other.expected work shard = some report') :
    report = report' := by
  have hid := hpage.id.trans hother.id.symm
  have hreading : page.readingAt work shard.index = other.readingAt work shard.index := by
    simp only [LookupPage.readingAt, LookupPage.resumes, LookupPage.cursorOf, hid]
  have hcongr := finishes_congr hpage hother hshards shard (other.readingAt work shard.index).1
  unfold LookupPage.expected at hreport hreport'
  cases hexcluded : shard.excluded with
  | true =>
    rw [if_pos hexcluded] at hreport hreport'
    split_ifs at hreport hreport'
    rw [← Option.some.inj hreport, ← Option.some.inj hreport', hcongr.1]
  | false =>
    rw [if_neg (by rw [hexcluded]; exact Bool.false_ne_true)] at hreport hreport'
    dsimp only at hreport hreport'
    split_ifs at hreport hreport'
    rw [hrecord, hreading] at hreport
    refine Option.some.inj (hreport.symm.trans (Eq.trans ?_ hreport'))
    simp only [hcongr.2, LookupPage.excludedEnd, hshards, LookupPage.continueAt, hid]

end

theorem report_unique {page other : LookupPage} {work : LookupWork} (hpage : inv.Describes page)
    (hother : inv.Describes other) (hvalid : page.validStep work = true) (hvalid' : other.validStep work = true)
    (hshards : page.shards = other.shards)
    (hrecord : page.records.getLast?.map (·.record) = other.records.getLast?.map (·.record)) :
    page.checkedThrough = other.checkedThrough ∧ page.next = other.next := by
  rcases validStep_iff.mp hvalid with h | ⟨lastShard, first, h⟩
  · rcases validStep_iff.mp hvalid' with h' | ⟨lastShard', first', h'⟩
    · exact ⟨h.checkedThrough.trans h'.checkedThrough.symm, h.next.trans h'.next.symm⟩
    · have hlast := h'.last
      rw [← hshards, h.shards] at hlast
      cases hlast
  · rcases validStep_iff.mp hvalid' with h' | ⟨lastShard', first', h'⟩
    · have hlast := h.last
      rw [hshards, h'.shards] at hlast
      cases hlast
    · obtain rfl := Option.some.inj (h.last.symm.trans (hshards ▸ h'.last))
      exact Prod.mk.inj (expected_congr hpage hother hshards hrecord h.expected h'.expected)

end Zakura.Recovery
