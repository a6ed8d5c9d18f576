import Zakura.Recovery.Lemmas.Chain

/-! # Reading a history in steps -/

namespace Zakura.Recovery

open List

/-- Accepted steps skip no history. After any number of them, every required shard up to a reported height was excluded
by its filter from its beginning or had all of its segments finished in order; a step without a cursor means that the
last shard is covered, or that the request starts past it; and the report is determined by the visited shards, their
marks and the last record. -/
theorem chain_covered {inv : Listing} {fromHeight : Nat} {steps : List LookupStep} (h : Chain inv fromHeight steps) :
    (∀ done, done <+: steps →
      (∀ s ∈ done, ∀ height, s.page.checkedThrough = some height → ∀ i listed, inv.shards[i]? = some listed →
        fromHeight ≤ listed.endHeight → listed.endHeight ≤ height → Covered done i listed.segments) ∧
      ∀ s, done.getLast? = some s → s.page.next = none →
        inv.lastShard.endHeight < fromHeight ∨ Covered done (inv.shards.length - 1) inv.lastShard.segments) ∧
    ∀ s ∈ steps, ∀ page, inv.Describes page → page.validStep s.work = true → page.shards = s.page.shards →
      page.records.getLast?.map (·.record) = s.page.records.getLast?.map (·.record) →
      page.checkedThrough = s.page.checkedThrough ∧ page.next = s.page.next := by
  refine ⟨fun done hdone => ⟨fun s hs height hheight => ?_, fun s hlast hnext => ?_⟩, ?_⟩
  · exact (h.of_prefix hdone).coveredThrough hs hheight
  · have hchain := h.of_prefix hdone
    refine (Nat.lt_or_ge inv.lastShard.endHeight fromHeight).imp_right fun hfrom => ?_
    have hpos := length_pos_iff.mpr inv.nonempty
    exact ((hchain.covered.1 s hlast).complete hnext).before _ _ (by omega) inv.getElem?_last hfrom
  · intro s hs page hpage hvalid hshards hrecord
    exact report_unique hpage (h.describes s hs) hvalid (h.valid s hs) hshards hrecord

/-! ## Two shards -/

/-- An inventory of two shards, with blocks zero to five and six to nine. -/
def twoShards : Listing where
  id := default
  shards := [⟨0, 5, 1⟩, ⟨6, 9, 2⟩]
  nonempty := cons_ne_nil _ _
  ordered := by decide
  contiguous := by decide

def requestFrom (fromHeight : Nat) (cursor : Option LookupCursor) : LookupWork where
  token := ⟨0, 0⟩
  work := ⟨⟨.receive, 0⟩, default⟩
  fromHeight := fromHeight
  through := 9
  birthday := 0
  cursor := cursor

/-- A page of the inventory that found no record in a segment of one of its shards. -/
def missPage (shard : StepShard) (segment : Nat) (checkedThrough : Option Nat) (next : Option LookupCursor) :
    LookupPage where
  publication := ⟨default, 0, 0, ⟨9, default, 0⟩⟩
  inventoryShards := 2
  shards := [shard]
  segment := some ⟨shard.index, segment, default, default, ⟨9, default, 0⟩⟩
  records := []
  checkedThrough := checkedThrough
  next := next

/-- A history from height three, read in three steps. The first completes a shard, so the others start behind it. -/
def missSteps : List LookupStep :=
  [⟨requestFrom 3 none, missPage ⟨0, 0, 5, 1, false⟩ 0 (some 5) (some ⟨default, 1, 0, none⟩)⟩,
    ⟨requestFrom 6 (some ⟨default, 1, 0, none⟩), missPage ⟨1, 6, 9, 2, false⟩ 0 none (some ⟨default, 1, 1, none⟩)⟩,
    ⟨requestFrom 6 (some ⟨default, 1, 1, none⟩), missPage ⟨1, 6, 9, 2, false⟩ 1 (some 9) none⟩]

theorem chain_covered_missSteps : Covered missSteps 0 1 ∧ Covered missSteps 1 2 := by
  have hdescribes : ∀ s ∈ missSteps, twoShards.Describes s.page := by
    intro s hs
    simp only [missSteps, mem_cons, not_mem_nil, or_false] at hs
    rcases hs with rfl | rfl | rfl <;> exact ⟨rfl, rfl, rfl, by decide⟩
  have hrequest : ∀ done s rest, missSteps = done ++ s :: rest →
      s.work.fromHeight = firstUnchecked 3 (checkedBy done) := by
    intro done s rest hsplit
    obtain _ | ⟨a, _ | ⟨b, _ | ⟨c, done⟩⟩⟩ := done
    · cases hsplit
      rfl
    · cases hsplit
      rfl
    · cases hsplit
      rfl
    · simp [missSteps] at hsplit
  have hcarries : missSteps.IsChain fun a b => b.work.cursor = a.page.next := by decide
  have hchain : Chain twoShards 3 missSteps := by
    refine ⟨hdescribes, by decide, hrequest, fun s hs c hc => ?_, hcarries⟩
    obtain rfl := Option.some.inj hs
    cases hc
  have hlast : ∀ i listed, twoShards.shards[i]? = some listed → 3 ≤ listed.endHeight → listed.endHeight ≤ 9 →
      Covered missSteps i listed.segments :=
    ((chain_covered hchain).1 missSteps (prefix_refl _)).1 _ (mem_cons_of_mem _ (mem_cons_of_mem _ mem_cons_self)) 9 rfl
  exact ⟨hlast 0 ⟨0, 5, 1⟩ rfl (by decide) (by decide), hlast 1 ⟨6, 9, 2⟩ rfl (by decide) (by decide)⟩

/-- A page of a request past the inventory's end. -/
def emptyPage : LookupPage where
  publication := ⟨default, 0, 0, ⟨9, default, 0⟩⟩
  inventoryShards := 2
  shards := []
  segment := none
  records := []
  checkedThrough := none
  next := none

/-- A request past the inventory's end needs no shard: its step has no cursor and covers none. -/
theorem chain_past_end : Chain twoShards 10 [⟨requestFrom 10 none, emptyPage⟩] ∧ emptyPage.next = none ∧
    ¬ Covered [⟨requestFrom 10 none, emptyPage⟩] 1 2 := by
  refine ⟨⟨?_, by decide, ?_, ?_, isChain_singleton _⟩, rfl, ?_⟩
  · intro s hs
    obtain rfl := mem_singleton.mp hs
    exact ⟨rfl, rfl, rfl, by decide⟩
  · intro done s rest hsplit
    obtain _ | ⟨a, done⟩ := done
    · cases hsplit
      rfl
    · simp at hsplit
  · intro s hs c hc
    obtain rfl := Option.some.inj hs
    cases hc
  · intro hcovered
    rcases hcovered with ⟨s, hs, ⟨shard, hshard, _⟩, _⟩ | hsub
    · obtain rfl := mem_singleton.mp hs
      cases hshard
    · have hlength := hsub.length_le
      contradiction

end Zakura.Recovery
