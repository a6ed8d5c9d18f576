import Zakura.Receiver.Lemmas.Honest

/-! # Publishing and reading segments -/

namespace Zakura.Receiver

open List

open Directory (ChoiceTable)
open Recovery (LookupWork)

/-- Building a segment from payments of one chain succeeds or fails with its capacity or choice-table errors. A built
segment answers every paid receiver with its payments in position order, and no tag that no paid receiver has. -/
theorem build_readAll (sha256 : Bytes → FixedBytes 32) {p : Projection} {paid : List ReceiverBytes} {coverage : Coverage}
    {tree : Tree} {payments : List Paid} {rows : Nat} (seedBlock : Hash) (seedAttempts : Nat)
    (hreached : Projection.Reached sha256 p paid) (hpaid : ∀ r, r ∈ paid ↔ ∃ x ∈ payments, x.receiver = r)
    (hconsistent : Consistent coverage tree payments) (hcoverage : coverage.validate = .ok ())
    (htree : tree.Serves coverage) (hrows : validateCompanionRows rows = .ok ()) :
    (build sha256 p coverage seedBlock seedAttempts rows tree payments = .error .capacity ∧ OverCapacity rows payments) ∨
    (build sha256 p coverage seedBlock seedAttempts rows tree payments = .error .choice ∧
      ∃ e, choiceOf sha256 p seedBlock seedAttempts (fun _ => false) = .error e) ∨
    ∃ segment, build sha256 p coverage seedBlock seedAttempts rows tree payments = .ok segment ∧
      (∀ q ∈ payments, ∃ records, readAll sha256 segment q.receiver = .ok (some records) ∧
        records.map paidOf = paymentsOf payments q.receiver) ∧
      ∀ r, (∀ q ∈ payments, tag sha256 p.salt q.receiver ≠ tag sha256 p.salt r) →
        readAll sha256 segment r = .ok none := by
  have h := hreached.holds
  by_cases hover : OverCapacity rows payments
  · exact Or.inl ⟨buildWith_capacity hrows hover, hover⟩
  refine Or.inr ?_
  cases hchoice : choiceOf sha256 p seedBlock seedAttempts (fun _ => false) with
  | error e =>
    obtain ⟨_, _, hbuild⟩ := buildWith_eq h hpaid hconsistent hcoverage hrows hover
    refine Or.inl ⟨?_, e, rfl⟩
    rw [build, hbuild, hchoice]
    rfl
  | ok table =>
    obtain ⟨segment, hbuild, hsegment⟩ := buildWith_ok h hpaid hconsistent hcoverage hrows hover htree hchoice
    have hext : Extents p payments (extentsOf p payments) := extents_of_sort h hpaid hconsistent.nodup
    have hlimits := limits hext hconsistent hcoverage hrows hover
    refine Or.inr ⟨segment, hbuild, fun q hq => ?_, fun r hclash => ?_⟩
    · exact readAll_some h hext hlimits hsegment hconsistent ((h.receivers _).mpr ((hpaid _).mpr ⟨q, hq, rfl⟩))
    · rw [readAll, readEntry_none h hext hlimits hsegment hclash]
      rfl

/-- Reading an honest inventory in steps is exact. A fresh request that the inventory can answer ends after finitely many
steps, each accepted, and their records are the receiver's payments in every segment of the shards that reach the start
height, if the segment's last payment to it is at or past the start height and the birthday. -/
theorem lookupRun_exact (sha256 : Bytes → FixedBytes 32) (isReceiver : ReceiverBytes → Bool) {client : Client}
    {payments : List (List (List Paid))} {work : LookupWork} {limit : Nat}
    (hhonest : Honest sha256 client.inventory payments)
    (hclash : NoClash sha256 client.inventory payments work.work.receiver)
    (hfilter : NoFalseNegative client payments work.work.receiver) (hanswerable : Answerable isReceiver client work)
    (hfresh : ∀ c, work.cursor = some c → c.inventory ≠ client.inventory.inventory) (hlimit : 0 < limit) :
    ∃ pages, LookupRun sha256 isReceiver client limit work pages ∧
      (pages.flatMap (·.records)).map paidOfRecord =
        ((client.inventory.shards.zip payments).filter fun x => work.fromHeight ≤ x.1.endHeight).flatMap fun x =>
          x.2.flatMap fun ps => duePaid (max work.fromHeight work.birthday) (paymentsOf ps work.work.receiver) := by
  obtain ⟨records, hserves, hrecords⟩ := hhonest.serves hclash hfilter
  obtain ⟨pages, hrun, hpages⟩ := exists_lookupRun hserves hanswerable hlimit hfresh
  refine ⟨pages, hrun, ?_⟩
  rw [hpages, hhonest.shardsFrom_eq hrecords]
  rfl

/-! ## Three payments to two receivers -/

/-- A hash that repeats the last byte. -/
def lastSha (bytes : Bytes) : FixedBytes 32 := ⟨List.replicate 32 (bytes.getLastD 0), length_replicate ..⟩

def secondReceiver : ReceiverBytes := ⟨List.replicate 43 1, length_replicate ..⟩

/-- A note in block one. -/
def paidAt (receiver : ReceiverBytes) (index : UInt32) : Paid where
  receiver
  payment :=
    { height := 1
      blockHash := default
      txid := default
      txIndex := 1
      actionIndex := index
      position := index.toUInt64
      actionNullifier := default
      cmx := default
      ephemeralKey := default
      ciphertextPrefix := default }
  payload := default

def threePaid : List Paid := [paidAt default 0, paidAt secondReceiver 1, paidAt default 2]

/-- Blocks zero to two, the last with no note. -/
def sampleCoverage : Coverage where
  genesis := default
  historyRevision := 0
  startHeight := 0
  startParent := default
  startPosition := 0
  endHeight := 2
  endHash := default
  endPosition := 3

def sampleTree (height : UInt32) : Tree := ⟨height, default, 3⟩

def sampleProjection : Projection :=
  ((Projection.new lastSha default).project lastSha [default, secondReceiver] default).2

/-- The siblings of a position in a tree of three notes, all zero. -/
def zeroSiblings (position : Nat) : Siblings :=
  ⟨(List.range lowerLevels).map fun level => if supplied position 3 level then some default else none,
    by rw [length_map, length_range]⟩

/-- What the code computes on the sample. -/
theorem sample_computes :
    ((Projection.new lastSha default).project lastSha [default, secondReceiver] default).1 = .ok 0 ∧
      (∀ q ∈ threePaid,
        encodePayload (zeroSiblings q.payment.position.toNat) q.payment.position.toNat 3 = some q.payload.val) ∧
      ¬ (queryBlockRows * rowSlots < threePaid.length ∨
        (byReceiver threePaid).vals.any (fun paid => decide (maxReceiverPayments < paid.length)) = true) ∧
      (choiceOf lastSha sampleProjection default 1 fun _ => false).isOk = true ∧
      paymentsOf threePaid default = [paidAt default 0, paidAt default 2] := by
  decide +kernel

theorem sampleProjection_reached : Projection.Reached lastSha sampleProjection [default, secondReceiver] :=
  .project (.new default) (Except.eq_mk_of_fst sample_computes.1)

theorem mem_threePaid (r : ReceiverBytes) : r ∈ [default, secondReceiver] ↔ ∃ x ∈ threePaid, x.receiver = r := by
  constructor
  · intro hr
    rcases mem_pair.mp hr with rfl | rfl
    · exact ⟨paidAt default 0, mem_cons_self, rfl⟩
    · exact ⟨paidAt secondReceiver 1, mem_cons_of_mem _ mem_cons_self, rfl⟩
  · rintro ⟨x, hx, rfl⟩
    revert x
    decide

theorem threePaid_consistent (height : UInt32) : Consistent sampleCoverage (sampleTree height) threePaid where
  contains := by decide
  positions := by decide
  outputs := by decide
  order := by decide
  block := by decide
  transaction := by decide
  location := by decide
  payload q hq := ⟨_, sample_computes.2.1 q hq⟩

theorem threePaid_fits : ¬ OverCapacity queryBlockRows threePaid :=
  mt overCapacity_iff.mp sample_computes.2.2.1

theorem choiceOf_sample : ∃ table, choiceOf lastSha sampleProjection default 1 (fun _ => false) = .ok table := by
  have hok := sample_computes.2.2.2.1
  cases htable : choiceOf lastSha sampleProjection default 1 (fun _ => false) with
  | error e =>
    rw [htable] at hok
    cases hok
  | ok table => exact ⟨table, rfl⟩

theorem paymentsOf_threePaid : paymentsOf threePaid default = [paidAt default 0, paidAt default 2] :=
  sample_computes.2.2.2.2

theorem build_readAll_three : ∃ segment,
    build lastSha sampleProjection sampleCoverage default 1 queryBlockRows (sampleTree 2) threePaid = .ok segment ∧
      ∃ records, readAll lastSha segment default = .ok (some records) ∧
        records.map paidOf = [paidAt default 0, paidAt default 2] := by
  obtain ⟨table, htable⟩ := choiceOf_sample
  rcases build_readAll lastSha default 1 sampleProjection_reached mem_threePaid (threePaid_consistent 2) (by decide)
    ⟨by decide, by decide, by decide, by decide⟩ (by decide : validateCompanionRows queryBlockRows = .ok ()) with
    ⟨_, hover⟩ | ⟨_, e, he⟩ | ⟨segment, hbuild, hread, _⟩
  · exact absurd hover threePaid_fits
  · cases htable.symm.trans he
  · obtain ⟨records, hrecords, hmap⟩ := hread (paidAt default 0) mem_cons_self
    exact ⟨segment, hbuild, records, hrecords, hmap.trans paymentsOf_threePaid⟩

/-- The tree after block one holds the notes, but the segment's coverage ends at block two. -/
theorem build_coverage_three :
    Projection.Reached lastSha sampleProjection [default, secondReceiver] ∧
      Consistent sampleCoverage (sampleTree 1) threePaid ∧ sampleCoverage.validate = .ok () ∧
      sampleCoverage.endPosition ≤ (sampleTree 1).size ∧ validateCompanionRows queryBlockRows = .ok () ∧
      build lastSha sampleProjection sampleCoverage default 1 queryBlockRows (sampleTree 1) threePaid =
        .error .coverage := by
  obtain ⟨table, htable⟩ := choiceOf_sample
  refine ⟨sampleProjection_reached, threePaid_consistent 1, by decide, by decide, by decide, ?_⟩
  exact buildWith_coverage sampleProjection_reached.holds mem_threePaid (threePaid_consistent 1) (by decide) (by decide)
    threePaid_fits (by decide) (by decide) htable

theorem exists_sampleSegment : ∃ segment table,
    build lastSha sampleProjection sampleCoverage default 1 queryBlockRows (sampleTree 2) threePaid = .ok segment ∧
      Built lastSha sampleProjection sampleCoverage (sampleTree 2) threePaid queryBlockRows table segment := by
  obtain ⟨table, htable⟩ := choiceOf_sample
  obtain ⟨segment, hbuild, hsegment⟩ := buildWith_ok sampleProjection_reached.holds mem_threePaid (threePaid_consistent 2)
    (by decide) (by decide : validateCompanionRows queryBlockRows = .ok ()) threePaid_fits
    ⟨by decide, by decide, by decide, by decide⟩ htable
  exact ⟨segment, table, hbuild, hsegment⟩

/-- An inventory of one shard with one segment. -/
def oneSegment (segment : Segment) : Client where
  inventory :=
    { inventory := default
      historyRevision := 0
      startHeight := 0
      endHeight := 2
      endHash := default
      endPosition := 3
      shards := [⟨0, 2, [⟨segment, default, default⟩], false⟩] }
  usesFilters := false
  screen := fun _ _ => none

def requestOf (receiver : ReceiverBytes) : LookupWork where
  token := ⟨0, 0⟩
  work := ⟨⟨.receive, 0⟩, receiver⟩
  fromHeight := 0
  through := 2
  birthday := 0
  cursor := none

theorem oneSegment_honest {segment : Segment}
    (h : build lastSha sampleProjection sampleCoverage default 1 queryBlockRows (sampleTree 2) threePaid = .ok segment) :
    Honest lastSha (oneSegment segment).inventory [[threePaid]] := by
  refine ⟨⟨cons_ne_nil _ _, by simp [oneSegment], by simp [oneSegment], isChain_singleton _, ?_⟩, ?_⟩
  · intro d hd
    obtain rfl := Option.some.inj hd
    rfl
  · refine .cons (.cons ⟨?_⟩ .nil) .nil
    exact ⟨sampleProjection, _, sampleCoverage, sampleTree 2, queryBlockRows, default, 1,
      sampleProjection_reached, mem_threePaid,
      threePaid_consistent 2, by decide, ⟨by decide, by decide, by decide, by decide⟩, by decide, rfl, rfl, h⟩

theorem requestOf_answerable (segment : Segment) (receiver : ReceiverBytes) :
    Answerable (fun _ => true) (oneSegment segment) (requestOf receiver) := ⟨rfl, Nat.le_refl 2, rfl⟩

theorem tag_lastSha (salt : Hash) (receiver : ReceiverBytes) :
    (tag lastSha salt receiver).val = List.replicate 14 (receiver.val.getLastD 0) := by
  have hne : receiver.val ≠ [] := ne_nil_of_length_pos (by rw [receiver.length_val]; decide)
  change (List.replicate 32 ((tagDomain ++ salt.val ++ receiver.val).getLastD 0)).take 14 = _
  rw [getLastD_eq_getLast?, getLast?_append_of_ne_nil _ hne, ← getLastD_eq_getLast?]
  rfl

theorem lookupRun_three : ∃ segment pages,
    LookupRun lastSha (fun _ => true) (oneSegment segment) 1 (requestOf default) pages ∧
      (pages.flatMap (·.records)).map paidOfRecord = [paidAt default 0, paidAt default 2] := by
  obtain ⟨segment, _, hbuild, _⟩ := exists_sampleSegment
  have hpaid : ∀ q ∈ threePaid, q.receiver.val.getLastD 0 = (default : ReceiverBytes).val.getLastD 0 →
      q.receiver = default := by decide
  have hclash : NoClash lastSha (oneSegment segment).inventory [[threePaid]] default := by
    intro i j d read pss ps _ _ hpss hps q hq htag
    obtain rfl := mem_singleton.mp (List.mem_of_getElem? hpss)
    obtain rfl := mem_singleton.mp (List.mem_of_getElem? hps)
    have hlast := congrArg Subtype.val htag
    rw [tag_lastSha, tag_lastSha, replicate_right_inj (by decide)] at hlast
    exact hpaid q hq hlast
  have hdue : duePaid 0 (paymentsOf threePaid default) = [paidAt default 0, paidAt default 2] := by
    rw [paymentsOf_threePaid]
    rfl
  have hexact : ∃ pages, LookupRun lastSha (fun _ => true) (oneSegment segment) 1 (requestOf default) pages ∧ _ :=
    lookupRun_exact lastSha (fun _ => true) (oneSegment_honest hbuild) hclash (fun _ _ _ hscreen => by cases hscreen)
      (requestOf_answerable segment default) (fun c hc => by cases hc) Nat.one_pos
  obtain ⟨pages, hrun, hpages⟩ := hexact
  refine ⟨segment, pages, hrun, hpages.trans ?_⟩
  simpa [oneSegment, requestOf] using hdue

/-- A receiver that no payment names, with the tag of one that is paid. -/
def otherReceiver : ReceiverBytes := ⟨List.replicate 42 1 ++ [0], by decide⟩

/-- A receiver whose tag is another's is sent to the other's record, and the step fails. -/
theorem lookupWith_clash : ∃ segment, Honest lastSha (oneSegment segment).inventory [[threePaid]] ∧
    NoFalseNegative (oneSegment segment) [[threePaid]] otherReceiver ∧
    Answerable (fun _ => true) (oneSegment segment) (requestOf otherReceiver) ∧
    lookupWith lastSha (fun _ => true) (oneSegment segment) (requestOf otherReceiver) 1 = .error .malformed := by
  obtain ⟨segment, table, hbuild, hsegment⟩ := exists_sampleSegment
  refine ⟨segment, oneSegment_honest hbuild, fun _ _ _ hscreen => (by cases hscreen), requestOf_answerable _ _, ?_⟩
  have hholds := sampleProjection_reached.holds
  have hext := extents_of_sort hholds mem_threePaid (threePaid_consistent 2).nodup
  have hlimits := limits hext (threePaid_consistent 2) (by decide)
    (by decide : validateCompanionRows queryBlockRows = .ok ()) threePaid_fits
  have htag : ∀ salt, tag lastSha salt otherReceiver = tag lastSha salt default := fun salt =>
    Subtype.ext ((tag_lastSha salt otherReceiver).trans (tag_lastSha salt default).symm)
  have hsame : readEntry lastSha segment otherReceiver = readEntry lastSha segment default := by
    rw [readEntry_eq hholds hext hlimits hsegment, readEntry_eq hholds hext hlimits hsegment, htag]
  obtain ⟨t, ht⟩ : ∃ t, sampleProjection.tags[(default : ReceiverBytes)]? = some t :=
    OrderedMap.mem_iff_exists.mp ((hholds.receivers default).mpr mem_cons_self)
  obtain ⟨records, hanswers, hrecords⟩ := answers_some hholds hext hlimits (threePaid_consistent 2) hsegment ht
  obtain ⟨x, y, rfl⟩ : ∃ x y, records = [x, y] := by
    have hlength := congrArg List.length hrecords
    rw [length_map, paymentsOf_threePaid] at hlength
    exact length_eq_two.mp hlength
  obtain ⟨e, hentry, hcount, hslot, _⟩ := hanswers.hit (cons_ne_nil _ _)
  have hread := hslot 0 x rfl
  have hreceiver : x.record.receiver ≠ otherReceiver := by
    rw [(hanswers.pages 0 x rfl).1]
    decide
  have husable : ∀ d, usableEntry d 0 none (some e) = .ok (some e) := by
    intro d
    rw [usableEntry, Option.filter_some, if_pos (decide_eq_true (Nat.zero_le _))]
  have hpages : readPages lastSha segment e otherReceiver [0] none [] = .error .malformed := by
    rw [readPages, hread]
    change (if x.record.receiver ≠ otherReceiver then _ else _) = _
    rw [if_pos hreceiver]
  rw [lookupWith]
  dsimp only
  rw [if_neg (by simp [oneSegment, requestOf]), if_neg (by decide)]
  change StepContext.visitShards lastSha ⟨oneSegment segment, requestOf otherReceiver, 1, 0, none⟩
    [⟨0, 2, [⟨segment, default, default⟩], false⟩] 0 0 _ = _
  rw [StepContext.visitShards, if_neg (by simp [StepContext.excludes])]
  change StepContext.readSegment lastSha _ 0 _ _ _ = _
  rw [StepContext.readSegment]
  change ((readEntry lastSha segment otherReceiver).mapError _ >>= _) = _
  rw [hsame, hentry]
  change (usableEntry ⟨0, 2, [⟨segment, default, default⟩], false⟩ 0 none (some e) >>= _) = _
  rw [husable, Except.ok_bind]
  change (readPages lastSha segment e otherReceiver (List.range' 0 (min (0 + 1) e.count - 0)) none [] >>= _) = _
  rw [hcount]
  change (readPages lastSha segment e otherReceiver [0] none [] >>= _) = _
  rw [hpages]
  rfl

end Zakura.Receiver
