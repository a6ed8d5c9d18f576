import Zakura.Receiver.Lemmas.Iterate
import Zakura.Receiver.Lemmas.Lookup

/-! # Honest inventories

Every segment of an honest inventory was built from payments of one chain, over its shard's blocks. -/

namespace Zakura.Receiver

open List

open Recovery (LookupPage LookupRecord LookupWork)

variable {sha256 : Bytes → FixedBytes 32} {segment : Segment} {payments : List Paid}

/-- A segment built from payments of one chain in a shard's blocks. -/
structure Published (sha256 : Bytes → FixedBytes 32) (d : Shard) (segment : Segment) (payments : List Paid) : Prop where
  built : ∃ (p : Projection) (paid : List ReceiverBytes) (coverage : Coverage) (tree : Tree) (rows : Nat) (seedBlock : Hash)
    (seedAttempts : Nat), Projection.Reached sha256 p paid ∧ (∀ r, r ∈ paid ↔ ∃ x ∈ payments, x.receiver = r) ∧
    Consistent coverage tree payments ∧ coverage.validate = .ok () ∧ tree.Serves coverage ∧
    validateCompanionRows rows = .ok () ∧ coverage.startHeight.toNat = d.startHeight ∧
    coverage.endHeight.toNat = d.endHeight ∧
    build sha256 p coverage seedBlock seedAttempts rows tree payments = .ok segment

/-- An inventory of such segments, with the payments of each. -/
structure Honest (sha256 : Bytes → FixedBytes 32) (inventory : Inventory) (payments : List (List (List Paid))) : Prop where
  wellFormed : inventory.WellFormed
  published : List.Forall₂ (fun d ps => List.Forall₂ (fun read ps => Published sha256 d read.tables ps) d.segments ps)
    inventory.shards payments

def paidOfRecord (x : LookupRecord) : Paid := ⟨x.record.receiver, x.record.payment, x.payload⟩

/-- The payments of a receiver that a request needs: all, if the last is at or past the floor. -/
def duePaid (floor : Nat) (ps : List Paid) : List Paid :=
  if ps.getLast?.any fun q => floor ≤ q.payment.height.toNat then ps else []

theorem map_due (floor : Nat) (records : List LookupRecord) :
    (due floor records).map paidOfRecord = duePaid floor (records.map paidOfRecord) := by
  rw [due, duePaid, getLast?_map, Option.any_map]
  split_ifs with h h' h'
  · rfl
  · exact absurd h h'
  · exact absurd h' h
  · rfl

variable {receiver : ReceiverBytes}

theorem answers_some {p : Projection} {paid : List ReceiverBytes} {coverage : Coverage} {tree : Tree} {rows : Nat}
    {table : Directory.ChoiceTable} (h : Projection.Holds sha256 p paid) (hext : Extents p payments (extentsOf p payments))
    (hlimits : Limits coverage (extentsOf p payments)) (hconsistent : Consistent coverage tree payments)
    (hsegment : Built sha256 p coverage tree payments rows table segment) {t : Tag} (ht : p.tags[receiver]? = some t) :
    ∃ records, Answers sha256 segment coverage.startHeight.toNat receiver records ∧
      records.map paidOfRecord = paymentsOf payments receiver := by
  obtain ⟨first, hfirst, hentry⟩ := readEntry_some h hext hlimits hsegment ht
  obtain ⟨revision, hcompanion⟩ := hsegment.companion
  obtain ⟨ps, hps⟩ : ∃ ps, paymentsOf payments receiver = ps := ⟨_, rfl⟩
  rw [hps] at hfirst hentry ⊢
  have hextent := (mem_placeExtents hfirst).1
  have hne := hlimits.nonempty _ hextent
  obtain ⟨records, hrecords⟩ : ∃ records : List LookupRecord,
      records = (recordsAt first ps.length first ps).map fun x => ⟨x.1, x.2⟩ := ⟨_, rfl⟩
  have hget : ∀ (k : Nat) (x : LookupRecord), records[k]? = some x →
      ∃ q, ps[k]? = some q ∧ x = ⟨recordAt first ps.length (first + k) q, q.payload⟩ := by
    intro k x hx
    rw [hrecords, getElem?_map, getElem?_recordsAt, Option.map_map, Option.map_eq_some_iff] at hx
    obtain ⟨q, hq, rfl⟩ := hx
    exact ⟨q, hq, rfl⟩
  have hlength : records.length = ps.length := by
    rw [hrecords, length_map, length_recordsAt]
  have hmem : ∀ q ∈ ps, q ∈ payments ∧ q.receiver = receiver := by
    intro q hq
    rw [← hps] at hq
    exact mem_paymentsOf.mp hq
  refine ⟨records, ⟨fun hnil => ?_, fun _ => ⟨_, hentry, hlength.symm, fun k x hx => ?_, fun x hx => ?_⟩, fun k x hx => ?_,
    isChain_iff_getElem.mpr fun k hk => ?_⟩, ?_⟩
  · rw [hnil] at hlength
    exact absurd (length_eq_zero_iff.mp hlength.symm) hne
  · obtain ⟨q, hq, rfl⟩ := hget k x hx
    exact lookupSlot_eq h hext hconsistent hlimits hsegment.filled (by rw [hsegment.directory]; rfl)
      (by rw [hsegment.directory]; rfl) (by rw [hcompanion]; rfl) (by rw [hcompanion]; rfl) hfirst hq
  · rw [getLast?_eq_getElem?] at hx
    obtain ⟨q, hq, rfl⟩ := hget _ x hx
    rw [hlength, ← getLast?_eq_getElem?, getLast?_eq_getLast_of_ne_nil hne] at hq
    obtain rfl := Option.some.inj hq
    have hstart := (hlimits.within _ hextent _ (getLast_mem hne)).1
    rw [entryAt, getLast?_eq_getLast_of_ne_nil hne, Option.map_some, Option.getD_some]
    exact Nat.add_sub_cancel' hstart
  · obtain ⟨q, hq, rfl⟩ := hget k x hx
    exact ⟨(hmem q (List.mem_of_getElem? hq)).2, Nat.add_sub_cancel_left first k, hlength.symm⟩
  · obtain ⟨q, hq, heq⟩ := hget k _ (getElem?_eq_getElem (by omega))
    obtain ⟨s, hs, heq'⟩ := hget (k + 1) _ (getElem?_eq_getElem hk)
    rw [heq, heq']
    have hsorted := hconsistent.sorted receiver
    rw [hps] at hsorted
    obtain ⟨hk', rfl⟩ := List.getElem?_eq_some_iff.mp hq
    obtain ⟨hk'', rfl⟩ := List.getElem?_eq_some_iff.mp hs
    have hq := hmem _ (getElem_mem hk')
    have hs := hmem _ (getElem_mem hk'')
    exact continues_recordAt hconsistent ps.length hq.1 hs.1 (hs.2.trans hq.2.symm) (Nat.le_add_right ..)
      (pairwise_iff_getElem.mp hsorted k (k + 1) hk' hk'' (Nat.lt_succ_self k))
  · rw [hrecords, map_map]
    exact map_paidOf_recordsAt first ps.length first ps

theorem Published.answers {d : Shard} (h : Published sha256 d segment payments)
    (hclash : ∀ q ∈ payments, tag sha256 segment.directory.manifest.salt q.receiver =
      tag sha256 segment.directory.manifest.salt receiver → q.receiver = receiver)
    :
    ∃ records, Answers sha256 segment d.startHeight receiver records ∧
      records.map paidOfRecord = paymentsOf payments receiver := by
  obtain ⟨p, paid, coverage, tree, rows, seedBlock, seedAttempts, hreached, hpaid, hconsistent, hcoverage, htree, hrows,
    hstart, _, hbuild⟩ := h.built
  have hholds := hreached.holds
  have hext : Extents p payments (extentsOf p payments) := extents_of_sort hholds hpaid hconsistent.nodup
  by_cases hover : OverCapacity rows payments
  · rw [build, buildWith_capacity hrows hover] at hbuild
    cases hbuild
  cases hchoice : choiceOf sha256 p seedBlock seedAttempts (fun _ => false) with
  | error e =>
    obtain ⟨_, _, heq⟩ := buildWith_eq hholds hpaid hconsistent hcoverage hrows hover
    rw [build, heq, hchoice] at hbuild
    cases hbuild
  | ok table =>
    obtain ⟨built, heq, hsegment⟩ := buildWith_ok hholds hpaid hconsistent hcoverage hrows hover htree hchoice
    rw [build, heq] at hbuild
    obtain rfl := Except.ok.inj hbuild
    have hlimits := limits hext hconsistent hcoverage hrows hover
    rw [← hstart]
    cases ht : p.tags[receiver]? with
    | some t => exact answers_some hholds hext hlimits hconsistent hsegment ht
    | none =>
      have hsalt : built.directory.manifest.salt = p.salt := by
        rw [hsegment.directory]
        rfl
      rw [hsalt] at hclash
      have hunpaid : ∀ q ∈ payments, q.receiver ≠ receiver := by
        intro q hq heq
        have hmem := (hholds.receivers receiver).mpr ((hpaid receiver).mpr ⟨q, hq, heq⟩)
        rw [Std.ExtTreeMap.mem_iff_isSome_getElem?, ht] at hmem
        cases hmem
      have hnone : paymentsOf payments receiver = [] := by
        refine eq_nil_iff_forall_not_mem.mpr fun q hq => ?_
        obtain ⟨hq, heq⟩ := mem_paymentsOf.mp hq
        exact hunpaid q hq heq
      refine ⟨[], ⟨fun _ => ?_, fun hne => absurd rfl hne, fun k x hx => (by cases hx), isChain_nil⟩, hnone.symm⟩
      exact readEntry_none hholds hext hlimits hsegment fun q hq heq => hunpaid q hq (hclash q hq heq)

/-! ## The answers of an inventory -/

/-- No receiver paid in a segment of the inventory shares the receiver's tag there. -/
def NoClash (sha256 : Bytes → FixedBytes 32) (inventory : Inventory) (payments : List (List (List Paid)))
    (receiver : ReceiverBytes) : Prop :=
  ∀ (i j : Nat) (d : Shard) (read : Publication) (pss : List (List Paid)) (ps : List Paid),
    inventory.shards[i]? = some d → d.segments[j]? = some read → payments[i]? = some pss → pss[j]? = some ps →
    ∀ q ∈ ps, tag sha256 read.tables.directory.manifest.salt q.receiver =
      tag sha256 read.tables.directory.manifest.salt receiver → q.receiver = receiver

def NoFalseNegative (client : Client) (payments : List (List (List Paid))) (receiver : ReceiverBytes) : Prop :=
  ∀ (i : Nat) (pss : List (List Paid)), payments[i]? = some pss → client.screen i receiver = some false →
    ∀ ps ∈ pss, ∀ q ∈ ps, q.receiver ≠ receiver

def paymentsAt (payments : List (List (List Paid))) (i j : Nat) : List Paid :=
  ((payments[i]?.getD [])[j]?).getD []

theorem Honest.serves {client : Client} {payments : List (List (List Paid))} (h : Honest sha256 client.inventory payments)
    (hclash : NoClash sha256 client.inventory payments receiver) (hfilter : NoFalseNegative client payments receiver) :
    ∃ records, Serves sha256 client receiver records ∧
      ∀ i j, (records i j).map paidOfRecord = paymentsOf (paymentsAt payments i j) receiver := by
  have hsegment : ∀ i j : Nat, ∃ records : List LookupRecord,
      (∀ (d : Shard) (read : Publication), client.inventory.shards[i]? = some d → d.segments[j]? = some read →
        Answers sha256 read.tables d.startHeight receiver records) ∧
      records.map paidOfRecord = paymentsOf (paymentsAt payments i j) receiver := by
    intro i j
    rcases forall₂_getElem? h.published i with ⟨hd, hpss⟩ | ⟨d, pss, hd, hpss, hsegments⟩
    · exact ⟨[], fun e read he => (by cases hd.symm.trans he), by rw [paymentsAt, hpss]; rfl⟩
    rcases forall₂_getElem? hsegments j with ⟨hread, hps⟩ | ⟨read, ps, hread, hps, hpublished⟩
    · refine ⟨[], fun e read he hr => ?_, by rw [paymentsAt, hpss, Option.getD_some, hps]; rfl⟩
      obtain rfl := Option.some.inj (hd.symm.trans he)
      cases hread.symm.trans hr
    · obtain ⟨records, hanswers, hrecords⟩ := hpublished.answers (hclash i j d read pss ps hd hread hpss hps)
      refine ⟨records, fun e read' he hr => ?_, by rw [paymentsAt, hpss, Option.getD_some, hps]; exact hrecords⟩
      obtain rfl := Option.some.inj (hd.symm.trans he)
      obtain rfl := Option.some.inj (hread.symm.trans hr)
      exact hanswers
  choose records hanswers hrecords using hsegment
  refine ⟨records, ⟨h.wellFormed, fun i j d read hd hread => hanswers i j d read hd hread, fun i j hscreen => ?_⟩, hrecords⟩
  have hnil : (records i j).map paidOfRecord = [] → records i j = [] := map_eq_nil_iff.mp
  refine hnil ?_
  rw [hrecords]
  refine eq_nil_iff_forall_not_mem.mpr fun q hq => ?_
  obtain ⟨hq, heq⟩ := mem_paymentsOf.mp hq
  unfold paymentsAt at hq
  cases hpss : payments[i]? with
  | none =>
    rw [hpss] at hq
    cases hq
  | some pss =>
    rw [hpss, Option.getD_some] at hq
    cases hps : pss[j]? with
    | none =>
      rw [hps] at hq
      cases hq
    | some ps =>
      rw [hps] at hq
      exact hfilter i pss hpss hscreen ps (List.mem_of_getElem? hps) q hq heq

/-! ## The payments left to read -/

def dueOfShard (floor : Nat) (receiver : ReceiverBytes) (pss : List (List Paid)) : List Paid :=
  pss.flatMap fun ps => duePaid floor (paymentsOf ps receiver)

variable {inventory : Inventory}

theorem filter_required (h : inventory.WellFormed) {β : Type} (bs : List β) (height : Nat) :
    (inventory.shards.zip bs).filter (fun x => height ≤ x.1.endHeight) =
      (inventory.shards.zip bs).drop (firstRequired inventory.shards height) := by
  obtain ⟨hbefore, hfirst⟩ := firstRequired_spec inventory.shards height
  obtain ⟨first, hfirst_eq⟩ : ∃ first, first = firstRequired inventory.shards height := ⟨_, rfl⟩
  rw [← hfirst_eq] at hbefore hfirst ⊢
  have hget : ∀ (i : Nat) (x : Shard × β), (inventory.shards.zip bs)[i]? = some x → inventory.shards[i]? = some x.1 :=
    fun i x hx => (getElem?_zip_eq_some.mp hx).1
  conv_lhs => rw [← take_append_drop first (inventory.shards.zip bs)]
  rw [filter_append, filter_eq_nil_iff.mpr, filter_eq_self.mpr, nil_append]
  · intro x hx
    obtain ⟨i, hi⟩ := mem_iff_getElem?.mp hx
    rw [getElem?_drop] at hi
    have hshard := hget _ x hi
    have hlt := (List.getElem?_eq_some_iff.mp hshard).1
    have hstart : inventory.shards[first]? = some inventory.shards[first] := getElem?_eq_getElem (by omega)
    have hle := hfirst _ hstart
    refine decide_eq_true ?_
    rcases Nat.eq_zero_or_pos i with rfl | hpos
    · obtain heq := Option.some.inj (hstart.symm.trans hshard)
      rwa [← heq]
    · exact Nat.le_of_lt (Nat.lt_of_le_of_lt hle (h.end_lt_end (by omega) hstart hshard))
  · intro x hx
    obtain ⟨i, hi⟩ := mem_iff_getElem?.mp hx
    rw [getElem?_take] at hi
    split_ifs at hi with hlt
    have hlow := hbefore i x.1 hlt (hget i x hi)
    rw [decide_eq_true_eq]
    omega

theorem Honest.shardsFrom_eq {payments : List (List (List Paid))} (h : Honest sha256 inventory payments)
    {records : Nat → Nat → List LookupRecord}
    (hrecords : ∀ i j, (records i j).map paidOfRecord = paymentsOf (paymentsAt payments i j) receiver)
    (floor height : Nat) :
    (shardsFrom inventory floor records (firstRequired inventory.shards height)).map paidOfRecord =
      ((inventory.shards.zip payments).filter fun x => height ≤ x.1.endHeight).flatMap
        fun x => dueOfShard floor receiver x.2 := by
  have hlength := h.published.length_eq
  have hzip : (inventory.shards.zip payments).length = inventory.shards.length := by
    rw [length_zip, hlength, Nat.min_self]
  rw [filter_required h.wellFormed, shardsFrom, map_flatMap, ← hzip]
  refine flatMap_range'_eq_drop (fun i x hx => ?_) _
  obtain ⟨hd, hpss⟩ := getElem?_zip_eq_some.mp hx
  rcases forall₂_getElem? h.published i with ⟨hnone, _⟩ | ⟨d, pss, hd', hpss', hsegments⟩
  · cases hnone.symm.trans hd
  obtain rfl := Option.some.inj (hd.symm.trans hd')
  obtain rfl := Option.some.inj (hpss.symm.trans hpss')
  rw [segmentsFrom, map_flatMap, segmentsAt_eq hd, hsegments.length_eq, dueOfShard]
  refine flatMap_range'_eq_drop (fun j ps hps => ?_) 0
  rw [map_due, hrecords, paymentsAt, hpss, Option.getD_some, hps, Option.getD_some]

end Zakura.Receiver
