import Zakura.Receiver.Lemmas.Projection

/-! # Payments by receiver

The extents of a segment are its payments, each receiver's in position order under the receiver's tag. -/

namespace Zakura.Receiver

open List

open Std.ExtTreeMap (mem_toList_iff_getElem?_eq_some length_toList)

variable {sha256 : Bytes → FixedBytes 32}

/-- Payments of one chain inside a coverage, with payloads of one tree. -/
structure Consistent (coverage : Coverage) (tree : Tree) (payments : List Paid) : Prop where
  contains : ∀ p ∈ payments, coverage.Contains p.payment
  positions : (payments.map fun p => p.payment.position).Nodup
  outputs : (payments.map fun p => (p.payment.txid, p.payment.actionIndex)).Nodup
  order : ∀ p ∈ payments, ∀ q ∈ payments, p.payment.position.toNat < q.payment.position.toNat →
    p.payment.Before q.payment
  block : ∀ p ∈ payments, ∀ q ∈ payments, p.payment.height = q.payment.height → p.payment.blockHash = q.payment.blockHash
  transaction : ∀ p ∈ payments, ∀ q ∈ payments, p.payment.location = q.payment.location → p.payment.txid = q.payment.txid
  location : ∀ p ∈ payments, ∀ q ∈ payments, p.payment.txid = q.payment.txid → p.payment.location = q.payment.location
  payload : ∀ p ∈ payments, ∃ siblings,
    encodePayload siblings p.payment.position.toNat tree.size.toNat = some p.payload.val

def paymentsOf (payments : List Paid) (receiver : ReceiverBytes) : List Paid :=
  (payments.filter (·.receiver = receiver)).insertionSort
    fun a b => a.payment.position.toNat ≤ b.payment.position.toNat

theorem paymentsOf_perm (payments : List Paid) (receiver : ReceiverBytes) :
    (paymentsOf payments receiver).Perm (payments.filter (·.receiver = receiver)) :=
  perm_insertionSort ..

variable {payments : List Paid}

theorem mem_paymentsOf {receiver : ReceiverBytes} {p : Paid} :
    p ∈ paymentsOf payments receiver ↔ p ∈ payments ∧ p.receiver = receiver := by
  rw [(paymentsOf_perm payments receiver).mem_iff, mem_filter, decide_eq_true_iff]

variable {coverage : Coverage} {tree : Tree}

theorem Consistent.nodup (h : Consistent coverage tree payments) : payments.Nodup :=
  List.Nodup.of_map _ h.positions

theorem Consistent.sorted (h : Consistent coverage tree payments) (receiver : ReceiverBytes) :
    (paymentsOf payments receiver).Pairwise fun a b => a.payment.position.toNat < b.payment.position.toNat := by
  have hle : (paymentsOf payments receiver).Pairwise
      fun a b => a.payment.position.toNat ≤ b.payment.position.toNat := by
    have htotal : Std.Total fun a b : Paid => a.payment.position.toNat ≤ b.payment.position.toNat :=
      ⟨fun a b => Nat.le_total ..⟩
    have htrans : IsTrans Paid fun a b => a.payment.position.toNat ≤ b.payment.position.toNat :=
      ⟨fun a b c => Nat.le_trans⟩
    exact pairwise_insertionSort ..
  have hne : (paymentsOf payments receiver).Pairwise fun a b => a.payment.position ≠ b.payment.position := by
    have hfilter : ((payments.filter (·.receiver = receiver)).map fun p => p.payment.position).Nodup :=
      h.positions.sublist (filter_sublist.map _)
    have hnodup := ((paymentsOf_perm payments receiver).map fun p => p.payment.position).nodup_iff.mpr hfilter
    exact pairwise_map.mp hnodup
  exact hle.imp₂ (fun _ _ hle hne => Nat.lt_of_le_of_ne hle fun heq => hne (UInt64.toNat_inj.mp heq)) hne

theorem getElem?_byReceiver (payments : List Paid) (receiver : ReceiverBytes) :
    (byReceiver payments)[receiver]? = OrderedMap.collected (payments.filter (·.receiver = receiver)) := by
  have hown : ∀ p : Paid, decide (p.receiver = receiver) = true ↔ p.receiver = receiver := fun _ => decide_eq_true_iff
  have h := OrderedMap.getElem?_collect hown id payments
  rwa [map_id] at h

theorem mem_byReceiver {x : ReceiverBytes × List Paid} :
    x ∈ (byReceiver payments).toList ↔ x.2 = payments.filter (·.receiver = x.1) ∧ x.2 ≠ [] := by
  obtain ⟨receiver, paid⟩ := x
  rw [mem_toList_iff_getElem?_eq_some, getElem?_byReceiver, OrderedMap.collected]
  split_ifs with hnil
  · simp [hnil]
  · constructor
    · intro h
      obtain rfl := Option.some.inj h
      exact ⟨rfl, hnil⟩
    · intro h
      rw [← h.1]

theorem byReceiver_perm (hnodup : payments.Nodup) :
    ((byReceiver payments).toList.flatMap Prod.snd).Perm payments := by
  refine (perm_ext_iff_of_nodup ?_ hnodup).mpr fun p => ?_
  · refine nodup_flatMap.mpr ⟨fun x hx => ?_, ?_⟩
    · rw [(mem_byReceiver.mp hx).1]
      exact hnodup.filter _
    · refine (pairwise_map.mp (OrderedMap.nodup_keys_toList (byReceiver payments))).imp_of_mem
        fun {x y} hx hy hne => disjoint_left.mpr fun p hp hp' => hne ?_
      rw [(mem_byReceiver.mp hx).1] at hp
      rw [(mem_byReceiver.mp hy).1] at hp'
      rw [← of_decide_eq_true (mem_filter.mp hp).2, ← of_decide_eq_true (mem_filter.mp hp').2]
  · rw [mem_flatMap]
    constructor
    · intro ⟨x, hx, hp⟩
      rw [(mem_byReceiver.mp hx).1] at hp
      exact (mem_filter.mp hp).1
    · intro hp
      have hmem : p ∈ payments.filter (·.receiver = p.receiver) := mem_filter.mpr ⟨hp, decide_eq_true rfl⟩
      exact ⟨(p.receiver, _), mem_byReceiver.mpr ⟨rfl, ne_nil_of_mem hmem⟩, hmem⟩

/-- The extents of a segment: the payments of each paid receiver under its tag, by tag. -/
structure Extents (p : Projection) (payments : List Paid) (extents : List (Tag × List Paid)) : Prop where
  perm : (extents.flatMap Prod.snd).Perm payments
  tags : extents.Pairwise fun a b => a.1 < b.1
  order : (extents.map Prod.fst).Perm p.order
  extent : ∀ x ∈ extents, x.2 ≠ [] ∧ ∃ r : ReceiverBytes, p.tags[r]? = some x.1 ∧ x.2 = paymentsOf payments r
  paid : ∀ r : ReceiverBytes, ∀ t, p.tags[r]? = some t → (t, paymentsOf payments r) ∈ extents

def tagIn (p : Projection) (r : ReceiverBytes) : Tag := p.tags[r]?.getD default

theorem tagIn_eq {p : Projection} {r : ReceiverBytes} {t : Tag} (h : p.tags[r]? = some t) : tagIn p r = t := by
  rw [tagIn, h, Option.getD_some]

section

variable {p : Projection} {paid : List ReceiverBytes} {payments : List Paid}
  (h : Projection.Holds sha256 p paid) (hpaid : ∀ r, r ∈ paid ↔ ∃ x ∈ payments, x.receiver = r)

include h hpaid

theorem mem_tags_iff (r : ReceiverBytes) : r ∈ p.tags ↔ r ∈ (byReceiver payments).toList.map Prod.fst := by
  rw [h.receivers, hpaid, mem_map]
  constructor
  · intro ⟨x, hx, hr⟩
    have hmem : x ∈ payments.filter (·.receiver = r) := mem_filter.mpr ⟨hx, decide_eq_true hr⟩
    exact ⟨(r, _), mem_byReceiver.mpr ⟨rfl, ne_nil_of_mem hmem⟩, rfl⟩
  · intro ⟨x, hx, hr⟩
    obtain ⟨hfilter, hne⟩ := mem_byReceiver.mp hx
    obtain ⟨y, hy⟩ := exists_mem_of_ne_nil _ hne
    rw [hfilter] at hy
    obtain ⟨hy, hreceiver⟩ := mem_filter.mp hy
    exact ⟨y, hy, (of_decide_eq_true hreceiver).trans hr⟩

theorem keys_perm : ((byReceiver payments).toList.map Prod.fst).Perm (p.tags.toList.map Prod.fst) := by
  refine (perm_ext_iff_of_nodup (OrderedMap.nodup_keys_toList _) (OrderedMap.nodup_keys_toList _)).mpr fun r => ?_
  rw [← mem_tags_iff h hpaid, mem_map]
  constructor
  · intro hr
    obtain ⟨t, ht⟩ := OrderedMap.mem_iff_exists.mp hr
    exact ⟨(r, t), mem_toList_iff_getElem?_eq_some.mpr ht, rfl⟩
  · intro ⟨x, hx, hr⟩
    rw [← hr]
    exact OrderedMap.mem_of_getElem? (mem_toList_iff_getElem?_eq_some.mp hx)

theorem size_byReceiver : (byReceiver payments).size = p.tags.size := by
  have hlength := (keys_perm h hpaid).length_eq
  rwa [length_map, length_map, length_toList, length_toList] at hlength

theorem tags_tagIn {x : ReceiverBytes × List Paid} (hx : x ∈ (byReceiver payments).toList) :
    p.tags[x.1]? = some (tagIn p x.1) := by
  have hr : x.1 ∈ p.tags := (mem_tags_iff h hpaid x.1).mpr (mem_map.mpr ⟨x, hx, rfl⟩)
  obtain ⟨t, ht⟩ := OrderedMap.mem_iff_exists.mp hr
  rw [ht, tagIn_eq ht]

theorem mapM_extentOf :
    (byReceiver payments).toList.mapM (extentOf p) =
      .ok ((byReceiver payments).toList.map fun x => (tagIn p x.1, paymentsOf payments x.1)) := by
  rw [Except.mapM_eq_ok, List.forall₂_map_right_iff, List.forall₂_same]
  intro x hx
  rw [extentOf, tags_tagIn h hpaid hx]
  dsimp only
  rw [(mem_byReceiver.mp hx).1, paymentsOf]

theorem extents_of_sort (hnodup : payments.Nodup) :
    Extents p payments (((byReceiver payments).toList.map fun x => (tagIn p x.1, paymentsOf payments x.1)).insertionSort
      fun a b => a.1 ≤ b.1) := by
  have hsort := perm_insertionSort (fun a b : Tag × List Paid => a.1 ≤ b.1)
    ((byReceiver payments).toList.map fun x => (tagIn p x.1, paymentsOf payments x.1))
  have horder : (((byReceiver payments).toList.map fun x => (tagIn p x.1, paymentsOf payments x.1)).map Prod.fst).Perm
      p.order := by
    have hkeys := (keys_perm h hpaid).map (tagIn p)
    rw [map_map, map_map] at hkeys
    rw [map_map]
    refine hkeys.trans (List.Perm.trans (List.Perm.of_eq ?_) h.order)
    refine map_congr_left fun x hx => ?_
    exact tagIn_eq (mem_toList_iff_getElem?_eq_some.mp hx)
  refine ⟨?_, ?_, (hsort.map Prod.fst).trans horder, ?_, ?_⟩
  · refine (hsort.flatMap_right _).trans (List.Perm.trans ?_ (byReceiver_perm hnodup))
    rw [flatMap_map]
    refine List.Perm.flatMap_left _ fun x hx => ?_
    rw [(mem_byReceiver.mp hx).1]
    exact paymentsOf_perm payments x.1
  · have htotal : Std.Total fun a b : Tag × List Paid => a.1 ≤ b.1 := ⟨fun a b => le_total ..⟩
    have htrans : IsTrans (Tag × List Paid) fun a b => a.1 ≤ b.1 := ⟨fun a b c => le_trans⟩
    have hle := pairwise_insertionSort (fun a b : Tag × List Paid => a.1 ≤ b.1)
      ((byReceiver payments).toList.map fun x => (tagIn p x.1, paymentsOf payments x.1))
    have hne := pairwise_map.mp (((hsort.map Prod.fst).trans horder).nodup_iff.mpr h.nodup)
    exact hle.imp₂ (fun _ _ hle hne => lt_of_le_of_ne hle hne) hne
  · intro x hx
    obtain ⟨y, hy, rfl⟩ := mem_map.mp (hsort.mem_iff.mp hx)
    obtain ⟨hfilter, hne⟩ := mem_byReceiver.mp hy
    refine ⟨fun hnil => hne ?_, y.1, tags_tagIn h hpaid hy, rfl⟩
    rw [hfilter]
    exact List.Perm.nil_eq (hnil ▸ paymentsOf_perm payments y.1) |>.symm
  · intro r t ht
    obtain ⟨y, hy, rfl⟩ := mem_map.mp ((mem_tags_iff h hpaid r).mp (OrderedMap.mem_of_getElem? ht))
    exact hsort.mem_iff.mpr (mem_map.mpr ⟨y, hy, by rw [tagIn_eq ht]⟩)

end

end Zakura.Receiver
