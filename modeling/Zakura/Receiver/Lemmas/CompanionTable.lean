import Zakura.Receiver.Lemmas.DirectoryTable

/-! # The built companion passes its checks

Every slot of an entry reads back the record of its payment. The records name one chain and every receiver's
pages are complete and in order. -/

namespace Zakura.Receiver

open List Zakura.Except
open Directory (ChoiceTable)

variable {sha256 : Bytes → FixedBytes 32} {p : Projection} {paid : List ReceiverBytes} {coverage : Coverage} {tree : Tree}
  {payments : List Paid} {extents : List (Tag × List Paid)}

variable (h : Projection.Holds sha256 p paid) (hext : Extents p payments extents)
  (hconsistent : Consistent coverage tree payments) (hlimits : Limits coverage extents)

/-! ## One slot -/

theorem getElem?_slotsOf {first i : Nat} {x : Nat × (Tag × List Paid)} {q : Paid} (hx : x ∈ placeExtents first extents)
    (hq : x.2.2[i]? = some q) :
    (slotsOf (placeExtents first extents))[x.1 - first + i]? =
      some (recordAt x.1 x.2.2.length (x.1 + i) q, q.payload) := by
  induction extents generalizing first with
  | nil => simp [placeExtents] at hx
  | cons extent extents ih =>
    have hi := (List.getElem?_eq_some_iff.mp hq).1
    rw [placeExtents] at hx
    change (recordsAt first extent.2.length first extent.2 ++
      slotsOf (placeExtents (first + extent.2.length) extents))[_]? = _
    rcases mem_cons.mp hx with rfl | hx
    · dsimp only at hi hq ⊢
      rw [Nat.sub_self, Nat.zero_add, getElem?_append_left (by rwa [length_recordsAt]), getElem?_recordsAt, hq,
        Option.map_some]
    · have hge := (mem_placeExtents hx).2.1
      rw [getElem?_append_right (by rw [length_recordsAt]; omega), length_recordsAt]
      rw [show x.1 - first + i - extent.2.length = x.1 - (first + extent.2.length) + i by omega]
      exact ih hx

theorem height_le_of_before {q r : Payment} (h : q.Before r) : q.height.toNat ≤ r.height.toNat := by
  rcases h with hlt | ⟨heq, _⟩
  · exact Nat.le_of_lt hlt
  · rw [heq]

structure Paying (sha256 : Bytes → FixedBytes 32) (p : Projection) (coverage : Coverage) (tree : Tree)
    (payments : List Paid) (x : Tag × List Paid) : Prop where
  nonempty : x.2 ≠ []
  receiver : ∃ r, ∀ q ∈ x.2, q.receiver = r ∧ tag sha256 p.salt r = x.1
  sub : ∀ q ∈ x.2, q ∈ payments
  sorted : x.2.Pairwise fun a b => a.payment.position.toNat < b.payment.position.toNat

include h hext hconsistent in
theorem paying {x : Tag × List Paid} (hx : x ∈ extents) : Paying sha256 p coverage tree payments x := by
  obtain ⟨hne, r, htag, heq⟩ := hext.extent x hx
  refine ⟨hne, ⟨r, fun q hq => ?_⟩, fun q hq => ?_, ?_⟩
  · rw [heq] at hq
    exact ⟨(mem_paymentsOf.mp hq).2, (h.tag r _ htag).symm⟩
  · rw [heq] at hq
    exact (mem_paymentsOf.mp hq).1
  · rw [heq]
    exact hconsistent.sorted r

theorem Paying.height_le (h : Paying sha256 p coverage tree payments x) (hconsistent : Consistent coverage tree payments)
    {i : Nat} {q : Paid} (hq : x.2[i]? = some q) :
    q.payment.height.toNat ≤ (x.2.getLast h.nonempty).payment.height.toNat ∧
      (i + 1 = x.2.length → q = x.2.getLast h.nonempty) := by
  obtain ⟨hi, hget⟩ := List.getElem?_eq_some_iff.mp hq
  have hlast : x.2.getLast h.nonempty = x.2[x.2.length - 1] := getLast_eq_getElem h.nonempty
  by_cases hend : i + 1 = x.2.length
  · have heq : q = x.2.getLast h.nonempty := by
      rw [hlast, ← hget]
      congr 1
      omega
    exact ⟨Nat.le_of_eq (by rw [heq]), fun _ => heq⟩
  · refine ⟨?_, fun hcontra => absurd hcontra hend⟩
    have hlt := pairwise_iff_getElem.mp h.sorted i (x.2.length - 1) hi (by omega) (by omega)
    rw [hget, ← hlast] at hlt
    exact height_le_of_before (hconsistent.order q (h.sub q (List.mem_of_getElem? hq)) _
      (h.sub _ (getLast_mem h.nonempty)) hlt)

section

variable {data : Bytes} {rows : Nat} {directory : DirectoryManifest} {m : CompanionManifest}
  (hfilled : Filled data rows ((slotsOf (placeExtents 0 extents)).map chunkOf)) (hsalt : directory.salt = p.salt)
  (hcoverage : directory.coverage = coverage) (hpayments : m.payments = sizeOf extents) (htree : m.tree = tree)

include h hext hconsistent hlimits hfilled hsalt hcoverage hpayments htree in
theorem lookupSlot_eq {x : Nat × (Tag × List Paid)} (hx : x ∈ placeExtents 0 extents) {i : Nat} {q : Paid}
    (hq : x.2.2[i]? = some q) :
    lookupSlot sha256 directory m (entryAt coverage x.1 x.2) (x.1 + i) (rowAt data (slotRow (x.1 + i))) =
      .ok (recordAt x.1 x.2.2.length (x.1 + i) q, q.payload) := by
  obtain ⟨hmem, _, hle⟩ := mem_placeExtents hx
  obtain ⟨hi, _⟩ := List.getElem?_eq_some_iff.mp hq
  have hpaying := paying h hext hconsistent hmem
  have hslot : x.1 + i < sizeOf extents := by omega
  have hroom := hfilled.room
  rw [length_map, length_slotsOf] at hroom
  have hrows : slotRow (x.1 + i) * rowBytes + rowBytes ≤ data.length := by
    rw [rowSlots_eq] at hroom
    rw [hfilled.length, slotRow, rowSlots_eq, rowBytes]
    omega
  have hrowlength : (rowAt data (slotRow (x.1 + i))).length = rowBytes := by
    rw [rowAt, bytesAt, length_take, length_drop]
    omega
  have hchunk : bytesAt (rowAt data (slotRow (x.1 + i))) ((x.1 + i) % rowSlots * slotBytes) slotBytes =
      chunkOf (recordAt x.1 x.2.2.length (x.1 + i) q, q.payload) := by
    rw [rowAt, bytesAt_bytesAt _ (slot_end_le _)]
    refine hfilled.slot (x.1 + i) _ ?_
    have hget := getElem?_slotsOf hx hq
    rw [Nat.sub_zero] at hget
    rw [getElem?_map, hget, Option.map_some]
  have htotal := hlimits.total
  have heach := hlimits.each _ hmem
  have hcapacity : capacity = 327680 := by decide
  have hmax : maxReceiverPayments = 65535 := by decide
  have hfits : (recordAt x.1 x.2.2.length (x.1 + i) q).Fits :=
    recordAt_fits (by omega) (by omega) (by omega)
  obtain ⟨siblings, hpayload⟩ := hconsistent.payload q (hpaying.sub q (List.mem_of_getElem? hq))
  obtain ⟨hheight, hend⟩ := hpaying.height_le hconsistent hq
  have hcontains := hconsistent.contains q (hpaying.sub q (List.mem_of_getElem? hq))
  have hlast : coverage.startHeight.toNat + (entryAt coverage x.1 x.2).last =
      (x.2.2.getLast hpaying.nonempty).payment.height.toNat := by
    have hstart := (hlimits.within _ hmem _ (getLast_mem hpaying.nonempty)).1
    rw [entryAt, getLast?_eq_getLast_of_ne_nil hpaying.nonempty, Option.map_some, Option.getD_some]
    exact Nat.add_sub_cancel' hstart
  have hrecord : RecordFits sha256 directory (entryAt coverage x.1 x.2) (x.1 + i)
      (recordAt x.1 x.2.2.length (x.1 + i) q) := by
    obtain ⟨r, hreceiver⟩ := hpaying.receiver
    obtain ⟨hqr, htag⟩ := hreceiver q (List.mem_of_getElem? hq)
    refine ⟨⟨Nat.le_add_right .., ?_, rfl⟩, ?_, rfl, rfl, ?_, ?_, ?_, fun hpage => ?_⟩
    · change x.1 + i - x.1 < x.2.2.length
      rwa [Nat.add_sub_cancel_left]
    · rw [hsalt]
      change tag sha256 p.salt q.receiver = x.2.1
      rw [hqr, htag]
    · rw [hcoverage]
      exact hcontains
    · rw [hcoverage, hlast]
      exact UInt32.toNat_lt _
    · rw [hcoverage, hlast]
      exact hheight
    · rw [hcoverage, hlast]
      change x.1 + i - x.1 + 1 = x.2.2.length at hpage
      change q.payment.height.toNat = _
      rw [hend (by omega)]
  rw [lookupSlot, if_neg (by rw [not_or]; exact ⟨not_not_intro hrowlength, by omega⟩), hchunk, chunkOf,
    decodeSlot_bytes hfits, ok_bind]
  change (checkRecord sha256 directory _ _ _ >>= _) = _
  rw [checkRecord, if_pos hrecord, ok_bind, htree]
  have hdecoded : decodePayload q.payload.val (recordAt x.1 x.2.2.length (x.1 + i) q).payment.position.toNat
      tree.size.toNat = some siblings.val := (decodePayload_encodePayload hpayload).2
  dsimp only
  rw [hdecoded]

/-! ## All slots -/

structure Identities.Fits (ids : Identities) (ps : List Payment) : Prop where
  blocks : ids.blocks.Fits (ps.map fun q => (q.height.toNat, q.blockHash))
  transactions : ids.transactions.Fits (ps.map fun q => (q.location, q.txid))
  locations : ids.locations.Fits (ps.map fun q => (q.txid, q.location))

theorem Identities.Fits.add {ids : Identities} {q : Payment} {ps : List Payment} (h : ids.Fits (q :: ps)) :
    ∃ ids', ids.add q = .ok ids' ∧ ids'.Fits ps := by
  obtain ⟨hblock, hblocks⟩ := OrderedMap.fits_cons.mp h.blocks
  obtain ⟨htransaction, htransactions⟩ := OrderedMap.fits_cons.mp h.transactions
  obtain ⟨hlocation, hlocations⟩ := OrderedMap.fits_cons.mp h.locations
  refine ⟨⟨_, _, _⟩, if_neg ?_, hblocks, htransactions, hlocations⟩
  simp [hblock, htransaction, hlocation]

theorem identities_fit (hconsistent : Consistent coverage tree payments) {ps : List Paid} (hsub : ∀ q ∈ ps, q ∈ payments) :
    Identities.Fits {} (ps.map Paid.payment) := by
  have hpair : ∀ {κ ν : Type} [LinearOrder κ] (f : Payment → κ × ν), (∀ a ∈ ps, ∀ b ∈ ps,
      (f a.payment).1 = (f b.payment).1 → (f a.payment).2 = (f b.payment).2) →
      OrderedMap.Fits (∅ : OrderedMap κ ν) ((ps.map Paid.payment).map f) := by
    intro κ ν _ f hagree
    refine ⟨by simp, fun x hx y hy => ?_⟩
    rw [map_map] at hx hy
    obtain ⟨a, ha, rfl⟩ := mem_map.mp hx
    obtain ⟨b, hb, rfl⟩ := mem_map.mp hy
    exact hagree a ha b hb
  refine ⟨hpair _ fun a ha b hb heq => ?_, hpair _ fun a ha b hb heq => ?_, hpair _ fun a ha b hb heq => ?_⟩
  · exact hconsistent.block a (hsub a ha) b (hsub b hb) (UInt32.toNat_inj.mp heq)
  · exact hconsistent.transaction a (hsub a ha) b (hsub b hb) heq
  · exact hconsistent.location a (hsub a ha) b (hsub b hb) heq

theorem readSlots_eq {directory : DirectoryManifest} {m : CompanionManifest} {data : Bytes}
    {slots : List (Entry × Nat)} {records : List RawRecord}
    (hread : List.Forall₂ (fun (s : Entry × Nat) r => ∃ payload,
      lookupSlot sha256 directory m s.1 s.2 (rowAt data (slotRow s.2)) = .ok (r, payload)) slots records)
    {ids : Identities} (hids : ids.Fits (records.map RawRecord.payment)) (pages : List RawRecord) :
    readSlots sha256 directory m data slots ids pages = .ok (pages ++ records) := by
  induction hread generalizing ids pages with
  | nil => rw [readSlots, append_nil]
  | @cons s r slots records hslot _ ih =>
    obtain ⟨payload, hlookup⟩ := hslot
    obtain ⟨ids', hadd, hrest⟩ := hids.add
    rw [readSlots, hlookup, ok_bind]
    change (ids.add r.payment >>= _) = _
    rw [hadd, ok_bind, ih hrest, append_assoc, singleton_append]

theorem forall₂_flatMap {α β γ : Type} {r : β → γ → Prop} {f : α → List β} {g : α → List γ} {xs : List α}
    (h : ∀ x ∈ xs, List.Forall₂ r (f x) (g x)) : List.Forall₂ r (xs.flatMap f) (xs.flatMap g) := by
  induction xs with
  | nil => exact List.Forall₂.nil
  | cons x xs ih =>
    obtain ⟨hx, hrest⟩ := forall_mem_cons.mp h
    exact rel_append hx (ih hrest)

def recordsOf (extents : List (Tag × List Paid)) : List RawRecord := (slotsOf (placeExtents 0 extents)).map Prod.fst

theorem recordsOf_eq (extents : List (Tag × List Paid)) :
    recordsOf extents = (placeExtents 0 extents).flatMap fun x => (recordsAt x.1 x.2.2.length x.1 x.2.2).map Prod.fst := by
  rw [recordsOf, slotsOf, map_flatMap]

theorem map_payment_recordsAt (first count slot : Nat) (ps : List Paid) :
    ((recordsAt first count slot ps).map Prod.fst).map RawRecord.payment = ps.map Paid.payment := by
  induction ps generalizing slot with
  | nil => rfl
  | cons q ps ih =>
    rw [recordsAt, map_cons, map_cons, map_cons, ih]
    rfl

theorem payments_recordsOf (extents : List (Tag × List Paid)) :
    (recordsOf extents).map RawRecord.payment = (extents.flatMap Prod.snd).map Paid.payment := by
  rw [recordsOf_eq]
  generalize 0 = first
  induction extents generalizing first with
  | nil => rfl
  | cons x extents ih =>
    rw [placeExtents, flatMap_cons, map_append, map_payment_recordsAt, ih, flatMap_cons, map_append]

include h hext hconsistent hlimits hfilled hsalt hcoverage hpayments htree in
theorem readSlots_records :
    readSlots sha256 directory m data ((entriesOf coverage (placeExtents 0 extents)).flatMap
      fun entry => entry.slots.map (entry, ·)) {} [] = .ok (recordsOf extents) := by
  rw [← nil_append (recordsOf extents)]
  refine readSlots_eq ?_ ?_ []
  · rw [recordsOf_eq, entriesOf, flatMap_map]
    refine forall₂_flatMap fun x hx => ?_
    refine List.forall₂_iff_get.mpr ⟨by simp [Entry.slots, entryAt, length_recordsAt], fun i hi hi' => ?_⟩
    have hlen : i < x.2.2.length := by simpa [length_recordsAt] using hi'
    have hq := getElem?_eq_getElem hlen
    have hlookup := lookupSlot_eq h hext hconsistent hlimits hfilled hsalt hcoverage hpayments htree hx hq
    have hrecord := getElem?_recordsAt x.1 x.2.2.length x.1 x.2.2 i
    rw [hq, Option.map_some] at hrecord
    obtain ⟨hlt, hget⟩ := List.getElem?_eq_some_iff.mp hrecord
    refine ⟨(x.2.2[i]).payload, ?_⟩
    simp only [get_eq_getElem, getElem_map, Entry.slots, getElem_range', Nat.one_mul, hget]
    exact hlookup
  · rw [payments_recordsOf]
    exact identities_fit hconsistent fun q hq => hext.perm.mem_iff.mp hq

end

/-! ## Pages -/

/-- Every record may follow the one before it, and the last ends its receiver's pages. -/
def Chained : Option RawRecord → List RawRecord → Prop
  | prev, [] => ∀ r, prev = some r → r.page + 1 = r.total
  | prev, r :: records => RawRecord.Follows prev r ∧ Chained (some r) records

theorem checkPages_eq {records : List RawRecord} {prev : Option RawRecord} {outputs : List (Hash × UInt32)}
    {positions : List UInt64} (h : Chained prev records)
    (houtputs : (records.map fun r => (r.payment.txid, r.payment.actionIndex)).Nodup)
    (hpositions : (records.map fun r => r.payment.position).Nodup)
    (houtputs_new : ∀ r ∈ records, (r.payment.txid, r.payment.actionIndex) ∉ outputs)
    (hpositions_new : ∀ r ∈ records, r.payment.position ∉ positions) :
    checkPages records prev outputs positions = .ok () := by
  induction records generalizing prev outputs positions with
  | nil =>
    rw [checkPages, if_neg]
    cases prev with
    | none => simp
    | some r => simpa using h r rfl
  | cons r records ih =>
    obtain ⟨hfollows, hrest⟩ := h
    rw [map_cons, nodup_cons] at houtputs hpositions
    obtain ⟨hout, hout_rest⟩ := forall_mem_cons.mp houtputs_new
    obtain ⟨hpos, hpos_rest⟩ := forall_mem_cons.mp hpositions_new
    rw [checkPages, if_neg (by simp [hfollows, hout, hpos])]
    refine ih hrest houtputs.2 hpositions.2 (fun s hs => ?_) fun s hs => ?_
    · rw [mem_cons, not_or]
      exact ⟨fun heq => houtputs.1 (mem_map.mpr ⟨s, hs, heq⟩), hout_rest s hs⟩
    · rw [mem_cons, not_or]
      exact ⟨fun heq => hpositions.1 (mem_map.mpr ⟨s, hs, heq⟩), hpos_rest s hs⟩

theorem continues_recordAt (hconsistent : Consistent coverage tree payments) {first slot : Nat} (count : Nat) {q s : Paid}
    (hq : q ∈ payments) (hs : s ∈ payments) (hreceiver : s.receiver = q.receiver) (hfirst : first ≤ slot)
    (hlt : q.payment.position.toNat < s.payment.position.toNat) :
    (recordAt first count slot q).Continues (recordAt first count (slot + 1) s) := by
  refine ⟨hreceiver, ?_, rfl, hlt, hconsistent.order q hq s hs hlt, fun heq => ?_, fun hheight hindex => ?_⟩
  · simp only [recordAt]
    omega
  · exact hconsistent.block s hs q hq heq
  · refine hconsistent.transaction s hs q hq ?_
    change toLex (s.payment.height.toNat, s.payment.txIndex.toNat) = toLex (q.payment.height.toNat, q.payment.txIndex.toNat)
    rw [show s.payment.height = q.payment.height from hheight, show s.payment.txIndex = q.payment.txIndex from hindex]

theorem chained_rest (hconsistent : Consistent coverage tree payments) {first count slot : Nat} {q : Paid} {ps : List Paid}
    {more : List RawRecord} (hsub : ∀ s ∈ q :: ps, s ∈ payments) (hreceiver : ∀ s ∈ ps, s.receiver = q.receiver)
    (hsorted : (q :: ps).Pairwise fun a b => a.payment.position.toNat < b.payment.position.toNat) (hfirst : first ≤ slot)
    (hcount : slot - first + 1 + ps.length = count)
    (hmore : ∀ last : RawRecord, last.receiver = q.receiver → last.page + 1 = last.total → Chained (some last) more) :
    Chained (some (recordAt first count slot q)) ((recordsAt first count (slot + 1) ps).map Prod.fst ++ more) := by
  induction ps generalizing slot q with
  | nil => exact hmore _ rfl hcount
  | cons s ps ih =>
    obtain ⟨hq, hrest⟩ := forall_mem_cons.mp hsub
    obtain ⟨hs, hreceivers⟩ := forall_mem_cons.mp hreceiver
    obtain ⟨hfirst_lt, hrest_sorted⟩ := pairwise_cons.mp hsorted
    have hcontinues := continues_recordAt hconsistent count hq (hrest s mem_cons_self) hs hfirst
      (hfirst_lt s mem_cons_self)
    rw [length_cons] at hcount
    refine ⟨?_, ih hrest (fun t ht => (hreceivers t ht).trans hs.symm) hrest_sorted (by omega) (by omega) ?_⟩
    · have hsame : (recordAt first count slot q).receiver = (recordAt first count (slot + 1) s).receiver := hs.symm
      simp only [RawRecord.Follows]
      rw [if_pos hsame]
      exact hcontinues
    · rw [hs]
      exact hmore

theorem chained_records (hconsistent : Consistent coverage tree payments) {part : List (Tag × List Paid)}
    (hpaying : ∀ x ∈ part, Paying sha256 p coverage tree payments x) (htags : part.Pairwise fun a b => a.1 < b.1)
    {prev : Option RawRecord} (hended : ∀ r, prev = some r → r.page + 1 = r.total)
    (hother : ∀ r, prev = some r → ∀ x ∈ part, tag sha256 p.salt r.receiver ≠ x.1) (first : Nat) :
    Chained prev ((placeExtents first part).flatMap fun x => (recordsAt x.1 x.2.2.length x.1 x.2.2).map Prod.fst) := by
  induction part generalizing prev first with
  | nil => exact hended
  | cons x part ih =>
    obtain ⟨hx, hrest⟩ := forall_mem_cons.mp hpaying
    obtain ⟨hx_lt, hrest_tags⟩ := pairwise_cons.mp htags
    obtain ⟨tag', ps⟩ := x
    obtain ⟨r, hreceiver⟩ := hx.receiver
    cases ps with
    | nil => exact absurd rfl hx.nonempty
    | cons q ps =>
      obtain ⟨hqr, htag⟩ := hreceiver q mem_cons_self
      rw [placeExtents, flatMap_cons]
      refine ⟨?_, chained_rest hconsistent hx.sub (fun s hs => ?_) hx.sorted (Nat.le_refl _) ?_ fun last hlast hend => ?_⟩
      · have hpage : (recordAt first (q :: ps).length first q).page = 0 := Nat.sub_self first
        cases prev with
        | none => exact hpage
        | some s =>
          have hne : s.receiver ≠ (recordAt first (q :: ps).length first q).receiver := by
            intro heq
            refine hother s rfl _ mem_cons_self ?_
            rw [heq]
            change tag sha256 p.salt q.receiver = tag'
            rw [hqr, htag]
          simp only [RawRecord.Follows]
          rw [if_neg hne]
          exact ⟨hpage, hended s rfl⟩
      · rw [(hreceiver s (mem_cons_of_mem _ hs)).1, hqr]
      · rw [length_cons]
        omega
      · refine ih hrest hrest_tags (fun s hs => ?_) (fun s hs y hy heq => ?_) _
        · rw [← Option.some.inj hs]
          exact hend
        · rw [← Option.some.inj hs, hlast, hqr, htag] at heq
          exact absurd heq (ne_of_lt (hx_lt y hy))

include h hext hconsistent in
theorem checkPages_records : checkPages (recordsOf extents) none [] [] = .ok () := by
  have hpayments := payments_recordsOf extents
  have hnodup : ∀ {β : Type} (f : Payment → β), (payments.map fun q => f q.payment).Nodup →
      ((recordsOf extents).map fun r => f r.payment).Nodup := by
    intro β f hf
    have heq : (recordsOf extents).map (fun r => f r.payment) = (extents.flatMap Prod.snd).map fun q => f q.payment := by
      have := congrArg (List.map f) hpayments
      rwa [map_map, map_map] at this
    rw [heq]
    exact (hext.perm.map fun q => f q.payment).nodup_iff.mpr hf
  refine checkPages_eq ?_ (hnodup (fun q => (q.txid, q.actionIndex)) hconsistent.outputs)
    (hnodup (fun q => q.position) hconsistent.positions) (by simp) (by simp)
  rw [recordsOf_eq]
  exact chained_records hconsistent (fun x hx => paying h hext hconsistent hx) hext.tags (by simp) (by simp) 0

/-! ## Nothing beside the records -/

section Clear

variable {data : Bytes} {rows : Nat} {chunks : List Bytes}

theorem queryRows_le (hrows : validateCompanionRows rows = .ok ()) (hroom : chunks.length ≤ rows * rowSlots) :
    queryRows chunks.length ≤ rows := by
  unfold validateCompanionRows at hrows
  split_ifs at hrows with hvalid
  rw [rowSlots_eq] at hroom
  rw [queryBlockRows] at hvalid
  rw [queryRows, rowSlots_eq, queryBlockRows]
  omega

theorem slotOffset_lt_queryRows {k : Nat} (hk : k < chunks.length) :
    slotOffset k + slotBytes ≤ queryRows chunks.length * rowBytes := by
  rw [slotOffset_eq, queryRows, rowSlots_eq, queryBlockRows, rowBytes, slotBytes_eq]
  omega

theorem Filled.drop_queryRows (h : Filled data rows chunks) :
    ¬ (data.drop (queryRows chunks.length * rowBytes)).any (fun b => decide (b ≠ 0)) = true := by
  rw [any_eq_true]
  rintro ⟨b, hb, hne⟩
  obtain ⟨i, hi⟩ := mem_iff_getElem?.mp hb
  rw [getElem?_drop] at hi
  refine of_decide_eq_true hne (h.zero _ b hi fun k hk => ?_)
  have := slotOffset_lt_queryRows hk
  omega

theorem Filled.clearPast (h : Filled data rows chunks) (row : Nat) : clearPast chunks.length data row = true := by
  simp only [Receiver.clearPast, all_eq_true, beq_iff_eq]
  intro b hb
  obtain ⟨i, hi⟩ := mem_iff_getElem?.mp hb
  rw [getElem?_drop, rowAt, getElem?_bytesAt] at hi
  split_ifs at hi with hin
  refine h.zero _ b hi fun k hk => ?_
  rw [rowSlots_eq, slotBytes_eq, rowBytes] at hin
  rw [slotOffset_eq, rowSlots_eq, slotBytes_eq, rowBytes]
  -- A slot of this row is among the used ones; a slot of another row is elsewhere.
  rcases Nat.lt_trichotomy (k / 5) row with hlt | heq | hgt
  · omega
  · subst heq
    omega
  · omega

end Clear

/-! ## Validation -/

def companionOf (sha256 : Bytes → FixedBytes 32) (coverage : Coverage) (revision : Hash) (rows : Nat) (tree : Tree)
    (extents : List (Tag × List Paid)) (data : Bytes) : CompanionManifest where
  schema := schema
  coverage := coverage
  directory := revision
  rows := rows
  queryRows := queryRows (sizeOf extents)
  payments := sizeOf extents
  tree := tree
  dataSha256 := sha256 data

/-- A tree at or after the coverage's end, and the coverage's own at its height. -/
structure Tree.Serves (tree : Tree) (coverage : Coverage) : Prop where
  size : tree.size.toNat ≤ treeSize
  height : coverage.endHeight.toNat ≤ tree.height.toNat
  positions : coverage.endPosition.toNat ≤ tree.size.toNat
  same : tree.height = coverage.endHeight → tree.hash = coverage.endHash ∧ tree.size = coverage.endPosition

section Companion

variable {d : Bytes} {rows : Nat} {revision : Hash} {directory : DirectoryManifest}

section

variable (hcoverage : coverage.validate = .ok ()) (hrows : validateCompanionRows rows = .ok ())
  (hroom : sizeOf extents ≤ rows * rowSlots)

include hcoverage hrows hroom

theorem companionOf_validate (hsize : tree.size.toNat ≤ treeSize) :
    (companionOf sha256 coverage revision rows tree extents d).validate = .ok () := by
  have hquery : queryRows (sizeOf extents) ≤ rows := by
    have hlength : (List.replicate (sizeOf extents) ([] : Bytes)).length = sizeOf extents := length_replicate
    rw [← hlength] at hroom ⊢
    exact queryRows_le hrows hroom
  have hschema : checkSchema (companionOf sha256 coverage revision rows tree extents d).schema = .ok () :=
    if_neg (not_not_intro rfl)
  have hcovered : (companionOf sha256 coverage revision rows tree extents d).coverage.validate = .ok () := hcoverage
  have hrows' : validateCompanionRows (companionOf sha256 coverage revision rows tree extents d).rows = .ok () := hrows
  rw [CompanionManifest.validate, hschema, ok_bind, hcovered, ok_bind, hrows', ok_bind]
  refine if_neg ?_
  simp only [companionOf, not_or, Nat.not_lt, ne_eq, not_not]
  exact ⟨hroom, trivial, hquery, hsize⟩

variable (hrevision : directory.revision sha256 = .ok revision) (hsame : directory.coverage = coverage)
  (hpayments : directory.payments = sizeOf extents)

include hrevision hsame hpayments

theorem checkDirectory_eq (hsize : tree.size.toNat ≤ treeSize) :
    (companionOf sha256 coverage revision rows tree extents d).checkDirectory sha256 directory =
      if tree.height.toNat < coverage.endHeight.toNat ∨ tree.size.toNat < coverage.endPosition.toNat ∨
        (tree.height = coverage.endHeight ∧ (tree.hash ≠ coverage.endHash ∨ tree.size ≠ coverage.endPosition)) then
        .error .coverage else .ok () := by
  simp only [CompanionManifest.checkDirectory]
  rw [companionOf_validate hcoverage hrows hroom hsize, ok_bind, hrevision, ok_bind, hsame]
  simp only [companionOf, hpayments, ne_eq, not_true_eq_false, false_or, if_false]

theorem checkDirectory_ok (htree : tree.Serves coverage) :
    (companionOf sha256 coverage revision rows tree extents d).checkDirectory sha256 directory = .ok () := by
  rw [checkDirectory_eq hcoverage hrows hroom hrevision hsame hpayments htree.size]
  refine if_neg ?_
  rintro (hheight | hpositions | ⟨hheight, hother⟩)
  · exact Nat.not_lt.mpr htree.height hheight
  · exact Nat.not_lt.mpr htree.positions hpositions
  · obtain ⟨hhash, hend⟩ := htree.same hheight
    rcases hother with hother | hother
    · exact hother hhash
    · exact hother hend

end

theorem companion_validate {data : Bytes} (h : Projection.Holds sha256 p paid) (hext : Extents p payments extents)
    (hconsistent : Consistent coverage tree payments) (hlimits : Limits coverage extents)
    (hfilled : Filled data rows ((slotsOf (placeExtents 0 extents)).map chunkOf))
    (hcoverage : coverage.validate = .ok ()) (hrows : validateCompanionRows rows = .ok ()) (htree : tree.Serves coverage)
    (hrevision : directory.revision sha256 = .ok revision) (hsalt : directory.salt = p.salt)
    (hsame : directory.coverage = coverage) (hpayments : directory.payments = sizeOf extents) :
    (⟨companionOf sha256 coverage revision rows tree extents data, data⟩ : CompanionTable).validate sha256 directory
      (entriesOf coverage (placeExtents 0 extents)) = .ok () := by
  have hchunks : ((slotsOf (placeExtents 0 extents)).map chunkOf).length = sizeOf extents := by
    rw [length_map, length_slotsOf]
  have hroom := hfilled.room
  rw [hchunks] at hroom
  have hrecords : (recordsOf extents).length = sizeOf extents := by
    rw [recordsOf, length_map, length_slotsOf]
  have hdata : ¬ (data.length ≠ rows * rowBytes ∨ sha256 data ≠ sha256 data ∨
      (data.drop (queryRows (sizeOf extents) * rowBytes)).any (fun b => decide (b ≠ 0)) = true) := by
    have hdrop := hfilled.drop_queryRows
    rw [hchunks] at hdrop
    rw [not_or, not_or]
    exact ⟨not_not_intro hfilled.length, not_not_intro rfl, hdrop⟩
  have hclear : (List.range (queryRows (sizeOf extents))).all (clearPast (sizeOf extents) data) = true := by
    rw [all_eq_true]
    intro row _
    have hrow := hfilled.clearPast row
    rwa [hchunks] at hrow
  have hpages : ¬ ((recordsOf extents).length ≠ sizeOf extents ∨
      ¬ (List.range (queryRows (sizeOf extents))).all (clearPast (sizeOf extents) data) = true) := by
    rw [not_or]
    exact ⟨not_not_intro hrecords, not_not_intro hclear⟩
  have hcheck := checkDirectory_ok (d := data) hcoverage hrows hroom hrevision hsame hpayments htree
  have hslots := readSlots_records (m := companionOf sha256 coverage revision rows tree extents data) h hext hconsistent
    hlimits hfilled hsalt hsame rfl rfl
  simp only [CompanionTable.validate]
  rw [hcheck, ok_bind]
  refine (if_neg hdata).trans ?_
  rw [hslots, ok_bind]
  exact (if_neg hpages).trans (checkPages_records h hext hconsistent)

end Companion

end Zakura.Receiver
