import Zakura.Receiver.Lemmas.Build
import Zakura.Receiver.Lookup

/-! # Reading a built segment

A built segment answers every receiver it pays with that receiver's payments, and no other tag. -/

namespace Zakura.Receiver

open List Zakura.Except
open Directory (ChoiceTable)

variable {sha256 : Bytes → FixedBytes 32} {p : Projection} {paid : List ReceiverBytes} {coverage : Coverage} {tree : Tree}
  {payments : List Paid} {rows : Nat} {table : ChoiceTable} {segment : Segment}

def paidOf (slot : RawRecord × FixedBytes payloadBytes) : Paid := ⟨slot.1.receiver, slot.1.payment, slot.2⟩

theorem map_paidOf_recordsAt (first count slot : Nat) (ps : List Paid) :
    (recordsAt first count slot ps).map paidOf = ps := by
  induction ps generalizing slot with
  | nil => rfl
  | cons q ps ih =>
    rw [recordsAt, map_cons, ih]
    rfl

section

variable (h : Projection.Holds sha256 p paid) (hext : Extents p payments (extentsOf p payments))
  (hlimits : Limits coverage (extentsOf p payments)) (hsegment : Built sha256 p coverage tree payments rows table segment)

include h hext hlimits hsegment

theorem readEntry_eq (receiver : ReceiverBytes) :
    readEntry sha256 segment receiver =
      .ok ((entriesIn coverage p (extentsOf p payments)
        (chooseRow sha256 p.salt table (tag sha256 p.salt receiver))).find? (·.tag = tag sha256 p.salt receiver)) := by
  obtain ⟨row, hrow⟩ : ∃ row, row = chooseRow sha256 p.salt table (tag sha256 p.salt receiver) := ⟨_, rfl⟩
  have hlt : row < directoryRows := hrow ▸ chooseRow_lt ..
  have hdecode := decodeRow_rowAt h hext hlimits hlt
  rw [readEntry, hsegment.directory]
  dsimp only
  rw [decodeChoice_eq h hext hsegment.built hsegment.keys, ok_bind]
  change lookupEntry _ (rowAt _ (chooseRow sha256 p.salt table (tag sha256 p.salt receiver)))
    (tag sha256 p.salt receiver) = _
  rw [← hrow, lookupEntry, hdecode, ok_bind]
  refine if_neg ?_
  rw [Option.any_eq_true]
  rintro ⟨e, he, hbad⟩
  have hmem := (mem_filter.mp (mem_of_find?_eq_some he)).1
  obtain ⟨x, hx, rfl⟩ := mem_map.mp hmem
  obtain ⟨hextent, _, hle⟩ := mem_placeExtents hx
  rcases of_decide_eq_true hbad with hlarge | hlate
  · change sizeOf (extentsOf p payments) < x.1 + x.2.2.length at hlarge
    omega
  · exact absurd (last_le hlimits hextent x.1) (Nat.not_le.mpr hlate)

theorem readEntry_none {receiver : ReceiverBytes} (hclash : ∀ q ∈ payments, tag sha256 p.salt q.receiver ≠
    tag sha256 p.salt receiver) : readEntry sha256 segment receiver = .ok none := by
  rw [readEntry_eq h hext hlimits hsegment, find?_eq_none.mpr fun e he => ?_]
  obtain ⟨x, hx, rfl⟩ := mem_map.mp (mem_filter.mp he).1
  obtain ⟨hextent, _, _⟩ := mem_placeExtents hx
  obtain ⟨hne, r, htag, heq⟩ := hext.extent _ hextent
  obtain ⟨q, hq⟩ := exists_mem_of_ne_nil _ hne
  rw [heq] at hq
  obtain ⟨hq, hreceiver⟩ := mem_paymentsOf.mp hq
  have hother := hclash q hq
  rw [hreceiver, ← h.tag r _ htag] at hother
  exact fun heq => hother (of_decide_eq_true heq)

theorem readEntry_some {receiver : ReceiverBytes} {t : Tag} (ht : p.tags[receiver]? = some t) :
    ∃ first, (first, (t, paymentsOf payments receiver)) ∈ placeExtents 0 (extentsOf p payments) ∧
      readEntry sha256 segment receiver = .ok (some (entryAt coverage first (t, paymentsOf payments receiver))) := by
  obtain ⟨first, hfirst⟩ := exists_placeExtents 0 (hext.paid receiver t ht)
  refine ⟨first, hfirst, ?_⟩
  have hmem : entryAt coverage first (t, paymentsOf payments receiver) ∈
      entriesOf coverage (placeExtents 0 (extentsOf p payments)) :=
    mem_map_of_mem (f := fun x : Nat × (Tag × List Paid) => entryAt coverage x.1 x.2) hfirst
  have horder : t ∈ p.order := hext.order.mem_iff.mp (mem_map_of_mem (f := Prod.fst) (hext.paid receiver t ht))
  rw [readEntry_eq h hext hlimits hsegment, ← h.tag receiver t ht, chooseRow_eq h hsegment.built horder]
  have hin : entryAt coverage first (t, paymentsOf payments receiver) ∈
      entriesIn coverage p (extentsOf p payments) (rowIn p t) := mem_filter.mpr ⟨hmem, decide_eq_true rfl⟩
  have hsome : ((entriesIn coverage p (extentsOf p payments) (rowIn p t)).find? (·.tag = t)).isSome :=
    find?_isSome.mpr ⟨_, hin, decide_eq_true rfl⟩
  obtain ⟨e, he⟩ := Option.isSome_iff_exists.mp hsome
  have htag := find?_some he
  have hsame := entriesOf_inj hext.tags (mem_filter.mp (mem_of_find?_eq_some he)).1 hmem
    (of_decide_eq_true htag)
  rw [he, hsame]

theorem readAll_some (hconsistent : Consistent coverage tree payments) {receiver : ReceiverBytes}
    (hreceiver : receiver ∈ p.tags) :
    ∃ records, readAll sha256 segment receiver = .ok (some records) ∧
      records.map paidOf = paymentsOf payments receiver := by
  obtain ⟨t, ht⟩ := OrderedMap.mem_iff_exists.mp hreceiver
  obtain ⟨first, hfirst, hentry⟩ := readEntry_some h hext hlimits hsegment ht
  obtain ⟨revision, hcompanion⟩ := hsegment.companion
  refine ⟨recordsAt first (paymentsOf payments receiver).length first (paymentsOf payments receiver), ?_,
    map_paidOf_recordsAt ..⟩
  have hslots : (entryAt coverage first (t, paymentsOf payments receiver)).slots.mapM
      (readSlot sha256 segment (entryAt coverage first (t, paymentsOf payments receiver))) =
      .ok (recordsAt first (paymentsOf payments receiver).length first (paymentsOf payments receiver)) := by
    rw [mapM_eq_ok, List.forall₂_iff_get]
    refine ⟨by simp [Entry.slots, entryAt, length_recordsAt], fun i hi hi' => ?_⟩
    have hlen : i < (paymentsOf payments receiver).length := by simpa [length_recordsAt] using hi'
    have hq := getElem?_eq_getElem hlen
    have hlookup : readSlot sha256 segment (entryAt coverage first (t, paymentsOf payments receiver)) (first + i) = _ :=
      lookupSlot_eq h hext hconsistent hlimits hsegment.filled (by rw [hsegment.directory]; rfl)
        (by rw [hsegment.directory]; rfl) (by rw [hcompanion]; rfl) (by rw [hcompanion]; rfl) hfirst hq
    have hrecord := getElem?_recordsAt first (paymentsOf payments receiver).length first (paymentsOf payments receiver) i
    rw [hq, Option.map_some] at hrecord
    obtain ⟨hlt, hget⟩ := List.getElem?_eq_some_iff.mp hrecord
    simp only [get_eq_getElem, Entry.slots, getElem_range', Nat.one_mul, hget]
    exact hlookup
  rw [readAll, hentry, ok_bind]
  change Except.map some _ = _
  rw [hslots]
  rfl

end

end Zakura.Receiver
