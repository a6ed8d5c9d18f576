import Mathlib.Data.List.Chain
import Zakura.Lib.Tiles
import Zakura.Receiver.Lemmas.CompanionTable

/-! # What validation establishes

A directory that validates has distinct tags and extents that tile the slots. A companion that validates against it
holds the record of every slot, and each receiver's pages in order. -/

namespace Zakura.Receiver

open List Zakura.Except
open Directory (ChoiceTable)

variable {sha256 : Bytes → FixedBytes 32}

/-! ## Rows of the directory -/

variable {bytes : Bytes} {entry : Entry}

theorem Entry.decode_count (h : Entry.decode bytes = .ok (some entry)) : 0 < entry.count := by
  rw [Entry.decode] at h
  by_cases hzero : bytes.all (· == 0)
  · rw [if_pos hzero] at h
    cases h
  · rw [if_neg hzero, ite_error_eq_ok] at h
    obtain ⟨hcount, heq⟩ := h
    cases heq
    exact Nat.pos_of_ne_zero hcount

/-- A row's entries as read so far: in tag order, none empty. -/
structure InTagOrder (entries : List Entry) : Prop where
  chain : entries.IsChain fun a b => a.tag < b.tag
  count : ∀ e ∈ entries, 0 < e.count

variable {entries read : List Entry}

theorem decodeEntries_inTagOrder {raws : List Bytes} {ended : Bool} (h : InTagOrder entries)
    (hread : decodeEntries raws entries ended = .ok read) : InTagOrder read := by
  induction raws generalizing entries ended with
  | nil =>
    cases hread
    exact h
  | cons raw raws ih =>
    rw [decodeEntries] at hread
    obtain ⟨decoded, hdecoded, hrest⟩ := bind_eq_ok.mp hread
    cases decoded with
    | none => exact ih h hrest
    | some entry =>
      dsimp only at hrest
      by_cases hcheck : !ended ∧ entries.getLast?.all (·.tag < entry.tag)
      · rw [if_pos hcheck] at hrest
        refine ih ⟨isChain_append.mpr ⟨h.chain, isChain_singleton _, ?_⟩, ?_⟩ hrest
        · intro a ha b hb
          cases hb
          have hall := hcheck.2
          rw [Option.mem_def.mp ha, Option.all_some, decide_eq_true_eq] at hall
          exact hall
        · intro e he
          rcases mem_append.mp he with he | he
          · exact h.count e he
          · rw [mem_singleton.mp he]
            exact Entry.decode_count hdecoded
      · rw [if_neg hcheck] at hrest
        cases hrest

theorem decodeRow_inTagOrder (h : decodeRow bytes = .ok read) : InTagOrder read := by
  rw [decodeRow, ite_error_eq_ok] at h
  exact decodeEntries_inTagOrder ⟨.nil, fun e he => absurd he not_mem_nil⟩ h.2

theorem InTagOrder.nodup (h : InTagOrder entries) : (entries.map Entry.tag).Nodup := by
  have htrans : IsTrans Entry fun a b => a.tag < b.tag := ⟨fun a b c => lt_trans⟩
  exact pairwise_map.mpr ((isChain_iff_pairwise.mp h.chain).imp fun hlt => ne_of_lt hlt)

def readRow (data : Bytes) (row : Nat) : List Entry := (decodeRow (rowAt data row)).toOption.getD []

variable {data : Bytes}

variable {row : Nat}

theorem readRow_eq (h : decodeRow (rowAt data row) = .ok read) : readRow data row = read := by
  rw [readRow, h]
  rfl

variable {m : DirectoryManifest} {choice : ChoiceTable} {out : List Entry}

theorem addRouted_ok (h : addRouted sha256 m choice row read entries = .ok out) :
    out = entries ++ read ∧ ∀ e ∈ read, chooseRow sha256 m.salt choice e.tag = row := by
  induction read generalizing entries with
  | nil =>
    cases h
    exact ⟨(append_nil _).symm, fun e he => absurd he not_mem_nil⟩
  | cons e read ih =>
    rw [addRouted, ite_error_eq_ok, not_or] at h
    obtain ⟨⟨hroute, -⟩, hrest⟩ := h
    obtain ⟨hout, hrouted⟩ := ih hrest
    exact ⟨by rw [hout, append_assoc, singleton_append], forall_mem_cons.mpr ⟨not_not.mp hroute, hrouted⟩⟩

theorem readRows_ok {rows : List Nat} (h : readRows sha256 m choice data rows entries = .ok out) :
    out = entries ++ rows.flatMap (readRow data) ∧ ∀ row ∈ rows, decodeRow (rowAt data row) = .ok (readRow data row) ∧
      ∀ e ∈ readRow data row, chooseRow sha256 m.salt choice e.tag = row := by
  induction rows generalizing entries with
  | nil =>
    cases h
    exact ⟨(append_nil _).symm, fun row hrow => absurd hrow not_mem_nil⟩
  | cons row rows ih =>
    rw [readRows] at h
    obtain ⟨read, hread, h⟩ := bind_eq_ok.mp h
    obtain ⟨added, hadded, hrest⟩ := bind_eq_ok.mp h
    obtain ⟨rfl, hrouted⟩ := addRouted_ok hadded
    obtain ⟨hout, hrows⟩ := ih hrest
    obtain rfl := readRow_eq hread
    refine ⟨?_, forall_mem_cons.mpr ⟨⟨hread, hrouted⟩, hrows⟩⟩
    rw [hout, flatMap_cons, append_assoc]

/-! ## Extents -/

def Entry.lastSlot (entry : Entry) : Nat := entry.first + entry.count - 1

variable {slot : Nat}

theorem Entry.mem_slots : slot ∈ entry.slots ↔ entry.first ≤ slot ∧ slot < entry.first + entry.count := by
  rw [Entry.slots, mem_range'_1]

theorem Entry.mem_slots_iff_covers (hcount : 0 < entry.count) :
    slot ∈ entry.slots ↔ entry.first ≤ slot ∧ slot ≤ entry.lastSlot := by
  rw [Entry.mem_slots, Entry.lastSlot]
  omega

variable {stop : Nat}

theorem checkExtents_tiles {span next : Nat} (hcount : ∀ e ∈ entries, 0 < e.count)
    (h : checkExtents span entries next = .ok stop) :
    Tiles Entry.first Entry.lastSlot next entries stop ∧ ∀ e ∈ entries, e.last ≤ span := by
  induction entries generalizing next with
  | nil =>
    cases h
    exact ⟨rfl, fun e he => absurd he not_mem_nil⟩
  | cons e entries ih =>
    obtain ⟨hpos, hrest⟩ := forall_mem_cons.mp hcount
    rw [checkExtents, ite_error_eq_ok, not_or] at h
    obtain ⟨⟨hfirst, hlast⟩, h⟩ := h
    obtain ⟨htiles, hlasts⟩ := ih hrest h
    have hfirst := not_not.mp hfirst
    have hend : e.lastSlot + 1 = next + e.count := by
      rw [Entry.lastSlot]
      omega
    refine ⟨⟨hfirst, ?_, by rwa [hend]⟩, forall_mem_cons.mpr ⟨Nat.not_lt.mp hlast, hlasts⟩⟩
    rw [Entry.lastSlot]
    omega

/-! ## The directory -/

structure DirectoryTable.Validated (sha256 : Bytes → FixedBytes 32) (table : DirectoryTable) (choice : ChoiceTable)
    (entries : List Entry) : Prop where
  manifest : table.manifest.validate = .ok ()
  length : table.data.length = directoryRows * rowBytes
  decoded : decodeChoice sha256 table.manifest table.choice = .ok choice
  rows : ∀ row < directoryRows, decodeRow (rowAt table.data row) = .ok (readRow table.data row)
  routed : ∀ row < directoryRows, ∀ e ∈ readRow table.data row, chooseRow sha256 table.manifest.salt choice e.tag = row
  perm : entries.Perm ((List.range directoryRows).flatMap (readRow table.data))
  extents : checkExtents (table.manifest.coverage.endHeight.toNat - table.manifest.coverage.startHeight.toNat) entries 0 =
    .ok table.manifest.payments

theorem DirectoryTable.validate_ok {table : DirectoryTable} (h : table.validate sha256 = .ok entries) :
    ∃ choice, table.Validated sha256 choice entries := by
  rw [DirectoryTable.validate] at h
  obtain ⟨hmanifest, h⟩ := check_bind_eq_ok.mp h
  obtain ⟨hdata, h⟩ := ite_error_eq_ok.mp h
  rw [not_or, not_not] at hdata
  obtain ⟨choice, hchoice, h⟩ := bind_eq_ok.mp h
  obtain ⟨read, hread, h⟩ := bind_eq_ok.mp h
  obtain ⟨next, hnext, h⟩ := bind_eq_ok.mp h
  obtain ⟨hcounts, heq⟩ := ite_error_eq_ok.mp h
  rw [not_or, not_not, not_not] at hcounts
  cases heq
  obtain ⟨hread, hrows⟩ := readRows_ok hread
  rw [nil_append] at hread
  have hrow : ∀ {row}, row < directoryRows → row ∈ List.range directoryRows := mem_range.mpr
  exact ⟨choice, hmanifest, hdata.1, hchoice, fun row hlt => (hrows row (hrow hlt)).1,
    fun row hlt => (hrows row (hrow hlt)).2, hread ▸ perm_insertionSort .., by rw [hnext, hcounts.2]⟩

namespace DirectoryTable.Validated

variable {table : DirectoryTable} {choice : ChoiceTable} {entries : List Entry} (h : table.Validated sha256 choice entries)

include h

variable {e : Entry}

theorem mem_iff : e ∈ entries ↔ ∃ row < directoryRows, e ∈ readRow table.data row := by
  rw [h.perm.mem_iff, mem_flatMap]
  exact exists_congr fun row => and_congr_left' mem_range

theorem mem_readRow (he : e ∈ entries) :
    chooseRow sha256 table.manifest.salt choice e.tag < directoryRows ∧
      e ∈ readRow table.data (chooseRow sha256 table.manifest.salt choice e.tag) := by
  obtain ⟨row, hrow, hmem⟩ := h.mem_iff.mp he
  rw [h.routed row hrow e hmem]
  exact ⟨hrow, hmem⟩

theorem count_pos : ∀ e ∈ entries, 0 < e.count := by
  intro e he
  obtain ⟨row, hrow, hmem⟩ := h.mem_iff.mp he
  exact (decodeRow_inTagOrder (h.rows row hrow)).count e hmem

theorem eq_of_tag {a b : Entry} (ha : a ∈ entries) (hb : b ∈ entries)
    (htag : a.tag = b.tag) : a = b := by
  obtain ⟨hrow, hmem⟩ := h.mem_readRow ha
  have hother := (h.mem_readRow hb).2
  rw [← htag] at hother
  exact inj_on_of_nodup_map (decodeRow_inTagOrder (h.rows _ hrow)).nodup hmem hother htag

theorem tiles :
    Tiles Entry.first Entry.lastSlot 0 entries table.manifest.payments := (checkExtents_tiles h.count_pos h.extents).1

theorem last_le : ∀ e ∈ entries,
    e.last ≤ table.manifest.coverage.endHeight.toNat - table.manifest.coverage.startHeight.toNat :=
  (checkExtents_tiles h.count_pos h.extents).2

theorem slots_end (he : e ∈ entries) : e.first + e.count ≤ table.manifest.payments := by
  have hpos := h.count_pos e he
  have hlt := (h.tiles.bounds he).2.2
  rw [Entry.lastSlot] at hlt
  omega

theorem existsUnique_entry {slot : Nat} (hslot : slot < table.manifest.payments) :
    ∃! e, e ∈ entries ∧ slot ∈ e.slots := by
  obtain ⟨e, he, hcovers⟩ := h.tiles.covered (Nat.zero_le slot) hslot
  refine ⟨e, ⟨he, (Entry.mem_slots_iff_covers (h.count_pos e he)).mpr hcovers⟩, fun e' ⟨he', hmem⟩ => ?_⟩
  exact h.tiles.eq_of_covers he' he ((Entry.mem_slots_iff_covers (h.count_pos e' he')).mp hmem) hcovers

theorem manifest_bounds :
    table.manifest.payments ≤ capacity ∧
      table.manifest.coverage.startHeight.toNat ≤ table.manifest.coverage.endHeight.toNat := by
  have hm := h.manifest
  rw [DirectoryManifest.validate] at hm
  obtain ⟨-, hm⟩ := check_bind_eq_ok.mp hm
  obtain ⟨hcoverage, hm⟩ := check_bind_eq_ok.mp hm
  have hcounts := (ite_error_eq_ok.mp hm).1
  rw [Coverage.validate] at hcoverage
  have hheights := (ite_error_eq_ok.mp hcoverage).1
  rw [not_or] at hcounts hheights
  exact ⟨Nat.not_lt.mp hcounts.1, Nat.not_lt.mp hheights.1⟩

theorem lookupEntry_eq {row : Nat} (hrow : row < directoryRows) (t : Tag) :
    lookupEntry table.manifest (rowAt table.data row) t = .ok ((readRow table.data row).find? (·.tag = t)) := by
  rw [lookupEntry, h.rows row hrow, ok_bind, if_neg]
  intro hany
  obtain ⟨e, hfound, hbad⟩ := Option.any_eq_true _ _ |>.mp hany
  have he : e ∈ entries := h.mem_iff.mpr ⟨row, hrow, mem_of_find?_eq_some hfound⟩
  rcases of_decide_eq_true hbad with hbad | hbad
  · exact absurd (h.slots_end he) (Nat.not_le.mpr hbad)
  · exact absurd (h.last_le e he) (Nat.not_le.mpr hbad)

theorem find?_readRow (t : Tag) :
    (readRow table.data (chooseRow sha256 table.manifest.salt choice t)).find? (·.tag = t) =
      entries.find? (·.tag = t) := by
  have hrow := chooseRow_lt sha256 table.manifest.salt choice t
  have hin : ∀ e ∈ readRow table.data (chooseRow sha256 table.manifest.salt choice t), e ∈ entries :=
    fun e he => h.mem_iff.mpr ⟨_, hrow, he⟩
  refine Option.ext fun e => ?_
  rw [find?_key_eq_some fun a ha b hb => h.eq_of_tag (hin a ha) (hin b hb),
    find?_key_eq_some fun a ha b hb => h.eq_of_tag ha hb]
  constructor
  · intro ⟨hmem, htag⟩
    exact ⟨hin e hmem, htag⟩
  · rintro ⟨he, rfl⟩
    exact ⟨(h.mem_readRow he).2, rfl⟩

end DirectoryTable.Validated

/-! ## One slot of the companion -/

def slotAt (data : Bytes) (slot : Nat) : Bytes :=
  bytesAt (rowAt data (slotRow slot)) (slot % rowSlots * slotBytes) slotBytes

def Occupied (data : Bytes) (slot : Nat) : Prop := ∃ b ∈ slotAt data slot, b ≠ 0

variable {record : RawRecord}

theorem RawRecord.decode_set (h : RawRecord.decode bytes = .ok (some record)) : ∃ b ∈ bytes, b ≠ 0 := by
  rw [RawRecord.decode, ite_error_eq_ok] at h
  obtain ⟨-, h⟩ := h
  by_cases hzero : bytes.all (· == 0)
  · rw [if_pos hzero] at h
    cases h
  · rw [all_eq_true] at hzero
    push Not at hzero
    obtain ⟨b, hb, hne⟩ := hzero
    exact ⟨b, hb, by simpa using hne⟩

theorem decodeSlot_set {payload : FixedBytes payloadBytes} (h : decodeSlot bytes = .ok (some (record, payload))) :
    ∃ b ∈ bytes, b ≠ 0 := by
  rw [decodeSlot] at h
  obtain ⟨-, h⟩ := ite_error_eq_ok.mp h
  obtain ⟨decoded, hdecoded, h⟩ := bind_eq_ok.mp h
  cases decoded with
  | none =>
    dsimp only at h
    split_ifs at h
    cases h
  | some found =>
    obtain ⟨b, hb, hne⟩ := RawRecord.decode_set hdecoded
    exact ⟨b, mem_of_mem_take hb, hne⟩

section Slot

variable {directory : DirectoryManifest} {m : CompanionManifest} {entry : Entry} {slot : Nat} {record : RawRecord}
  {payload : FixedBytes payloadBytes}

theorem lookupSlot_ok {row : Bytes} (h : lookupSlot sha256 directory m entry slot row = .ok (record, payload)) :
    slot < m.payments ∧ RecordFits sha256 directory entry slot record ∧
      ∃ b ∈ bytesAt row (slot % rowSlots * slotBytes) slotBytes, b ≠ 0 := by
  rw [lookupSlot] at h
  obtain ⟨hrow, h⟩ := ite_error_eq_ok.mp h
  rw [not_or] at hrow
  obtain ⟨decoded, hdecoded, h⟩ := bind_eq_ok.mp h
  cases decoded with
  | none => cases h
  | some found =>
    obtain ⟨hcheck, h⟩ := check_bind_eq_ok.mp h
    have hfits : RecordFits sha256 directory entry slot found.1 := by
      by_contra hnot
      rw [checkRecord, if_neg hnot] at hcheck
      cases hcheck
    cases hpayload : decodePayload found.2.val found.1.payment.position.toNat m.tree.size.toNat with
    | none =>
      rw [hpayload] at h
      cases h
    | some siblings =>
      rw [hpayload] at h
      cases h
      exact ⟨Nat.not_le.mp hrow.2, hfits, decodeSlot_set hdecoded⟩

end Slot

/-! ## The companion -/

def entrySlots (entries : List Entry) : List (Entry × Nat) := entries.flatMap fun entry => entry.slots.map (entry, ·)

theorem mem_entrySlots {x : Entry × Nat} : x ∈ entrySlots entries ↔ x.1 ∈ entries ∧ x.2 ∈ x.1.slots := by
  rw [entrySlots, mem_flatMap]
  constructor
  · rintro ⟨e, he, hx⟩
    obtain ⟨slot, hslot, rfl⟩ := mem_map.mp hx
    exact ⟨he, hslot⟩
  · intro ⟨he, hslot⟩
    exact ⟨x.1, he, mem_map.mpr ⟨x.2, hslot, rfl⟩⟩

theorem map_snd_entrySlots {start : Nat} (hcount : ∀ e ∈ entries, 0 < e.count)
    (h : Tiles Entry.first Entry.lastSlot start entries stop) :
    (entrySlots entries).map Prod.snd = List.range' start (stop - start) := by
  induction entries generalizing start with
  | nil =>
    obtain rfl : start = stop := h
    rw [Nat.sub_self]
    rfl
  | cons e entries ih =>
    obtain ⟨hpos, hcount⟩ := forall_mem_cons.mp hcount
    obtain ⟨hfirst, -, hrest⟩ := h
    have hle := hrest.length_le
    have hnext : e.lastSlot + 1 = start + e.count := by
      rw [Entry.lastSlot]
      omega
    have hslots : (e.slots.map (e, ·)).map Prod.snd = List.range' start e.count := by
      rw [map_map, ← hfirst]
      exact map_id _
    rw [hnext] at hrest hle
    change ((e.slots.map (e, ·)) ++ entrySlots entries).map Prod.snd = _
    rw [map_append, hslots, ih hcount hrest, range'_append_1]
    congr 1
    omega

variable {directory : DirectoryManifest}

theorem readSlots_ok {m : CompanionManifest} {slots : List (Entry × Nat)} {ids : Identities} {pages out : List RawRecord}
    (h : readSlots sha256 directory m data slots ids pages = .ok out) :
    ∃ records, out = pages ++ records ∧ List.Forall₂ (fun (s : Entry × Nat) r => ∃ payload,
      lookupSlot sha256 directory m s.1 s.2 (rowAt data (slotRow s.2)) = .ok (r, payload)) slots records := by
  induction slots generalizing ids pages with
  | nil =>
    cases h
    exact ⟨[], (append_nil _).symm, .nil⟩
  | cons s slots ih =>
    rw [readSlots] at h
    obtain ⟨⟨record, payload⟩, hlookup, h⟩ := bind_eq_ok.mp h
    obtain ⟨ids', -, h⟩ := bind_eq_ok.mp h
    obtain ⟨records, hout, hread⟩ := ih h
    exact ⟨record :: records, by rw [hout, append_assoc, singleton_append], .cons ⟨payload, hlookup⟩ hread⟩

variable {records : List RawRecord} {prev : Option RawRecord}

theorem checkPages_ok {outputs : List (Hash × UInt32)} {positions : List UInt64}
    (h : checkPages records prev outputs positions = .ok ()) : Chained prev records := by
  induction records generalizing prev outputs positions with
  | nil =>
    rw [checkPages, ite_error_eq_ok] at h
    rintro r rfl
    simpa using h.1
  | cons r records ih =>
    rw [checkPages] at h
    obtain ⟨hcheck, hrest⟩ := ite_error_eq_ok.mp h
    rw [not_or, not_not] at hcheck
    exact ⟨hcheck.1, ih hrest⟩

theorem Chained.follows (h : Chained prev records) {i : Nat} {r s : RawRecord} (hr : records[i]? = some r)
    (hs : records[i + 1]? = some s) : RawRecord.Follows (some r) s := by
  induction records generalizing prev i with
  | nil => cases hr
  | cons record records ih =>
    cases i with
    | zero =>
      cases hr
      cases records with
      | nil => cases hs
      | cons next records =>
        cases hs
        exact h.2.1
    | succ i => exact ih h.2 hr hs

/-- What a companion that validates against the entries with these records satisfies. -/
structure CompanionTable.Validated (sha256 : Bytes → FixedBytes 32) (table : CompanionTable)
    (directory : DirectoryManifest) (entries : List Entry) (records : List RawRecord) : Prop where
  binding : table.manifest.checkDirectory sha256 directory = .ok ()
  length : table.data.length = table.manifest.rows * rowBytes
  unqueried : ∀ b ∈ table.data.drop (table.manifest.queryRows * rowBytes), b = 0
  read : List.Forall₂ (fun (s : Entry × Nat) r => ∃ payload, lookupSlot sha256 directory table.manifest s.1 s.2
    (rowAt table.data (slotRow s.2)) = .ok (r, payload)) (entrySlots entries) records
  count : records.length = table.manifest.payments
  unpaid : ∀ row < table.manifest.queryRows, clearPast table.manifest.payments table.data row = true
  pages : Chained none records

theorem CompanionTable.validate_ok {table : CompanionTable} (h : table.validate sha256 directory entries = .ok ()) :
    ∃ records, table.Validated sha256 directory entries records := by
  rw [CompanionTable.validate] at h
  obtain ⟨hbinding, h⟩ := check_bind_eq_ok.mp h
  obtain ⟨hdata, h⟩ := ite_error_eq_ok.mp h
  rw [not_or, not_or, not_not, any_eq_true] at hdata
  obtain ⟨pages, hpages, h⟩ := bind_eq_ok.mp h
  obtain ⟨hcounts, h⟩ := ite_error_eq_ok.mp h
  rw [not_or, not_not, not_not, all_eq_true] at hcounts
  obtain ⟨records, hrecords, hread⟩ := readSlots_ok hpages
  rw [nil_append] at hrecords
  cases hrecords
  refine ⟨pages, hbinding, hdata.1, fun b hb => ?_, hread, hcounts.1, fun row hrow => ?_, checkPages_ok h⟩
  · by_contra hne
    exact hdata.2.2 ⟨b, hb, decide_eq_true hne⟩
  · exact hcounts.2 row (mem_range.mpr hrow)

theorem queryRow_of_lt {payments : Nat} (h : slot < payments) : slotRow slot < queryRows payments := by
  rw [slotRow, queryRows, rowSlots_eq, queryBlockRows]
  omega

namespace CompanionTable.Validated

section Alone

variable {table : CompanionTable} {directory : DirectoryManifest} {entries : List Entry} {records : List RawRecord}
  (h : table.Validated sha256 directory entries records)

include h

theorem payments_eq : table.manifest.payments = directory.payments := by
  have hbinding := h.binding
  rw [CompanionManifest.checkDirectory] at hbinding
  obtain ⟨-, hbinding⟩ := check_bind_eq_ok.mp hbinding
  obtain ⟨revision, -, hbinding⟩ := bind_eq_ok.mp (ite_error_eq_ok.mp hbinding).2
  have hsame := (ite_error_eq_ok.mp hbinding).1
  rw [not_or, not_or] at hsame
  exact not_not.mp hsame.2.1

theorem rows_bounds :
    table.manifest.queryRows = queryRows table.manifest.payments ∧ table.manifest.queryRows ≤ table.manifest.rows ∧
      table.manifest.rows ≤ maxCompanionRows := by
  have hbinding := h.binding
  rw [CompanionManifest.checkDirectory] at hbinding
  obtain ⟨hmanifest, -⟩ := check_bind_eq_ok.mp hbinding
  rw [CompanionManifest.validate] at hmanifest
  obtain ⟨-, hmanifest⟩ := check_bind_eq_ok.mp hmanifest
  obtain ⟨-, hmanifest⟩ := check_bind_eq_ok.mp hmanifest
  obtain ⟨hrows, hmanifest⟩ := check_bind_eq_ok.mp hmanifest
  have hcounts := (ite_error_eq_ok.mp hmanifest).1
  rw [validateCompanionRows] at hrows
  have hlimit := (ite_error_eq_ok.mp hrows).1
  rw [not_or, not_or, not_or, not_not] at hcounts
  rw [not_or, not_or] at hlimit
  exact ⟨hcounts.2.1, Nat.not_lt.mp hcounts.2.2.1, Nat.not_lt.mp hlimit.2.2⟩

theorem clear_of_le {slot : Nat}
    (hslot : table.manifest.payments ≤ slot) : ¬ Occupied table.data slot := by
  rintro ⟨b, hb, hne⟩
  have hrow := mem_of_mem_take hb
  by_cases hqueried : slotRow slot < table.manifest.queryRows
  · have hclear := h.unpaid _ hqueried
    rw [clearPast, all_eq_true] at hclear
    have hused : min (table.manifest.payments - slotRow slot * rowSlots) rowSlots ≤ slot % rowSlots := by
      rw [slotRow]
      have := Nat.div_add_mod slot rowSlots
      rw [Nat.mul_comm] at this
      omega
    have hin := drop_subset_drop_left (rowAt table.data (slotRow slot)) (Nat.mul_le_mul_right slotBytes hused) hrow
    exact hne (by simpa using hclear b hin)
  · have hin := mem_of_mem_take (mem_of_mem_drop hrow)
    refine hne (h.unqueried b (drop_subset_drop_left table.data ?_ hin))
    exact Nat.mul_le_mul_right rowBytes (Nat.not_lt.mp hqueried)

end Alone

variable {directory : DirectoryTable} {companion : CompanionTable} {choice : ChoiceTable} {entries : List Entry}
  {records : List RawRecord} {e : Entry} {slot : Nat} {record : RawRecord}
  (hc : companion.Validated sha256 directory.manifest entries records) (hd : directory.Validated sha256 choice entries)

include hd in
theorem getElem?_entrySlots (he : e ∈ entries) (hslot : slot ∈ e.slots) :
    (entrySlots entries)[slot]? = some (e, slot) := by
  have hlt : slot < directory.manifest.payments :=
    Nat.lt_of_lt_of_le (Entry.mem_slots.mp hslot).2 (hd.slots_end he)
  have hslots := congrArg (·[slot]?) (map_snd_entrySlots hd.count_pos hd.tiles)
  rw [getElem?_map, getElem?_range' (by omega), Option.map_eq_some_iff] at hslots
  obtain ⟨x, hx, hsnd⟩ := hslots
  have hsnd : x.2 = slot := by omega
  obtain ⟨hentry, hmem⟩ := mem_entrySlots.mp (List.mem_of_getElem? hx)
  rw [hsnd] at hmem
  rw [hx, ← (hd.existsUnique_entry hlt).unique ⟨hentry, hmem⟩ ⟨he, hslot⟩, ← hsnd]

include hc hd

theorem slot_lt (he : e ∈ entries) (hslot : slot ∈ e.slots) : slot < companion.manifest.payments := by
  rw [hc.payments_eq]
  exact Nat.lt_of_lt_of_le (Entry.mem_slots.mp hslot).2 (hd.slots_end he)

theorem lookup (he : e ∈ entries) (hslot : slot ∈ e.slots) :
    ∃ record payload, records[slot]? = some record ∧ lookupSlot sha256 directory.manifest companion.manifest e slot
      (rowAt companion.data (slotRow slot)) = .ok (record, payload) := by
  rcases forall₂_getElem? hc.read slot with ⟨hnone, -⟩ | ⟨x, record, hx, hrecord, payload, hlookup⟩
  · rw [getElem?_entrySlots hd he hslot] at hnone
    cases hnone
  · rw [getElem?_entrySlots hd he hslot] at hx
    cases hx
    exact ⟨record, payload, hrecord, hlookup⟩

theorem fits (he : e ∈ entries) (hslot : slot ∈ e.slots) (hrecord : records[slot]? = some record) :
    RecordFits sha256 directory.manifest e slot record := by
  obtain ⟨found, payload, hfound, hlookup⟩ := hc.lookup hd he hslot
  cases hrecord.symm.trans hfound
  exact (lookupSlot_ok hlookup).2.1

theorem occupied_iff (slot : Nat) : Occupied companion.data slot ↔ slot < companion.manifest.payments := by
  constructor
  · intro hset
    by_contra hle
    exact hc.clear_of_le (Nat.not_lt.mp hle) hset
  · intro hlt
    rw [hc.payments_eq] at hlt
    obtain ⟨e, ⟨he, hslot⟩, -⟩ := hd.existsUnique_entry hlt
    obtain ⟨record, payload, -, hlookup⟩ := hc.lookup hd he hslot
    exact (lookupSlot_ok hlookup).2.2

variable {next : RawRecord}

theorem continues (he : e ∈ entries) (hslot : slot ∈ e.slots) (hnext : slot + 1 ∈ e.slots)
    (hrecord : records[slot]? = some record) (hat : records[slot + 1]? = some next) : record.Continues next := by
  have hfollows : RawRecord.Follows (some record) next := hc.pages.follows hrecord hat
  have hpage := (hc.fits hd he hnext hat).1.2.2
  have hfirst := (Entry.mem_slots.mp hslot).1
  rw [RawRecord.Follows] at hfollows
  by_cases hreceiver : record.receiver = next.receiver
  · rwa [if_pos hreceiver] at hfollows
  · rw [if_neg hreceiver] at hfollows
    omega

theorem pages_of_entry (he : e ∈ entries) (hslot : slot ∈ e.slots) {later : Nat} (hlater : later ∈ e.slots)
    (hlt : slot < later) (hrecord : records[slot]? = some record) (hat : records[later]? = some next) :
    record.receiver = next.receiver ∧ record.payment.position.toNat < next.payment.position.toNat := by
  induction later, hlt using Nat.le_induction generalizing next with
  | base =>
    have hcontinues := hc.continues hd he hslot hlater hrecord hat
    exact ⟨hcontinues.1.symm, hcontinues.2.2.2.1⟩
  | succ later hle ih =>
    have hbetween : later ∈ e.slots := by
      rw [Entry.mem_slots] at hslot hlater ⊢
      omega
    obtain ⟨mid, -, hmid, -⟩ := hc.lookup hd he hbetween
    obtain ⟨hreceiver, hposition⟩ := ih hbetween hmid
    have hcontinues := hc.continues hd he hbetween hlater hmid hat
    exact ⟨hreceiver.trans hcontinues.1.symm, hposition.trans hcontinues.2.2.2.1⟩

theorem receiver_eq_iff {e' : Entry} {slot' : Nat} {record' : RawRecord} (he : e ∈ entries)
    (he' : e' ∈ entries) (hslot : slot ∈ e.slots) (hslot' : slot' ∈ e'.slots) (hrecord : records[slot]? = some record)
    (hrecord' : records[slot']? = some record') : record.receiver = record'.receiver ↔ e = e' := by
  constructor
  · intro hreceiver
    refine hd.eq_of_tag he he' ?_
    rw [← (hc.fits hd he hslot hrecord).2.1, ← (hc.fits hd he' hslot' hrecord').2.1, hreceiver]
  · rintro rfl
    rcases Nat.lt_trichotomy slot slot' with hlt | rfl | hlt
    · exact (hc.pages_of_entry hd he hslot hslot' hlt hrecord hrecord').1
    · cases hrecord.symm.trans hrecord'
      rfl
    · exact (hc.pages_of_entry hd he hslot' hslot hlt hrecord' hrecord).1.symm

end CompanionTable.Validated

end Zakura.Receiver
