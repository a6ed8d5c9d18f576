import Zakura.Directory.Lemmas.Choice
import Zakura.Lib.Lists
import Zakura.Receiver.Lemmas.Draft
import Zakura.Receiver.Lemmas.Extents

/-! # The built directory passes its checks

The choice table routes every tag to the row that holds its entry, and the rows read back to the entries in tag
order. -/

namespace Zakura.Receiver

open List Zakura.Except
open Directory (ChoiceTable FixedRows)

variable {sha256 : Bytes → FixedBytes 32} {p : Projection} {paid : List ReceiverBytes} {t : Tag}

/-! ## Where a tag is looked up -/

def rowIn (p : Projection) (tag : Tag) : Nat := (rowOf p)[tag]?.getD 0

section

variable (h : Projection.Holds sha256 p paid)

include h in
theorem fits_zip : OrderedMap.Fits (∅ : OrderedMap Tag Nat) (p.order.zip p.placed.assignment) := by
  refine ⟨by simp, fun x hx y hy heq => ?_⟩
  obtain ⟨i, hi⟩ := mem_iff_getElem?.mp hx
  obtain ⟨j, hj⟩ := mem_iff_getElem?.mp hy
  obtain ⟨hi_tag, hi_row⟩ := getElem?_zip_eq_some.mp hi
  obtain ⟨hj_tag, hj_row⟩ := getElem?_zip_eq_some.mp hj
  have hlt := (List.getElem?_eq_some_iff.mp hi_tag).1
  have hij : i = j := (getElem?_inj hlt h.nodup).mp (hi_tag.trans (heq ▸ hj_tag.symm))
  subst hij
  exact Option.some.inj (hi_row.symm.trans hj_row)

include h in
theorem rowIn_eq {i row : Nat} (ht : p.order[i]? = some t) (hrow : p.placed.assignment[i]? = some row) :
    rowIn p t = row := by
  have hmem : (t, row) ∈ p.order.zip p.placed.assignment :=
    List.mem_of_getElem? (getElem?_zip_eq_some.mpr ⟨ht, hrow⟩)
  have hget : (rowOf p)[t]? = some row := ((fits_zip h).getElem?_foldl_insert t row).mpr (Or.inr hmem)
  rw [rowIn, hget, Option.getD_some]

include h in
theorem map_rowIn : p.order.map (rowIn p) = p.placed.assignment := by
  refine ext_getElem? fun i => ?_
  rw [getElem?_map]
  cases ht : p.order[i]? with
  | none =>
    rw [List.getElem?_eq_none_iff] at ht
    rw [getElem?_eq_none (by rw [h.length_assignment]; exact ht), Option.map_none]
  | some t =>
    obtain ⟨row, hrow, _⟩ := h.row ht
    rw [hrow, Option.map_some, rowIn_eq h ht hrow]

include h in
theorem rowIn_lt (ht : t ∈ p.order) : rowIn p t < directoryRows := by
  obtain ⟨i, hi⟩ := mem_iff_getElem?.mp ht
  obtain ⟨row, hrow, hlt, _⟩ := h.row hi
  rw [rowIn_eq h hi hrow]
  exact hlt

def bitsOf (sha256 : Bytes → FixedBytes 32) (p : Projection) : List (Bytes × Bool) :=
  Directory.choiceBits sha256 (bucketSalts sha256 p.salt) (p.order.map Subtype.val) p.placed.assignment directoryRows

include h in
theorem length_bitsOf : (bitsOf sha256 p).length = p.order.length := by
  rw [bitsOf, Directory.choiceBits, length_zipWith, length_map, h.length_assignment, Nat.min_self]

include h in
theorem chooseRow_eq {table : ChoiceTable}
    (hbuilt : ChoiceTable.BuiltFor sha256 choiceDomain p.salt.val (bitsOf sha256 p) table) (ht : t ∈ p.order) :
    chooseRow sha256 p.salt table t = rowIn p t := by
  obtain ⟨i, hi⟩ := mem_iff_getElem?.mp ht
  obtain ⟨row, hrow, _, hcandidate⟩ := h.row hi
  rw [rowIn_eq h hi hrow]
  have hmem : (t.val, decide (row ≠ (Directory.candidates sha256 (bucketSalts sha256 p.salt) t.val directoryRows).1)) ∈
      bitsOf sha256 p := by
    refine List.mem_of_getElem? (i := i) ?_
    rw [bitsOf, Directory.choiceBits, getElem?_zipWith, getElem?_map, hi, hrow]
    rfl
  have hchoice := hbuilt.choice _ hmem
  dsimp only at hchoice
  rw [chooseRow]
  by_cases hfirst : row = (Directory.candidates sha256 (bucketSalts sha256 p.salt) t.val directoryRows).1
  · rw [if_pos (by rw [hchoice]; simp [hfirst]), ← hfirst]
  · rw [if_neg (by rw [hchoice]; simp [hfirst])]
    rcases hcandidate with heq | heq
    · exact absurd heq hfirst
    · exact heq.symm

end

theorem chooseRow_lt (sha256 : Bytes → FixedBytes 32) (salt : Hash) (table : ChoiceTable) (t : Tag) :
    chooseRow sha256 salt table t < directoryRows := by
  obtain ⟨hfst, hsnd⟩ := FixedRows.candidates_lt sha256 (bucketSalts sha256 salt) t.val (by decide : 0 < directoryRows)
  rw [chooseRow]
  split_ifs
  · exact hfst
  · exact hsnd

/-! ## The entries -/

section Entries

variable {coverage : Coverage} {payments : List Paid} {extents : List (Tag × List Paid)}

theorem tags_entriesOf (coverage : Coverage) (first : Nat) (extents : List (Tag × List Paid)) :
    (entriesOf coverage (placeExtents first extents)).map Entry.tag = extents.map Prod.fst := by
  induction extents generalizing first with
  | nil => rfl
  | cons extent extents ih =>
    rw [placeExtents, entriesOf, map_cons, map_cons, map_cons, ← entriesOf, ih]
    rfl

theorem length_entriesOf (coverage : Coverage) (first : Nat) (extents : List (Tag × List Paid)) :
    (entriesOf coverage (placeExtents first extents)).length = extents.length := by
  have h := congrArg List.length (tags_entriesOf coverage first extents)
  rwa [length_map, length_map] at h

variable {first : Nat}

theorem mem_placeExtents {x : Nat × (Tag × List Paid)} (hx : x ∈ placeExtents first extents) :
    x.2 ∈ extents ∧ first ≤ x.1 ∧ x.1 + x.2.2.length ≤ first + sizeOf extents := by
  induction extents generalizing first with
  | nil => simp [placeExtents] at hx
  | cons extent extents ih =>
    have hsum : sizeOf (extent :: extents) = extent.2.length + sizeOf extents := by
      rw [sizeOf, map_cons, sum_cons, sizeOf]
    rw [placeExtents] at hx
    rcases mem_cons.mp hx with rfl | hx
    · dsimp only
      exact ⟨mem_cons_self, Nat.le_refl _, by omega⟩
    · obtain ⟨hmem, hge, hle⟩ := ih hx
      exact ⟨mem_cons_of_mem _ hmem, by omega, by omega⟩

/-- What the build has checked of the extents before it lays them out. -/
structure Limits (coverage : Coverage) (extents : List (Tag × List Paid)) : Prop where
  total : sizeOf extents ≤ capacity
  each : ∀ x ∈ extents, x.2.length ≤ maxReceiverPayments
  nonempty : ∀ x ∈ extents, x.2 ≠ []
  within : ∀ x ∈ extents, ∀ q ∈ x.2, coverage.startHeight.toNat ≤ q.payment.height.toNat ∧
    q.payment.height.toNat ≤ coverage.endHeight.toNat
  span : coverage.endHeight.toNat - coverage.startHeight.toNat ≤ maxHeightOffset

variable {x : Tag × List Paid}

theorem last_le (h : Limits coverage extents) (hx : x ∈ extents) (first : Nat) :
    (entryAt coverage first x).last ≤ coverage.endHeight.toNat - coverage.startHeight.toNat := by
  have hne := h.nonempty x hx
  have hlast := h.within x hx _ (getLast_mem hne)
  rw [entryAt, getLast?_eq_getLast_of_ne_nil hne, Option.map_some, Option.getD_some]
  exact Nat.sub_le_sub_right hlast.2 _

theorem entriesOf_fits (h : Limits coverage extents) : ∀ e ∈ entriesOf coverage (placeExtents 0 extents), e.Fits := by
  intro e he
  obtain ⟨x, hx, rfl⟩ := mem_map.mp he
  obtain ⟨hmem, _, hle⟩ := mem_placeExtents hx
  have hpos : 0 < x.2.2.length := length_pos_iff.mpr (h.nonempty _ hmem)
  have htotal := h.total
  have heach := h.each _ hmem
  have hcapacity : capacity = 327680 := by decide
  have hmax : maxReceiverPayments = 65535 := by decide
  refine ⟨hpos, ?_, ?_, Nat.le_trans (last_le h hmem x.1) h.span⟩
  · change x.1 < 2 ^ 24
    omega
  · change x.2.2.length < 2 ^ 16
    omega

theorem entriesOf_sorted (htags : extents.Pairwise fun a b => a.1 < b.1) (first : Nat) :
    (entriesOf coverage (placeExtents first extents)).Pairwise fun a b => a.tag < b.tag := by
  have h : (extents.map Prod.fst).Pairwise (· < ·) := pairwise_map.mpr htags
  rw [← tags_entriesOf coverage first] at h
  exact pairwise_map.mp h

theorem entriesOf_inj (htags : extents.Pairwise fun a b => a.1 < b.1) {a b : Entry}
    (ha : a ∈ entriesOf coverage (placeExtents first extents)) (hb : b ∈ entriesOf coverage (placeExtents first extents))
    (htag : a.tag = b.tag) : a = b := by
  have hnodup : ((entriesOf coverage (placeExtents first extents)).map Entry.tag).Nodup :=
    pairwise_map.mpr ((entriesOf_sorted htags first).imp fun hlt => ne_of_lt hlt)
  exact inj_on_of_nodup_map hnodup ha hb htag

theorem exists_placeExtents (first : Nat) (hx : x ∈ extents) : ∃ k, (k, x) ∈ placeExtents first extents := by
  induction extents generalizing first with
  | nil => cases hx
  | cons extent extents ih =>
    rcases mem_cons.mp hx with rfl | hx
    · exact ⟨first, mem_cons_self⟩
    · obtain ⟨k, hk⟩ := ih (first + extent.2.length) hx
      exact ⟨k, mem_cons_of_mem _ hk⟩

theorem checkExtents_entriesOf (h : Limits coverage extents) (first : Nat) :
    checkExtents (coverage.endHeight.toNat - coverage.startHeight.toNat)
      (entriesOf coverage (placeExtents first extents)) first = .ok (first + sizeOf extents) := by
  suffices hpart : ∀ part : List (Tag × List Paid), (∀ x ∈ part, x ∈ extents) → ∀ first,
      checkExtents (coverage.endHeight.toNat - coverage.startHeight.toNat)
        (entriesOf coverage (placeExtents first part)) first = .ok (first + sizeOf part) from
    hpart extents (fun x hx => hx) first
  intro part
  induction part with
  | nil => exact fun _ _ => rfl
  | cons x part ih =>
    intro hsub first
    have hlast := last_le h (hsub x mem_cons_self) first
    change checkExtents _ (entryAt coverage first x ::
      entriesOf coverage (placeExtents (first + x.2.length) part)) first = _
    rw [checkExtents, if_neg (by rw [not_or]; exact ⟨not_not_intro rfl, Nat.not_lt.mpr hlast⟩)]
    change checkExtents _ _ (first + x.2.length) = _
    rw [ih (fun y hy => hsub y (mem_cons_of_mem _ hy)), Nat.add_assoc]
    rfl

/-! ## The rows -/

def entriesIn (coverage : Coverage) (p : Projection) (extents : List (Tag × List Paid)) (row : Nat) : List Entry :=
  (entriesOf coverage (placeExtents 0 extents)).filter fun e => rowIn p e.tag = row

def rowFor (coverage : Coverage) (p : Projection) (extents : List (Tag × List Paid)) (row : Nat) : Bytes :=
  rowOfEntries (entriesIn coverage p extents row)

def dataOf (coverage : Coverage) (p : Projection) (extents : List (Tag × List Paid)) : Bytes :=
  ((List.range directoryRows).map (rowFor coverage p extents)).flatten

variable {row : Nat}

section

variable (h : Projection.Holds sha256 p paid) (hext : Extents p payments extents)

include h hext

theorem length_entriesIn (hrow : row < directoryRows) : (entriesIn coverage p extents row).length ≤ rowEntries := by
  have hcount : (entriesIn coverage p extents row).length = p.placed.assignment.count row := by
    have htags := (tags_entriesOf coverage 0 extents) ▸ hext.order
    have hrows := (htags.map (rowIn p)).countP_eq (· == row)
    rw [map_rowIn h, map_map, countP_map] at hrows
    rw [entriesIn, ← countP_eq_length_filter, List.count, ← hrows]
    rfl
  rw [hcount]
  exact h.count_le hrow

theorem width_dataOf :
    ∀ row ∈ (List.range directoryRows).map (rowFor coverage p extents), row.length = rowBytes := by
  intro bytes hbytes
  obtain ⟨row, hrow, rfl⟩ := mem_map.mp hbytes
  exact length_rowOfEntries (length_entriesIn h hext (mem_range.mp hrow))

theorem length_dataOf : (dataOf coverage p extents).length = directoryRows * rowBytes := by
  rw [dataOf, length_flatten_of_width (width_dataOf h hext), length_map, length_range]

theorem decodeRow_rowAt (hlimits : Limits coverage extents) (hrow : row < directoryRows) :
    decodeRow (rowAt (dataOf coverage p extents) row) = .ok (entriesIn coverage p extents row) := by
  have hget : ((List.range directoryRows).map (rowFor coverage p extents))[row]? =
      some (rowFor coverage p extents row) := by
    rw [getElem?_map, getElem?_range hrow, Option.map_some]
  rw [rowAt, dataOf, bytesAt_flatten (width_dataOf h hext) hget]
  exact decodeRow_rowOfEntries (fun e he => entriesOf_fits hlimits e (mem_filter.mp he).1)
    (length_entriesIn h hext hrow) ((entriesOf_sorted hext.tags 0).filter _)

theorem mapM_encodeRow (hlimits : Limits coverage extents) :
    ((entriesOf coverage (placeExtents 0 extents)).foldl (fun rows entry => rows.modify (rowIn p entry.tag) (· ++ [entry]))
      (List.replicate directoryRows [])).mapM encodeRow =
      .ok ((List.range directoryRows).map (rowFor coverage p extents)) := by
  have hrows : (entriesOf coverage (placeExtents 0 extents)).foldl
      (fun rows entry => rows.modify (rowIn p entry.tag) (· ++ [entry])) (List.replicate directoryRows []) =
      (List.range directoryRows).map (entriesIn coverage p extents) := by
    refine ext_getElem? fun row => ?_
    rw [getElem?_foldl_modify, getElem?_replicate, getElem?_map]
    by_cases hrow : row < directoryRows
    · rw [if_pos hrow, getElem?_range hrow]
      rfl
    · rw [if_neg hrow, getElem?_eq_none (by rw [length_range]; omega)]
      rfl
  rw [hrows, mapM_eq_ok, List.forall₂_map_left_iff, List.forall₂_map_right_iff, List.forall₂_same]
  intro row hrow
  exact encodeRow_eq (fun e he => entriesOf_fits hlimits e (mem_filter.mp he).1)
    (length_entriesIn h hext (mem_range.mp hrow)) ((entriesOf_sorted hext.tags 0).filter _)

end

/-! ## Validation -/

variable {m : DirectoryManifest} {table : ChoiceTable} {entries : List Entry}

theorem addRouted_eq {read : List Entry} (hrouted : ∀ e ∈ read, chooseRow sha256 m.salt table e.tag = row)
    (hroom : entries.length + read.length ≤ m.entries) :
    addRouted sha256 m table row read entries = .ok (entries ++ read) := by
  induction read generalizing entries with
  | nil => rw [addRouted, append_nil]
  | cons e read ih =>
    obtain ⟨he, hrest⟩ := forall_mem_cons.mp hrouted
    rw [length_cons] at hroom
    rw [addRouted, if_neg (by rw [not_or]; exact ⟨not_not_intro he, by omega⟩), ih hrest, append_assoc,
      singleton_append]
    rw [length_append, length_singleton]
    omega

theorem readRows_eq {data : Bytes} {inRow : Nat → List Entry} {rows : List Nat}
    (hdecode : ∀ row ∈ rows, decodeRow (rowAt data row) = .ok (inRow row))
    (hrouted : ∀ row ∈ rows, ∀ e ∈ inRow row, chooseRow sha256 m.salt table e.tag = row)
    (hroom : entries.length + (rows.flatMap inRow).length ≤ m.entries) :
    readRows sha256 m table data rows entries = .ok (entries ++ rows.flatMap inRow) := by
  induction rows generalizing entries with
  | nil => rw [readRows, flatMap_nil, append_nil]
  | cons row rows ih =>
    obtain ⟨hrow, hrest⟩ := forall_mem_cons.mp hdecode
    obtain ⟨hrouted_row, hrouted_rest⟩ := forall_mem_cons.mp hrouted
    rw [flatMap_cons, length_append] at hroom
    rw [readRows, hrow]
    change (addRouted sha256 m table row (inRow row) entries >>= _) = _
    rw [addRouted_eq hrouted_row (by omega)]
    change readRows sha256 m table data rows (entries ++ inRow row) = _
    rw [ih hrest hrouted_rest (by rw [length_append]; omega), flatMap_cons, append_assoc]

theorem entriesIn_perm (coverage : Coverage) (h : Projection.Holds sha256 p paid) (hext : Extents p payments extents) :
    ((List.range directoryRows).flatMap (entriesIn coverage p extents)).Perm
      (entriesOf coverage (placeExtents 0 extents)) := by
  refine flatMap_filter_perm fun e he => rowIn_lt h ?_
  have htag : e.tag ∈ extents.map Prod.fst := by
    rw [← tags_entriesOf coverage 0]
    exact mem_map_of_mem he
  exact hext.order.mem_iff.mp htag

theorem sort_entriesIn (h : Projection.Holds sha256 p paid) (hext : Extents p payments extents) :
    (((List.range directoryRows).flatMap (entriesIn coverage p extents)).insertionSort fun a b => a.tag ≤ b.tag) =
      entriesOf coverage (placeExtents 0 extents) := by
  have htotal : Std.Total fun a b : Entry => a.tag ≤ b.tag := ⟨fun a b => le_total ..⟩
  have htrans : IsTrans Entry fun a b => a.tag ≤ b.tag := ⟨fun a b c => le_trans⟩
  have hperm := (perm_insertionSort (fun a b : Entry => a.tag ≤ b.tag) _).trans (entriesIn_perm coverage h hext)
  have hsorted : (entriesOf coverage (placeExtents 0 extents)).Pairwise fun a b => a.tag < b.tag :=
    entriesOf_sorted hext.tags 0
  refine List.Perm.eq_of_pairwise (fun a b ha hb hab hba => ?_) (pairwise_insertionSort ..)
    (hsorted.imp fun hlt => le_of_lt hlt) hperm
  exact entriesOf_inj hext.tags (hperm.mem_iff.mp ha) hb (le_antisymm hab hba)

def manifestOf (sha256 : Bytes → FixedBytes 32) (coverage : Coverage) (p : Projection)
    (extents : List (Tag × List Paid)) (table : ChoiceTable) : DirectoryManifest where
  schema := schema
  coverage := coverage
  salt := p.salt
  entries := extents.length
  payments := sizeOf extents
  choice := { digest := sha256 table.encode, bytes := table.encode.length, keys := extents.length }
  dataSha256 := sha256 (dataOf coverage p extents)

theorem sizeOf_le (h : Limits coverage extents) : extents.length ≤ sizeOf extents ∧
    sizeOf extents ≤ extents.length * maxReceiverPayments := by
  have heach := h.each
  have hnonempty := h.nonempty
  clear h
  induction extents with
  | nil => simp [sizeOf]
  | cons x extents ih =>
    obtain ⟨hx, hrest⟩ := forall_mem_cons.mp heach
    obtain ⟨hne, hne_rest⟩ := forall_mem_cons.mp hnonempty
    obtain ⟨hle, hge⟩ := ih hrest hne_rest
    have hpos : 0 < x.2.length := length_pos_iff.mpr hne
    have hsum : sizeOf (x :: extents) = x.2.length + sizeOf extents := by
      rw [sizeOf, map_cons, sum_cons, sizeOf]
    rw [hsum, length_cons, Nat.succ_mul]
    omega

section Table

variable {table : ChoiceTable}

theorem length_order (hext : Extents p payments extents) : p.order.length = extents.length := by
  rw [← hext.order.length_eq, length_map]

variable (h : Projection.Holds sha256 p paid) (hext : Extents p payments extents)
  (hbuilt : ChoiceTable.BuiltFor sha256 choiceDomain p.salt.val (bitsOf sha256 p) table)

include h hext hbuilt

theorem manifestOf_validate (hlimits : Limits coverage extents) (hcoverage : coverage.validate = .ok ())
    (hpositions : sizeOf extents ≤ coverage.endPosition.toNat - coverage.startPosition.toNat) :
    (manifestOf sha256 coverage p extents table).validate = .ok () := by
  obtain ⟨hle, hge⟩ := sizeOf_le hlimits
  have hkeys : (bitsOf sha256 p).length = extents.length := (length_bitsOf h).trans (length_order hext)
  have hbytes : table.encode.length = choiceBytes extents.length := by
    rw [ChoiceTable.length_encode, hbuilt.length, hbuilt.segment, hkeys, choiceBytes]
  have htotal := hlimits.total
  have hschema : checkSchema (manifestOf sha256 coverage p extents table).schema = .ok () := if_neg (not_not_intro rfl)
  have hcovered : (manifestOf sha256 coverage p extents table).coverage.validate = .ok () := hcoverage
  rw [DirectoryManifest.validate, hschema, ok_bind, hcovered, ok_bind]
  refine if_neg ?_
  simp only [manifestOf, not_or, Nat.not_lt, ne_eq, not_not]
  exact ⟨htotal, hle, hge, hpositions, trivial, hbytes⟩

theorem decodeChoice_eq (hkeys : (bitsOf sha256 p).length ≤ Directory.maxKeys) :
    decodeChoice sha256 (manifestOf sha256 coverage p extents table) table.encode = .ok table := by
  have hdecode : ChoiceTable.decode table.encode .any = .ok table := hbuilt.decode_encode hkeys trivial
  have hcount : table.keys = extents.length := by
    rw [hbuilt.keys, length_bitsOf h, length_order hext]
  rw [decodeChoice, if_neg (by simp [manifestOf]), hdecode, Except.mapError, ok_bind]
  exact if_neg (not_not_intro hcount)

theorem directory_validate (hlimits : Limits coverage extents) (hcoverage : coverage.validate = .ok ())
    (hpositions : sizeOf extents ≤ coverage.endPosition.toNat - coverage.startPosition.toNat)
    (hkeys : (bitsOf sha256 p).length ≤ Directory.maxKeys) :
    (⟨manifestOf sha256 coverage p extents table, dataOf coverage p extents, table.encode⟩ : DirectoryTable).validate
      sha256 = .ok (entriesOf coverage (placeExtents 0 extents)) := by
  have hmanifest := manifestOf_validate h hext hbuilt hlimits hcoverage hpositions
  have hperm := entriesIn_perm coverage h hext
  have hrows : readRows sha256 (manifestOf sha256 coverage p extents table) table (dataOf coverage p extents)
      (List.range directoryRows) [] = .ok ((List.range directoryRows).flatMap (entriesIn coverage p extents)) := by
    rw [← nil_append ((List.range directoryRows).flatMap _)]
    refine readRows_eq (fun row hrow => decodeRow_rowAt h hext hlimits (mem_range.mp hrow))
      (fun row _ e he => ?_) ?_
    · obtain ⟨hmem, hrow⟩ := mem_filter.mp he
      have htag : e.tag ∈ extents.map Prod.fst := by
        rw [← tags_entriesOf coverage 0]
        exact mem_map_of_mem hmem
      exact (chooseRow_eq h hbuilt (hext.order.mem_iff.mp htag)).trans (of_decide_eq_true hrow)
    · rw [length_nil, Nat.zero_add, hperm.length_eq, length_entriesOf]
      exact Nat.le_refl _
  have hdata : ¬ ((dataOf coverage p extents).length ≠ directoryRows * rowBytes ∨ sha256 (dataOf coverage p extents) ≠
      (manifestOf sha256 coverage p extents table).dataSha256) := by
    rw [not_or]
    exact ⟨not_not_intro (length_dataOf h hext), not_not_intro rfl⟩
  have htiles : checkExtents ((manifestOf sha256 coverage p extents table).coverage.endHeight.toNat -
      (manifestOf sha256 coverage p extents table).coverage.startHeight.toNat)
      (entriesOf coverage (placeExtents 0 extents)) 0 = .ok (0 + sizeOf extents) := checkExtents_entriesOf hlimits 0
  simp only [DirectoryTable.validate]
  rw [hmanifest, ok_bind, if_neg hdata, decodeChoice_eq h hext hbuilt hkeys, ok_bind, hrows, ok_bind,
    sort_entriesIn h hext, htiles, ok_bind]
  refine if_neg ?_
  rw [not_or, Nat.zero_add, length_entriesOf]
  exact ⟨not_not_intro rfl, not_not_intro rfl⟩

end Table

end Entries

end Zakura.Receiver
