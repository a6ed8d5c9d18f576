import Zakura.Receiver.Lemmas.CompanionTable

/-! # What building a segment returns -/

namespace Zakura.Receiver

open List Zakura.Except
open Directory (ChoiceTable)

variable {sha256 : Bytes → FixedBytes 32} {p : Projection} {paid : List ReceiverBytes} {coverage : Coverage} {tree : Tree}
  {payments : List Paid} {rows : Nat}

/-- The payments exceed the companion, or one receiver's exceed its entry. -/
def OverCapacity (rows : Nat) (payments : List Paid) : Prop :=
  rows * rowSlots < payments.length ∨ ∃ r, maxReceiverPayments < (paymentsOf payments r).length

theorem overCapacity_iff : OverCapacity rows payments ↔ rows * rowSlots < payments.length ∨
    (byReceiver payments).vals.any (fun paid => decide (maxReceiverPayments < paid.length)) = true := by
  refine or_congr_right ?_
  rw [any_eq_true]
  constructor
  · rintro ⟨r, hr⟩
    rw [(paymentsOf_perm payments r).length_eq] at hr
    have hne : payments.filter (·.receiver = r) ≠ [] := by
      rintro hnil
      rw [hnil] at hr
      cases hr
    refine ⟨_, OrderedMap.mem_vals.mpr ⟨r, ?_⟩, decide_eq_true hr⟩
    rw [getElem?_byReceiver, OrderedMap.collected, if_neg hne]
  · rintro ⟨ps, hps, hlt⟩
    obtain ⟨r, hr⟩ := OrderedMap.mem_vals.mp hps
    rw [getElem?_byReceiver, OrderedMap.collected] at hr
    split_ifs at hr
    obtain rfl := Option.some.inj hr
    refine ⟨r, ?_⟩
    rw [(paymentsOf_perm payments r).length_eq]
    exact of_decide_eq_true hlt

def extentsOf (p : Projection) (payments : List Paid) : List (Tag × List Paid) :=
  ((byReceiver payments).toList.map fun x => (tagIn p x.1, paymentsOf payments x.1)).insertionSort fun a b => a.1 ≤ b.1

theorem sizeOf_eq {extents : List (Tag × List Paid)} (hext : Extents p payments extents) :
    sizeOf extents = payments.length := by
  rw [← hext.perm.length_eq, length_flatMap, sizeOf]

theorem length_le_positions (h : Consistent coverage tree payments) :
    payments.length ≤ coverage.endPosition.toNat - coverage.startPosition.toNat := by
  have hnodup : (payments.map fun q => q.payment.position.toNat).Nodup := by
    have := h.positions.map (f := UInt64.toNat) fun a b heq => UInt64.toNat_inj.mp heq
    rwa [map_map] at this
  have hsub : (payments.map fun q => q.payment.position.toNat) ⊆ List.range' coverage.startPosition.toNat
      (coverage.endPosition.toNat - coverage.startPosition.toNat) := by
    intro n hn
    obtain ⟨q, hq, rfl⟩ := mem_map.mp hn
    obtain ⟨_, _, ⟨hge, hlt⟩, _⟩ := h.contains q hq
    rw [mem_range'_1]
    omega
  have hle := (subperm_of_subset hnodup hsub).length_le
  rwa [length_map, length_range'] at hle

theorem limits {extents : List (Tag × List Paid)} (hext : Extents p payments extents)
    (hconsistent : Consistent coverage tree payments) (hcoverage : coverage.validate = .ok ())
    (hrows : validateCompanionRows rows = .ok ()) (hfits : ¬ OverCapacity rows payments) : Limits coverage extents := by
  rw [OverCapacity, not_or, not_exists] at hfits
  have hmax : rows ≤ maxCompanionRows := by
    unfold validateCompanionRows at hrows
    split_ifs at hrows with hvalid
    omega
  unfold Coverage.validate at hcoverage
  split_ifs at hcoverage with hvalid
  refine ⟨?_, fun x hx => ?_, fun x hx => (hext.extent x hx).1, fun x hx q hq => ?_, by omega⟩
  · rw [sizeOf_eq hext, capacity]
    exact Nat.le_trans (Nat.le_of_not_lt hfits.1) (Nat.mul_le_mul_right _ hmax)
  · obtain ⟨_, r, _, heq⟩ := hext.extent x hx
    rw [heq]
    exact Nat.le_of_not_lt (hfits.2 r)
  · obtain ⟨_, r, _, heq⟩ := hext.extent x hx
    rw [heq] at hq
    exact (hconsistent.contains q (mem_paymentsOf.mp hq).1).2.1

def choiceOf (sha256 : Bytes → FixedBytes 32) (p : Projection) (seedBlock : Hash) (seedAttempts : Nat)
    (fails : UInt32 → Bool) : Except Directory.ChoiceError ChoiceTable :=
  ChoiceTable.build sha256 choiceDomain p.salt.val
    ((candidateSeeds sha256 p.salt seedBlock seedAttempts).filter fun seed => !fails seed) (bitsOf sha256 p)

structure Built (sha256 : Bytes → FixedBytes 32) (p : Projection) (coverage : Coverage) (tree : Tree)
    (payments : List Paid) (rows : Nat) (table : ChoiceTable) (segment : Segment) : Prop where
  built : ChoiceTable.BuiltFor sha256 choiceDomain p.salt.val (bitsOf sha256 p) table
  keys : (bitsOf sha256 p).length ≤ Directory.maxKeys
  directory : segment.directory =
    ⟨manifestOf sha256 coverage p (extentsOf p payments) table, dataOf coverage p (extentsOf p payments), table.encode⟩
  companion : ∃ revision, segment.companion.manifest =
    companionOf sha256 coverage revision rows tree (extentsOf p payments) segment.companion.data
  filled : Filled segment.companion.data rows ((slotsOf (placeExtents 0 (extentsOf p payments))).map chunkOf)

section

variable (h : Projection.Holds sha256 p paid) (hpaid : ∀ r, r ∈ paid ↔ ∃ x ∈ payments, x.receiver = r)
  (hconsistent : Consistent coverage tree payments) (hcoverage : coverage.validate = .ok ())
  (hrows : validateCompanionRows rows = .ok ()) {seedBlock : Hash} {seedAttempts : Nat} {fails : UInt32 → Bool}

include hrows in
theorem buildWith_capacity (hover : OverCapacity rows payments) :
    buildWith sha256 p coverage seedBlock seedAttempts rows tree payments fails = .error .capacity := by
  simp only [buildWith]
  rw [hrows, ok_bind, if_pos (overCapacity_iff.mp hover)]

include h hpaid hconsistent hcoverage hrows

theorem buildWith_eq (hfits : ¬ OverCapacity rows payments) :
    ∃ data, Filled data rows ((slotsOf (placeExtents 0 (extentsOf p payments))).map chunkOf) ∧
      buildWith sha256 p coverage seedBlock seedAttempts rows tree payments fails =
        ((choiceOf sha256 p seedBlock seedAttempts fails).mapError fun _ => Error.choice) >>= fun table =>
          (manifestOf sha256 coverage p (extentsOf p payments) table).revision sha256 >>= fun revision =>
          (⟨manifestOf sha256 coverage p (extentsOf p payments) table, dataOf coverage p (extentsOf p payments),
            table.encode⟩ : DirectoryTable).validate sha256 >>= fun entries =>
          (⟨companionOf sha256 coverage revision rows tree (extentsOf p payments) data, data⟩ : CompanionTable).validate
            sha256 (manifestOf sha256 coverage p (extentsOf p payments) table) entries >>= fun _ =>
          .ok ⟨⟨manifestOf sha256 coverage p (extentsOf p payments) table, dataOf coverage p (extentsOf p payments),
            table.encode⟩, ⟨companionOf sha256 coverage revision rows tree (extentsOf p payments) data, data⟩⟩ := by
  have hext : Extents p payments (extentsOf p payments) := extents_of_sort h hpaid hconsistent.nodup
  have hlimits := limits hext hconsistent hcoverage hrows hfits
  have hroom : 0 + sizeOf (extentsOf p payments) ≤ rows * rowSlots := by
    rw [Nat.zero_add, sizeOf_eq hext]
    exact Nat.le_of_not_lt fun hlt => hfits (Or.inl hlt)
  have hmax : rows * rowSlots < 256 ^ 4 := by
    unfold validateCompanionRows at hrows
    split_ifs at hrows with hvalid
    have hlimit : maxCompanionRows * rowSlots < 256 ^ 4 := by decide
    exact Nat.lt_of_le_of_lt (Nat.mul_le_mul_right _ (by omega)) hlimit
  obtain ⟨data, hadd, hfilled⟩ := addExtents_eq ⟨0, List.replicate directoryRows [],
    List.replicate (rows * rowBytes) 0⟩ (filled_zero rows) rfl
    (fun x hx => ⟨hlimits.nonempty x hx, fun q hq => (hlimits.within x hx q hq).1⟩) hroom hmax
  refine ⟨data, by simpa using hfilled, ?_⟩
  have hover := mt overCapacity_iff.mpr hfits
  simp only [buildWith]
  rw [hrows, ok_bind, if_neg hover, if_neg (not_not_intro (size_byReceiver h hpaid)), mapM_extentOf h hpaid,
    ok_bind]
  change (Draft.addExtents coverage (rowIn p) (extentsOf p payments) _ >>= _) = _
  rw [hadd, ok_bind, mapM_encodeRow h hext hlimits, ok_bind, Nat.zero_add]
  rfl

/-- Once the choice table is built, the directory passes, and so does the companion if its tree serves the
coverage. -/
theorem buildWith_ok (hfits : ¬ OverCapacity rows payments) (htree : tree.Serves coverage) {table : ChoiceTable}
    (hchoice : choiceOf sha256 p seedBlock seedAttempts fails = .ok table) :
    ∃ segment, buildWith sha256 p coverage seedBlock seedAttempts rows tree payments fails = .ok segment ∧
      Built sha256 p coverage tree payments rows table segment := by
  have hext : Extents p payments (extentsOf p payments) := extents_of_sort h hpaid hconsistent.nodup
  have hlimits := limits hext hconsistent hcoverage hrows hfits
  have hpositions := length_le_positions hconsistent
  rw [← sizeOf_eq hext] at hpositions
  obtain ⟨hkeys, _, hbuilt⟩ := ChoiceTable.builtFor_of_build hchoice
  have hmanifest := manifestOf_validate h hext hbuilt hlimits hcoverage hpositions
  obtain ⟨revision, hrevision⟩ : ∃ revision,
      (manifestOf sha256 coverage p (extentsOf p payments) table).revision sha256 = .ok revision := by
    rw [DirectoryManifest.revision, hmanifest]
    exact ⟨_, rfl⟩
  obtain ⟨data, hfilled, hbuild⟩ := buildWith_eq h hpaid hconsistent hcoverage hrows hfits
  refine ⟨⟨⟨manifestOf sha256 coverage p (extentsOf p payments) table, dataOf coverage p (extentsOf p payments),
    table.encode⟩, ⟨companionOf sha256 coverage revision rows tree (extentsOf p payments) data, data⟩⟩, ?_, hbuilt, hkeys,
    rfl, ⟨revision, rfl⟩, hfilled⟩
  rw [hbuild, hchoice, Except.mapError, ok_bind, hrevision, ok_bind,
    directory_validate h hext hbuilt hlimits hcoverage hpositions hkeys, ok_bind,
    companion_validate h hext hconsistent hlimits hfilled hcoverage hrows htree hrevision rfl rfl rfl, ok_bind]

theorem buildWith_coverage (hfits : ¬ OverCapacity rows payments) (hsize : tree.size.toNat ≤ treeSize)
    (hearly : tree.height.toNat < coverage.endHeight.toNat) {table : ChoiceTable}
    (hchoice : choiceOf sha256 p seedBlock seedAttempts fails = .ok table) :
    buildWith sha256 p coverage seedBlock seedAttempts rows tree payments fails = .error .coverage := by
  have hext : Extents p payments (extentsOf p payments) := extents_of_sort h hpaid hconsistent.nodup
  have hlimits := limits hext hconsistent hcoverage hrows hfits
  have hpositions := length_le_positions hconsistent
  rw [← sizeOf_eq hext] at hpositions
  have hroom : sizeOf (extentsOf p payments) ≤ rows * rowSlots := by
    rw [sizeOf_eq hext]
    exact Nat.le_of_not_lt fun hlt => hfits (Or.inl hlt)
  obtain ⟨hkeys, _, hbuilt⟩ := ChoiceTable.builtFor_of_build hchoice
  have hmanifest := manifestOf_validate h hext hbuilt hlimits hcoverage hpositions
  obtain ⟨revision, hrevision⟩ : ∃ revision,
      (manifestOf sha256 coverage p (extentsOf p payments) table).revision sha256 = .ok revision := by
    rw [DirectoryManifest.revision, hmanifest]
    exact ⟨_, rfl⟩
  obtain ⟨data, hfilled, hbuild⟩ := buildWith_eq h hpaid hconsistent hcoverage hrows hfits
  have hcheck := checkDirectory_eq (d := data) hcoverage hrows hroom hrevision rfl rfl hsize
  rw [if_pos (Or.inl hearly)] at hcheck
  rw [hbuild, hchoice, Except.mapError, ok_bind, hrevision, ok_bind,
    directory_validate h hext hbuilt hlimits hcoverage hpositions hkeys, ok_bind]
  simp only [CompanionTable.validate]
  rw [hcheck]
  rfl

end

theorem buildWith_validated {seedBlock : Hash} {seedAttempts : Nat} {fails : UInt32 → Bool} {segment : Segment}
    (h : buildWith sha256 p coverage seedBlock seedAttempts rows tree payments fails = .ok segment) :
    ∃ entries, segment.directory.validate sha256 = .ok entries ∧
      segment.companion.validate sha256 segment.directory.manifest entries = .ok () := by
  simp only [buildWith] at h
  obtain ⟨-, h⟩ := check_bind_eq_ok.mp h
  obtain ⟨-, h⟩ := ite_error_eq_ok.mp h
  obtain ⟨-, h⟩ := ite_error_eq_ok.mp h
  obtain ⟨extents, -, h⟩ := bind_eq_ok.mp h
  obtain ⟨draft, -, h⟩ := bind_eq_ok.mp h
  obtain ⟨encoded, -, h⟩ := bind_eq_ok.mp h
  obtain ⟨table, -, h⟩ := bind_eq_ok.mp h
  obtain ⟨revision, -, h⟩ := bind_eq_ok.mp h
  obtain ⟨entries, hdirectory, h⟩ := bind_eq_ok.mp h
  obtain ⟨hcompanion, h⟩ := check_bind_eq_ok.mp h
  cases h
  exact ⟨entries, hdirectory, hcompanion⟩

end Zakura.Receiver
