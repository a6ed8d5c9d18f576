import Zakura.Receiver.Lemmas.Paths
import Zakura.Receiver.Lemmas.Validated
import Zakura.Receiver.Theorems

/-! # What receiver segments and paths keep -/

namespace Zakura.Receiver

/-! ## Projection -/

/-- However blocks are projected, the tags are distinct, each in one of its two rows under the committed salt and at most
186 in a row. A block counts as the set of its receivers, and one that is refused changes nothing. -/
theorem projection_keeps (sha256 : Bytes → FixedBytes 32) {p : Projection} {paid : List ReceiverBytes}
    (h : Projection.Reached sha256 p paid) :
    p.order.Nodup ∧ (p.tags.toList.map Prod.snd).Perm p.order ∧
    (∀ (r : ReceiverBytes) t, p.tags[r]? = some t → t = tag sha256 p.salt r) ∧
    (∀ (i : Nat) (t : Tag), p.order[i]? = some t → ∃ row, p.placed.assignment[i]? = some row ∧
      (row = (Directory.candidates sha256 (bucketSalts sha256 p.salt) t.val directoryRows).1 ∨
        row = (Directory.candidates sha256 (bucketSalts sha256 p.salt) t.val directoryRows).2)) ∧
    (∀ row, p.placed.assignment.count row ≤ 186) ∧
    (∀ receivers receivers' block, (∀ r, r ∈ receivers ↔ r ∈ receivers') →
      p.project sha256 receivers block = p.project sha256 receivers' block) ∧
    ∀ receivers block e q, p.project sha256 receivers block = (.error e, q) → q = p := by
  have hholds := h.holds
  refine ⟨hholds.nodup, hholds.order, hholds.tag, fun i t hi => ?_, fun row => ?_,
    fun receivers receivers' block hsame => ?_,
    fun receivers block e q hproject => (hholds.project hproject).2 e rfl⟩
  · obtain ⟨row, hrow, -, hcandidate⟩ := hholds.row hi
    exact ⟨row, hrow, hcandidate⟩
  · by_cases hrow : row ∈ p.placed.assignment
    · exact hholds.count_le (hholds.assigned_lt hrow)
    · rw [List.count_eq_zero_of_not_mem hrow]
      exact Nat.zero_le 186
  · rw [Projection.project, p.newReceivers_congr hsame, Projection.project]

theorem projection_keeps_two : sampleProjection.order.Nodup ∧ sampleProjection.order.length = 2 ∧
    ∀ block, sampleProjection.project lastSha [default, secondReceiver, default] block =
      sampleProjection.project lastSha [secondReceiver, default] block := by
  obtain ⟨hnodup, -, -, -, -, hset, -⟩ := projection_keeps lastSha sampleProjection_reached
  refine ⟨hnodup, by decide +kernel, fun block => hset _ _ block fun r => ?_⟩
  simp only [List.mem_cons, List.not_mem_nil, or_comm (a := r = default), or_assoc, or_self]

/-! ## Validated tables -/

/-- Tables that validate together answer every lookup. Each tag is found in the row it is routed to, each slot of an entry
holds a record of the entry, and the occupied slots are those of the payments. A slot belongs to one entry and an entry to
one receiver, whose pages are numbered from zero in position order. Every sum and offset on the way fits its type and its
table. -/
theorem validated_tables_answer (sha256 : Bytes → FixedBytes 32) (directory : DirectoryTable) (companion : CompanionTable)
    (entries : List Entry) (hdirectory : directory.validate sha256 = .ok entries)
    (hcompanion : companion.validate sha256 directory.manifest entries = .ok ()) :
    (∃ choice, decodeChoice sha256 directory.manifest directory.choice = .ok choice ∧ ∀ t,
      chooseRow sha256 directory.manifest.salt choice t * rowBytes + rowBytes ≤ directory.data.length ∧
      lookupEntry directory.manifest (rowAt directory.data (chooseRow sha256 directory.manifest.salt choice t)) t =
        .ok (entries.find? (·.tag = t))) ∧
    (∃ records : List RawRecord,
      (∀ e ∈ entries, ∀ slot ∈ e.slots, ∃ record payload, records[slot]? = some record ∧
        lookupSlot sha256 directory.manifest companion.manifest e slot (rowAt companion.data (slotRow slot)) =
          .ok (record, payload) ∧
        record.page = slot - e.first ∧ record.total = e.count) ∧
      (∀ slot, Occupied companion.data slot → ∃! e, e ∈ entries ∧ slot ∈ e.slots) ∧
      (∀ e ∈ entries, ∀ slot ∈ e.slots, Occupied companion.data slot) ∧
      (∀ e ∈ entries, ∀ e' ∈ entries, ∀ slot ∈ e.slots, ∀ slot' ∈ e'.slots, ∀ record record',
        records[slot]? = some record → records[slot']? = some record' →
        (record.receiver = record'.receiver ↔ e = e') ∧
        (e = e' → slot < slot' → record.payment.position.toNat < record'.payment.position.toNat))) ∧
    ∀ e ∈ entries,
      e.first + e.count ≤ directory.manifest.payments ∧ directory.manifest.payments < 2 ^ 32 ∧
      directory.manifest.coverage.startHeight.toNat + e.last ≤ directory.manifest.coverage.endHeight.toNat ∧
      ∀ slot ∈ e.slots, slotRow slot < companion.manifest.queryRows ∧
        companion.manifest.queryRows * rowSlots < 2 ^ 32 ∧
        slotRow slot * rowBytes + rowBytes ≤ companion.manifest.queryRows * rowBytes ∧
        companion.manifest.queryRows * rowBytes ≤ companion.data.length ∧
        slot % rowSlots * slotBytes + slotBytes ≤ (rowAt companion.data (slotRow slot)).length := by
  obtain ⟨choice, hd⟩ := DirectoryTable.validate_ok hdirectory
  obtain ⟨records, hc⟩ := CompanionTable.validate_ok hcompanion
  refine ⟨⟨choice, hd.decoded, fun t => ⟨?_, ?_⟩⟩,
    ⟨records, fun e he slot hslot => ?_, fun slot hset => ?_, fun e he slot hslot => ?_, ?_⟩, fun e he => ?_⟩
  · rw [hd.length, ← Nat.succ_mul]
    exact Nat.mul_le_mul_right rowBytes (chooseRow_lt ..)
  · rw [hd.lookupEntry_eq (chooseRow_lt ..), hd.find?_readRow t]
  · obtain ⟨record, payload, hrecord, hlookup⟩ := hc.lookup hd he hslot
    have hfits := hc.fits hd he hslot hrecord
    exact ⟨record, payload, hrecord, hlookup, hfits.1.2.2, hfits.2.2.1⟩
  · rw [hc.occupied_iff hd, hc.payments_eq] at hset
    exact hd.existsUnique_entry hset
  · exact (hc.occupied_iff hd slot).mpr (hc.slot_lt hd he hslot)
  · intro e he e' he' slot hslot slot' hslot' record record' hrecord hrecord'
    refine ⟨hc.receiver_eq_iff hd he he' hslot hslot' hrecord hrecord', ?_⟩
    rintro rfl hlt
    exact (hc.pages_of_entry hd he hslot hslot' hlt hrecord hrecord').2
  · obtain ⟨hpayments, hheights⟩ := hd.manifest_bounds
    have hcapacity : capacity = 327680 := by decide
    have hlast := hd.last_le e he
    refine ⟨hd.slots_end he, by omega, by omega, fun slot hslot => ?_⟩
    obtain ⟨hquery, hle, hrows⟩ := hc.rows_bounds
    have hrow : slotRow slot < companion.manifest.queryRows := by
      rw [hquery]
      exact queryRow_of_lt (hc.slot_lt hd he hslot)
    have hqueried : slotRow slot * rowBytes + rowBytes ≤ companion.manifest.queryRows * rowBytes := by
      rw [← Nat.succ_mul]
      exact Nat.mul_le_mul_right rowBytes hrow
    have hdata : companion.manifest.queryRows * rowBytes ≤ companion.data.length := by
      rw [hc.length]
      exact Nat.mul_le_mul_right rowBytes hle
    refine ⟨hrow, ?_, hqueried, hdata, ?_⟩
    · have hmax : maxCompanionRows = 65536 := rfl
      rw [rowSlots_eq]
      omega
    · rw [rowAt, length_bytesAt (Nat.le_trans hqueried hdata)]
      exact slot_end_le slot

theorem validated_tables_answer_three : ∃ segment entries,
    build lastSha sampleProjection sampleCoverage default 1 queryBlockRows (sampleTree 2) threePaid = .ok segment ∧
      segment.directory.validate lastSha = .ok entries ∧
      ∀ e ∈ entries, ∀ slot ∈ e.slots, ∃ record payload,
        lookupSlot lastSha segment.directory.manifest segment.companion.manifest e slot
          (rowAt segment.companion.data (slotRow slot)) = .ok (record, payload) := by
  obtain ⟨segment, table, hbuild, -⟩ := exists_sampleSegment
  obtain ⟨entries, hdirectory, hcompanion⟩ := buildWith_validated hbuild
  obtain ⟨-, ⟨records, hlookups, -⟩, -⟩ :=
    validated_tables_answer lastSha segment.directory segment.companion entries hdirectory hcompanion
  refine ⟨segment, entries, hbuild, hdirectory, fun e he slot hslot => ?_⟩
  obtain ⟨record, payload, -, hlookup, -⟩ := hlookups e he slot hslot
  exact ⟨record, payload, hlookup⟩

/-! ## Witness paths -/

/-- The commitments of a shard have one state in whatever batches they come; each position's payload supplies exactly
the siblings that are complete, which stay as they are, and a full shard's siblings lead to its root. A final payload is
the same in every longer tree. -/
theorem witness_paths_final (N : NodeHash) (shard : Nat) (hshard : shard < 2 ^ 16) (commitments : List Hash)
    (hcanonical : ∀ commitment ∈ commitments, (N.ofCommitment commitment).isSome) (hcount : commitments.length ≤ 2 ^ 16) :
    (∃ paths : ShardPaths N,
      (∀ batches, batches.flatten = commitments → (ShardPaths.new shard).extendAll batches = .ok paths) ∧
      paths.treeSize = shard * 2 ^ 16 + commitments.length ∧
      ∀ index commitment, commitments[index]? = some commitment →
        let position := shard * 2 ^ 16 + index
        ∃ bytes siblings, paths.payload position = .ok bytes ∧
          decodePayload bytes position paths.treeSize = some siblings ∧
          (∀ level < lowerLevels, ∃ sibling, siblings[level]? = some sibling ∧
            sibling.isSome = supplied position paths.treeSize level) ∧
          (∀ added grown, paths.extend added = .ok grown → ∃ bytes' siblings', grown.payload position = .ok bytes' ∧
            decodePayload bytes' position grown.treeSize = some siblings' ∧
            (∀ (level : Nat) hash, siblings[level]? = some (some hash) → siblings'[level]? = some (some hash)) ∧
            (isFinal position paths.treeSize = true → bytes' = bytes)) ∧
          (commitments.length = 2 ^ 16 → ∃ leaf nodes, N.ofCommitment commitment = some leaf ∧
            siblings = nodes.map (some ∘ N.toBytes) ∧
            paths.root = some (N.toBytes (climb N.combine 0 index leaf nodes)))) ∧
    (∀ siblings position size bytes, encodePayload siblings position size = some bytes →
      decodePayload bytes position size = some siblings.val) ∧
    ∀ whole more positions, (∀ position ∈ positions, isFinal position whole.length = true) →
      payloads N (whole ++ more) positions = payloads N whole positions := by
  have hleafOf : ∀ commitment ∈ commitments, ∃ leaf, ShardPaths.leafOf commitment = .ok (leaf : N.Node) := by
    intro commitment hmem
    obtain ⟨leaf, hleaf⟩ := Option.isSome_iff_exists.mp (hcanonical commitment hmem)
    exact ⟨leaf, ShardPaths.leafOf_eq_ok.mpr hleaf⟩
  obtain ⟨leaves, hleaves⟩ := Except.mapM_ok_of_forall hleafOf
  have hpairs := Except.mapM_eq_ok.mp hleaves
  have hlength := hpairs.length_eq
  refine ⟨⟨ShardPaths.built shard leaves, ?_, ?_, ?_⟩, ?_, ?_⟩
  · rintro batches rfl
    rw [ShardPaths.new_eq_built]
    exact ShardPaths.extendAll_built hleaves (by rw [List.length_nil, Nat.zero_add]; exact hcount)
  · rw [ShardPaths.treeSize_built, hlength]
  · intro index commitment hindex
    have hlt : index < leaves.length := hlength ▸ (List.getElem?_eq_some_iff.mp hindex).1
    obtain ⟨bytes, hpayload, hdecode⟩ := ShardPaths.payload_built hshard (hlength ▸ hcount) hlt
    refine ⟨bytes, _, hpayload, hdecode, fun level hlevel => ?_, fun added grown hgrown => ?_, fun hfull => ?_⟩
    · refine ⟨_, ShardPaths.getElem?_siblings hlevel, ?_⟩
      rw [Option.isSome_map, ShardPaths.isSome_sibling_built hlevel]
    · obtain ⟨bytes', hpayload', hdecode', hkept, hfinal⟩ := ShardPaths.payload_extend hshard hlt hgrown
      refine ⟨bytes', _, hpayload', hdecode', hkept, fun h => ?_⟩
      rw [hfinal h, hpayload] at hpayload'
      exact (Except.ok.inj hpayload').symm
    · rcases forall₂_getElem? hpairs index with ⟨hnone, -⟩ | ⟨_, leaf, hcommitment, hleaf, hok⟩
      · cases hindex.symm.trans hnone
      cases hindex.symm.trans hcommitment
      obtain ⟨nodes, hnodes, hroot⟩ := ShardPaths.root_built (hlength.symm.trans hfull) hleaf
      exact ⟨leaf, nodes, ShardPaths.leafOf_eq_ok.mp hok, hnodes, hroot⟩
  · intro siblings position size bytes hencode
    exact (decodePayload_encodePayload hencode).2
  · intro whole more positions hfinal
    exact payloads_append hfinal more

def leftHash : NodeHash := ⟨Hash, some, id, fun _ left _ => left⟩

theorem witness_paths_final_two : ∃ (paths : ShardPaths leftHash) (bytes : Bytes),
    (ShardPaths.new 3).extendAll [[.zero 32], [.zero 32]] = .ok paths ∧ paths.payload (3 * 2 ^ 16 + 1) = .ok bytes := by
  obtain ⟨⟨paths, hpaths, -, hheld⟩, -⟩ := witness_paths_final leftHash 3 (by decide) [.zero 32, .zero 32]
    (fun _ _ => rfl) (by decide)
  obtain ⟨bytes, -, hpayload, -⟩ := hheld 1 _ rfl
  exact ⟨paths, bytes, hpaths [[.zero 32], [.zero 32]] rfl, hpayload⟩

end Zakura.Receiver
