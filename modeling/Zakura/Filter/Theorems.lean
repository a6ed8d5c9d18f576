import Zakura.Filter.Lemmas.Decode
import Zakura.Filter.Lemmas.Envelope
import Zakura.Filter.Lemmas.Matching
import Zakura.Filter.Lemmas.ShardMap
import Zakura.Lib.SipHash

/-! # Filters never miss a script, their batches are canonical, and what re-cuts may declare -/

namespace Zakura.Filter

open List

/-- The builder's bytes pass the strict validator, and matching finds exactly the scripts that hash to a
decoded value; these include every script that was added. -/
theorem finish_validate_matchKeyed (sip : SipHash) (keys : FilterKeys) (limits : FilterLimits) (m p : Nat)
    (scripts : List Bytes) (w : GcsFilterWriter)
    (hw : w = scripts.foldl GcsFilterWriter.addElement (.new keys.k0 keys.k1 m p))
    (hm : 1 ≤ m ∧ m < 2 ^ 32) (hp : p ≤ 31)
    (hcount : w.elements.length ≤ limits.maxElements) (hminimum : w.elements.length * (p + 1) < 2 ^ 64)
    (hrange : w.elements.length * m < 2 ^ 64) :
    ∃ bytes wrote, w.finish sip = .ok (bytes, wrote) ∧
      (bytes.length ≤ limits.maxBytes →
        ∃ filter, validateParameters bytes limits m p = .ok filter ∧
          ∀ walletScripts,
            (matchKeyed sip filter keys walletScripts).Pairwise (· < ·) ∧
            (∀ index, index ∈ matchKeyed sip filter keys walletScripts ↔
              ∃ script, walletScripts[index]? = some script ∧ script ≠ [] ∧
                hashToRange sip keys.k0 keys.k1 filter.range script ∈ filter.values) ∧
            ∀ index script, walletScripts[index]? = some script → script ∈ scripts → script ≠ [] →
              index ∈ matchKeyed sip filter keys walletScripts) := by
  obtain ⟨hk0, hk1, hwm, hwp⟩ := GcsFilterWriter.addElements_params scripts (.new keys.k0 keys.k1 m p)
  rw [← hw] at hk0 hk1 hwm hwp
  have hmem : ∀ script, script ∈ w.elements ↔ script ∈ scripts ∧ script ≠ [] := by
    intro script
    rw [hw, GcsFilterWriter.mem_addElements]
    simp [GcsFilterWriter.new]
  simp only [GcsFilterWriter.new] at hk0 hk1 hwm hwp
  obtain ⟨hlength, hsorted, hvalues⟩ := w.mapped_spec sip
  obtain ⟨body, wrote, pad, hfinish, hpad, hbody⟩ :=
    finish_spec sip (by omega : 1 ≤ w.m) (by omega) (by rwa [hwm])
  refine ⟨_, wrote, hfinish, fun hbytes => ?_⟩
  have hbelow : ∀ v ∈ w.mapped sip, v < (w.mapped sip).length * m := by
    intro v hv
    obtain ⟨element, helement, rfl⟩ := (hvalues v).mp hv
    rw [hlength, hwm]
    exact hashToRange_lt _ _ _ (Nat.mul_pos (length_pos_of_mem helement) hm.1) _
  rw [← hlength] at hbytes hcount hminimum hrange ⊢
  rw [hwp] at hbody
  refine ⟨_, validateParameters_spec hm.1 hm.2 hp hcount hrange hminimum hsorted hbelow hpad hbody hbytes, ?_⟩
  intro walletScripts
  refine ⟨matchKeyed_pairwise keys walletScripts hsorted, fun index => mem_matchKeyed hsorted, ?_⟩
  intro index script hscript hadded hnonempty
  refine (mem_matchKeyed hsorted).mpr ⟨script, hscript, hnonempty, (hvalues _).mpr ⟨script, ?_, ?_⟩⟩
  · exact (hmem script).mpr ⟨hadded, hnonempty⟩
  · rw [hk0, hk1, hwm, ← hlength]

/-- Two scripts under the Zcash parameters, one of them added twice, and a wallet that knows the second. -/
theorem finish_validate_matchKeyed_sample :
    ∃ bytes wrote,
      ([[0x51], [0x76, 0xa9], [], [0x51]].foldl GcsFilterWriter.addElement (.new 7 9 784931 19)).finish
          SipHash.hash24 = .ok (bytes, wrote) ∧ bytes.length ≤ 8 ∧
        ∃ filter, validateParameters bytes .zcashMainnet 784931 19 = .ok filter ∧
          1 ∈ matchKeyed SipHash.hash24 filter ⟨7, 9⟩ [[], [0x76, 0xa9]] := by
  obtain ⟨bytes, wrote, hfinish, hvalid⟩ := finish_validate_matchKeyed SipHash.hash24 ⟨7, 9⟩ .zcashMainnet
    784931 19 [[0x51], [0x76, 0xa9], [], [0x51]] _ rfl (by decide) (by decide) (by decide) (by decide)
    (by decide)
  have hlength : bytes.length ≤ 8 := by
    have hcomputed : (([[0x51], [0x76, 0xa9], [], [0x51]].foldl GcsFilterWriter.addElement
        (.new 7 9 784931 19)).finish SipHash.hash24).toOption.all (fun r => r.1.length ≤ 8) = true := by
      decide +kernel
    rw [hfinish] at hcomputed
    simpa [Except.toOption] using hcomputed
  obtain ⟨filter, haccepted, hmatch⟩ := hvalid (Nat.le_trans hlength (by decide))
  refine ⟨bytes, wrote, hfinish, hlength, filter, haccepted, ?_⟩
  exact (hmatch [[], [0x76, 0xa9]]).2.2 1 [0x76, 0xa9] rfl (by decide) (by decide)

/-! ## Envelopes -/

def Accepted (bytes : Bytes) : Prop :=
  (∃ batch, FilterBatch.decode bytes = .ok batch) ∨ ∃ batch, RangeFilterBatch.decode bytes = .ok batch

/-- The two envelopes differ in their magic, so no string continues one to the other. -/
theorem magics_disjoint {batch : FilterBatch} {other : RangeFilterBatch} {more more' : Bytes} :
    batch.encode ++ more ≠ other.encode ++ more' := by
  intro h
  simp only [FilterBatch.encode, RangeFilterBatch.encode, append_assoc] at h
  have hmagic := (List.append_inj h (by decide)).1
  exact absurd hmagic (by decide)

/-- No accepted string is continued to an accepted one, of either kind. -/
theorem not_accepted_append {bytes more : Bytes} (h : Accepted bytes) (hmore : more ≠ []) :
    ¬ Accepted (bytes ++ more) := by
  intro h'
  obtain ⟨batch, hbatch⟩ | ⟨batch, hbatch⟩ := h
  · obtain ⟨other, hother⟩ | ⟨other, hother⟩ := h'
    · exact hmore (Envelope.decodeWhole_append FilterBatch.read_reads hbatch hother)
    · obtain ⟨-, rfl, -⟩ := (Envelope.decodeWhole_ok FilterBatch.read_reads).mp hbatch
      obtain ⟨-, heq, -⟩ := (Envelope.decodeWhole_ok RangeFilterBatch.read_reads).mp hother
      exact magics_disjoint (heq.trans (append_nil _).symm)
  · obtain ⟨other, hother⟩ | ⟨other, hother⟩ := h'
    · obtain ⟨-, rfl, -⟩ := (Envelope.decodeWhole_ok RangeFilterBatch.read_reads).mp hbatch
      obtain ⟨-, heq, -⟩ := (Envelope.decodeWhole_ok FilterBatch.read_reads).mp hother
      exact magics_disjoint ((append_nil _).trans heq.symm)
    · exact hmore (Envelope.decodeWhole_append RangeFilterBatch.read_reads hbatch hother)

/-- Batches within the limits are read back, accepted strings are written back, no string is a batch of both kinds,
and no accepted string has a strict prefix or an extension that is accepted. -/
theorem envelopes_canonical :
    (∀ batch : FilterBatch, batch.WithinFormat → batch.encode.length ≤ Envelope.maxBatchBytes →
      FilterBatch.decode batch.encode = .ok batch) ∧
    (∀ batch : RangeFilterBatch, batch.WithinFormat → batch.encode.length ≤ Envelope.maxBatchBytes →
      RangeFilterBatch.decode batch.encode = .ok batch) ∧
    (∀ bytes batch, FilterBatch.decode bytes = .ok batch → batch.encode = bytes) ∧
    (∀ bytes batch, RangeFilterBatch.decode bytes = .ok batch → batch.encode = bytes) ∧
    (∀ bytes batch other, FilterBatch.decode bytes = .ok batch → RangeFilterBatch.decode bytes ≠ .ok other) ∧
    (∀ bytes more, Accepted bytes → more ≠ [] → ¬ Accepted (bytes ++ more)) ∧
    ∀ bytes start tail, Accepted bytes → bytes = start ++ tail → tail ≠ [] → ¬ Accepted start := by
  refine ⟨?_, ?_, ?_, ?_, ?_, ?_, ?_⟩
  · intro batch hformat hsize
    exact (Envelope.decodeWhole_ok FilterBatch.read_reads).mpr ⟨hformat, rfl, hsize⟩
  · intro batch hformat hsize
    exact (Envelope.decodeWhole_ok RangeFilterBatch.read_reads).mpr ⟨hformat, rfl, hsize⟩
  · intro bytes batch hdecode
    exact ((Envelope.decodeWhole_ok FilterBatch.read_reads).mp hdecode).2.1.symm
  · intro bytes batch hdecode
    exact ((Envelope.decodeWhole_ok RangeFilterBatch.read_reads).mp hdecode).2.1.symm
  · intro bytes batch other hbatch hother
    obtain ⟨-, rfl, -⟩ := (Envelope.decodeWhole_ok FilterBatch.read_reads).mp hbatch
    obtain ⟨-, heq, -⟩ := (Envelope.decodeWhole_ok RangeFilterBatch.read_reads).mp hother
    exact magics_disjoint (congrArg (· ++ []) heq)
  · intro bytes more haccepted hmore
    exact not_accepted_append haccepted hmore
  · rintro bytes start tail haccepted rfl htail hstart
    exact not_accepted_append hstart htail haccepted

/-! ## Re-cuts -/

namespace ShardMap

/-- Every later re-cut that supersedes an entry of this geometry and start height declares a higher revision. -/
def RisesAt (map : ShardMap) (geometry : String) (startHeight : UInt64) : Prop :=
  map.recuts.Pairwise fun earlier later => ∀ a ∈ earlier.superseded, ∀ b ∈ later.superseded,
    a.geometry = geometry ∧ a.startHeight = startHeight → b.geometry = geometry ∧ b.startHeight = startHeight →
      a.revision < b.revision

/-- A map's check compares each superseded revision with the published one, and no two re-cuts with each other. -/
theorem revisions_rise_iff (map : ShardMap) (geometry : String) (startHeight : UInt64)
    (h : map.checkShape = .ok ()) :
    (map.revisions geometry startHeight).Pairwise (· < ·) ↔ map.RisesAt geometry startHeight := by
  have hpublished : ((map.shards.filter fun entry => entry.geometry = geometry ∧ entry.startHeight = startHeight).map
      (·.revision)).Pairwise (· < ·) := by
    have hone := published_le_one h geometry startHeight
    generalize map.shards.filter _ = published at hone
    match published, hone with
    | [], _ => exact List.Pairwise.nil
    | [entry], _ => exact pairwise_singleton _ _
  rw [revisions, recutsByEpoch_eq h, pairwise_append, pairwise_map, pairwise_filter,
    pairwise_flatMap]
  simp only [decide_eq_true_eq]
  constructor
  · intro hpairs
    exact hpairs.1.2
  · intro hrise
    refine ⟨⟨fun recut hrecut => ?_, hrise⟩, hpublished, ?_⟩
    · -- Within a re-cut no start height repeats.
      refine ((checkShape_recuts h).1 recut hrecut).1.imp fun {a b} hne ha hb => ?_
      exact absurd (ha.2.trans hb.2.symm) hne
    · intro a ha b hb
      obtain ⟨shard, hshard, rfl⟩ := mem_map.mp ha
      obtain ⟨entry, hentry, rfl⟩ := mem_map.mp hb
      obtain ⟨hmem, hat⟩ := mem_filter.mp hshard
      obtain ⟨hlisted, hentryAt⟩ := mem_filter.mp hentry
      obtain ⟨recut, hrecut, hin⟩ := mem_flatMap.mp hmem
      rw [decide_eq_true_eq] at hat hentryAt
      exact superseded_lt_published h hrecut hin hlisted (hentryAt.1.trans hat.1.symm) (hentryAt.2.trans hat.2.symm)

def digestOf (c : Char) : String := String.ofList (List.replicate 64 c)

/-- One published shard whose two re-cuts superseded revision 3 and then revision 2 of it. -/
def fallingMap : ShardMap where
  startHeight := 0
  sealKeys := ["recent"]
  shards := [⟨0, "recent", 0, 9, digestOf '0', digestOf '1', 1, 1, digestOf 'a', 5, true⟩]
  recuts := [⟨1, 0, [⟨0, "recent", 0, 9, digestOf '1', digestOf 'b', 3, true⟩]⟩,
    ⟨2, 0, [⟨0, "recent", 0, 9, digestOf '1', digestOf 'c', 2, true⟩]⟩]

theorem fallingMap_passes_and_falls : fallingMap.checkShape = .ok () ∧
    ¬ (fallingMap.revisions "recent" 0).Pairwise (· < ·) := by
  have hshape : fallingMap.checkShape = .ok () := by decide +kernel
  refine ⟨hshape, ?_⟩
  rw [revisions, recutsByEpoch_eq hshape]
  decide

/-- The same map with its re-cuts' revisions in rising order. -/
def risingMap : ShardMap where
  startHeight := 0
  sealKeys := ["recent"]
  shards := [⟨0, "recent", 0, 9, digestOf '0', digestOf '1', 1, 1, digestOf 'a', 5, true⟩]
  recuts := [⟨1, 0, [⟨0, "recent", 0, 9, digestOf '1', digestOf 'b', 2, true⟩]⟩,
    ⟨2, 0, [⟨0, "recent", 0, 9, digestOf '1', digestOf 'c', 3, true⟩]⟩]

theorem risingMap_revisions_rise_iff :
    risingMap.checkShape = .ok () ∧ ((risingMap.revisions "recent" 0).Pairwise (· < ·) ↔ risingMap.RisesAt "recent" 0) := by
  have hshape : risingMap.checkShape = .ok () := by decide +kernel
  exact ⟨hshape, revisions_rise_iff risingMap "recent" 0 hshape⟩

end ShardMap

end Zakura.Filter
