import Zakura.Hints.Lemmas.Ranges

/-! # Receiver hints -/

namespace Zakura.Hints

open List Zakura.Except Gcs
open Zakura.Filter (Encodes FilterLimits SipHash deltaBits validateParameters validateParameters_ok length_golombBits)
open Zakura.Receiver (Error Hash ReceiverBytes)

/-! ## One language for two decoders -/

theorem quotients_fit {p : Nat} {bytes : Bytes} (hp : p ≤ 31) (h : bytes.length < 2 ^ (61 - p)) :
    8 * bytes.length * 2 ^ p < 2 ^ 64 := by
  have hpow : 2 ^ 64 = 8 * 2 ^ (61 - p) * 2 ^ p := by
    rw [show (8 : Nat) = 2 ^ 3 from rfl, ← Nat.pow_add, ← Nat.pow_add]
    congr 1
    omega
  rw [hpow]
  exact Nat.mul_lt_mul_of_pos_right (by omega) (Nat.two_pow_pos p)

/-- The validator and the receiver's decoder accept the same strings, the Golomb-Rice encodings of ascending
values in range, and read the same values from them; splitting stops at the end of the encoding. -/
theorem decoders_canonical (limits : FilterLimits) (m p : Nat) (hm : 1 ≤ m ∧ m < 2 ^ 32) (hp : p ≤ 31)
    (hmax : limits.maxElements < 2 ^ 32) :
    (∀ bytes filter, validateParameters bytes limits m p = .ok filter ↔
      bytes.length ≤ limits.maxBytes ∧ Encodes p m limits.maxElements filter.values bytes ∧
        filter = ⟨bytes, filter.values, filter.values.length * m⟩) ∧
    (∀ bytes : Bytes, bytes.length < 2 ^ (61 - p) → ∀ values count,
      (visit bytes p m limits.maxElements push [] = .ok (values, count) ↔
        Encodes p m limits.maxElements values bytes ∧ count = values.length) ∧
      (bytes.length ≤ limits.maxBytes →
        (visit bytes p m limits.maxElements push [] = .ok (values, count) ↔
          validateParameters bytes limits m p = .ok ⟨bytes, values, values.length * m⟩ ∧
            count = values.length))) ∧
    ∀ bytes : Bytes, bytes.length < 2 ^ (61 - p) → ∀ set tail,
      split bytes p m limits.maxElements = .done (.ok (set, tail)) ↔
        bytes = set ++ tail ∧ ∃ values, Encodes p m limits.maxElements values set := by
  have hrange : limits.maxElements * m < 2 ^ 32 * 2 ^ 32 := Nat.mul_lt_mul'' hmax hm.2
  have hvalidate : ∀ bytes filter, validateParameters bytes limits m p = .ok filter ↔ _ :=
    fun _ _ => validateParameters_ok hm.1 hm.2 hp hmax
  refine ⟨hvalidate, ?_, ?_⟩
  · intro bytes hbytes values count
    have hvisit : visit bytes p m limits.maxElements push [] = .ok (values, count) ↔ _ :=
      visit_push_ok (by omega) hrange (by omega) (quotients_fit hp hbytes)
    refine ⟨hvisit, fun hlength => hvisit.trans ?_⟩
    rw [hvalidate]
    simp only [hlength, true_and, and_true]
  · intro bytes hbytes set tail
    exact split_ok (by omega) hrange (by omega) (quotients_fit hp hbytes)

/-- The values 5, 7 and 20, followed by another byte. -/
theorem decoders_canonical_three : visit [3, 0x95, 0xC8] 2 10 4 push [] = .ok ([5, 7, 20], 3) ∧
    split [3, 0x95, 0xC8, 7] 2 10 4 = .done (.ok ([3, 0x95, 0xC8], [7])) := by
  have hagree := decoders_canonical ⟨16, 4⟩ 10 2 (by decide) (by decide) (by decide)
  have hvalid : validateParameters [3, 0x95, 0xC8] ⟨16, 4⟩ 10 2 = .ok ⟨[3, 0x95, 0xC8], [5, 7, 20], 30⟩ := rfl
  refine ⟨?_, ?_⟩
  · exact ((hagree.2.1 _ (by decide) [5, 7, 20] 3).2 (by decide)).mpr ⟨hvalid, rfl⟩
  · exact (hagree.2.2 _ (by decide) [3, 0x95, 0xC8] [7]).mpr ⟨rfl, _, ((hagree.1 _ _).mp hvalid).2.1⟩

theorem bytesBits_ones (n : Nat) : bytesBits (List.replicate n 255) = List.replicate (8 * n) true := by
  induction n with
  | zero => rfl
  | succ n ih =>
    have hcons : bytesBits (List.replicate (n + 1) 255) = natBits 8 255 ++ bytesBits (List.replicate n 255) := rfl
    rw [hcons, ih, Nat.mul_succ, Nat.add_comm, replicate_add]
    rfl

/-- A unary run so long that the shift moves all of its quotient out of the word is read as zero. -/
theorem visit_lost_quotient {n : Nat} (h : 8 * n * 2 ^ 31 % 2 ^ 64 = 0) :
    visit (1 :: (List.replicate n 255 ++ [0, 0, 0, 0])) 31 (2 ^ 32 - 1) 1 push [] = .ok ([0], 1) := by
  have hpending : (BitStreamReader.new (List.replicate n 255 ++ [0, 0, 0, 0])).pending =
      List.replicate (8 * n) true ++ false :: (natBits 31 0 ++ []) := by
    rw [BitStreamReader.pending_new, bytesBits_append, bytesBits_ones]
    rfl
  obtain ⟨r₁, hquotient, hwf₁, hrest₁⟩ := readQuotient_spec
    (8 * (List.replicate n (255 : UInt8) ++ [0, 0, 0, 0]).length + 9) 0 (BitStreamReader.new_wf _)
    (by rw [length_append, length_replicate]; omega) hpending
  obtain ⟨r₂, hremainder, hwf₂, hrest₂⟩ := read_spec hwf₁ (by decide) hrest₁
  have hused : (8 - (0 + (0 + 8 * n + 1 + 31)) % 8) % 8 = 0 := by omega
  have hreader : r₂.reader = [] := by
    have hlength := r₂.length_pending
    rw [hrest₂, length_nil] at hlength
    exact length_eq_zero_iff.mp (by omega)
  have hcount : (Reader.compactSize (fun _ => Error.malformed) fun _ => .malformed).run
      (1 :: (List.replicate n 255 ++ [0, 0, 0, 0])) = .ok (1, List.replicate n 255 ++ [0, 0, 0, 0]) :=
    Reader.run_compactSize_ok.mpr ⟨by decide, rfl⟩
  have hvalues : walkValues 31 (1 * (2 ^ 32 - 1)) push 1 [] 0 0
      (.new (List.replicate n 255 ++ [0, 0, 0, 0])) = .ok ([0], some (8 * n + 1 + 31, r₂)) := by
    rw [walkValues]
    simp only [BitStreamReader.new] at hquotient ⊢
    rw [hquotient, ok_bind]
    simp only [Nat.zero_add]
    rw [hremainder, ok_bind, h]
    rfl
  have hlength : (List.replicate n (255 : UInt8) ++ [0, 0, 0, 0]).length = n + 4 := by
    rw [length_append, length_replicate]
    rfl
  rw [visit, walk, hcount, ok_bind]
  dsimp only
  rw [if_neg (by omega), hvalues, ok_bind]
  dsimp only
  rw [if_neg (by omega), ok_bind, hreader]
  rfl

theorem not_encodes_lost_quotient {n : Nat} (hn : 0 < n) (h : 8 * n * 2 ^ 31 % 2 ^ 64 = 0) {values : List Nat} :
    ¬ Encodes 31 (2 ^ 32 - 1) 1 values (1 :: (List.replicate n 255 ++ [0, 0, 0, 0])) := by
  intro hset
  have hmul := Nat.mul_le_mul_right (2 ^ 32 - 1) hset.count_le
  have hread := visit_spec push (by decide) hset (by omega) (by decide) []
  rw [visit_lost_quotient h, visitAll_push] at hread
  obtain ⟨rfl, -⟩ := Prod.mk.inj (Except.ok.inj hread)
  obtain ⟨body, pad, hbytes, hpad, hbody⟩ := hset.code
  have hlength := congrArg List.length hbytes
  have hbits := congrArg List.length hbody
  simp only [length_cons, length_append, length_replicate, length_nil, length_bytesBits,
    deltaBits, length_golombBits, append_nil] at hlength hbits
  have hheader : (compactSizeBytes (0 + 1)).length = 1 := rfl
  omega

/-- The receiver's decoder reads the value zero from such a run, although it is not the encoding of zero, and the
validator refuses it. -/
theorem visit_not_canonical_of {n : Nat} (hn : 0 < n) (h : 8 * n * 2 ^ 31 % 2 ^ 64 = 0) :
    ∃ bytes : Bytes, visit bytes 31 (2 ^ 32 - 1) 1 push [] = .ok ([0], 1) ∧
      (∀ values, ¬ Encodes 31 (2 ^ 32 - 1) 1 values bytes) ∧
      ∀ maxBytes filter, validateParameters bytes ⟨maxBytes, 1⟩ (2 ^ 32 - 1) 31 ≠ .ok filter := by
  refine ⟨_, visit_lost_quotient h, fun _ => not_encodes_lost_quotient hn h, fun maxBytes filter hvalid => ?_⟩
  have hencodes := (validateParameters_ok (by decide) (by decide) (by decide) (by dsimp only; omega)).mp hvalid
  exact not_encodes_lost_quotient hn h hencodes.2.1

/-- One gibibyte of ones is such a run. -/
theorem visit_not_canonical :
    ∃ bytes : Bytes, visit bytes 31 (2 ^ 32 - 1) 1 push [] = .ok ([0], 1) ∧
      (∀ values, ¬ Encodes 31 (2 ^ 32 - 1) 1 values bytes) ∧
      ∀ maxBytes filter, validateParameters bytes ⟨maxBytes, 1⟩ (2 ^ 32 - 1) 31 ≠ .ok filter :=
  visit_not_canonical_of (Nat.two_pow_pos 30) (by decide)

/-! ## No paid receiver is missed -/

/-- Which of the wanted receivers hash to one of the values. -/
def marks (sip : SipHash) (keys : UInt64 × UInt64) (m : Nat) (values : List Nat) (wanted : List ReceiverBytes) :
    List Bool :=
  wanted.map fun receiver => decide (value sip keys values.length m receiver ∈ values)

/-- The receivers a set was built from are marked. -/
theorem marks_of_hashed {sip : SipHash} {keys : UInt64 × UInt64} {m : Nat} {distinct receivers : List ReceiverBytes}
    {values : List Nat} (hhashed : IsHashed sip keys m distinct values) (hmem : ∀ r, r ∈ distinct ↔ r ∈ receivers)
    {wanted : List ReceiverBytes} {i : Nat} {r : ReceiverBytes} (hi : wanted[i]? = some r) (hr : r ∈ receivers) :
    (marks sip keys m values wanted)[i]? = some true := by
  have hvalue : value sip keys values.length m r ∈ values := by
    rw [hhashed.mem_iff, hhashed.length_eq]
    exact ⟨r, (hmem r).mpr hr, rfl⟩
  rw [marks, getElem?_map, hi, Option.map_some, decide_eq_true hvalue]

/-- A height set or a shard filter of receivers within the limits is built and accepted by its decoder; matching
marks exactly the receivers that hash to a decoded value, and these include all it was built from. -/
theorem filters_never_miss (sha : Sha256) (sip : SipHash) (genesis : Hash) (receivers : List ReceiverBytes) :
    (∀ height : UInt32, height ≠ 0 → receivers ≠ [] → receivers.dedup.length ≤ Blocks.maxReceivers →
      ∃ set, HeightSet.build sha sip genesis height receivers = .done (.ok (some set)) ∧ set.height = height ∧
        Filter.decodeWith set.bytes Blocks.p Blocks.m = .ok set.filter ∧
        ∀ wanted, ∃ found, set.filter.matchReceivers sha sip (heightSalt sha genesis height) wanted = found ∧
          found = marks sip (keys sha (heightSalt sha genesis height)) Blocks.m set.filter.values wanted ∧
          ∀ (i : Nat) r, wanted[i]? = some r → r ∈ receivers → found[i]? = some true) ∧
    ∀ (revision : UInt64) (coverage : Coverage), coverage.startHeight ≤ coverage.endHeight →
      receivers.dedup.length ≤ Shards.maxReceivers →
      ∃ filter values, ShardFilter.build sha sip genesis revision coverage receivers = .done (.ok filter) ∧
        ShardFilter.decode filter.bytes = .ok filter ∧
        visit (filter.bytes.drop Shards.header) Shards.p Shards.m Shards.maxReceivers push [] =
          .ok (values, filter.count) ∧
        ∀ wanted, ∃ found, (filter.matchReceivers sha sip wanted : Checked Error _) = .done (.ok found) ∧
          found = marks sip (keys sha (shardSalt sha genesis coverage)) Shards.m values wanted ∧
          ∀ (i : Nat) r, wanted[i]? = some r → r ∈ receivers → found[i]? = some true := by
  refine ⟨?_, ?_⟩
  · intro height hheight hpaid hlimit
    obtain ⟨distinct, set, values, hmem, hbuild, hset, hhashed⟩ :=
      HeightSet.build_spec sha sip genesis hheight hpaid hlimit
    have hcount := hset.count_le
    have hmax : Blocks.maxReceivers = 65536 := rfl
    refine ⟨_, hbuild, rfl, Filter.decodeWith_spec (by decide) (by decide) (encodes_mono hset (by omega)), ?_⟩
    intro wanted
    exact ⟨_, rfl, Filter.matchReceivers_eq hset.sorted _ wanted, fun i r hi hr => by
      rw [Filter.matchReceivers_eq hset.sorted]
      exact marks_of_hashed hhashed hmem hi hr⟩
  · intro revision coverage hcoverage hlimit
    obtain ⟨distinct, set, values, hmem, hbuild, hdecode, hset, hhashed⟩ :=
      ShardFilter.build_spec sha sip genesis revision hcoverage hlimit
    have hcount := hset.count_le
    have hmax : Shards.maxReceivers = 8388608 := rfl
    have hm : Shards.m = 1569792 := rfl
    refine ⟨_, values, hbuild, hdecode, ?_, ?_⟩
    · dsimp only
      rw [ShardFilter.drop_frame, visit_spec push (by decide) hset (by rw [hm]; omega) (by decide),
        visitAll_push, nil_append]
    · intro wanted
      have hframe : Encodes Shards.p Shards.m Shards.maxReceivers values
          ((ShardFilter.frame genesis revision coverage set).drop Shards.header) := by
        rw [ShardFilter.drop_frame]
        exact hset
      refine ⟨_, ShardFilter.matchReceivers_eq sha sip hframe wanted, rfl, ?_⟩
      intro i r hi hr
      exact marks_of_hashed hhashed hmem hi hr

/-! ## Ranges -/

/-- Ranges of built sets are read back, accepted strings are written back, and an accepted range followed by one that
continues it is written from their raw sets as the range of both, which matches what they match. -/
theorem ranges_canonical_splice (sha : Sha256) (sip : SipHash) :
    (∀ range bytes, range.validate = .ok () →
      (∀ set ∈ range.sets, ∃ genesis receivers,
        HeightSet.build sha sip genesis set.height receivers = .done (.ok (some set))) →
      range.encode = .ok bytes → Range.decode bytes = .done (.ok range)) ∧
    (∀ range bytes, Range.decode bytes = .done (.ok range) → range.encode = .ok bytes) ∧
    ∀ first second bytes₁ bytes₂ revision, Range.decode bytes₁ = .done (.ok first) →
      Range.decode bytes₂ = .done (.ok second) → second.follows first = true →
      first.count.toNat + second.count.toNat ≤ Blocks.maxRangeBlocks →
      (Range.concat revision first second).layout.length ≤ Blocks.maxRangeBytes →
      ∃ raw₁ raw₂ bytes, Range.rawSets bytes₁ = .done (.ok raw₁) ∧ Range.rawSets bytes₂ = .done (.ok raw₂) ∧
        Range.write revision first.fromHeight (first.count + second.count) first.parent second.ending (raw₁ ++ raw₂) =
          .ok bytes ∧
        Range.new revision first.fromHeight (first.count + second.count) first.parent second.ending
          (first.sets ++ second.sets) = .ok (Range.concat revision first second) ∧
        (Range.concat revision first second).encode = .ok bytes ∧
        Range.decode bytes = .done (.ok (Range.concat revision first second)) ∧
        ∀ genesis receivers,
          (Range.concat revision first second).matchReceivers sha sip genesis receivers =
            first.matchReceivers sha sip genesis receivers ++ second.matchReceivers sha sip genesis receivers := by
  refine ⟨?_, ?_, ?_⟩
  · intro range bytes hvalidate hbuilt hencode
    obtain ⟨rfl, hsize⟩ := (Range.encode_ok hvalidate).mp hencode
    refine Range.decode_ok.mpr ⟨hvalidate, fun set hset => ?_, rfl, hsize⟩
    obtain ⟨genesis, receivers, hbuild⟩ := hbuilt set hset
    exact HeightSet.valid_of_build hbuild
  · intro range bytes hdecode
    obtain ⟨hvalidate, -, hbytes, hsize⟩ := Range.decode_ok.mp hdecode
    exact (Range.encode_ok hvalidate).mpr ⟨hbytes, hsize⟩
  · intro first second bytes₁ bytes₂ revision hfirst hsecond hfollows hcount hsize
    obtain ⟨hvalidate₁, hvalid₁, -, -⟩ := Range.decode_ok.mp hfirst
    obtain ⟨hvalidate₂, hvalid₂, -, -⟩ := Range.decode_ok.mp hsecond
    have hvalidate := Range.concat_validate revision hvalidate₁ hvalidate₂ hfollows hcount
    have hencode := (Range.encode_ok hvalidate).mpr ⟨rfl, hsize⟩
    have hraw : first.raw ++ second.raw =
        (Range.concat revision first second).sets.map fun set => (set.height, set.bytes) := by
      rw [Range.concat, map_append]
      rfl
    refine ⟨first.raw, second.raw, (Range.concat revision first second).layout, Range.rawSets_of_decode hfirst,
      Range.rawSets_of_decode hsecond, ?_, ?_, hencode, ?_, ?_⟩
    · rw [hraw]
      exact hencode
    · exact check_bind_eq_ok.mpr ⟨hvalidate, rfl⟩
    · refine Range.decode_ok.mpr ⟨hvalidate, fun set hset => ?_, rfl, hsize⟩
      cases mem_append.mp hset with
      | inl hset => exact hvalid₁ set hset
      | inr hset => exact hvalid₂ set hset
    · intro genesis receivers
      exact flatMap_append

end Zakura.Hints
