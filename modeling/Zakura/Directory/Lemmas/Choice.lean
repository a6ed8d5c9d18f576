import Zakura.Directory.Choice
import Zakura.Lib.Except

/-! # A built choice table answers for its keys, and reads back -/

namespace Zakura.Directory

open List Zakura.Except

variable {sha256 : Bytes → FixedBytes 32} {domain context : Bytes}

/-! ## Positions -/

theorem segmentLength_pos (keys : Nat) : 0 < segmentLength keys := by
  unfold segmentLength
  omega

theorem segmentLength_lt {keys : Nat} (h : keys ≤ maxKeys) : segmentLength keys < 256 ^ 4 := by
  unfold segmentLength maxKeys at *
  omega

variable {segment : Nat}

theorem positions_nodup (sha256 : Bytes → FixedBytes 32) (domain context : Bytes) (seed : UInt32) (hpos : 0 < segment)
    (key : Bytes) : (positions sha256 domain context seed segment key).Nodup := by
  refine nodup_range.map_on fun i _ j _ heq => ?_
  -- The segment of a position is its quotient.
  have hquot : ∀ n w, (n * segment + w % segment) / segment = n := by
    intro n w
    rw [Nat.mul_comm, Nat.mul_add_div hpos, Nat.div_eq_of_lt (Nat.mod_lt _ hpos), Nat.add_zero]
  rw [← hquot i, heq, hquot]

theorem positions_lt (sha256 : Bytes → FixedBytes 32) (domain context : Bytes) (seed : UInt32) (hpos : 0 < segment)
    (key : Bytes) : ∀ i ∈ positions sha256 domain context seed segment key, i < 3 * segment := by
  intro i hi
  obtain ⟨n, hn, rfl⟩ := mem_map.mp hi
  have hrest := Nat.mod_lt (leNat (bytesAt (sha256 (domain ++ context ++ leBytes 4 seed.toNat ++ leBytes 4 key.length
    ++ key)).val (n * 8) 8)) hpos
  have hsegments : (n + 1) * segment ≤ 3 * segment := Nat.mul_le_mul_right _ (mem_range.mp hn)
  rw [Nat.succ_mul] at hsegments
  omega

/-! ## Packed bits -/

variable {bits : Bytes}

theorem packedBit_modify {i j : Nat} {bit : Bool} (hi : i < 8 * bits.length) :
    packedBit (bits.modify (i / 8) (· ||| UInt8.ofNat (bit.toNat <<< (i % 8)))) j =
      if j = i then packedBit bits i || bit else packedBit bits j := by
  unfold packedBit
  have hlt : i / 8 < bits.length := by omega
  have hmask : (UInt8.ofNat (bit.toNat <<< (i % 8))).toNat = bit.toNat <<< (i % 8) := by
    rw [UInt8.toNat_ofNat', Nat.mod_eq_of_lt]
    calc bit.toNat <<< (i % 8) ≤ 1 <<< (i % 8) := by
          rw [Nat.shiftLeft_eq, Nat.shiftLeft_eq]
          exact Nat.mul_le_mul_right _ bit.toNat_le
      _ ≤ 2 ^ 7 := by
          rw [Nat.shiftLeft_eq, Nat.one_mul]
          exact Nat.pow_le_pow_right (by decide) (by omega)
      _ < 2 ^ 8 := by decide
  rw [getElem?_modify]
  by_cases hbyte : i / 8 = j / 8
  · rw [← hbyte, getElem?_eq_getElem hlt]
    simp only [Option.map_eq_map, Option.map_some, if_true, Option.getD_some, UInt8.toNat_or,
      Nat.testBit_or, hmask, Nat.testBit_shiftLeft]
    by_cases hsame : j = i
    · subst hsame
      cases bit <;> simp
    · have hrem : j % 8 ≠ i % 8 := by omega
      rw [if_neg hsame]
      cases bit with
      | false => simp
      | true =>
        have htest : (decide (j % 8 ≥ i % 8) && Nat.testBit 1 (j % 8 - i % 8)) = false := by
          by_cases hge : i % 8 ≤ j % 8
          · have hsub : j % 8 - i % 8 ≠ 0 := by omega
            rw [Nat.testBit_lt_two_pow (Nat.one_lt_two_pow hsub), Bool.and_false]
          · simp [hge]
        rw [show true.toNat = 1 from rfl, htest, Bool.or_false]
  · have hne : j ≠ i := fun heq => hbyte (by rw [heq])
    simp [hbyte, hne]

theorem length_packLoop (array : List (Bool × Nat)) (bits : Bytes) :
    (array.foldl (fun bits bit => bits.modify (bit.2 / 8) (· ||| UInt8.ofNat (bit.1.toNat <<< (bit.2 % 8)))) bits).length
      = bits.length := by
  induction array generalizing bits with
  | nil => rfl
  | cons bit array ih => rw [foldl_cons, ih, length_modify]

theorem length_packBits (bytes : Nat) (array : List Bool) : (packBits bytes array).length = bytes := by
  rw [packBits, length_packLoop, length_replicate]

variable {array : List Bool}

theorem packedBit_packBits {bytes : Nat} (h : array.length ≤ 8 * bytes) (i : Nat) :
    packedBit (packBits bytes array) i = array[i]?.getD false := by
  -- Packing from position `start` on leaves the other positions alone.
  suffices hloop : ∀ (array : List Bool) (start : Nat) (bits : Bytes), start + array.length ≤ 8 * bits.length →
      (∀ j ≥ start, packedBit bits j = false) → ∀ j, packedBit ((array.zipIdx start).foldl (fun bits bit =>
        bits.modify (bit.2 / 8) (· ||| UInt8.ofNat (bit.1.toNat <<< (bit.2 % 8)))) bits) j =
        if start ≤ j then array[j - start]?.getD false else packedBit bits j by
    have hzero : ∀ j ≥ 0, packedBit (List.replicate bytes 0) j = false := by
      intro j _
      unfold packedBit
      rw [getElem?_replicate]
      split_ifs <;> simp
    exact hloop array 0 _ (by simpa using h) hzero i
  intro array
  induction array with
  | nil =>
    intro start bits _ hclear j
    split_ifs with hj
    · exact hclear j hj
    · rfl
  | cons bit array ih =>
    intro start bits hroom hclear j
    rw [length_cons] at hroom
    rw [zipIdx_cons, foldl_cons, ih (start + 1) _ (by rw [length_modify]; omega)]
    · by_cases hlater : start + 1 ≤ j
      · rw [if_pos hlater, if_pos (by omega), show j - start = (j - (start + 1)) + 1 by omega, getElem?_cons_succ]
      · rw [if_neg hlater, packedBit_modify (by omega)]
        by_cases hsame : j = start
        · subst hsame
          simp [hclear j (Nat.le_refl j)]
        · rw [if_neg hsame, if_neg (by omega)]
    · intro k hk
      rw [packedBit_modify (by omega), if_neg (by omega)]
      exact hclear k (by omega)

theorem three_segments_le (segment : Nat) : 3 * segment ≤ 8 * bitBytes segment := by
  unfold bitBytes
  omega

/-! ## Building -/

theorem sortEntries_ok {entries : List (Bytes × Bool)} {before sorted : OrderedMap Bytes Bool}
    (h : sortEntries entries before = .ok sorted) :
    (∀ (key : Bytes) bit, before[key]? = some bit ∨ (key, bit) ∈ entries ↔ sorted[key]? = some bit) ∧
      sorted.size = before.size + entries.length := by
  induction entries generalizing before with
  | nil =>
    obtain rfl := Except.ok.inj h
    simp
  | cons entry entries ih =>
    obtain ⟨first, bit⟩ := entry
    rw [sortEntries] at h
    split_ifs at h with hmem
    obtain ⟨hsorted, hsize⟩ := ih h
    refine ⟨fun key bit' => ?_, ?_⟩
    · rw [← hsorted, OrderedMap.getElem?_insert_eq, mem_cons, Prod.mk.injEq]
      by_cases heq : first = key
      · subst heq
        have hnone : before[first]? = none := Std.ExtTreeMap.getElem?_eq_none hmem
        simp [hnone, eq_comm]
      · have hne : key ≠ first := fun hk => heq hk.symm
        simp [heq, hne]
    · rw [hsize, Std.ExtTreeMap.size_insert, if_neg (by simpa using hmem), length_cons]
      omega

theorem hashed_wellFormed (sha256 : Bytes → FixedBytes 32) (domain context : Bytes) (seed : UInt32) (hpos : 0 < segment)
    (sorted : List (Bytes × Bool)) :
    Peel.WellFormed (sorted.map fun entry => positions sha256 domain context seed segment entry.1) (3 * segment) where
  nodup := by
    intro edge hedge
    obtain ⟨entry, _, rfl⟩ := mem_map.mp hedge
    exact positions_nodup sha256 domain context seed hpos entry.1
  lt := by
    intro edge hedge
    obtain ⟨entry, _, rfl⟩ := mem_map.mp hedge
    exact positions_lt sha256 domain context seed hpos entry.1

theorem foldl_packedBit (h : ∀ i, packedBit bits i = array[i]?.getD false) (slots : List Nat) :
    slots.foldl (fun acc i => acc ^^ packedBit bits i) false = Peel.xorAt array slots := by
  unfold Peel.xorAt
  simp only [h]

namespace ChoiceTable

variable {sorted : List (Bytes × Bool)} {seed : UInt32} {table : ChoiceTable}

/-- What a built table is: sized by its keys, zero padded, and right for each key. -/
structure BuiltFor (sha256 : Bytes → FixedBytes 32) (domain context : Bytes) (entries : List (Bytes × Bool))
    (table : ChoiceTable) : Prop where
  keys : table.keys = entries.length
  segment : table.segment = segmentLength entries.length
  length : table.bits.length = bitBytes table.segment
  padding : ∀ i ≥ 3 * table.segment, packedBit table.bits i = false
  choice : ∀ entry ∈ entries, table.choice sha256 domain context entry.1 = entry.2.toNat

theorem builtFor_of_attempt (h : attempt sha256 domain context sorted seed = some table) :
    BuiltFor sha256 domain context sorted table := by
  obtain ⟨order, hpeel, rfl⟩ := Option.map_eq_some_iff.mp h
  have hpos := segmentLength_pos sorted.length
  have hedges := hashed_wellFormed sha256 domain context seed hpos sorted
  have hlength := Peel.length_assign (sorted.map fun entry => positions sha256 domain context seed
    (segmentLength sorted.length) entry.1) (sorted.map Prod.snd) (3 * segmentLength sorted.length) order
  have hpacked := fun i => packedBit_packBits (hlength.trans_le (three_segments_le _)) i
  refine ⟨rfl, rfl, length_packBits _ _, fun i hi => ?_, fun entry hentry => ?_⟩
  · rw [hpacked, getElem?_eq_none (hlength.trans_le hi), Option.getD_none]
  · obtain ⟨i, hi, hget⟩ := mem_iff_getElem.mp hentry
    have hentry' : sorted[i]? = some entry := by rw [getElem?_eq_getElem hi, hget]
    have hbit := Peel.xorAt_peel hedges hpeel (by simpa using hi) (sorted.map Prod.snd)
    rw [Peel.slotsOf, getElem?_map, hentry', getElem?_map, hentry'] at hbit
    rw [choice, foldl_packedBit hpacked]
    exact congrArg Bool.toNat hbit

variable {entries : List (Bytes × Bool)}

theorem builtFor_of_build {seeds : List UInt32} (h : build sha256 domain context seeds entries = .ok table) :
    entries.length ≤ maxKeys ∧ table.seed ∈ seeds ∧ BuiltFor sha256 domain context entries table := by
  unfold build at h
  split_ifs at h with hlimit
  obtain ⟨sorted, hsorted, h⟩ := bind_eq_ok.mp h
  obtain ⟨hmem, hsize⟩ := sortEntries_ok hsorted
  have hlength : sorted.toList.length = entries.length := by
    rw [Std.ExtTreeMap.length_toList, hsize]
    simp
  cases hfind : seeds.findSome? (attempt sha256 domain context sorted.toList) with
  | none =>
    rw [hfind] at h
    cases h
  | some found =>
    rw [hfind] at h
    obtain rfl := Except.ok.inj h
    obtain ⟨seed, hseed, hattempt⟩ := exists_of_findSome?_eq_some hfind
    have hbuilt := builtFor_of_attempt hattempt
    refine ⟨Nat.le_of_not_lt hlimit, ?_, hlength ▸ hbuilt.keys, hlength ▸ hbuilt.segment, hbuilt.length, hbuilt.padding,
      fun entry hentry => hbuilt.choice entry ?_⟩
    · obtain ⟨_, _, rfl⟩ := Option.map_eq_some_iff.mp hattempt
      exact hseed
    · rw [Std.ExtTreeMap.mem_toList_iff_getElem?_eq_some, ← hmem]
      exact Or.inr hentry

theorem length_encode (table : ChoiceTable) : table.encode.length = choiceHeaderBytes + table.bits.length := by
  simp [encode, choiceHeaderBytes]
  omega

theorem BuiltFor.decode_encode (h : BuiltFor sha256 domain context entries table) (hkeys : entries.length ≤ maxKeys)
    {seeds : SeedPolicy} (hseed : seeds.Accepts table.seed) :
    decode table.encode seeds = .ok table := by
  have hword : ∀ v, v < 256 ^ 4 → leNat (leBytes 4 v) = v := fun v hv => leNat_leBytes_of_lt hv
  have hkeys_lt : table.keys < 256 ^ 4 := by
    rw [h.keys]
    exact Nat.lt_of_le_of_lt hkeys (by decide)
  have hsegment_lt : table.segment < 256 ^ 4 := by
    rw [h.segment]
    exact segmentLength_lt hkeys
  have hseed_eq : UInt32.ofNat (leNat (bytesAt table.encode 1 4)) = table.seed := by
    simp [encode, hword _ table.seed.toNat_lt]
  have hkeys_eq : leNat (bytesAt table.encode 5 4) = table.keys := by
    simp [encode, hword _ hkeys_lt]
  have hsegment_eq : leNat (bytesAt table.encode 9 4) = table.segment := by
    simp [encode, hword _ hsegment_lt]
  have hbits_eq : table.encode.drop choiceHeaderBytes = table.bits := by
    rw [encode, ← cons_append]
    exact drop_left' (by simp [choiceHeaderBytes])
  have hlength := table.length_encode
  have hpadding : ¬ (3 * table.segment % 8 ≠ 0 ∧
      (table.bits.getLast?.getD 0).toNat >>> (3 * table.segment % 8) ≠ 0) := by
    refine fun ⟨hshort, hnonzero⟩ => hnonzero (Nat.eq_of_testBit_eq fun i => ?_)
    rw [Nat.zero_testBit, Nat.testBit_shiftRight]
    by_cases hbyte : 3 * table.segment % 8 + i < 8
    · have hat := h.padding (3 * table.segment + i) (by omega)
      have hbytes : table.bits.length = 3 * table.segment / 8 + 1 := by
        rw [h.length, bitBytes]
        omega
      rw [packedBit, show (3 * table.segment + i) / 8 = table.bits.length - 1 by omega,
        show (3 * table.segment + i) % 8 = 3 * table.segment % 8 + i by omega] at hat
      rwa [getLast?_eq_getElem?]
    · refine Nat.testBit_lt_two_pow (Nat.lt_of_lt_of_le (UInt8.toNat_lt _) ?_)
      exact Nat.pow_le_pow_right (by decide) (by omega)
  unfold decode
  simp only [hseed_eq, hkeys_eq, hsegment_eq, hbits_eq]
  rw [if_neg (by omega), if_neg (by simp [encode]), if_neg (not_not_intro hseed), if_neg (by rw [h.keys]; omega),
    if_neg (by rw [h.keys]; exact not_not_intro h.segment), if_neg (by rw [hlength, h.length]; exact not_not_intro rfl),
    if_neg hpadding]

theorem decode_ok {bytes : Bytes} {seeds : SeedPolicy} (h : decode bytes seeds = .ok table) :
    bytes.length = choiceHeaderBytes + bitBytes table.segment ∧ bytes[0]? = some choiceVersion ∧
      table = ⟨UInt32.ofNat (leNat (bytesAt bytes 1 4)), leNat (bytesAt bytes 5 4), leNat (bytesAt bytes 9 4),
        bytes.drop choiceHeaderBytes⟩ ∧ table.segment = segmentLength table.keys := by
  simp only [decode] at h
  obtain ⟨hshort, h⟩ := ite_error_eq_ok.mp h
  obtain ⟨hversion, h⟩ := ite_error_eq_ok.mp h
  obtain ⟨-, h⟩ := ite_error_eq_ok.mp h
  obtain ⟨-, h⟩ := ite_error_eq_ok.mp h
  obtain ⟨hsegment, h⟩ := ite_error_eq_ok.mp h
  obtain ⟨hlength, h⟩ := ite_error_eq_ok.mp h
  obtain ⟨-, h⟩ := ite_error_eq_ok.mp h
  cases h
  refine ⟨not_not.mp hlength, ?_, rfl, not_not.mp hsegment⟩
  have hpos : 0 < bytes.length := by
    unfold choiceHeaderBytes at hshort
    omega
  rw [getElem?_eq_getElem hpos, Option.getD_some, not_not] at hversion
  rw [getElem?_eq_getElem hpos, UInt8.toNat_inj.mp hversion]

theorem encode_of_decode {bytes : Bytes} {seeds : SeedPolicy} (h : decode bytes seeds = .ok table) :
    table.encode = bytes := by
  obtain ⟨hlength, hversion, rfl, -⟩ := decode_ok h
  cases bytes with
  | nil => cases hversion
  | cons first rest =>
    obtain rfl : first = choiceVersion := by simpa using hversion
    have hlong : 12 ≤ rest.length := by
      rw [length_cons] at hlength
      unfold choiceHeaderBytes at hlength
      omega
    have hword : ∀ offset ≤ 8, leBytes 4 (leNat (bytesAt rest offset 4)) = bytesAt rest offset 4 :=
      fun offset hoffset => leBytes_leNat_of_length (length_bytesAt (by omega))
    have hseed : (UInt32.ofNat (leNat (bytesAt rest 0 4))).toNat = leNat (bytesAt rest 0 4) := by
      have hlt := leNat_lt (bytesAt rest 0 4)
      rw [length_bytesAt (by omega)] at hlt
      exact (UInt32.toNat_ofNat' ..).trans (Nat.mod_eq_of_lt hlt)
    rw [encode]
    simp (disch := decide) only [bytesAt_cons, Nat.reduceSub, hseed]
    rw [hword 0 (by decide), hword 4 (by decide), hword 8 (by decide), bytesAt_append_bytesAt, bytesAt_append_bytesAt]
    exact congrArg (choiceVersion :: ·) (take_append_drop 12 rest)

theorem positions_in_bits (sha256 : Bytes → FixedBytes 32) (domain context key : Bytes)
    (hsegment : table.segment = segmentLength table.keys) (hlength : table.bits.length = bitBytes table.segment) :
    ∀ i ∈ positions sha256 domain context table.seed table.segment key, i / 8 < table.bits.length := by
  intro i hi
  have hpos : 0 < table.segment := hsegment ▸ segmentLength_pos _
  have hlt := positions_lt sha256 domain context table.seed hpos key i hi
  have hle := three_segments_le table.segment
  omega

end ChoiceTable

end Zakura.Directory
