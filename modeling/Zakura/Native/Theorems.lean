import Zakura.Native.Bits
import Mathlib.Data.List.GetD
import Mathlib.Data.Nat.Bitwise

/-! # Packed words read back

Every writer and reader is described by the bits of the byte string. -/

namespace Zakura.Native

open List

variable {data rest out : Bytes} {byte : UInt8} {val result : UInt64} {vals : List UInt64}
  {width bitOffs numBits i j k : Nat}

/-- Bit `i` of a byte string; zero past its end. -/
def streamBit (data : Bytes) (i : Nat) : Bool := (data[i / 8]?.getD 0).toNat.testBit (i % 8)

theorem streamBit_cons :
    streamBit (byte :: rest) i = if i < 8 then byte.toNat.testBit i else streamBit rest (i - 8) := by
  unfold streamBit
  split_ifs with h
  · rw [Nat.div_eq_of_lt h, Nat.mod_eq_of_lt h, getElem?_cons_zero, Option.getD_some]
  · have hdiv : i / 8 = (i - 8) / 8 + 1 := by omega
    have hmod : i % 8 = (i - 8) % 8 := by omega
    rw [hdiv, hmod, getElem?_cons_succ]

theorem streamBit_drop (n : Nat) : streamBit (data.drop n) i = streamBit data (8 * n + i) := by
  have hdiv : (8 * n + i) / 8 = n + i / 8 := by omega
  have hmod : (8 * n + i) % 8 = i % 8 := by omega
  rw [streamBit, streamBit, hdiv, hmod, getElem?_drop]

theorem streamBit_modify (n : Nat) : streamBit (data.modify n (· ||| byte)) i =
    (streamBit data i || (decide (i / 8 = n ∧ n < data.length) && byte.toNat.testBit (i % 8))) := by
  unfold streamBit
  rw [getElem?_modify]
  by_cases hn : n = i / 8
  · subst hn
    by_cases hlen : i / 8 < data.length <;> simp [hlen]
  · simp [hn, Ne.symm hn]

/-! ## Rounds -/

theorem toNat_shift {n : Nat} (h : n < 64) : (UInt64.ofNat n).toNat % 64 = n := by
  rw [UInt64.toNat_ofNat']
  omega

theorem testBit_writtenByte {bitIndex : Nat} (h : bitIndex + width ≤ 8) :
    (writtenByte val width bitIndex).toNat.testBit j =
      (decide (bitIndex ≤ j ∧ j < bitIndex + width) && val.toNat.testBit (j - bitIndex)) := by
  have hmasks : ∀ width ≤ 8, ((1 <<< UInt64.ofNat width) - 1 : UInt64).toNat = 2 ^ width - 1 := by decide
  rw [writtenByte, UInt64.toNat_toUInt8, UInt64.toNat_shiftLeft, UInt64.toNat_and, hmasks width (by omega),
    toNat_shift (by omega)]
  simp only [Nat.testBit_mod_two_pow, Nat.testBit_shiftLeft, Nat.testBit_and, Nat.testBit_two_pow_sub_one]
  grind

theorem testBit_takenBits {bitPos canTake : Nat} (hpos : bitPos < 8) (h : bitPos + canTake ≤ 8) :
    (takenBits byte bitPos canTake).toNat.testBit k = (decide (k < canTake) && byte.toNat.testBit (bitPos + k)) := by
  have hmasks : ∀ width < 8, ((1 <<< UInt8.ofNat width) - 1 : UInt8).toNat = 2 ^ width - 1 := by decide
  have hshift : (UInt8.ofNat bitPos).toNat % 8 = bitPos := by
    rw [UInt8.toNat_ofNat']
    omega
  unfold takenBits
  split_ifs with hlt
  · rw [UInt8.toNat_and, UInt8.toNat_shiftRight, hmasks canTake hlt, hshift, Nat.testBit_and, Nat.testBit_shiftRight,
      Nat.testBit_two_pow_sub_one, Bool.and_comm]
  · obtain ⟨rfl, rfl⟩ : bitPos = 0 ∧ canTake = 8 := by omega
    rw [UInt8.toNat_shiftRight, hshift, Nat.testBit_shiftRight, Nat.zero_add, ← Nat.testBit_mod_two_pow,
      Nat.mod_eq_of_lt byte.toNat_lt]

/-! ## Fields -/

theorem length_writeBitsLoop (fuel byteIndex bitIndex : Nat) :
    (writeBitsLoop fuel data val byteIndex bitIndex numBits).length = data.length := by
  induction fuel generalizing data val byteIndex bitIndex numBits with
  | zero => rfl
  | succ fuel ih =>
    unfold writeBitsLoop
    dsimp only
    split_ifs <;> simp [ih]

theorem streamBit_writeBitsLoop {fuel byteIndex bitIndex : Nat} (hbit : bitIndex < 8) (hfuel : numBits ≤ fuel) :
    streamBit (writeBitsLoop fuel data val byteIndex bitIndex numBits) i =
      (streamBit data i || (decide (8 * byteIndex + bitIndex ≤ i ∧ i < 8 * byteIndex + bitIndex + numBits ∧
        i < 8 * data.length) && val.toNat.testBit (i - (8 * byteIndex + bitIndex)))) := by
  induction fuel generalizing data val byteIndex bitIndex numBits with
  | zero => rw [writeBitsLoop, decide_eq_false (by omega), Bool.false_and, Bool.or_false]
  | succ fuel ih =>
    unfold writeBitsLoop
    dsimp only
    by_cases hmore : 0 < numBits ∧ byteIndex < data.length
    · obtain ⟨width, hwidth⟩ : ∃ width, width = min (8 - bitIndex) numBits := ⟨_, rfl⟩
      -- Both branches go on at the bit after the round's last, in the word shifted past the round.
      have hnext : ∀ byte bit, bit < 8 → 8 * byte + bit = 8 * byteIndex + bitIndex + width →
          streamBit (writeBitsLoop fuel (data.modify byteIndex (· ||| writtenByte val width bitIndex))
            (val >>> UInt64.ofNat width) byte bit (numBits - width)) i = _ := fun byte bit hlt heq => by
        rw [ih hlt (by omega), heq, length_modify, streamBit_modify, testBit_writtenByte (by omega),
          UInt64.toNat_shiftRight, toNat_shift (by omega), Nat.testBit_shiftRight, Bool.or_assoc]
      have hlow : i / 8 = byteIndex → bitIndex ≤ i % 8 → i % 8 - bitIndex = i - (8 * byteIndex + bitIndex) := by
        omega
      have hhigh : 8 * byteIndex + bitIndex + width ≤ i →
        width + (i - (8 * byteIndex + bitIndex + width)) = i - (8 * byteIndex + bitIndex) := by omega
      rw [if_pos hmore, ← hwidth]
      split_ifs with hfull
      · rw [hnext _ _ (by omega) (by omega)]
        grind
      · rw [hnext _ _ (by omega) (by omega)]
        grind
    · rw [if_neg hmore, decide_eq_false (by omega), Bool.false_and, Bool.or_false]

theorem streamBit_writeBits : streamBit (writeBits data val bitOffs numBits) i = (streamBit data i ||
    (decide (bitOffs ≤ i ∧ i < bitOffs + numBits ∧ i < 8 * data.length) && val.toNat.testBit (i - bitOffs))) := by
  rw [writeBits, streamBit_writeBitsLoop (Nat.mod_lt _ (by omega)) (Nat.le_refl _), Nat.div_add_mod]

theorem testBit_readBitsLoop {bitPos remainingBits : Nat} (hpos : bitPos < 8) (hrem : 0 < remainingBits)
    (hle : remainingBits ≤ numBits) (hnum : numBits ≤ 64) :
    (readBitsLoop numBits data bitPos result remainingBits).toNat.testBit j =
      (result.toNat.testBit j || (decide (numBits - remainingBits ≤ j ∧ j < numBits) &&
        streamBit data (bitPos + (j - (numBits - remainingBits))))) := by
  induction data generalizing bitPos remainingBits result with
  | nil => simp [readBitsLoop, streamBit]
  | cons byte rest ih =>
    have hround : (result ||| (takenBits byte bitPos (min (8 - bitPos) remainingBits)).toUInt64 <<<
        UInt64.ofNat (numBits - remainingBits)).toNat.testBit j =
        (result.toNat.testBit j || (decide (numBits - remainingBits ≤ j ∧
          j < numBits - remainingBits + min (8 - bitPos) remainingBits) &&
          byte.toNat.testBit (bitPos + (j - (numBits - remainingBits))))) := by
      rw [UInt64.toNat_or, UInt64.toNat_shiftLeft, UInt8.toNat_toUInt64, toNat_shift (by omega), Nat.testBit_or,
        Nat.testBit_mod_two_pow, Nat.testBit_shiftLeft, testBit_takenBits hpos (by omega)]
      grind
    unfold readBitsLoop
    dsimp only
    split_ifs with hdone
    · rw [hround, streamBit_cons]
      grind
    · rw [ih (by omega) (by omega) (by omega), hround, streamBit_cons]
      grind

theorem readBits_spec (h : 1 ≤ width ∧ width ≤ 64) (data : Bytes) (bitOffs : Nat) :
    ∃ val, readBits data bitOffs width = some val ∧
      ∀ j, val.toNat.testBit j = (decide (j < width) && streamBit data (bitOffs + j)) := by
  refine ⟨_, if_pos h, fun j => ?_⟩
  rw [testBit_readBitsLoop (Nat.mod_lt _ (by omega)) h.1 (Nat.le_refl _) h.2, streamBit_drop, Nat.sub_self,
    Nat.sub_zero, ← Nat.add_assoc, Nat.div_add_mod]
  simp

/-! ## Contiguous words -/

theorem length_writeAll : (writeAll width out bitOffs vals).length = out.length := by
  induction vals generalizing out bitOffs with
  | nil => rfl
  | cons val vals ih => rw [writeAll, ih, writeBits, length_writeBitsLoop]

theorem streamBit_writeAll (hwidth : 0 < width) : streamBit (writeAll width out bitOffs vals) i = (streamBit out i ||
    (decide (bitOffs ≤ i ∧ i < bitOffs + vals.length * width ∧ i < 8 * out.length) &&
      (vals[(i - bitOffs) / width]?.getD 0).toNat.testBit ((i - bitOffs) % width))) := by
  induction vals generalizing out bitOffs with
  | nil => simp [writeAll]
  | cons val vals ih =>
    rw [writeAll, ih, streamBit_writeBits, writeBits, length_writeBitsLoop, length_cons,
      Nat.succ_mul vals.length, Bool.or_assoc]
    by_cases hfirst : i - bitOffs < width
    · rw [Nat.div_eq_of_lt hfirst, Nat.mod_eq_of_lt hfirst, getElem?_cons_zero, Option.getD_some]
      grind
    · have hge : width ≤ i - bitOffs := by omega
      rw [Nat.div_eq_sub_div hwidth hge, Nat.mod_eq_sub_mod hge, getElem?_cons_succ, Nat.sub_sub]
      grind

theorem readAll_eq (hwidth : 1 ≤ width ∧ width ≤ 64) (h : ∀ k < vals.length, ∀ j,
      (vals[k]?.getD 0).toNat.testBit j = (decide (j < width) && streamBit data (bitOffs + k * width + j))) :
    readAll data width vals.length bitOffs = some vals := by
  induction vals generalizing bitOffs with
  | nil => rfl
  | cons val vals ih =>
    obtain ⟨read, hread, hbits⟩ := readBits_spec hwidth data bitOffs
    have hval : read = val := UInt64.toNat_inj.mp <| Nat.eq_of_testBit_eq fun j => by
      simpa [hbits] using (h 0 (by simp) j).symm
    have hrest : readAll data width vals.length (bitOffs + width) = some vals := ih fun k hk j => by
      have hpos : bitOffs + (k + 1) * width = bitOffs + width + k * width := by ring
      have hk' := h (k + 1) (by simpa using hk) j
      rwa [getElem?_cons_succ, hpos] at hk'
    rw [length_cons, readAll, hread, hrest, hval]
    rfl

theorem length_u64sToContiguousBytes (vals : List UInt64) (width : Nat) :
    (u64sToContiguousBytes vals width).length = (vals.length * width + 7) / 8 := by
  rw [u64sToContiguousBytes, length_writeAll, length_replicate]

theorem streamBit_packed (hj : j < width) :
    streamBit (u64sToContiguousBytes vals width) (k * width + j) = (vals[k]?.getD 0).toNat.testBit j := by
  have hwidth : 0 < width := by omega
  have hdiv : (k * width + j) / width = k := by
    rw [Nat.mul_comm, Nat.mul_add_div hwidth, Nat.div_eq_of_lt hj, Nat.add_zero]
  have hmod : (k * width + j) % width = j := by rw [Nat.mul_add_mod_self_right, Nat.mod_eq_of_lt hj]
  have hzero : ∀ n, streamBit (List.replicate n 0) (k * width + j) = false := fun n => by
    rw [streamBit, getElem?_getD_replicate_default_eq, UInt8.toNat_zero, Nat.zero_testBit]
  rw [u64sToContiguousBytes, streamBit_writeAll hwidth, hzero, Nat.sub_zero, hdiv, hmod, length_replicate,
    Bool.false_or]
  by_cases hk : k < vals.length
  · have hle : (k + 1) * width ≤ vals.length * width := Nat.mul_le_mul_right _ hk
    rw [Nat.succ_mul] at hle
    rw [decide_eq_true (by omega), Bool.true_and]
  · simp [getElem?_eq_none (by omega : vals.length ≤ k)]

theorem unpack_pack (hwidth : 1 ≤ width ∧ width ≤ 64) (hvals : ∀ val ∈ vals, val.toNat < 2 ^ width) :
    ∃ padding, contiguousBytesToU64s (u64sToContiguousBytes vals width) width =
      some (vals ++ List.replicate padding 0) := by
  have hlength := length_u64sToContiguousBytes vals width
  have hfit : vals.length ≤ (u64sToContiguousBytes vals width).length * 8 / width :=
    (Nat.le_div_iff_mul_le hwidth.1).mpr (by omega)
  obtain ⟨padding, hpadding⟩ := Nat.exists_eq_add_of_le hfit
  have hall : readAll (u64sToContiguousBytes vals width) width (vals ++ List.replicate padding 0).length 0 = some _ :=
    readAll_eq hwidth fun k _ j => ?_
  · rw [length_append, length_replicate, ← hpadding] at hall
    exact ⟨padding, (if_neg (by omega)).trans hall⟩
  have hvalue : (vals ++ List.replicate padding 0)[k]?.getD 0 = vals[k]?.getD 0 := by
    by_cases hk : k < vals.length
    · rw [getElem?_append_left hk]
    · rw [getElem?_append_right (by omega), getElem?_getD_replicate_default_eq,
        getElem?_eq_none (by omega), Option.getD_none]
  rw [hvalue, Nat.zero_add]
  by_cases hj : j < width
  · rw [streamBit_packed hj, decide_eq_true hj, Bool.true_and]
  · have hlt : (vals[k]?.getD 0).toNat < 2 ^ width := by
      by_cases hk : k < vals.length
      · rw [getElem?_eq_getElem hk]
        exact hvals _ (getElem_mem hk)
      · rw [getElem?_eq_none (by omega)]
        exact Nat.two_pow_pos width
    rw [decide_eq_false hj, Bool.false_and,
      Nat.testBit_lt_two_pow (lt_of_lt_of_le hlt (Nat.pow_le_pow_right (by omega) (by omega)))]

/-- Packing reads back followed by zeros, fills no byte more than the bits need, and a field's writer leaves the
other bits as they were. -/
theorem packing_round_trips :
    (∀ width vals, 1 ≤ width ∧ width ≤ 64 → (∀ val ∈ vals, val.toNat < 2 ^ width) →
      (∃ padding, contiguousBytesToU64s (u64sToContiguousBytes vals width) width =
        some (vals ++ List.replicate padding 0)) ∧
      vals.length * width ≤ 8 * (u64sToContiguousBytes vals width).length ∧
      8 * (u64sToContiguousBytes vals width).length < vals.length * width + 8) ∧
    ∀ data val bitOffs numBits, (writeBits data val bitOffs numBits).length = data.length ∧
      ∀ i, (i < bitOffs ∨ bitOffs + numBits ≤ i) →
        streamBit (writeBits data val bitOffs numBits) i = streamBit data i := by
  refine ⟨fun width vals hwidth hvals => ?_, fun data val bitOffs numBits => ⟨length_writeBitsLoop .., fun i hi => ?_⟩⟩
  · have hlength := length_u64sToContiguousBytes vals width
    exact ⟨unpack_pack hwidth hvals, by omega, by omega⟩
  · rw [streamBit_writeBits, decide_eq_false (by omega), Bool.false_and, Bool.or_false]

end Zakura.Native
