import Zakura.Filter.Lemmas.Encode
import Zakura.Filter.Validate
import Zakura.Lib.Except

/-! # Decoding a finished filter

Every reader is specified by the bits at its position: the bits the writer put there are read back as the
value that was written. -/

namespace Zakura.Filter

open List

namespace BitReader

def rest (r : BitReader) : List Bool := (bytesBits r.bytes).drop r.bit

def advance (r : BitReader) (n : Nat) : BitReader := { r with bit := r.bit + n }

theorem advance_advance (r : BitReader) (a b : Nat) : (r.advance a).advance b = r.advance (a + b) := by
  simp only [advance, Nat.add_assoc]

variable {r : BitReader} {more : List Bool}

theorem rest_advance (read : List Bool) (h : r.rest = read ++ more) : (r.advance read.length).rest = more := by
  have hdrop : (r.advance read.length).rest = r.rest.drop read.length := by
    simp only [rest, advance, drop_drop]
  rw [hdrop, h, drop_left]

theorem readBit_spec {b : Bool} (h : r.rest = b :: more) : r.readBit = .ok (b.toNat, r.advance 1) := by
  have hbit : (bytesBits r.bytes)[r.bit]? = some b := by
    rw [← head?_drop]
    exact congrArg List.head? h
  rw [bytesBits_getElem?, Option.map_eq_some_iff] at hbit
  obtain ⟨byte, hbyte, rfl⟩ := hbit
  rw [readBit, hbyte, Nat.toNat_testBit]
  rfl

theorem readBitsLoop_spec {n : Nat} (hn : n ≤ 64) (v : Nat) {value : Nat} (hvalue : value < 2 ^ (64 - n))
    (h : r.rest = natBits n v ++ more) :
    readBitsLoop n value r = .ok (value * 2 ^ n + v % 2 ^ n, r.advance n) := by
  induction n generalizing value r with
  | zero => simp [readBitsLoop, Nat.mod_one, advance]
  | succ n ih =>
    have hpow : 2 ^ (64 - n) = 2 * 2 ^ (64 - (n + 1)) := by
      rw [← Nat.pow_succ']
      congr 1
      omega
    have hle : 2 ^ (64 - n) ≤ 2 ^ 64 := Nat.pow_le_pow_right (by decide) (Nat.sub_le 64 n)
    have hbit := (v.testBit n).toNat_lt
    have hshift : value * 2 % 2 ^ 64 ||| (v.testBit n).toNat = 2 * value + (v.testBit n).toNat := by
      rw [Nat.mod_eq_of_lt (by omega), Nat.mul_comm]
      exact (Nat.two_pow_add_eq_or_of_lt (i := 1) hbit value).symm
    have hnext : (r.advance 1).rest = natBits n v ++ more := rest_advance [v.testBit n] h
    rw [readBitsLoop, readBit_spec h]
    simp only [bind, Except.bind, hshift]
    rw [ih (by omega) (by omega) hnext, advance_advance, Nat.toNat_testBit, Nat.mod_pow_succ, Nat.add_comm 1 n]
    congr 2
    rw [Nat.pow_succ]
    ring

theorem readBits_spec {n v : Nat} (hn : n ≤ 64) (h : r.rest = natBits n v ++ more) :
    r.readBits n = .ok (v % 2 ^ n, r.advance n) := by
  rw [readBits, readBitsLoop_spec hn v (Nat.two_pow_pos _) h, Nat.zero_mul, Nat.zero_add]

theorem length_rest (r : BitReader) : r.rest.length = 8 * r.bytes.length - r.bit := by
  rw [rest, length_drop, length_bytesBits]

/-- The bits left in the last byte are zero exactly when its mask is. -/
theorem paddingIsZero_iff (hbit : r.bit ≤ 8 * r.bytes.length) (hpad : 8 * r.bytes.length - r.bit < 8) :
    r.paddingIsZero = .ok () ↔ r.rest = List.replicate (8 * r.bytes.length - r.bit) false := by
  by_cases hzero : r.bit % 8 = 0
  · have hlength := r.length_rest
    rw [show 8 * r.bytes.length - r.bit = 0 by omega] at hlength ⊢
    rw [paddingIsZero, if_pos hzero]
    exact iff_of_true rfl (length_eq_zero_iff.mp hlength)
  · obtain ⟨bytes, bit⟩ := r
    simp only at hbit hpad hzero ⊢
    -- The padding is in the last byte, so its low bits are the bits left.
    obtain rfl | ⟨init, last, rfl⟩ := bytes.eq_nil_or_concat
    · simp only [length_nil] at hbit
      omega
    · rw [concat_eq_append] at hbit hpad ⊢
      rw [length_append, length_singleton] at hbit hpad ⊢
      generalize hleft : 8 * (init.length + 1) - bit = pad at hpad
      have hdiv : bit / 8 = init.length := by omega
      have hmod : bit % 8 = 8 - pad := by omega
      have hmask : 0xFF / 2 ^ (8 - pad) = 2 ^ pad - 1 :=
        (by decide : ∀ k < 8, 0xFF / 2 ^ (8 - k) = 2 ^ k - 1) pad hpad
      have hsplit := natBits_add (8 - pad) pad last.toNat
      rw [Nat.sub_add_cancel (by omega)] at hsplit
      rw [rest, bytesBits_append, bytesBits_singleton, hsplit, ← append_assoc, drop_left' (by simp; omega),
        ← natBits_zero_right, paddingIsZero, if_neg hzero]
      simp only [hdiv, hmod, hmask, Nat.and_two_pow_sub_one_eq_mod]
      rw [Except.ite_error_eq_ok]
      simp only [not_not, and_true]
      exact ⟨fun hlow => natBits_congr (by simpa using hlow), fun hbits => by simpa using natBits_inj hbits⟩

theorem padding_spec {pad : Nat} (hpad : pad < 8) (hbit : r.bit ≤ 8 * r.bytes.length)
    (h : r.rest = List.replicate pad false)
    :
    r.paddingIsZero = .ok () ∧ r.consumedBytes = r.bytes.length := by
  have hlength := r.length_rest
  rw [h, length_replicate] at hlength
  exact ⟨(paddingIsZero_iff hbit (by omega)).mpr (hlength ▸ h), by rw [consumedBytes]; omega⟩

end BitReader

/-! ## Elements -/

variable {r : BitReader} {more : List Bool}

theorem readQuotient_spec {index maxQuotient q fuel quotient : Nat} (hfuel : q < fuel) (hmax : quotient + q ≤ maxQuotient)
    (h : r.rest = List.replicate q true ++ false :: more) :
    readQuotient index maxQuotient fuel quotient r = .ok (quotient + q, r.advance (q + 1)) := by
  induction q generalizing fuel quotient r with
  | zero =>
    obtain ⟨fuel, rfl⟩ := Nat.exists_eq_add_of_lt hfuel
    rw [Nat.zero_add, readQuotient, BitReader.readBit_spec h]
    rfl
  | succ q ih =>
    obtain ⟨fuel, rfl⟩ : ∃ n, fuel = n + 1 := ⟨fuel - 1, by omega⟩
    have hcons : r.rest = true :: (List.replicate q true ++ false :: more) := h
    have hnext : (r.advance 1).rest = List.replicate q true ++ false :: more :=
      BitReader.rest_advance [true] hcons
    rw [readQuotient, BitReader.readBit_spec hcons]
    simp only [bind, Except.bind, Bool.toNat_true, if_true]
    rw [if_neg (by omega), ih (by omega) (by omega) hnext, BitReader.advance_advance]
    congr 2
    · omega
    · congr 1
      omega

theorem length_golombBits (p n : Nat) : (golombBits p n).length = n / 2 ^ p + 1 + p := by
  simp only [golombBits, length_append, length_replicate, length_cons, length_natBits]
  omega

variable {p range : Nat}

theorem readElement_spec {last n : Nat} (index : Nat) (hp : p ≤ 64) (hrange : range < 2 ^ 64) (hlast : last + n < range)
    (h : r.rest = golombBits p n ++ more) :
    readElement p range index last r = .ok (last + n, r.advance (golombBits p n).length) := by
  have hlength := r.length_rest
  rw [h, length_append, length_golombBits] at hlength
  have hquotient : n / 2 ^ p ≤ range / 2 ^ p := Nat.div_le_div_right (by omega)
  have hsplit := Nat.div_add_mod' n (2 ^ p)
  have hbits : r.rest = List.replicate (n / 2 ^ p) true ++ false :: (natBits p n ++ more) := by
    rw [h, golombBits, append_assoc, cons_append]
  have hnext : (r.advance (n / 2 ^ p + 1)).rest = natBits p n ++ more := by
    have hread := BitReader.rest_advance (List.replicate (n / 2 ^ p) true ++ [false])
      (hbits.trans (append_cons ..))
    simpa using hread
  rw [readElement, readQuotient_spec (by omega) (by omega) hbits]
  simp only [bind, Except.bind]
  rw [BitReader.readBits_spec hp hnext]
  simp only [Nat.zero_add]
  rw [Nat.mod_eq_of_lt (by omega), hsplit, checkedWord, if_pos (by omega)]
  simp only
  rw [checkedWord, if_pos (by omega)]
  simp only
  rw [if_neg (by omega), BitReader.advance_advance, length_golombBits]

variable {values : List Nat}

/-- Ascending values below the range are read back from the code of their deltas. -/
theorem readElements_spec (hp : p ≤ 64) (hrange : range < 2 ^ 64) (index : Nat) {last : Nat}
    (hsorted : (last :: values).Pairwise (· ≤ ·)) (hvalues : ∀ v ∈ values, v < range)
    (h : r.rest = deltaBits p last values ++ more) :
    readElements p range values.length index last r =
      .ok (values, r.advance (deltaBits p last values).length) := by
  induction values generalizing index last r with
  | nil => rfl
  | cons v values ih =>
    have hle : last ≤ v := (pairwise_cons.mp hsorted).1 v mem_cons_self
    have hv := hvalues v mem_cons_self
    have hbits : r.rest = golombBits p (v - last) ++ (deltaBits p v values ++ more) := by
      rw [h, deltaBits, append_assoc]
    have hread := readElement_spec index hp hrange (by omega : last + (v - last) < range) hbits
    rw [Nat.add_sub_of_le hle] at hread
    have hrest := ih (index + 1) (pairwise_cons.mp hsorted).2
      (fun w hw => hvalues w (mem_cons_of_mem v hw)) (BitReader.rest_advance _ hbits)
    rw [length_cons, readElements, hread]
    simp only [bind, Except.bind, hrest, pure, Except.pure, BitReader.advance_advance, deltaBits,
      length_append]

/-! ## Whole filters -/

theorem le_length_deltaBits (p last : Nat) (values : List Nat) :
    values.length * (p + 1) ≤ (deltaBits p last values).length := by
  induction values generalizing last with
  | nil => simp
  | cons v values ih =>
    have hrest := ih v
    have hdiv := Nat.zero_le ((v - last) / 2 ^ p)
    rw [length_cons, Nat.succ_mul, deltaBits, length_append, length_golombBits]
    omega

theorem readBody_spec {pad : Nat} {body : Bytes} (hp : p ≤ 64) (hrange : range < 2 ^ 64) (hsorted : values.Pairwise (· ≤ ·))
    (hvalues : ∀ v ∈ values, v < range) (hpad : pad < 8)
    (hbody : bytesBits body = deltaBits p 0 values ++ List.replicate pad false) :
    readBody p range values.length body = .ok values := by
  have hstart : (BitReader.mk body 0).rest = deltaBits p 0 values ++ List.replicate pad false := hbody
  have hzero : (0 :: values).Pairwise (· ≤ ·) := pairwise_cons.mpr ⟨fun v _ => Nat.zero_le v, hsorted⟩
  have hlength := congrArg List.length hbody
  rw [length_bytesBits, length_append, length_replicate] at hlength
  have hend := BitReader.padding_spec (r := (BitReader.mk body 0).advance (deltaBits p 0 values).length) hpad
    (by simp only [BitReader.advance]; omega) (BitReader.rest_advance _ hstart)
  rw [readBody, readElements_spec hp hrange 0 hzero hvalues hstart]
  simp only [bind, Except.bind, hend.1, hend.2]
  exact if_neg (Nat.lt_irrefl _)

theorem readCompactSize_spec {n : Nat} (hn : n < 2 ^ 64) (body : Bytes) :
    readCompactSize (compactSizeBytes n ++ body) = .ok (n, (compactSizeBytes n).length) := by
  have hpos := compactSizeBytes_length_pos n
  rw [readCompactSize, if_neg (by simp [length_pos_iff.mp hpos]), Reader.run_compactSize_ok.mpr ⟨hn, rfl⟩]
  simp only [bind, Except.bind, pure, Except.pure, length_append, Nat.add_sub_cancel]

/-- The validator accepts the code of ascending values below the range. -/
theorem validateParameters_spec {limits : FilterLimits} {m pad : Nat} {body : Bytes} (hm : 1 ≤ m) (hm' : m < 2 ^ 32)
    (hp : p ≤ 31) (hcount : values.length ≤ limits.maxElements) (hrange : values.length * m < 2 ^ 64)
    (hminimum : values.length * (p + 1) < 2 ^ 64) (hsorted : values.Pairwise (· ≤ ·))
    (hvalues : ∀ v ∈ values, v < values.length * m) (hpad : pad < 8)
    (hbody : bytesBits body = deltaBits p 0 values ++ List.replicate pad false)
    (hbytes : (compactSizeBytes values.length ++ body).length ≤ limits.maxBytes) :
    validateParameters (compactSizeBytes values.length ++ body) limits m p =
      .ok ⟨compactSizeBytes values.length ++ body, values, values.length * m⟩ := by
  have hlt : values.length < 2 ^ 64 := Nat.lt_of_le_of_lt (Nat.le_mul_of_pos_right _ hm) hrange
  have hlength := congrArg List.length hbody
  rw [length_bytesBits, length_append, length_replicate] at hlength
  have hdeltas := le_length_deltaBits p 0 values
  rw [validateParameters, if_neg (by omega), if_neg (by omega), readCompactSize_spec hlt]
  simp only [bind, Except.bind, drop_left]
  rw [if_neg (by omega), checkedWord, if_pos hminimum]
  simp only
  rw [if_neg (by omega)]
  by_cases hnone : values.length = 0
  · have hvalues : values = [] := length_eq_zero_iff.mp hnone
    subst hvalues
    have hempty : body = [] := length_eq_zero_iff.mp (by simp [deltaBits] at hlength; omega)
    rw [if_pos hnone, if_neg (fun h => h hempty)]
    simp
  · rw [if_neg hnone, checkedWord, if_pos hrange]
    simp only
    rw [readBody_spec (by omega) hrange hsorted hvalues hpad hbody]

end Zakura.Filter
