import Zakura.Filter.Lemmas.Decode

/-! # What the validator accepts

A byte string is accepted only if it is the Golomb-Rice encoding of the values it is decoded to. -/

namespace Zakura.Filter

open List Zakura.Except

/-! ## The encoding of a list of values -/

/-- The byte string is the encoding of at most `max` ascending values, each below their number times `m`: the
canonical count, the Golomb-Rice code of the deltas, and zeros up to a whole byte. -/
structure Encodes (p m max : Nat) (values : List Nat) (bytes : Bytes) : Prop where
  count_le : values.length ≤ max
  sorted : values.Pairwise (· ≤ ·)
  below : ∀ v ∈ values, v < values.length * m
  code : ∃ body pad, bytes = compactSizeBytes values.length ++ body ∧ pad < 8 ∧
    bytesBits body = deltaBits p 0 values ++ List.replicate pad false

/-! ## Readers -/

namespace BitReader

variable {r r' : BitReader}

theorem readBit_ok {bit : Nat} (h : r.readBit = .ok (bit, r')) :
    ∃ b : Bool, bit = b.toNat ∧ r' = r.advance 1 ∧ r.rest = b :: r'.rest := by
  unfold readBit at h
  split at h
  · cases h
  · rename_i byte hbyte
    obtain ⟨rfl, rfl⟩ := Prod.mk.inj (Except.ok.inj h)
    have hget : (bytesBits r.bytes)[r.bit]? = some (byte.toNat.testBit (7 - r.bit % 8)) := by
      rw [bytesBits_getElem?, hbyte]
      rfl
    obtain ⟨hlt, hbit⟩ := List.getElem?_eq_some_iff.mp hget
    refine ⟨byte.toNat.testBit (7 - r.bit % 8), (Nat.toNat_testBit ..).symm, rfl, ?_⟩
    rw [rest, drop_eq_getElem_cons hlt, hbit]
    rfl

variable {n v : Nat}

/-- By induction on the bits left: the value grows by the bits that were read. -/
theorem readBitsLoop_ok {value : Nat} (hn : n ≤ 64) (hvalue : value < 2 ^ (64 - n))
    (h : readBitsLoop n value r = .ok (v, r')) :
    ∃ w < 2 ^ n, v = value * 2 ^ n + w ∧ r' = r.advance n ∧ r.rest = natBits n w ++ r'.rest := by
  have hlong : ∃ read, read.length = n ∧ ∃ more, r.rest = read ++ more := by
    clear hvalue hn
    induction n generalizing value r with
    | zero => exact ⟨[], rfl, r.rest, rfl⟩
    | succ n ih =>
      rw [readBitsLoop, bind_eq_ok] at h
      obtain ⟨⟨bit, r₁⟩, hbit, h⟩ := h
      obtain ⟨b, -, -, hrest⟩ := readBit_ok hbit
      obtain ⟨read, hlength, more, hmore⟩ := ih h
      exact ⟨b :: read, by rw [length_cons, hlength], more, by rw [hrest, hmore, cons_append]⟩
  obtain ⟨read, rfl, more, hmore⟩ := hlong
  have hread := natBits_bitsNat read
  have hlt := bitsNat_lt read
  rw [← hread] at hmore
  have hspec := readBitsLoop_spec hn (bitsNat 0 read) hvalue hmore
  rw [hspec] at h
  obtain ⟨rfl, rfl⟩ := Prod.mk.inj (Except.ok.inj h)
  refine ⟨bitsNat 0 read, hlt, by rw [Nat.mod_eq_of_lt hlt], rfl, ?_⟩
  rw [hmore, show r.advance read.length = r.advance (natBits read.length (bitsNat 0 read)).length by
    rw [length_natBits], rest_advance _ hmore]

theorem readBits_ok (hn : n ≤ 64) (h : r.readBits n = .ok (v, r')) :
    v < 2 ^ n ∧ r' = r.advance n ∧ r.rest = natBits n v ++ r'.rest := by
  obtain ⟨w, hlt, rfl, rfl, hrest⟩ := readBitsLoop_ok hn (Nat.two_pow_pos _) h
  rw [Nat.zero_mul, Nat.zero_add]
  exact ⟨hlt, rfl, hrest⟩

theorem padding_ok (hbit : r.bit ≤ 8 * r.bytes.length) (h : r.paddingIsZero = .ok ())
    (hend : r.bytes.length ≤ r.consumedBytes) : ∃ pad < 8, r.rest = List.replicate pad false := by
  rw [consumedBytes] at hend
  have hpad : 8 * r.bytes.length - r.bit < 8 := by omega
  exact ⟨_, hpad, (paddingIsZero_iff hbit hpad).mp h⟩

end BitReader

/-! ## Elements -/

variable {index q : Nat} {r r' : BitReader}

/-- By induction on the rounds: a run of ones is counted, up to the zero that ends it. -/
theorem readQuotient_ok {maxQuotient fuel quotient : Nat} (h : readQuotient index maxQuotient fuel quotient r = .ok (q, r'))
    :
    ∃ ones, q = quotient + ones ∧ (ones = 0 ∨ q ≤ maxQuotient) ∧ r' = r.advance (ones + 1) ∧
      r.rest = List.replicate ones true ++ false :: r'.rest := by
  induction fuel generalizing quotient r with
  | zero => cases h
  | succ fuel ih =>
    rw [readQuotient, bind_eq_ok] at h
    obtain ⟨⟨bit, r₁⟩, hbit, h⟩ := h
    obtain ⟨b, rfl, rfl, hrest⟩ := BitReader.readBit_ok hbit
    cases b with
    | false =>
      obtain ⟨rfl, rfl⟩ := Prod.mk.inj (Except.ok.inj h)
      exact ⟨0, rfl, .inl rfl, rfl, hrest⟩
    | true =>
      simp only [Bool.toNat_true, if_true] at h
      split at h
      · cases h
      · rename_i hmax
        obtain ⟨ones, rfl, hones, rfl, hmore⟩ := ih h
        refine ⟨ones + 1, by omega, .inr (by omega), ?_, ?_⟩
        · rw [BitReader.advance_advance]
          congr 1
          omega
        · rw [hrest, hmore, replicate_succ, cons_append]

variable {p : Nat}

theorem golombBits_mul_add {lo : Nat} (h : lo < 2 ^ p) :
    golombBits p (q * 2 ^ p + lo) = List.replicate q true ++ false :: natBits p lo := by
  have hdiv : (q * 2 ^ p + lo) / 2 ^ p = q := by
    rw [Nat.add_comm, Nat.add_mul_div_right _ _ (Nat.two_pow_pos p), Nat.div_eq_of_lt h, Nat.zero_add]
  have hmod : (q * 2 ^ p + lo) % 2 ^ p = lo % 2 ^ p := by rw [Nat.add_comm, Nat.add_mul_mod_self_right]
  rw [golombBits, hdiv, natBits_congr hmod]

theorem checkedWord_ok {value word : Nat} {error : FilterError} (h : checkedWord value error = .ok word) :
    value < 2 ^ 64 ∧ value = word := by
  unfold checkedWord at h
  split at h
  · rename_i hlt
    exact ⟨hlt, Except.ok.inj h⟩
  · cases h

variable {range last : Nat}

theorem readElement_ok {next : Nat} (hp : p ≤ 64) (hrange : range < 2 ^ 64)
    (h : readElement p range index last r = .ok (next, r')) :
    last ≤ next ∧ next < range ∧ r' = r.advance (golombBits p (next - last)).length ∧
      r.rest = golombBits p (next - last) ++ r'.rest := by
  simp only [readElement, bind_eq_ok] at h
  obtain ⟨⟨q, r₁⟩, hq, ⟨rem, r₂⟩, hrem, delta, hdelta, last', hlast, h⟩ := h
  obtain ⟨ones, hones, hmax, rfl, hrest⟩ := readQuotient_ok hq
  obtain ⟨hlt, rfl, hlow⟩ := BitReader.readBits_ok hp hrem
  obtain ⟨-, rfl⟩ := checkedWord_ok hdelta
  obtain ⟨-, rfl⟩ := checkedWord_ok hlast
  dsimp only at h hlast
  rw [Nat.zero_add] at hones
  subst hones
  -- The bound on the quotient is what keeps the shift from losing bits.
  have hshift : q * 2 ^ p < 2 ^ 64 := by
    rcases hmax with rfl | hmax
    · rw [Nat.zero_mul]
      exact Nat.two_pow_pos 64
    · exact lt_of_le_of_lt ((Nat.mul_le_mul_right _ hmax).trans (Nat.div_mul_le_self ..)) hrange
  rw [Nat.mod_eq_of_lt hshift] at h
  split at h
  · cases h
  · obtain ⟨rfl, rfl⟩ := Prod.mk.inj (Except.ok.inj h)
    have hcode := golombBits_mul_add (q := q) hlt
    refine ⟨by omega, by omega, ?_, ?_⟩
    · rw [Nat.add_sub_cancel_left, BitReader.advance_advance, hcode]
      congr 1
      simp only [length_append, length_replicate, length_cons, length_natBits]
      omega
    · rw [Nat.add_sub_cancel_left, hcode, hrest, hlow, append_assoc, cons_append]

variable {count : Nat} {values : List Nat}

/-- By induction on the elements left: what is read is ascending, and its code is what was consumed. -/
theorem readElements_ok (hp : p ≤ 64) (hrange : range < 2 ^ 64)
    (h : readElements p range count index last r = .ok (values, r')) :
    values.length = count ∧ (last :: values).Pairwise (· ≤ ·) ∧ (∀ v ∈ values, v < range) ∧
      r' = r.advance (deltaBits p last values).length ∧ r.rest = deltaBits p last values ++ r'.rest := by
  induction count generalizing index last values r with
  | zero =>
    obtain ⟨rfl, rfl⟩ := Prod.mk.inj (Except.ok.inj h)
    exact ⟨rfl, pairwise_singleton .., by simp, rfl, rfl⟩
  | succ count ih =>
    simp only [readElements, bind_eq_ok] at h
    obtain ⟨⟨next, r₁⟩, hnext, ⟨more, r₂⟩, hmore, h⟩ := h
    obtain ⟨rfl, rfl⟩ := Prod.mk.inj (Except.ok.inj h)
    obtain ⟨hle, hlt, rfl, hrest⟩ := readElement_ok hp hrange hnext
    obtain ⟨hlength, hsorted, hbelow, rfl, htail⟩ := ih hmore
    refine ⟨by rw [length_cons, hlength], pairwise_cons.mpr ⟨?_, hsorted⟩, ?_, ?_, ?_⟩
    · intro v hv
      cases hv with
      | head => exact hle
      | tail _ hv => exact hle.trans ((pairwise_cons.mp hsorted).1 v hv)
    · intro v hv
      cases hv with
      | head => exact hlt
      | tail _ hv => exact hbelow v hv
    · rw [BitReader.advance_advance, deltaBits, length_append]
    · rw [hrest, htail, deltaBits, append_assoc]

/-! ## Whole filters -/

theorem readBody_ok {body : Bytes} (hp : p ≤ 64) (hrange : range < 2 ^ 64) (h : readBody p range count body = .ok values) :
    values.length = count ∧ values.Pairwise (· ≤ ·) ∧ (∀ v ∈ values, v < range) ∧
      ∃ pad < 8, bytesBits body = deltaBits p 0 values ++ List.replicate pad false := by
  simp only [readBody, bind_eq_ok] at h
  obtain ⟨⟨read, r⟩, hread, _, hpadding, h⟩ := h
  obtain ⟨hlength, hsorted, hbelow, rfl, hrest⟩ := readElements_ok hp hrange hread
  dsimp only at h hpadding
  split at h
  · cases h
  · rename_i hend
    obtain rfl := Except.ok.inj h
    have hbits : bytesBits body = deltaBits p 0 read ++ _ := hrest
    have htotal := congrArg List.length hbits
    rw [length_bytesBits, length_append] at htotal
    obtain ⟨pad, hpad, hzeros⟩ := BitReader.padding_ok (by simp only [BitReader.advance]; omega) hpadding
      (not_lt.mp hend)
    exact ⟨hlength, (pairwise_cons.mp hsorted).2, hbelow, pad, hpad, by rw [hbits, hzeros]⟩

variable {bytes : Bytes}

theorem readCompactSize_ok {length : Nat} (h : readCompactSize bytes = .ok (count, length)) :
    count < 2 ^ 64 ∧ ∃ body, bytes = compactSizeBytes count ++ body ∧ bytes.drop length = body := by
  unfold readCompactSize at h
  split at h
  · cases h
  · rw [bind_eq_ok] at h
    obtain ⟨⟨value, rest⟩, hread, h⟩ := h
    obtain ⟨hlt, rfl⟩ := Reader.run_compactSize_ok.mp hread
    obtain ⟨rfl, rfl⟩ := Prod.mk.inj (Except.ok.inj h)
    refine ⟨hlt, rest, rfl, ?_⟩
    rw [length_append, Nat.add_sub_cancel, drop_left]

theorem validateParameters_ok {limits : FilterLimits} {m : Nat} {filter : ValidatedFilter} (hm : 1 ≤ m) (hm' : m < 2 ^ 32)
    (hp : p ≤ 31) (hmax : limits.maxElements < 2 ^ 32) :
    validateParameters bytes limits m p = .ok filter ↔
      bytes.length ≤ limits.maxBytes ∧ Encodes p m limits.maxElements filter.values bytes ∧
        filter = ⟨bytes, filter.values, filter.values.length * m⟩ := by
  constructor
  · intro h
    rw [validateParameters, if_neg (by omega)] at h
    split at h
    · cases h
    · rename_i hbytes
      simp only [bind_eq_ok] at h
      obtain ⟨⟨count, length⟩, hcount, h⟩ := h
      obtain ⟨-, body, rfl, hbody⟩ := readCompactSize_ok hcount
      dsimp only at h
      rw [hbody] at h
      split at h
      · cases h
      · rename_i hle
        obtain ⟨bits, hbits, h⟩ := bind_eq_ok.mp h
        split at h
        · cases h
        · split at h
          · rename_i hzero
            subst hzero
            split at h
            · cases h
            · rename_i hnil
              obtain rfl := Except.ok.inj h
              rw [not_not] at hnil
              exact ⟨not_lt.mp hbytes, ⟨Nat.zero_le _, .nil, by simp, body, 0, rfl, by omega, by rw [hnil]; rfl⟩,
                by simp⟩
          · obtain ⟨range, hrange, h⟩ := bind_eq_ok.mp h
            obtain ⟨values, hvalues, h⟩ := bind_eq_ok.mp h
            obtain ⟨hlt, rfl⟩ := checkedWord_ok hrange
            obtain rfl := Except.ok.inj h
            obtain ⟨rfl, hsorted, hbelow, pad, hpad, hcode⟩ := readBody_ok (by omega) hlt hvalues
            exact ⟨not_lt.mp hbytes, ⟨not_lt.mp hle, hsorted, hbelow, body, pad, rfl, hpad, hcode⟩, rfl⟩
  · rintro ⟨hbytes, ⟨hcount, hsorted, hbelow, body, pad, rfl, hpad, hbody⟩, hfilter⟩
    have hrange : filter.values.length * m < 2 ^ 32 * 2 ^ 32 := Nat.mul_lt_mul'' (by omega) hm'
    have hbits : filter.values.length * (p + 1) < 2 ^ 32 * 2 ^ 32 := Nat.mul_lt_mul'' (by omega) (by omega)
    rw [hfilter]
    exact validateParameters_spec hm hm' hp hcount hrange hbits hsorted hbelow hpad hbody hbytes

end Zakura.Filter
