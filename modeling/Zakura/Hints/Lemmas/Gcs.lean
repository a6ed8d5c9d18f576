import Zakura.Filter.Lemmas.Canonical
import Zakura.Hints.Gcs

/-! # What the receiver's decoder reads

The reader is specified by the bits it still holds; a walk is specified by the values whose code they are. -/

namespace Zakura.Hints

open List Zakura.Except
open Zakura.Filter (golombBits deltaBits length_golombBits golombBits_mul_add le_length_deltaBits Encodes)
open Zakura.Receiver (Error)

namespace BitStreamReader

def pending (r : BitStreamReader) : List Bool := (natBits 8 r.buffer.toNat).drop r.offset ++ bytesBits r.reader

/-- At least one bit of the buffer is used up. -/
structure WF (r : BitStreamReader) : Prop where
  offset_pos : 1 ≤ r.offset
  offset_le : r.offset ≤ 8

theorem new_wf (bytes : Bytes) : (new bytes).WF := ⟨Nat.le_of_ble_eq_true rfl, le_rfl⟩

@[simp] theorem pending_new (bytes : Bytes) : (new bytes).pending = bytesBits bytes := rfl

theorem length_pending (r : BitStreamReader) : r.pending.length = 8 - r.offset + 8 * r.reader.length := by
  rw [pending, length_append, length_drop, length_natBits, length_bytesBits]

variable {r : BitStreamReader}

theorem WF.pending_eq (h : r.WF) (hlength : r.pending.length % 8 = 0) : r.pending = bytesBits r.reader := by
  rw [length_pending] at hlength
  have hpos := h.offset_pos
  have hle := h.offset_le
  rw [pending, drop_of_length_le (by rw [length_natBits]; omega), nil_append]

variable {r' : BitStreamReader}

theorem refill_ok (hle : r.offset ≤ 8) (h : r.refill = .ok r') : r'.offset < 8 ∧ r'.pending = r.pending := by
  unfold refill at h
  split at h
  · rename_i hoffset
    split at h
    · cases h
    · rename_i byte reader hreader
      obtain rfl := Except.ok.inj h
      refine ⟨Nat.zero_lt_succ 7, ?_⟩
      rw [pending, pending, hreader, hoffset, drop_of_length_le (length_natBits ..).le]
      rfl
  · obtain rfl := Except.ok.inj h
    exact ⟨by omega, rfl⟩

theorem refill_spec (h : r.pending ≠ []) : ∃ r', r.refill = .ok r' := by
  unfold refill
  split
  · rename_i hoffset
    split
    · rename_i hreader
      refine absurd ?_ h
      rw [pending, hreader, hoffset, drop_of_length_le (length_natBits ..).le]
      rfl
    · exact ⟨_, rfl⟩
  · exact ⟨r, rfl⟩

variable {bits : Nat}

theorem shifted_eq {byte offset free : Nat} (h : offset + bits + free = 8) :
    byte * 2 ^ offset % 2 ^ 8 / 2 ^ (8 - bits) = byte / 2 ^ free % 2 ^ bits := by
  have h8 : 2 ^ 8 = 2 ^ (bits + free) * 2 ^ offset := by
    rw [← Nat.pow_add]
    congr 1
    omega
  have hdown : 2 ^ (8 - bits) = 2 ^ free * 2 ^ offset := by
    rw [← Nat.pow_add]
    congr 1
    omega
  rw [h8, Nat.mul_mod_mul_right, hdown, Nat.mul_div_mul_right _ _ (Nat.two_pow_pos _), Nat.pow_add, Nat.mul_comm,
    Nat.mod_mul_right_div_self]

theorem pending_take (r : BitStreamReader) (h : r.offset + bits ≤ 8) :
    r.pending = natBits bits (r.buffer.toNat / 2 ^ (8 - (r.offset + bits))) ++
      ({ r with offset := r.offset + bits } : BitStreamReader).pending := by
  have hsplit := natBits_add (r.offset + bits) (8 - (r.offset + bits)) r.buffer.toNat
  rw [Nat.add_sub_of_le h, natBits_add r.offset bits, append_assoc] at hsplit
  rw [pending, pending, hsplit, drop_left' (length_natBits ..), ← append_assoc (natBits r.offset _),
    drop_left' (by rw [length_append, length_natBits, length_natBits]), append_assoc]

variable {nbits : Nat}

theorem readLoop_ok {fuel data v : Nat} (hwf : r.WF) (hfuel : nbits ≤ fuel) (hn : nbits ≤ 64)
    (hdata : data < 2 ^ (64 - nbits)) (h : readLoop fuel r data nbits = .ok (v, r')) :
    r'.WF ∧ ∃ bits, bits.length = nbits ∧ v = bitsNat data bits ∧ r.pending = bits ++ r'.pending := by
  induction fuel generalizing r data nbits with
  | zero =>
    obtain rfl : nbits = 0 := by omega
    obtain ⟨rfl, rfl⟩ := Prod.mk.inj (Except.ok.inj h)
    exact ⟨hwf, [], rfl, rfl, rfl⟩
  | succ fuel ih =>
    rw [readLoop] at h
    split at h
    · rename_i hpos
      obtain ⟨r₁, hrefill, h⟩ := bind_eq_ok.mp h
      obtain ⟨hoffset, hpending⟩ := refill_ok hwf.offset_le hrefill
      dsimp only at h
      generalize htaken : min (8 - r₁.offset) nbits = taken at h
      have htake := pending_take r₁ (by omega : r₁.offset + taken ≤ 8)
      rw [shifted_eq (by omega : r₁.offset + taken + (8 - (r₁.offset + taken)) = 8)] at h
      generalize r₁.buffer.toNat / 2 ^ (8 - (r₁.offset + taken)) = next at h htake
      have hpow : 2 ^ (64 - (nbits - taken)) = 2 ^ (64 - nbits) * 2 ^ taken := by
        rw [← Nat.pow_add]
        congr 1
        omega
      have hmod : next % 2 ^ taken < 2 ^ taken := Nat.mod_lt _ (Nat.two_pow_pos _)
      have hgrown : data * 2 ^ taken + next % 2 ^ taken < 2 ^ (64 - (nbits - taken)) := by
        rw [hpow]
        calc data * 2 ^ taken + next % 2 ^ taken < (data + 1) * 2 ^ taken := by rw [Nat.succ_mul]; omega
          _ ≤ 2 ^ (64 - nbits) * 2 ^ taken := Nat.mul_le_mul_right _ hdata
      have hword : 2 ^ (64 - (nbits - taken)) ≤ 2 ^ 64 := Nat.pow_le_pow_right (by decide) (Nat.sub_le ..)
      have hor : data * 2 ^ taken % 2 ^ 64 ||| next % 2 ^ taken = data * 2 ^ taken + next % 2 ^ taken := by
        rw [Nat.mod_eq_of_lt (by omega), Nat.mul_comm]
        exact (Nat.two_pow_add_eq_or_of_lt hmod data).symm
      rw [hor] at h
      obtain ⟨hwf', bits, hlength, rfl, hbits⟩ :=
        ih ⟨by dsimp only; omega, by dsimp only; omega⟩ (by omega) (by omega) hgrown h
      refine ⟨hwf', natBits taken next ++ bits, ?_, ?_, ?_⟩
      · rw [length_append, length_natBits, hlength]
        omega
      · rw [bitsNat_append, bitsNat_natBits]
      · rw [← hpending, htake, hbits, append_assoc]
    · obtain rfl : nbits = 0 := by omega
      obtain ⟨rfl, rfl⟩ := Prod.mk.inj (Except.ok.inj h)
      exact ⟨hwf, [], rfl, rfl, rfl⟩

theorem readLoop_total (fuel : Nat) (data : Nat) (hle : r.offset ≤ 8) (h : nbits ≤ r.pending.length) :
    ∃ v r', readLoop fuel r data nbits = .ok (v, r') := by
  induction fuel generalizing r data nbits with
  | zero => exact ⟨_, _, rfl⟩
  | succ fuel ih =>
    rw [readLoop]
    split
    · rename_i hpos
      obtain ⟨r₁, hrefill⟩ := refill_spec (ne_nil_of_length_pos (by omega : 0 < r.pending.length))
      obtain ⟨hoffset, hpending⟩ := refill_ok hle hrefill
      rw [hrefill, ok_bind]
      have htake := congrArg List.length (pending_take r₁ (by omega : r₁.offset + min (8 - r₁.offset) nbits ≤ 8))
      rw [length_append, length_natBits, hpending] at htake
      exact ih _ (by dsimp only; omega) (by omega)
    · exact ⟨_, _, rfl⟩

end BitStreamReader

/-! ## Values -/

namespace Gcs

variable {r : BitStreamReader}

variable {n v : Nat} {r' : BitStreamReader}

theorem read_ok (hwf : r.WF) (hn : n ≤ 64) (h : read r n = .ok (v, r')) :
    r'.WF ∧ v < 2 ^ n ∧ r.pending = natBits n v ++ r'.pending := by
  rw [read, mapError_eq_ok, BitStreamReader.read, if_neg (by omega)] at h
  obtain ⟨hwf', bits, rfl, rfl, hbits⟩ := BitStreamReader.readLoop_ok hwf le_rfl hn (Nat.two_pow_pos _) h
  exact ⟨hwf', bitsNat_lt bits, by rw [natBits_bitsNat, hbits]⟩

variable {more : List Bool}

theorem read_spec (hwf : r.WF) (hn : n ≤ 64) (h : r.pending = natBits n v ++ more) :
    ∃ r', read r n = .ok (v % 2 ^ n, r') ∧ r'.WF ∧ r'.pending = more := by
  have hlength := congrArg List.length h
  rw [length_append, length_natBits] at hlength
  obtain ⟨w, r', hread⟩ := BitStreamReader.readLoop_total n 0 hwf.offset_le (by omega : n ≤ r.pending.length)
  have hok : read r n = .ok (w, r') := by
    rw [read, BitStreamReader.read, if_neg (by omega), hread]
    rfl
  obtain ⟨hwf', hlt, hbits⟩ := read_ok hwf hn hok
  obtain ⟨hvalue, hmore⟩ := List.append_inj (h.symm.trans hbits) (by rw [length_natBits, length_natBits])
  have hmod := natBits_inj hvalue
  rw [Nat.mod_eq_of_lt hlt] at hmod
  exact ⟨r', by rw [hok, hmod], hwf', hmore.symm⟩

/-- By induction on the rounds: a run of ones is counted, up to the zero that ends it. -/
theorem readQuotient_ok {fuel quotient q : Nat} (hwf : r.WF) (h : readQuotient fuel quotient r = .ok (q, r')) :
    r'.WF ∧ ∃ ones, q = quotient + ones ∧ r.pending = List.replicate ones true ++ false :: r'.pending := by
  induction fuel generalizing quotient r with
  | zero => cases h
  | succ fuel ih =>
    rw [readQuotient, bind_eq_ok] at h
    obtain ⟨⟨bit, r₁⟩, hbit, h⟩ := h
    obtain ⟨hwf₁, hlt, hrest⟩ := read_ok hwf (by decide) hbit
    obtain rfl | rfl : bit = 0 ∨ bit = 1 := by omega
    · obtain ⟨rfl, rfl⟩ := Prod.mk.inj (Except.ok.inj h)
      exact ⟨hwf₁, 0, rfl, hrest⟩
    · obtain ⟨hwf', ones, rfl, hmore⟩ := ih hwf₁ h
      refine ⟨hwf', ones + 1, by omega, ?_⟩
      rw [hrest, hmore, replicate_succ]
      rfl

theorem readQuotient_spec (fuel quotient : Nat) {ones : Nat} (hwf : r.WF) (hfuel : ones < fuel)
    (h : r.pending = List.replicate ones true ++ false :: more) :
    ∃ r', readQuotient fuel quotient r = .ok (quotient + ones, r') ∧ r'.WF ∧ r'.pending = more := by
  induction ones generalizing fuel quotient r with
  | zero =>
    obtain ⟨fuel, rfl⟩ := Nat.exists_eq_add_of_lt hfuel
    obtain ⟨r', hread, hwf', hmore⟩ := read_spec (n := 1) (v := 0) hwf (by decide) h
    refine ⟨r', ?_, hwf', hmore⟩
    rw [Nat.zero_add, readQuotient, hread]
    rfl
  | succ ones ih =>
    obtain ⟨fuel, rfl⟩ : ∃ n, fuel = n + 1 := ⟨fuel - 1, by omega⟩
    obtain ⟨r₁, hread, hwf₁, hmore₁⟩ := read_spec (n := 1) (v := 1) hwf (by decide) h
    obtain ⟨r', hrest, hwf', hmore⟩ := ih fuel (quotient + 1) hwf₁ (by omega) hmore₁
    refine ⟨r', ?_, hwf', hmore⟩
    rw [readQuotient, hread, ok_bind]
    rw [Nat.add_assoc, Nat.add_comm 1] at hrest
    exact hrest

/-- What a visitor ends on, and whether it broke. -/
def visitAll {σ : Type} (each : σ → Nat → σ × Bool) : σ → List Nat → σ × Bool
  | state, [] => (state, false)
  | state, v :: values =>
    if (each state v).2 then ((each state v).1, true) else visitAll each (each state v).1 values

section Walk

variable {σ : Type} {p m max range : Nat} {each : σ → Nat → σ × Bool}

theorem visitAll_never (h : ∀ state v, (each state v).2 = false) (state : σ) (values : List Nat) :
    (visitAll each state values).2 = false := by
  induction values generalizing state with
  | nil => rfl
  | cons v values ih => rw [visitAll, h, if_neg Bool.false_ne_true, ih]

variable {values : List Nat} {last : Nat} {r : BitStreamReader}

/-- The values of a code are visited in order, until the visitor breaks. -/
theorem walkValues_spec (each : σ → Nat → σ × Bool) (hp : p ≤ 64) (hrange : range < 2 ^ 64) (state : σ) (used : Nat)
    {more : List Bool} (hwf : r.WF) (hsorted : (last :: values).Pairwise (· ≤ ·)) (hbelow : ∀ v ∈ values, v < range)
    (h : r.pending = deltaBits p last values ++ more) :
    ∃ r' : BitStreamReader, r'.WF ∧ r'.pending = more ∧
      walkValues p range each values.length state used last r =
        .ok ((visitAll each state values).1,
          if (visitAll each state values).2 then none else some (used + (deltaBits p last values).length, r')) := by
  induction values generalizing state used last r with
  | nil => exact ⟨r, hwf, h, rfl⟩
  | cons v values ih =>
    have hle : last ≤ v := (pairwise_cons.mp hsorted).1 v mem_cons_self
    have hv := hbelow v mem_cons_self
    have hlength := r.length_pending
    rw [h, deltaBits, append_assoc, length_append, length_golombBits] at hlength
    have hbits : r.pending = List.replicate ((v - last) / 2 ^ p) true ++
        false :: (natBits p (v - last) ++ (deltaBits p v values ++ more)) := by
      rw [h, deltaBits, golombBits]
      simp only [append_assoc, cons_append]
    obtain ⟨r₁, hquotient, hwf₁, hrest₁⟩ := readQuotient_spec (8 * r.reader.length + 9) 0 hwf (by omega) hbits
    obtain ⟨r₂, hremainder, hwf₂, hrest₂⟩ := read_spec hwf₁ hp hrest₁
    obtain ⟨r', hwf', hmore, hwalk⟩ := ih (each state v).1 (used + ((v - last) / 2 ^ p + 1 + p)) hwf₂
      (pairwise_cons.mp hsorted).2 (fun w hw => hbelow w (mem_cons_of_mem v hw)) hrest₂
    refine ⟨r', hwf', hmore, ?_⟩
    have hsplit := Nat.div_add_mod' (v - last) (2 ^ p)
    have hvalue : last + ((v - last) / 2 ^ p * 2 ^ p % 2 ^ 64 + (v - last) % 2 ^ p) = v := by
      rw [Nat.mod_eq_of_lt (by omega)]
      omega
    rw [length_cons, walkValues, hquotient, ok_bind]
    simp only [Nat.zero_add]
    rw [hremainder, ok_bind]
    simp only [hvalue]
    rw [if_neg (by omega), visitAll]
    split
    · rfl
    · rw [hwalk, deltaBits, length_append, length_golombBits, Nat.add_assoc]

variable {state : σ}

/-- By induction on the values left: a walk that does not break read the code of ascending values below the range.
The bits of a quotient must fit the word, or the shift loses them. -/
theorem walkValues_ok (hp : p ≤ 64) (hnever : ∀ state v, (each state v).2 = false) {count used : Nat}
    {result : σ × Option (Nat × BitStreamReader)} (hwf : r.WF) (hbits : r.pending.length * 2 ^ p < 2 ^ 64)
    (h : walkValues p range each count state used last r = .ok result) :
    ∃ values r', values.length = count ∧ (last :: values).Pairwise (· ≤ ·) ∧ (∀ v ∈ values, v < range) ∧
      r.pending = deltaBits p last values ++ BitStreamReader.pending r' := by
  induction count generalizing state used last r with
  | zero => exact ⟨[], r, rfl, pairwise_singleton .., by simp, rfl⟩
  | succ count ih =>
    simp only [walkValues, bind_eq_ok] at h
    obtain ⟨⟨q, r₁⟩, hq, ⟨rem, r₂⟩, hrem, h⟩ := h
    obtain ⟨hwf₁, ones, hones, hrest⟩ := readQuotient_ok hwf hq
    obtain ⟨hwf₂, hlt, hlow⟩ := read_ok hwf₁ hp hrem
    rw [Nat.zero_add] at hones
    subst hones
    have hpending : r.pending = golombBits p (q * 2 ^ p + rem) ++ r₂.pending := by
      rw [hrest, hlow, golombBits_mul_add hlt, append_assoc, cons_append]
    have hlength := congrArg List.length hpending
    rw [length_append, length_golombBits] at hlength
    have hones := congrArg List.length hrest
    rw [length_append, length_replicate] at hones
    generalize (q * 2 ^ p + rem) / 2 ^ p = run at hlength
    have hshift : q * 2 ^ p < 2 ^ 64 :=
      lt_of_le_of_lt (Nat.mul_le_mul_right _ (by omega : q ≤ r.pending.length)) hbits
    have hnext : r₂.pending.length * 2 ^ p < 2 ^ 64 :=
      lt_of_le_of_lt (Nat.mul_le_mul_right _ (by omega : r₂.pending.length ≤ r.pending.length)) hbits
    dsimp only at h
    rw [Nat.mod_eq_of_lt hshift] at h
    split at h
    · cases h
    · rename_i hvalue
      rw [hnever, if_neg Bool.false_ne_true] at h
      obtain ⟨values, r', rfl, hsorted, hbelow, hcode⟩ := ih hwf₂ hnext h
      refine ⟨(last + (q * 2 ^ p + rem)) :: values, r', rfl, pairwise_cons.mpr ⟨?_, hsorted⟩, ?_, ?_⟩
      · intro v hv
        cases hv with
        | head => omega
        | tail _ hv => exact (Nat.le_add_right ..).trans ((pairwise_cons.mp hsorted).1 v hv)
      · intro v hv
        cases hv with
        | head => omega
        | tail _ hv => exact hbelow v hv
      · rw [hpending, hcode, deltaBits, Nat.add_sub_cancel_left, append_assoc]

/-! ## Sets -/

theorem length_deltaBits_mod {n pad : Nat} {body : Bytes} {bits : List Bool} (hn : bits.length = n) (hpad : pad < 8)
    (h : bytesBits body = bits ++ List.replicate pad false) : (8 - n % 8) % 8 = pad := by
  have hlength := congrArg List.length h
  rw [length_bytesBits, length_append, length_replicate] at hlength
  omega

/-- An encoded set is walked whatever follows it, and the walk stops at its end unless the visitor broke. -/
theorem walk_spec (each : σ → Nat → σ × Bool) (hp : p ≤ 64) {set : Bytes} (hset : Encodes p m max values set)
    (hrange : values.length * m < 2 ^ 64) (hmax : max < 2 ^ 64) (tail : Bytes) (state : σ) :
    walk (set ++ tail) p m max each state =
      .ok ((visitAll each state values).1, values.length,
        if (visitAll each state values).2 then none else some tail) := by
  obtain ⟨hcount, hsorted, hbelow, body, pad, rfl, hpad, hbody⟩ := hset
  have hstart : (BitStreamReader.new (body ++ tail)).pending =
      deltaBits p 0 values ++ (List.replicate pad false ++ bytesBits tail) := by
    rw [BitStreamReader.pending_new, bytesBits_append, hbody, append_assoc]
  have hlength := congrArg List.length hbody
  rw [length_bytesBits, length_append, length_replicate] at hlength
  have hdeltas := le_length_deltaBits p 0 values
  have hzero : (0 :: values).Pairwise (· ≤ ·) := pairwise_cons.mpr ⟨fun v _ => Nat.zero_le v, hsorted⟩
  obtain ⟨r', hwf', hmore, hwalk⟩ :=
    walkValues_spec each hp hrange state 0 (BitStreamReader.new_wf _) hzero hbelow hstart
  rw [walk, append_assoc, Reader.run_compactSize_ok.mpr ⟨by omega, rfl⟩, ok_bind]
  dsimp only
  rw [if_neg (by rw [length_append]; omega), hwalk, ok_bind]
  cases (visitAll each state values).2 with
  | true => rfl
  | false =>
    simp only [if_false, Bool.false_eq_true, Nat.zero_add, length_deltaBits_mod rfl hpad hbody]
    split
    · have hzeros : r'.pending = natBits pad 0 ++ bytesBits tail := by rw [hmore, natBits_zero_right]
      obtain ⟨r'', hread, hwf'', hpadded⟩ := read_spec hwf' (by omega) hzeros
      have htail := hwf''.pending_eq (by rw [hpadded, length_bytesBits]; omega)
      rw [hread, ok_bind, Nat.zero_mod]
      simp only [ne_eq, not_true_eq_false, if_false]
      rw [bytesBits_injective (htail.symm.trans hpadded)]
    · obtain rfl : pad = 0 := by omega
      have htail := hwf'.pending_eq (by rw [hmore]; simp)
      rw [bytesBits_injective (htail.symm.trans hmore)]

/-- A walk that does not break reads an encoded set off the front. -/
theorem walk_ok (hp : p ≤ 64) (hrange : max * m < 2 ^ 64) (hnever : ∀ state v, (each state v).2 = false) {bytes : Bytes}
    (hbytes : 8 * bytes.length * 2 ^ p < 2 ^ 64) {result : σ × Nat × Option Bytes}
    (h : walk bytes p m max each state = .ok result) :
    ∃ values set tail, bytes = set ++ tail ∧ Encodes p m max values set := by
  simp only [walk, bind_eq_ok] at h
  obtain ⟨⟨count, rest⟩, hcount, h⟩ := h
  obtain ⟨-, rfl⟩ := Reader.run_compactSize_ok.mp hcount
  dsimp only at h
  split at h
  · cases h
  · rename_i hbound
    obtain ⟨⟨after, next⟩, hvalues, h⟩ := bind_eq_ok.mp h
    have hrest : (BitStreamReader.new rest).pending.length * 2 ^ p < 2 ^ 64 := by
      refine lt_of_le_of_lt (Nat.mul_le_mul_right _ ?_) hbytes
      rw [BitStreamReader.pending_new, length_bytesBits, length_append]
      omega
    obtain ⟨values, r', rfl, hsorted, hbelow, hcode⟩ :=
      walkValues_ok hp hnever (BitStreamReader.new_wf rest) hrest hvalues
    have hmul : values.length * m ≤ max * m := Nat.mul_le_mul_right _ (by omega)
    obtain ⟨r, hwf, hmore, hwalk⟩ :=
      walkValues_spec each hp (by omega) state 0 (BitStreamReader.new_wf rest) hsorted hbelow hcode
    rw [hvalues, visitAll_never hnever, if_neg Bool.false_ne_true, Nat.zero_add] at hwalk
    obtain ⟨-, rfl⟩ := Prod.mk.inj (Except.ok.inj hwalk)
    dsimp only at h
    obtain ⟨pad, tail, hpad, hpadded⟩ : ∃ pad tail, pad < 8 ∧
        r.pending = List.replicate pad false ++ bytesBits tail := by
      have htotal := congrArg List.length hcode
      rw [BitStreamReader.pending_new, length_bytesBits, length_append, ← hmore] at htotal
      generalize hpadding : (8 - (deltaBits p 0 values).length % 8) % 8 = padding at h
      split at h
      · obtain ⟨⟨bits, r₃⟩, hread, h⟩ := bind_eq_ok.mp h
        obtain ⟨hwf₃, -, hbits⟩ := read_ok hwf (by omega) hread
        dsimp only at h
        split at h
        · cases h
        · rename_i hzero
          rw [not_not.mp hzero, natBits_zero_right] at hbits
          have hlength := congrArg List.length hbits
          rw [length_append, length_replicate] at hlength
          exact ⟨padding, r₃.reader, by omega, by rw [hbits, hwf₃.pending_eq (by omega)]⟩
      · exact ⟨0, r.reader, by omega, hwf.pending_eq (by omega)⟩
    rw [← hmore, hpadded, BitStreamReader.pending_new, ← append_assoc] at hcode
    obtain ⟨body, rfl, hbody⟩ := bytesBits_eq_append_right hcode
    exact ⟨values, compactSizeBytes values.length ++ body, tail, (append_assoc ..).symm,
      by omega, (pairwise_cons.mp hsorted).2, hbelow, body, pad, rfl, hpad, hbody⟩

end Walk

/-! ## Whole sets and sets at the front -/

section Sets

variable {p m max : Nat}

theorem visitAll_push (state values : List Nat) : visitAll push state values = (state ++ values, false) := by
  induction values generalizing state with
  | nil => rw [append_nil]; rfl
  | cons v values ih =>
    rw [visitAll, push, if_neg Bool.false_ne_true, ih, append_assoc]
    rfl

variable {values : List Nat} {set : Bytes}

theorem visit_spec {σ : Type} (each : σ → Nat → σ × Bool) (hp : p ≤ 64) (hset : Encodes p m max values set)
    (hrange : values.length * m < 2 ^ 64) (hmax : max < 2 ^ 64) (state : σ) :
    visit set p m max each state = .ok ((visitAll each state values).1, values.length) := by
  have hwalk := walk_spec each hp hset hrange hmax [] state
  rw [append_nil] at hwalk
  rw [visit, hwalk, ok_bind]
  cases (visitAll each state values).2 <;> rfl

variable {bytes : Bytes}

theorem visit_push_ok (hp : p ≤ 64) (hrange : max * m < 2 ^ 64) (hmax : max < 2 ^ 64)
    (hbytes : 8 * bytes.length * 2 ^ p < 2 ^ 64) {count : Nat} :
    visit bytes p m max push [] = .ok (values, count) ↔
      Encodes p m max values bytes ∧ count = values.length := by
  constructor
  · intro h
    simp only [visit, bind_eq_ok] at h
    obtain ⟨⟨state, n, rest⟩, hwalk, h⟩ := h
    obtain ⟨decoded, set, tail, rfl, hset⟩ := walk_ok hp hrange (fun _ _ => rfl) hbytes hwalk
    have hmul := Nat.mul_le_mul_right m hset.count_le
    rw [walk_spec _ hp hset (by omega) hmax, visitAll_push, if_neg Bool.false_ne_true] at hwalk
    obtain ⟨rfl, hrest⟩ := Prod.mk.inj (Except.ok.inj hwalk)
    obtain ⟨rfl, rfl⟩ := Prod.mk.inj hrest
    dsimp only at h
    cases tail with
    | nil =>
      obtain ⟨rfl, rfl⟩ := Prod.mk.inj (Except.ok.inj h)
      rw [append_nil, nil_append]
      exact ⟨hset, rfl⟩
    | cons b tail => cases h
  · rintro ⟨hset, rfl⟩
    have hmul := Nat.mul_le_mul_right m hset.count_le
    rw [visit_spec _ hp hset (by omega) hmax, visitAll_push, nil_append]

/-- Splitting stops at the end of the set, and never panics. -/
theorem split_spec (hp : p ≤ 64) (hset : Encodes p m max values set) (hrange : max * m < 2 ^ 64) (hmax : max < 2 ^ 64)
    (tail : Bytes) :
    split (set ++ tail) p m max = .done (.ok (set, tail)) := by
  have hmul := Nat.mul_le_mul_right m hset.count_le
  rw [split, walk_spec _ hp hset (by omega) hmax, visitAll_never (fun _ _ => rfl), if_neg Bool.false_ne_true]
  simp only [Checked.done_ok, pure_bind, Checked.expect, Option.elim, splitAt_eq, length_append,
    Nat.add_sub_cancel, take_left, drop_left]

theorem split_ok (hp : p ≤ 64) (hrange : max * m < 2 ^ 64) (hmax : max < 2 ^ 64)
    (hbytes : 8 * bytes.length * 2 ^ p < 2 ^ 64)
    {tail : Bytes} :
    split bytes p m max = .done (.ok (set, tail)) ↔
      bytes = set ++ tail ∧ ∃ values, Encodes p m max values set := by
  constructor
  · intro h
    cases hwalk : walk bytes p m max (fun _ _ => ((), false)) () with
    | error e =>
      rw [split, hwalk] at h
      cases h
    | ok result =>
      obtain ⟨values, set', tail', rfl, hset⟩ := walk_ok hp hrange (fun _ _ => rfl) hbytes hwalk
      rw [split_spec hp hset hrange hmax, Checked.done_inj] at h
      obtain ⟨rfl, rfl⟩ := Prod.mk.inj (Except.ok.inj h)
      exact ⟨rfl, values, hset⟩
  · rintro ⟨rfl, values, hset⟩
    exact split_spec hp hset hrange hmax tail

end Sets

end Gcs

end Zakura.Hints
