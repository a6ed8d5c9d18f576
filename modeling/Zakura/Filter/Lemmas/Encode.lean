import Zakura.Filter.Writer
import Zakura.Lib.Bits

/-! # The bits a filter is written as -/

namespace Zakura.Filter

open List

namespace BitStreamWriter

def bits (w : BitStreamWriter) : List Bool :=
  bytesBits w.out ++ natBits w.offset (w.buffer / 2 ^ (8 - w.offset))

/-- The buffer holds `offset` bits, and zeros below them. -/
structure WF (w : BitStreamWriter) : Prop where
  offset_lt : w.offset < 8
  buffer_lt : w.buffer < 2 ^ 8
  low_zero : w.buffer % 2 ^ (8 - w.offset) = 0

theorem new_wf (out : Bytes) : (new out).WF := ⟨Nat.zero_lt_succ 7, Nat.two_pow_pos 8, Nat.zero_mod _⟩

@[simp] theorem new_bits (out : Bytes) : (new out).bits = bytesBits out := by
  simp [new, bits]

variable {nbits k : Nat}

/-- A word of `nbits` bits, moved to the top and down again, keeps its first bits at the buffer's free
positions. -/
theorem shifted_eq {data : Nat} (hn : nbits ≤ 64) (hk : k ≤ 8) :
    data * 2 ^ (64 - nbits) % 2 ^ 64 / 2 ^ (64 - k) =
      data / 2 ^ (nbits - min k nbits) % 2 ^ min k nbits * 2 ^ (k - min k nbits) := by
  have h64 : 2 ^ 64 = 2 ^ nbits * 2 ^ (64 - nbits) := by
    rw [← Nat.pow_add]
    congr 1
    omega
  rw [h64, Nat.mul_mod_mul_right]
  by_cases hle : nbits ≤ k
  · have hmin : min k nbits = nbits := by omega
    have hpow : 2 ^ (64 - nbits) = 2 ^ (k - nbits) * 2 ^ (64 - k) := by
      rw [← Nat.pow_add]
      congr 1
      omega
    rw [hmin, hpow, ← Nat.mul_assoc, Nat.mul_div_cancel _ (Nat.two_pow_pos _), Nat.sub_self, Nat.pow_zero,
      Nat.div_one]
  · have hmin : min k nbits = k := by omega
    have hpow : 2 ^ (64 - k) = 2 ^ (nbits - k) * 2 ^ (64 - nbits) := by
      rw [← Nat.pow_add]
      congr 1
      omega
    have hsplit : 2 ^ nbits = 2 ^ (nbits - k) * 2 ^ k := by
      rw [← Nat.pow_add]
      congr 1
      omega
    rw [hmin, hpow, Nat.mul_div_mul_right _ _ (Nat.two_pow_pos _), hsplit, Nat.mod_mul_right_div_self,
      Nat.sub_self, Nat.pow_zero, Nat.mul_one]

theorem low_bits_lt {bits : Nat} (data : Nat) (hb : bits ≤ k) : data % 2 ^ bits * 2 ^ (k - bits) < 2 ^ k := by
  have hk : 2 ^ k = 2 ^ bits * 2 ^ (k - bits) := by
    rw [← Nat.pow_add]
    congr 1
    omega
  rw [hk]
  exact Nat.mul_lt_mul_of_pos_right (Nat.mod_lt _ (Nat.two_pow_pos _)) (Nat.two_pow_pos _)

theorem fill_eq {buffer bits : Nat} (data : Nat) (hb : bits ≤ k) (hlow : buffer % 2 ^ k = 0) :
    buffer ||| data % 2 ^ bits * 2 ^ (k - bits) =
      (buffer / 2 ^ k * 2 ^ bits + data % 2 ^ bits) * 2 ^ (k - bits) := by
  have hk : 2 ^ k = 2 ^ bits * 2 ^ (k - bits) := by
    rw [← Nat.pow_add]
    congr 1
    omega
  have hbuffer : buffer = 2 ^ k * (buffer / 2 ^ k) := by
    have := Nat.div_add_mod buffer (2 ^ k)
    omega
  calc buffer ||| data % 2 ^ bits * 2 ^ (k - bits)
      = 2 ^ k * (buffer / 2 ^ k) ||| data % 2 ^ bits * 2 ^ (k - bits) := by rw [← hbuffer]
    _ = 2 ^ k * (buffer / 2 ^ k) + data % 2 ^ bits * 2 ^ (k - bits) :=
        (Nat.two_pow_add_eq_or_of_lt (low_bits_lt data hb) _).symm
    _ = (buffer / 2 ^ k * 2 ^ bits + data % 2 ^ bits) * 2 ^ (k - bits) := by
        rw [hk]
        ring

theorem wf_of_high {out : Bytes} {offset high : Nat} (ho : offset < 8) (hh : high < 2 ^ offset) :
    (BitStreamWriter.mk (high * 2 ^ (8 - offset)) offset out).WF where
  offset_lt := ho
  buffer_lt := by
    have hk : 2 ^ 8 = 2 ^ offset * 2 ^ (8 - offset) := by
      rw [← Nat.pow_add]
      congr 1
      omega
    rw [hk]
    exact Nat.mul_lt_mul_of_pos_right hh (Nat.two_pow_pos _)
  low_zero := Nat.mul_mod_left ..

variable {w : BitStreamWriter}

theorem writeStep_spec (h : w.WF) (data : Nat) (hn : nbits ≤ 64) :
    (w.writeStep data nbits).1.WF ∧
      (w.writeStep data nbits).1.bits =
        w.bits ++ natBits (min (8 - w.offset) nbits) (data / 2 ^ (nbits - min (8 - w.offset) nbits)) := by
  obtain ⟨hoffset, hbuffer, hlow⟩ := h
  have hexp : 64 - 8 + w.offset = 64 - (8 - w.offset) := by omega
  unfold writeStep
  dsimp only
  rw [hexp, shifted_eq hn (by omega)]
  generalize hbits : min (8 - w.offset) nbits = taken
  have hle : taken ≤ 8 - w.offset := by omega
  generalize data / 2 ^ (nbits - taken) = next
  have hbyte : next % 2 ^ taken * 2 ^ (8 - w.offset - taken) < 2 ^ 8 :=
    lt_of_lt_of_le (low_bits_lt next hle) (Nat.pow_le_pow_right (by decide) (by omega))
  rw [Nat.mod_eq_of_lt hbyte, fill_eq next hle hlow]
  generalize hhigh : w.buffer / 2 ^ (8 - w.offset) * 2 ^ taken + next % 2 ^ taken = high
  have hbits' : natBits (w.offset + taken) high =
      natBits w.offset (w.buffer / 2 ^ (8 - w.offset)) ++ natBits taken next := by
    rw [← hhigh, natBits_mul_add (Nat.mod_lt _ (Nat.two_pow_pos _)), natBits_congr (Nat.mod_mod _ _)]
  have hlt : high < 2 ^ (w.offset + taken) := by
    have hdiv : w.buffer / 2 ^ (8 - w.offset) < 2 ^ w.offset := by
      rw [Nat.div_lt_iff_lt_mul (Nat.two_pow_pos _), ← Nat.pow_add]
      exact lt_of_lt_of_eq hbuffer (by congr 1; omega)
    have hmod : next % 2 ^ taken < 2 ^ taken := Nat.mod_lt _ (Nat.two_pow_pos _)
    calc high < (w.buffer / 2 ^ (8 - w.offset) + 1) * 2 ^ taken := by
          rw [← hhigh, Nat.succ_mul]
          omega
      _ ≤ 2 ^ w.offset * 2 ^ taken := Nat.mul_le_mul_right _ hdiv
      _ = 2 ^ (w.offset + taken) := (Nat.pow_add ..).symm
  by_cases hfull : w.offset + taken = 8
  · have hfree : 8 - w.offset - taken = 0 := by omega
    have hval : (UInt8.ofNat high).toNat = high := by
      rw [UInt8.toNat_ofNat', Nat.mod_eq_of_lt (by rw [← hfull]; exact hlt)]
    simp only [hfull, if_true, flush, Nat.zero_lt_succ, hfree, Nat.pow_zero, Nat.mul_one]
    refine ⟨new_wf _, ?_⟩
    have hnew : (BitStreamWriter.mk 0 0 (w.out ++ [UInt8.ofNat high])).bits =
        bytesBits w.out ++ natBits 8 high := by
      simp [bits, hval]
    rw [hnew, ← hfull, hbits', bits, append_assoc]
  · have hfree : 8 - w.offset - taken = 8 - (w.offset + taken) := by omega
    simp only [hfull, if_false, hfree]
    refine ⟨wf_of_high (by omega) hlt, ?_⟩
    rw [bits, Nat.mul_div_cancel _ (Nat.two_pow_pos _), hbits', bits, append_assoc]

theorem writeLoop_spec {fuel : Nat} (h : w.WF) (data : Nat) (hf : nbits ≤ fuel) (hn : nbits ≤ 64) :
    (writeLoop fuel w data nbits).1.WF ∧
      (writeLoop fuel w data nbits).1.bits = w.bits ++ natBits nbits data := by
  induction fuel generalizing w nbits with
  | zero =>
    have hzero : nbits = 0 := by omega
    subst hzero
    exact ⟨h, by simp [writeLoop]⟩
  | succ fuel ih =>
    by_cases hpos : 0 < nbits
    · have hoffset := h.offset_lt
      have hstep := writeStep_spec h data hn
      have hrest := ih hstep.1 (by omega : nbits - min (8 - w.offset) nbits ≤ fuel) (by omega)
      have hsplit := natBits_add (min (8 - w.offset) nbits) (nbits - min (8 - w.offset) nbits) data
      rw [Nat.add_sub_of_le (Nat.min_le_right ..)] at hsplit
      simp only [writeLoop, if_pos hpos]
      exact ⟨hrest.1, by rw [hrest.2, hstep.2, hsplit, append_assoc]⟩
    · have hzero : nbits = 0 := by omega
      subst hzero
      exact ⟨h, by simp [writeLoop]⟩

theorem write_spec (h : w.WF) (data : Nat) (hn : nbits ≤ 64) :
    ∃ w' wrote, w.write data nbits = .ok (w', wrote) ∧ w'.WF ∧ w'.bits = w.bits ++ natBits nbits data := by
  have hloop := writeLoop_spec h data (Nat.le_refl nbits) hn
  exact ⟨_, _, by rw [write, if_neg (by omega)], hloop⟩

theorem flush_bits (h : w.WF) : ∃ pad < 8, bytesBits w.flush.1.out = w.bits ++ List.replicate pad false := by
  obtain ⟨hoffset, hbuffer, hlow⟩ := h
  by_cases hpos : 0 < w.offset
  · refine ⟨8 - w.offset, by omega, ?_⟩
    have hval : (UInt8.ofNat w.buffer).toNat = w.buffer := by
      rw [UInt8.toNat_ofNat', Nat.mod_eq_of_lt hbuffer]
    have hsplit := natBits_add w.offset (8 - w.offset) w.buffer
    rw [Nat.add_sub_of_le (by omega)] at hsplit
    have hzero : natBits (8 - w.offset) w.buffer = List.replicate (8 - w.offset) false := by
      rw [← natBits_zero_right]
      exact natBits_congr (by rw [hlow, Nat.zero_mod])
    simp only [flush, if_pos hpos, bytesBits_append, bytesBits_singleton, hval, hsplit, hzero, bits,
      append_assoc]
  · have hzero : w.offset = 0 := by omega
    exact ⟨0, by decide, by simp [flush, bits, hzero]⟩

end BitStreamWriter

/-! ## The Golomb-Rice code -/

/-- The code of a number: its quotient in unary, and its remainder. -/
def golombBits (p n : Nat) : List Bool := List.replicate (n / 2 ^ p) true ++ false :: natBits p n

variable {w : BitStreamWriter}

theorem writeQuotient_spec {fuel : Nat} (h : w.WF) {q : Nat} (hf : q ≤ fuel) :
    ∃ w' wrote, writeQuotient fuel w q = .ok (w', wrote) ∧ w'.WF ∧
      w'.bits = w.bits ++ List.replicate q true := by
  induction fuel generalizing w q with
  | zero =>
    have hzero : q = 0 := by omega
    subst hzero
    exact ⟨w, 0, rfl, h, by simp⟩
  | succ fuel ih =>
    by_cases hpos : 0 < q
    · obtain ⟨w₁, n₁, hw₁, hwf₁, hbits₁⟩ := BitStreamWriter.write_spec h (2 ^ 64 - 1)
        (Nat.min_le_right q 64)
      obtain ⟨w₂, n₂, hw₂, hwf₂, hbits₂⟩ := ih hwf₁ (q := q - min q 64) (by omega)
      refine ⟨w₂, n₁ + n₂, ?_, hwf₂, ?_⟩
      · rw [writeQuotient, if_pos hpos]
        simp only [hw₁, hw₂, bind, Except.bind, pure, Except.pure]
      · rw [hbits₂, hbits₁, natBits_ones (Nat.min_le_right ..), append_assoc, ← replicate_add,
          Nat.add_sub_of_le (Nat.min_le_left ..)]
    · have hzero : q = 0 := by omega
      subst hzero
      exact ⟨w, 0, rfl, h, by simp⟩

theorem golombRiceEncode_spec {p : Nat} (hp : p ≤ 64) (h : w.WF) (n : Nat) :
    ∃ w' wrote, golombRiceEncode p w n = .ok (w', wrote) ∧ w'.WF ∧ w'.bits = w.bits ++ golombBits p n := by
  obtain ⟨w₁, n₁, hw₁, hwf₁, hbits₁⟩ := writeQuotient_spec h (Nat.le_refl (n / 2 ^ p))
  obtain ⟨w₂, n₂, hw₂, hwf₂, hbits₂⟩ := BitStreamWriter.write_spec hwf₁ 0 (Nat.succ_le_succ (Nat.zero_le 63))
  obtain ⟨w₃, n₃, hw₃, hwf₃, hbits₃⟩ := BitStreamWriter.write_spec hwf₂ n hp
  refine ⟨w₃, n₁ + n₂ + n₃, ?_, hwf₃, ?_⟩
  · simp only [golombRiceEncode, hw₁, hw₂, hw₃, bind, Except.bind, pure, Except.pure]
  · rw [hbits₃, hbits₂, hbits₁]
    simp [golombBits]

/-! ## The filter -/

/-- The code of ascending values: the deltas from the value before. -/
def deltaBits (p : Nat) : Nat → List Nat → List Bool
  | _, [] => []
  | last, v :: values => golombBits p (v - last) ++ deltaBits p v values

theorem writeDeltas_spec {p : Nat} (hp : p ≤ 64) (values : List Nat) (h : w.WF) (last : Nat) :
    ∃ w' wrote, GcsFilterWriter.writeDeltas p values w last = .ok (w', wrote) ∧ w'.WF ∧
      w'.bits = w.bits ++ deltaBits p last values := by
  induction values generalizing w last with
  | nil => exact ⟨w, 0, rfl, h, by simp [deltaBits]⟩
  | cons v values ih =>
    obtain ⟨w₁, n₁, hw₁, hwf₁, hbits₁⟩ := golombRiceEncode_spec hp h (v - last)
    obtain ⟨w₂, n₂, hw₂, hwf₂, hbits₂⟩ := ih hwf₁ v
    refine ⟨w₂, n₁ + n₂, ?_, hwf₂, ?_⟩
    · simp only [GcsFilterWriter.writeDeltas, hw₁, hw₂, bind, Except.bind, pure, Except.pure]
    · rw [hbits₂, hbits₁, deltaBits, append_assoc]

/-- The values a filter stores: the elements' hashes in ascending order. -/
def GcsFilterWriter.mapped (sip : SipHash) (w : GcsFilterWriter) : List Nat :=
  (w.elements.map (hashToRange sip w.k0 w.k1 (w.elements.length * w.m))).insertionSort (· ≤ ·)

/-- A finished filter: the count, then the code of the values, padded to whole bytes. -/
theorem finish_spec (sip : SipHash) {w : GcsFilterWriter} (hm : 1 ≤ w.m) (hp : w.p ≤ 63)
    (hrange : w.elements.length * w.m < 2 ^ 64) :
    ∃ body wrote pad, w.finish sip = .ok (compactSizeBytes w.elements.length ++ body, wrote) ∧ pad < 8 ∧
      bytesBits body = deltaBits w.p 0 (w.mapped sip) ++ List.replicate pad false := by
  have hlength : (w.mapped sip).length = w.elements.length := by
    rw [GcsFilterWriter.mapped, length_insertionSort, length_map]
  obtain ⟨w₁, n₁, hw₁, hwf₁, hbits₁⟩ := writeDeltas_spec (p := w.p) (by omega) (w.mapped sip)
    (BitStreamWriter.new_wf (compactSizeBytes (w.mapped sip).length)) 0
  obtain ⟨pad, hpad, hflush⟩ := BitStreamWriter.flush_bits hwf₁
  rw [hbits₁, BitStreamWriter.new_bits, append_assoc] at hflush
  obtain ⟨body, hout, hbody⟩ := bytesBits_eq_append hflush
  refine ⟨body, (compactSizeBytes (w.mapped sip).length).length + n₁ + w₁.flush.2, pad, ?_, hpad, hbody⟩
  rw [← hlength, ← hout, GcsFilterWriter.finish, if_neg (by omega), if_neg (by omega)]
  have hdeltas := hw₁
  rw [GcsFilterWriter.mapped] at hdeltas
  simp only [hdeltas, bind, Except.bind, pure, Except.pure, GcsFilterWriter.mapped]

/-! ## Elements -/

namespace GcsFilterWriter

theorem addElements_params (scripts : List Bytes) (w : GcsFilterWriter) :
    (scripts.foldl addElement w).k0 = w.k0 ∧ (scripts.foldl addElement w).k1 = w.k1 ∧
      (scripts.foldl addElement w).m = w.m ∧ (scripts.foldl addElement w).p = w.p := by
  induction scripts generalizing w with
  | nil => exact ⟨rfl, rfl, rfl, rfl⟩
  | cons script scripts ih =>
    have hrest := ih (w.addElement script)
    have hstep : (w.addElement script).k0 = w.k0 ∧ (w.addElement script).k1 = w.k1 ∧
        (w.addElement script).m = w.m ∧ (w.addElement script).p = w.p := by
      rw [addElement]
      split_ifs <;> exact ⟨rfl, rfl, rfl, rfl⟩
    rwa [hstep.1, hstep.2.1, hstep.2.2.1, hstep.2.2.2] at hrest

theorem mem_addElements {scripts : List Bytes} {w : GcsFilterWriter} {script : Bytes} :
    script ∈ (scripts.foldl addElement w).elements ↔
      script ∈ w.elements ∨ script ∈ scripts ∧ script ≠ [] := by
  induction scripts generalizing w with
  | nil => simp
  | cons added scripts ih =>
    rw [foldl_cons, ih, addElement]
    by_cases hempty : added = []
    · rw [if_pos hempty, mem_cons]
      aesop
    · rw [if_neg hempty, mem_insert_iff, mem_cons]
      aesop

theorem elements_addElements {scripts : List Bytes} {w : GcsFilterWriter} (hnodup : scripts.Nodup)
    (hnew : ∀ script ∈ scripts, script ≠ [] ∧ script ∉ w.elements) :
    (scripts.foldl addElement w).elements = scripts.reverse ++ w.elements := by
  induction scripts generalizing w with
  | nil => rfl
  | cons script scripts ih =>
    obtain ⟨hnotin, hrest⟩ := nodup_cons.mp hnodup
    obtain ⟨hne, hout⟩ := hnew script mem_cons_self
    have hadd : w.addElement script = { w with elements := script :: w.elements } := by
      rw [addElement, if_neg hne, insert_of_not_mem hout]
    rw [foldl_cons, hadd, ih hrest, reverse_cons, append_assoc]
    · rfl
    · intro other hother
      obtain ⟨hne', hout'⟩ := hnew other (mem_cons_of_mem _ hother)
      refine ⟨hne', fun hmem => ?_⟩
      cases hmem with
      | head => exact hnotin hother
      | tail _ hmem => exact hout' hmem

theorem mapped_spec (sip : SipHash) (w : GcsFilterWriter) :
    (w.mapped sip).length = w.elements.length ∧ (w.mapped sip).Pairwise (· ≤ ·) ∧
      ∀ v, v ∈ w.mapped sip ↔
        ∃ element ∈ w.elements, v = hashToRange sip w.k0 w.k1 (w.elements.length * w.m) element := by
  refine ⟨?_, pairwise_insertionSort _ _, fun v => ?_⟩
  · rw [mapped, length_insertionSort, length_map]
  · simp only [mapped, mem_insertionSort, mem_map, eq_comm]

end GcsFilterWriter

theorem hashToRange_lt (sip : SipHash) (k0 k1 : UInt64) {range : Nat} (hrange : 0 < range) (element : Bytes) :
    hashToRange sip k0 k1 range element < range := by
  rw [hashToRange, Nat.div_lt_iff_lt_mul (Nat.two_pow_pos 64), Nat.mul_comm range]
  exact Nat.mul_lt_mul_of_pos_right (sip k0 k1 element).toNat_lt hrange

end Zakura.Filter
