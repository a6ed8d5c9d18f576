import Zakura.Lib.Bytes
import Mathlib.Tactic.Ring

/-! # Bit strings, most significant bit first

A byte string is read as the string of its bits. Numbers of a given width are cut and joined as bit
strings are. -/

namespace Zakura

open List

/-- The `n` low bits of a number, most significant first. -/
def natBits : Nat → Nat → List Bool
  | 0, _ => []
  | n + 1, v => v.testBit n :: natBits n v

def bytesBits (bytes : Bytes) : List Bool := bytes.flatMap fun b => natBits 8 b.toNat

@[simp] theorem natBits_zero (v : Nat) : natBits 0 v = [] := rfl

@[simp] theorem length_natBits (n v : Nat) : (natBits n v).length = n := by
  induction n with
  | zero => rfl
  | succ n ih => simp [natBits, ih]

@[simp] theorem bytesBits_nil : bytesBits [] = [] := rfl

@[simp] theorem bytesBits_append (a b : Bytes) : bytesBits (a ++ b) = bytesBits a ++ bytesBits b :=
  flatMap_append ..

@[simp] theorem bytesBits_singleton (b : UInt8) : bytesBits [b] = natBits 8 b.toNat := by
  simp [bytesBits]

@[simp] theorem length_bytesBits (bytes : Bytes) : (bytesBits bytes).length = 8 * bytes.length := by
  induction bytes with
  | nil => rfl
  | cons b bytes ih =>
    have hcons : bytesBits (b :: bytes) = natBits 8 b.toNat ++ bytesBits bytes := rfl
    simp only [hcons, length_append, length_natBits, ih, length_cons]
    omega

theorem natBits_congr {n v w : Nat} (h : v % 2 ^ n = w % 2 ^ n) : natBits n v = natBits n w := by
  induction n with
  | zero => rfl
  | succ n ih =>
    have hbit : v.testBit n = w.testBit n := by
      have hv := Nat.testBit_mod_two_pow v (n + 1) n
      have hw := Nat.testBit_mod_two_pow w (n + 1) n
      rw [h] at hv
      simpa using hv.symm.trans hw
    have hlow : v % 2 ^ n = w % 2 ^ n := by
      have hdvd : 2 ^ n ∣ 2 ^ (n + 1) := Nat.pow_dvd_pow 2 (Nat.le_succ n)
      rw [← Nat.mod_mod_of_dvd v hdvd, h, Nat.mod_mod_of_dvd w hdvd]
    simp [natBits, hbit, ih hlow]

theorem natBits_add (a b v : Nat) : natBits (a + b) v = natBits a (v / 2 ^ b) ++ natBits b v := by
  induction a with
  | zero => simp
  | succ a ih =>
    have hsucc : a + 1 + b = a + b + 1 := by omega
    rw [hsucc, natBits, ih, natBits, cons_append]
    congr 1
    rw [Nat.testBit_div_two_pow, Nat.add_comm]

theorem natBits_mul_add {a b hi lo : Nat} (h : lo < 2 ^ b) :
    natBits (a + b) (hi * 2 ^ b + lo) = natBits a hi ++ natBits b lo := by
  have hdiv : (hi * 2 ^ b + lo) / 2 ^ b = hi := by
    rw [Nat.add_comm, Nat.add_mul_div_right _ _ (Nat.two_pow_pos b), Nat.div_eq_of_lt h, Nat.zero_add]
  rw [natBits_add, hdiv]
  congr 1
  exact natBits_congr (by rw [Nat.add_comm, Nat.add_mul_mod_self_right])

@[simp] theorem natBits_zero_right (n : Nat) : natBits n 0 = List.replicate n false := by
  induction n with
  | zero => rfl
  | succ n ih => simp [natBits, ih, replicate_succ]

theorem natBits_ones {n m : Nat} (h : n ≤ m) : natBits n (2 ^ m - 1) = List.replicate n true := by
  induction n with
  | zero => rfl
  | succ n ih =>
    have hbit : (2 ^ m - 1).testBit n = true := by
      rw [Nat.testBit_two_pow_sub_one]
      exact decide_eq_true h
    rw [natBits, hbit, ih (by omega), replicate_succ]

def bitsNat (value : Nat) (bits : List Bool) : Nat := bits.foldl (fun v b => 2 * v + b.toNat) value

theorem bitsNat_natBits (value n v : Nat) : bitsNat value (natBits n v) = value * 2 ^ n + v % 2 ^ n := by
  induction n generalizing value with
  | zero => simp [bitsNat, Nat.mod_one]
  | succ n ih =>
    have hcons : bitsNat value (natBits (n + 1) v) =
        bitsNat (2 * value + (v.testBit n).toNat) (natBits n v) := rfl
    rw [hcons, ih, Nat.toNat_testBit, Nat.mod_pow_succ, Nat.pow_succ]
    ring

theorem bitsNat_append (value : Nat) (front back : List Bool) :
    bitsNat value (front ++ back) = bitsNat (bitsNat value front) back :=
  foldl_append

theorem bitsNat_eq (value : Nat) (bits : List Bool) :
    bitsNat value bits = value * 2 ^ bits.length + bitsNat 0 bits := by
  induction bits generalizing value with
  | nil => simp [bitsNat]
  | cons b bits ih =>
    have hcons : ∀ v, bitsNat v (b :: bits) = bitsNat (2 * v + b.toNat) bits := fun _ => rfl
    rw [hcons, hcons, ih, ih (2 * 0 + b.toNat), length_cons, Nat.pow_succ]
    ring

theorem bitsNat_lt (bits : List Bool) : bitsNat 0 bits < 2 ^ bits.length := by
  induction bits with
  | nil => exact Nat.one_pos
  | cons b bits ih =>
    have hcons : bitsNat 0 (b :: bits) = bitsNat (2 * 0 + b.toNat) bits := rfl
    have hb := b.toNat_le
    have hhigh : b.toNat * 2 ^ bits.length ≤ 1 * 2 ^ bits.length := Nat.mul_le_mul_right _ hb
    rw [hcons, bitsNat_eq, Nat.mul_zero, Nat.zero_add, length_cons, Nat.pow_succ]
    omega

theorem natBits_bitsNat (bits : List Bool) : natBits bits.length (bitsNat 0 bits) = bits := by
  induction bits with
  | nil => rfl
  | cons b bits ih =>
    have hcons : bitsNat 0 (b :: bits) = bitsNat (2 * 0 + b.toNat) bits := rfl
    have hlt := bitsNat_lt bits
    have hone : natBits 1 b.toNat = [b] := by cases b <;> rfl
    rw [hcons, bitsNat_eq, Nat.mul_zero, Nat.zero_add, length_cons, Nat.add_comm, natBits_mul_add hlt, hone, ih]
    rfl

theorem natBits_inj {n v w : Nat} (h : natBits n v = natBits n w) : v % 2 ^ n = w % 2 ^ n := by
  have hv := bitsNat_natBits 0 n v
  rw [h, bitsNat_natBits] at hv
  simpa using hv.symm

theorem bytesBits_eq_append {bytes head : Bytes} {tail : List Bool}
    (h : bytesBits bytes = bytesBits head ++ tail) :
    ∃ body, bytes = head ++ body ∧ bytesBits body = tail := by
  induction head generalizing bytes with
  | nil => exact ⟨bytes, rfl, h⟩
  | cons b head ih =>
    cases bytes with
    | nil => simp [bytesBits, natBits] at h
    | cons c bytes =>
      have hcons : natBits 8 c.toNat ++ bytesBits bytes =
          natBits 8 b.toNat ++ (bytesBits head ++ tail) := by
        rw [← append_assoc]
        exact h
      obtain ⟨hbyte, hrest⟩ := List.append_inj hcons (by simp)
      obtain ⟨body, rfl, hbody⟩ := ih hrest
      have hval := natBits_inj hbyte
      rw [Nat.mod_eq_of_lt c.toNat_lt, Nat.mod_eq_of_lt b.toNat_lt] at hval
      rw [UInt8.toNat_inj.mp hval]
      exact ⟨body, rfl, hbody⟩

theorem bytesBits_injective {a b : Bytes} (h : bytesBits a = bytesBits b) : a = b := by
  obtain ⟨body, rfl, hbody⟩ := bytesBits_eq_append (h.trans (append_nil _).symm)
  have hlength := congrArg List.length hbody
  rw [length_bytesBits, length_nil] at hlength
  rw [length_eq_zero_iff.mp (by omega : body.length = 0), append_nil]

theorem bytesBits_eq_append_right {bytes tail : Bytes} {head : List Bool}
    (h : bytesBits bytes = head ++ bytesBits tail) : ∃ body, bytes = body ++ tail ∧ bytesBits body = head := by
  have hlength := congrArg List.length h
  rw [length_bytesBits, length_append, length_bytesBits] at hlength
  have hsplit := take_append_drop (bytes.length - tail.length) bytes
  have hbits : bytesBits (bytes.take (bytes.length - tail.length)) ++
      bytesBits (bytes.drop (bytes.length - tail.length)) = head ++ bytesBits tail := by
    rw [← bytesBits_append, hsplit, h]
  obtain ⟨hhead, htail⟩ := append_inj' hbits (by
    rw [length_bytesBits, length_bytesBits, length_drop]
    omega)
  rw [bytesBits_injective htail] at hsplit
  exact ⟨_, hsplit.symm, hhead⟩

theorem natBits_getElem? {n j : Nat} (v : Nat) (h : j < n) :
    (natBits n v)[j]? = some (v.testBit (n - 1 - j)) := by
  induction n generalizing j with
  | zero => omega
  | succ n ih =>
    cases j with
    | zero => simp [natBits]
    | succ j =>
      rw [natBits, getElem?_cons_succ, ih (by omega)]
      congr 2
      omega

theorem bytesBits_getElem? (bytes : Bytes) (i : Nat) :
    (bytesBits bytes)[i]? = bytes[i / 8]?.map fun b => b.toNat.testBit (7 - i % 8) := by
  induction bytes generalizing i with
  | nil => simp
  | cons b bytes ih =>
    have hcons : bytesBits (b :: bytes) = natBits 8 b.toNat ++ bytesBits bytes := rfl
    rw [hcons]
    by_cases hi : i < 8
    · rw [getElem?_append_left (by simpa using hi), natBits_getElem? _ hi, Nat.div_eq_of_lt hi,
        Nat.mod_eq_of_lt hi]
      rfl
    · rw [getElem?_append_right (by simpa using hi), length_natBits, ih]
      have hdiv : i / 8 = (i - 8) / 8 + 1 := by omega
      have hmod : (i - 8) % 8 = i % 8 := by omega
      rw [hdiv, getElem?_cons_succ, hmod]

end Zakura
