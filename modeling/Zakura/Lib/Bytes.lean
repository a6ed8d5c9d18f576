import Mathlib.Data.List.Basic
import Mathlib.Order.Defs.LinearOrder
import Mathlib.Tactic.Ring

/-! # Byte strings and little-endian numbers

Byte strings are lists, arrays of a fixed width carry their length, and a natural number is written
in a given number of bytes, least significant first. -/

namespace Zakura

open List

abbrev Bytes := List UInt8

instance instLinearOrderUInt8 : LinearOrder UInt8 where
  le_refl _ := UInt8.le_refl _
  le_trans _ _ _ := UInt8.le_trans
  le_antisymm _ _ := UInt8.le_antisymm
  le_total _ _ := UInt8.le_total _ _
  lt_iff_le_not_ge a b := by
    rw [UInt8.lt_iff_toNat_lt, UInt8.le_iff_toNat_le, UInt8.le_iff_toNat_le]
    omega
  toDecidableLE := inferInstance
  toDecidableEq := inferInstance
  toDecidableLT := inferInstance

instance : LawfulBEq Bytes := inferInstance

theorem forall_byte {p : UInt8 → Prop} (h : ∀ n < 256, p (UInt8.ofNat n)) (b : UInt8) : p b := by
  have hb := h b.toNat b.toNat_lt
  rwa [UInt8.ofNat_toNat] at hb

/-- A byte array of exactly `n` bytes. -/
abbrev FixedBytes (n : Nat) := { bytes : Bytes // bytes.length = n }

namespace FixedBytes

@[simp] theorem length_val {n} (a : FixedBytes n) : a.val.length = n := a.property

/-- The array of `n` zero bytes. -/
def zero (n : Nat) : FixedBytes n := ⟨List.replicate n 0, length_replicate⟩

instance {n} : Inhabited (FixedBytes n) := ⟨zero n⟩

theorem append_inj {n} {a b : FixedBytes n} {s t : Bytes} (h : a.val ++ s = b.val ++ t) : a = b ∧ s = t := by
  obtain ⟨hab, hst⟩ := List.append_inj h (by simp)
  exact ⟨Subtype.ext hab, hst⟩

end FixedBytes

/-- The `n` bytes at an offset. -/
def bytesAt (bytes : Bytes) (offset n : Nat) : Bytes := (bytes.drop offset).take n

variable {bytes : Bytes} {offset n : Nat}

@[simp] theorem bytesAt_cons {b : UInt8} (h : 0 < offset) :
    bytesAt (b :: bytes) offset n = bytesAt bytes (offset - 1) n := by
  obtain ⟨offset, rfl⟩ := Nat.exists_eq_succ_of_ne_zero h.ne'
  rfl

variable {front back : Bytes}

@[simp] theorem bytesAt_append_right (h : front.length ≤ offset) :
    bytesAt (front ++ back) offset n = bytesAt back (offset - front.length) n := by
  unfold bytesAt
  rw [drop_append, drop_eq_nil_of_le h, nil_append]

@[simp] theorem bytesAt_append_left (h : front.length = n) : bytesAt (front ++ back) 0 n = front := by
  subst h
  exact take_left

@[simp] theorem bytesAt_eq_self (h : bytes.length = n) : bytesAt bytes 0 n = bytes := by
  subst h
  exact take_length

theorem bytesAt_append_of_le (h : offset + n ≤ front.length) :
    bytesAt (front ++ back) offset n = bytesAt front offset n := by
  unfold bytesAt
  rw [drop_append_of_le_length (by omega), take_append_of_le_length (by rw [length_drop]; omega)]

theorem bytesAt_bytesAt (bytes : Bytes) {size inner : Nat} (h : inner + n ≤ size) :
    bytesAt (bytesAt bytes offset size) inner n = bytesAt bytes (offset + inner) n := by
  unfold bytesAt
  rw [drop_take, take_take, drop_drop, Nat.min_eq_left (by omega)]

theorem bytesAt_append_bytesAt (bytes : Bytes) (offset n m : Nat) :
    bytesAt bytes offset n ++ bytesAt bytes (offset + n) m = bytesAt bytes offset (n + m) := by
  unfold bytesAt
  rw [take_add, drop_drop]

theorem length_bytesAt (h : offset + n ≤ bytes.length) : (bytesAt bytes offset n).length = n := by
  rw [bytesAt, length_take, length_drop]
  omega

theorem length_flatten_of_width {rows : List Bytes} {width : Nat} (hwidth : ∀ row ∈ rows, row.length = width) :
    rows.flatten.length = rows.length * width := by
  induction rows with
  | nil => simp
  | cons row rows ih =>
    obtain ⟨hrow, hrest⟩ := forall_mem_cons.mp hwidth
    rw [flatten_cons, length_append, ih hrest, hrow, length_cons, Nat.succ_mul, Nat.add_comm]

theorem bytesAt_flatten {rows : List Bytes} {width : Nat} (hwidth : ∀ row ∈ rows, row.length = width) {k : Nat}
    {row : Bytes} (hk : rows[k]? = some row) : bytesAt rows.flatten (k * width) width = row := by
  induction rows generalizing k with
  | nil => simp at hk
  | cons first rows ih =>
    obtain ⟨hfirst, hrest⟩ := forall_mem_cons.mp hwidth
    cases k with
    | zero =>
      rw [getElem?_cons_zero, Option.some.injEq] at hk
      subst hk
      rw [Nat.zero_mul, flatten_cons, bytesAt_append_left hfirst]
    | succ k =>
      have hle : first.length ≤ (k + 1) * width := by
        rw [hfirst, Nat.succ_mul]
        omega
      rw [flatten_cons, bytesAt_append_right hle, hfirst, Nat.succ_mul, Nat.add_sub_cancel]
      exact ih hrest (by simpa using hk)

/-- The `n` bytes at an offset as an array, zero past the end. -/
def fixedAt (bytes : Bytes) (offset n : Nat) : FixedBytes n :=
  ⟨(bytesAt bytes offset n ++ List.replicate n 0).take n, by simp⟩

theorem fixedAt_eq {a : FixedBytes n} (h : bytesAt bytes offset n = a.val) : fixedAt bytes offset n = a := by
  refine Subtype.ext ?_
  change (bytesAt bytes offset n ++ List.replicate n 0).take n = a.val
  rw [h]
  exact take_left' a.property

def asciiBytes (text : String) : Bytes := text.toList.map fun c => UInt8.ofNat c.toNat

/-- Lower-case hexadecimal, `hex::encode`. -/
def hexEncode (bytes : Bytes) : String :=
  String.ofList (bytes.flatMap fun b => [Nat.digitChar (b.toNat / 16), Nat.digitChar (b.toNat % 16)])

/-! ## Little-endian numbers -/

/-- The `n` low bytes of a number, least significant first. -/
def leBytes : Nat → Nat → Bytes
  | 0, _ => []
  | n + 1, v => UInt8.ofNat v :: leBytes n (v / 256)

def leNat : Bytes → Nat
  | [] => 0
  | b :: bs => b.toNat + 256 * leNat bs

@[simp] theorem leNat_nil : leNat [] = 0 := rfl

@[simp] theorem leNat_cons {b bs} : leNat (b :: bs) = b.toNat + 256 * leNat bs := rfl

@[simp] theorem length_leBytes (n v : Nat) : (leBytes n v).length = n := by
  induction n generalizing v with
  | zero => rfl
  | succ n ih => simp [leBytes, ih]

theorem leNat_lt (bs : Bytes) : leNat bs < 256 ^ bs.length := by
  induction bs with
  | nil => simp
  | cons b bs ih =>
    have hb := b.toNat_lt
    simp only [leNat_cons, length_cons, Nat.pow_succ]
    omega

theorem leNat_leBytes (n v : Nat) : leNat (leBytes n v) = v % 256 ^ n := by
  induction n generalizing v with
  | zero => simp [leBytes, Nat.mod_one]
  | succ n ih =>
    have byte : (UInt8.ofNat v).toNat = v % 256 := UInt8.toNat_ofNat'
    rw [leBytes, leNat_cons, ih, byte, pow_succ', Nat.mod_mul]

theorem leNat_leBytes_of_lt {v : Nat} (h : v < 256 ^ n) : leNat (leBytes n v) = v := by
  rw [leNat_leBytes, Nat.mod_eq_of_lt h]

@[simp] theorem leBytes_leNat (bs : Bytes) : leBytes bs.length (leNat bs) = bs := by
  induction bs with
  | nil => rfl
  | cons b bs ih =>
    have hb := b.toNat_lt
    have hdiv : (b.toNat + 256 * leNat bs) / 256 = leNat bs := by omega
    have hmod : UInt8.ofNat (b.toNat + 256 * leNat bs) = b := by
      apply UInt8.toNat_inj.mp
      rw [UInt8.toNat_ofNat']
      omega
    simp only [length_cons, leNat_cons, leBytes, hdiv, hmod, ih]

theorem leNat_eq_zero {bs : Bytes} (h : bs.all (· == 0) = true) : leNat bs = 0 := by
  induction bs with
  | nil => rfl
  | cons b bs ih =>
    rw [all_cons, Bool.and_eq_true, beq_iff_eq] at h
    rw [leNat_cons, h.1, ih h.2]
    rfl

theorem leBytes_leNat_of_length (h : bytes.length = n) : leBytes n (leNat bytes) = bytes := by
  subst h
  exact leBytes_leNat bytes

theorem leBytes_inj {v w : Nat} (hv : v < 256 ^ n) (hw : w < 256 ^ n) (h : leBytes n v = leBytes n w) : v = w := by
  rw [← leNat_leBytes_of_lt hv, ← leNat_leBytes_of_lt hw, h]

theorem FixedBytes.val_eq_leBytes {n} (a : FixedBytes n) : a.val = leBytes n (leNat a.val) := by
  conv_lhs => rw [← leBytes_leNat a.val, a.length_val]

theorem FixedBytes.val_eq_leBytes_iff {n v} (a : FixedBytes n) (hv : v < 256 ^ n) :
    a.val = leBytes n v ↔ leNat a.val = v := by
  constructor
  · intro h
    rw [h, leNat_leBytes_of_lt hv]
  · rintro rfl
    exact a.val_eq_leBytes

end Zakura
