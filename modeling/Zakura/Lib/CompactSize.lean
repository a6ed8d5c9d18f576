import Zakura.Lib.Reader

/-! # CompactSize integers

A CompactSize integer is one byte, or a marker followed by two, four or eight little-endian bytes; the
shortest form that holds the value is the canonical one. -/

namespace Zakura

/-- The canonical CompactSize form of a 64-bit number. -/
def compactSizeBytes (n : Nat) : Bytes :=
  if n < 253 then [UInt8.ofNat n]
  else if n ≤ 0xFFFF then 253 :: leBytes 2 n
  else if n ≤ 0xFFFFFFFF then 254 :: leBytes 4 n
  else 255 :: leBytes 8 n

theorem compactSizeBytes_length_pos (n : Nat) : 0 < (compactSizeBytes n).length := by
  unfold compactSizeBytes
  split_ifs <;> simp

theorem compactSizeBytes_length_le (n : Nat) : (compactSizeBytes n).length ≤ 9 := by
  unfold compactSizeBytes
  split_ifs <;> simp

/-- Elements of at least `size` bytes each: the count a reader can check before it reads them. -/
theorem length_flatMap_ge {α : Type} {size : Nat} {encode : α → Bytes} {xs : List α}
    (h : ∀ x ∈ xs, size ≤ (encode x).length) : xs.length * size ≤ (xs.flatMap encode).length := by
  induction xs with
  | nil => simp
  | cons x xs ih =>
    have hx := h x (by simp)
    have hxs := ih fun y hy => h y (by simp [hy])
    simp only [List.length_cons, List.flatMap_cons, List.length_append, Nat.add_mul, Nat.one_mul]
    omega

namespace Reader

variable {ε : Type}

def byte (truncated : Nat → ε) : Reader ε UInt8 := do
  let a ← takeBytes 1 truncated
  pure (a.val.get ⟨0, by simp⟩)

/-- Takes a little-endian number of `n` bytes. -/
def leNumber (n : Nat) (truncated : Nat → ε) : Reader ε Nat := do
  let a ← takeBytes n truncated
  pure (leNat a.val)

def word32 (truncated : Nat → ε) : Reader ε UInt32 := do
  let n ← leNumber 4 truncated
  pure (UInt32.ofNat n)

def word16 (truncated : Nat → ε) : Reader ε UInt16 := do
  let n ← leNumber 2 truncated
  pure (UInt16.ofNat n)

def word64 (truncated : Nat → ε) : Reader ε UInt64 := do
  let n ← leNumber 8 truncated
  pure (UInt64.ofNat n)

/-- Reads the number behind a CompactSize marker: `width` bytes, at least `minimum` when canonical. -/
def markedNumber (truncated nonCanonical : Nat → ε) (width minimum : Nat) : Reader ε Nat := do
  let n ← leNumber width truncated
  failIf (n < minimum) (nonCanonical width)
  pure n

/-- Reads a canonical CompactSize integer; the error for another form is told its width. -/
def compactSize (truncated nonCanonical : Nat → ε) : Reader ε Nat := do
  let flag ← byte truncated
  if flag = 253 then markedNumber truncated nonCanonical 2 253
  else if flag = 254 then markedNumber truncated nonCanonical 4 0x10000
  else if flag = 255 then markedNumber truncated nonCanonical 8 0x100000000
  else pure flag.toNat

variable {truncated : Nat → ε} {input rest : Bytes}

@[simp] theorem run_byte_ok {b : UInt8} : (byte truncated).run input = .ok (b, rest) ↔ input = b :: rest := by
  simp only [byte, run_bind_ok, run_takeBytes_ok, run_pure_ok]
  constructor
  · rintro ⟨⟨bytes, h⟩, mid, rfl, rfl, rfl⟩
    obtain ⟨c, rfl⟩ := List.length_eq_one_iff.mp h
    rfl
  · rintro rfl
    exact ⟨⟨[b], rfl⟩, rest, rfl, rfl, rfl⟩

variable {v : Nat}

@[simp] theorem run_leNumber_ok {n : Nat} :
    (leNumber n truncated).run input = .ok (v, rest) ↔ v < 256 ^ n ∧ input = leBytes n v ++ rest := by
  simp only [leNumber, run_bind_ok, run_takeBytes_ok, run_pure_ok]
  constructor
  · rintro ⟨a, mid, rfl, rfl, rfl⟩
    exact ⟨by simpa using leNat_lt a.val, by rw [← a.val_eq_leBytes]⟩
  · rintro ⟨hv, rfl⟩
    exact ⟨⟨leBytes n v, length_leBytes n v⟩, rest, rfl, leNat_leBytes_of_lt hv, rfl⟩

@[simp] theorem run_word32_ok {v : UInt32} :
    (word32 truncated).run input = .ok (v, rest) ↔ input = leBytes 4 v.toNat ++ rest := by
  simp only [word32, run_bind_ok, run_leNumber_ok, run_pure_ok]
  constructor
  · rintro ⟨n, mid, ⟨hn, rfl⟩, rfl, rfl⟩
    rw [UInt32.toNat_ofNat', Nat.mod_eq_of_lt (show n < 2 ^ 32 from hn)]
  · rintro rfl
    exact ⟨v.toNat, rest, ⟨v.toNat_lt, rfl⟩, by simp, rfl⟩

@[simp] theorem run_word16_ok {v : UInt16} :
    (word16 truncated).run input = .ok (v, rest) ↔ input = leBytes 2 v.toNat ++ rest := by
  simp only [word16, run_bind_ok, run_leNumber_ok, run_pure_ok]
  constructor
  · rintro ⟨n, mid, ⟨hn, rfl⟩, rfl, rfl⟩
    rw [UInt16.toNat_ofNat', Nat.mod_eq_of_lt (show n < 2 ^ 16 from hn)]
  · rintro rfl
    exact ⟨v.toNat, rest, ⟨v.toNat_lt, rfl⟩, by simp, rfl⟩

@[simp] theorem run_word64_ok {v : UInt64} :
    (word64 truncated).run input = .ok (v, rest) ↔ input = leBytes 8 v.toNat ++ rest := by
  simp only [word64, run_bind_ok, run_leNumber_ok, run_pure_ok]
  constructor
  · rintro ⟨n, mid, ⟨hn, rfl⟩, rfl, rfl⟩
    rw [UInt64.toNat_ofNat', Nat.mod_eq_of_lt (show n < 2 ^ 64 from hn)]
  · rintro rfl
    exact ⟨v.toNat, rest, ⟨v.toNat_lt, rfl⟩, by simp, rfl⟩

@[simp] theorem run_markedNumber_ok {nonCanonical : Nat → ε} {width minimum : Nat} :
    (markedNumber truncated nonCanonical width minimum).run input = .ok (v, rest) ↔
      minimum ≤ v ∧ v < 256 ^ width ∧ input = leBytes width v ++ rest := by
  simp only [markedNumber, run_bind_ok, run_leNumber_ok, run_failIf_ok, run_pure_ok]
  constructor
  · rintro ⟨n, mid, ⟨hn, rfl⟩, _, _, ⟨hmin, rfl⟩, rfl, rfl⟩
    exact ⟨by omega, hn, rfl⟩
  · rintro ⟨hmin, hv, rfl⟩
    exact ⟨v, rest, ⟨hv, rfl⟩, (), rest, ⟨by omega, rfl⟩, rfl, rfl⟩

@[simp] theorem run_compactSize_ok {nonCanonical : Nat → ε} :
    (compactSize truncated nonCanonical).run input = .ok (v, rest) ↔
      v < 2 ^ 64 ∧ input = compactSizeBytes v ++ rest := by
  simp only [compactSize, run_bind_ok, run_byte_ok]
  constructor
  · rintro ⟨flag, mid, rfl, h⟩
    have hflag := flag.toNat_lt
    unfold compactSizeBytes
    split_ifs at h with h₁ h₂ h₃
    · obtain ⟨hmin, hv, rfl⟩ := run_markedNumber_ok.mp h
      exact ⟨by omega, by simp [h₁, show ¬ v < 253 by omega, show v ≤ 0xFFFF by omega]⟩
    · obtain ⟨hmin, hv, rfl⟩ := run_markedNumber_ok.mp h
      refine ⟨by omega, ?_⟩
      simp [h₂, show ¬ v < 253 by omega, show ¬ v ≤ 0xFFFF by omega, show v ≤ 0xFFFFFFFF by omega]
    · obtain ⟨hmin, hv, rfl⟩ := run_markedNumber_ok.mp h
      refine ⟨by omega, ?_⟩
      simp [h₃, show ¬ v < 253 by omega, show ¬ v ≤ 0xFFFF by omega, show ¬ v ≤ 0xFFFFFFFF by omega]
    · -- Every flag that is no marker is its own value, below the first marker.
      obtain ⟨rfl, rfl⟩ := run_pure_ok.mp h
      rw [← UInt8.toNat_inj] at h₁ h₂ h₃
      simp only [UInt8.reduceToNat] at h₁ h₂ h₃
      exact ⟨by omega, by simp [show flag.toNat < 253 by omega]⟩
  · rintro ⟨hv, rfl⟩
    unfold compactSizeBytes
    split_ifs with h₁ h₂ h₃
    · refine ⟨UInt8.ofNat v, rest, rfl, ?_⟩
      have hval : (UInt8.ofNat v).toNat = v := by
        rw [UInt8.toNat_ofNat', Nat.mod_eq_of_lt (by omega)]
      rw [if_neg, if_neg, if_neg, run_pure_ok]
      · exact ⟨hval, rfl⟩
      all_goals
        rw [← UInt8.toNat_inj, hval]
        simp only [UInt8.reduceToNat]
        omega
    · exact ⟨253, _, rfl, by simpa using ⟨by omega, by omega⟩⟩
    · exact ⟨254, _, rfl, by simpa using ⟨by omega, by omega⟩⟩
    · exact ⟨255, _, rfl, by simpa using ⟨by omega, by omega⟩⟩

end Reader

end Zakura
