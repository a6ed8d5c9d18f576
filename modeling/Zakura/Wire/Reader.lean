import Zakura.Lib.CompactSize

/-! # The bounds-checked cursor

The reader functions of the transaction parser and the errors they report. -/

namespace Zakura.Wire

/-- The reason a byte string is not a structurally valid transaction encoding. -/
inductive DecodeError where
  | truncated (field : String) (needed : Nat)
  | nonCanonicalCompactSize (field : String)
  | compactSizeTooLarge (field : String) (value : Nat)
  | countExceedsInput (field : String) (count : Nat)
  | unsupportedVersion (header : UInt32) (versionGroupId : Option UInt32)
  | unknownBranchId (raw : UInt32)
  | versionNotValidInBranch (version branchId : UInt32)
  | valueOutOfRange (field : String)
  | poolNotActive (pool : String)
  | nonZeroBalanceWithoutDescriptions
  | invalidFlags (pool : String) (flags : UInt8)
  | invalidProofLength (pool : String) (expected actual : Nat)
  | trailingBytes (count : Nat)
deriving DecidableEq, Repr

def maxCompactSize : Nat := 0x02000000

abbrev Decode := Reader DecodeError

def take (n : Nat) (field : String) : Decode (FixedBytes n) := Reader.takeBytes n (.truncated field)

/-- `array`: the width is that of the array the caller expects. -/
def array {n : Nat} (field : String) : Decode (FixedBytes n) := take n field

def u8 (field : String) : Decode UInt8 := Reader.byte (.truncated field)

def u32Le (field : String) : Decode UInt32 := Reader.word32 (.truncated field)

def leBytes8 (field : String) : Decode (FixedBytes 8) := array field

/-- `compact_size`: a canonical CompactSize no larger than `MAX_COMPACT_SIZE`. -/
def compactSize (field : String) : Decode Nat := do
  let value ← Reader.compactSize (.truncated field) fun _ => .nonCanonicalCompactSize field
  Reader.failIf (maxCompactSize < value) (.compactSizeTooLarge field value)
  pure value

/-- `check_count`. The product stays far below the machine's range: a count is at most
`MAX_COMPACT_SIZE` and no element is larger than a few kilobytes. -/
def checkCount (field : String) (count elementSize : Nat) : Decode Unit := do
  let remaining ← Reader.remaining
  Reader.failIf (remaining < count * elementSize) (.countExceedsInput field count)

/-- `count`: an element count whose elements, at their smallest, fit in the remaining input. -/
def count (field : String) (minElementSize : Nat) : Decode Nat := do
  let count ← compactSize field
  checkCount field count minElementSize
  pure count

def varBytes (field : String) : Decode Bytes := do
  let len ← compactSize field
  let bytes ← take len field
  pure bytes.val

def elements {α : Type} (count : Nat) (f : Decode α) : Decode (List α) := Reader.repeated count f

/-- The value of a conversion, or the given error. -/
def orError {α : Type} (e : DecodeError) : Option α → Decode α
  | some a => pure a
  | none => Reader.fail e

/-! ## What the cursor accepts -/

open Reader

variable {input rest : Bytes}

@[simp] theorem run_take_ok {n field} {a : FixedBytes n} :
    (take n field).run input = .ok (a, rest) ↔ input = a.val ++ rest := run_takeBytes_ok

@[simp] theorem run_array_ok {n field} {a : FixedBytes n} :
    (array field).run input = .ok (a, rest) ↔ input = a.val ++ rest := run_takeBytes_ok

@[simp] theorem run_leBytes8_ok {field} {a : FixedBytes 8} :
    (leBytes8 field).run input = .ok (a, rest) ↔ input = a.val ++ rest := run_takeBytes_ok

@[simp] theorem run_u8_ok {field} {b : UInt8} :
    (u8 field).run input = .ok (b, rest) ↔ input = b :: rest := run_byte_ok

def wordBytes (word : UInt32) : Bytes := leBytes 4 word.toNat

@[simp] theorem length_wordBytes (word : UInt32) : (wordBytes word).length = 4 := length_leBytes ..

@[simp] theorem run_u32Le_ok {field} {v : UInt32} :
    (u32Le field).run input = .ok (v, rest) ↔ input = wordBytes v ++ rest := run_word32_ok

variable {n : Nat}

@[simp] theorem run_compactSize_ok {field} :
    (compactSize field).run input = .ok (n, rest) ↔
      n ≤ maxCompactSize ∧ input = compactSizeBytes n ++ rest := by
  simp only [compactSize, run_bind_ok, Reader.run_compactSize_ok, run_failIf_ok, run_pure_ok]
  constructor
  · rintro ⟨v, mid, ⟨hv, rfl⟩, _, _, ⟨hmax, rfl⟩, rfl, rfl⟩
    exact ⟨by omega, rfl⟩
  · rintro ⟨hmax, rfl⟩
    refine ⟨n, rest, ⟨?_, rfl⟩, (), rest, ⟨by omega, rfl⟩, rfl, rfl⟩
    have : maxCompactSize < 2 ^ 64 := by decide
    omega

variable {size : Nat}

@[simp] theorem run_checkCount_ok {field} {u : Unit} :
    (checkCount field n size).run input = .ok (u, rest) ↔ n * size ≤ input.length ∧ input = rest := by
  simp [checkCount, and_comm]

@[simp] theorem run_count_ok {field} :
    (count field size).run input = .ok (n, rest) ↔
      n ≤ maxCompactSize ∧ n * size ≤ rest.length ∧ input = compactSizeBytes n ++ rest := by
  simp only [count, run_bind_ok, run_compactSize_ok, run_checkCount_ok, run_pure_ok]
  constructor
  · rintro ⟨m, mid, ⟨hm, rfl⟩, _, _, ⟨hfit, rfl⟩, rfl, rfl⟩
    exact ⟨hm, hfit, rfl⟩
  · rintro ⟨hn, hfit, rfl⟩
    exact ⟨n, rest, ⟨hn, rfl⟩, (), rest, ⟨hfit, rfl⟩, rfl, rfl⟩

def varBytesEncode (bytes : Bytes) : Bytes := compactSizeBytes bytes.length ++ bytes

@[simp] theorem run_varBytes_ok {field} {bytes : Bytes} :
    (varBytes field).run input = .ok (bytes, rest) ↔
      bytes.length ≤ maxCompactSize ∧ input = varBytesEncode bytes ++ rest := by
  simp only [varBytes, varBytesEncode, run_bind_ok, run_compactSize_ok, run_take_ok, run_pure_ok]
  constructor
  · rintro ⟨len, mid, ⟨hlen, rfl⟩, a, mid', rfl, rfl, rfl⟩
    exact ⟨by simpa using hlen, by simp⟩
  · rintro ⟨hlen, rfl⟩
    exact ⟨bytes.length, bytes ++ rest, ⟨hlen, by simp⟩, ⟨bytes, rfl⟩, rest, rfl, rfl, rfl⟩

variable {α : Type}

@[simp] theorem run_orError_ok {e : DecodeError} {o : Option α} {a : α} :
    (orError e o).run input = .ok (a, rest) ↔ o = some a ∧ input = rest := by
  cases o <;> simp [orError]

def countedEncode {α : Type} (encode : α → Bytes) (xs : List α) : Bytes :=
  compactSizeBytes xs.length ++ xs.flatMap encode

/-- A count followed by its elements: the bound on the count never rejects an encoding, since no element
is shorter than the bound assumes. -/
theorem run_count_elements_ok {β : Type} {p : Decode α} {valid encode} (h : Reads p valid encode)
    (hsize : ∀ x, valid x → size ≤ (encode x).length) {field} {k : Nat → List α → Decode β} {b : β} :
    (count field size >>= fun n => elements n p >>= k n).run input = .ok (b, rest) ↔
      ∃ xs mid, xs.length ≤ maxCompactSize ∧ (∀ x ∈ xs, valid x) ∧
        input = countedEncode encode xs ++ mid ∧ (k xs.length xs).run mid = .ok (b, rest) := by
  simp only [elements, run_bind_ok, run_count_ok, h.run_repeated_ok, countedEncode]
  constructor
  · rintro ⟨n, mid, ⟨hn, -, rfl⟩, xs, mid', ⟨rfl, hxs, rfl⟩, hk⟩
    exact ⟨xs, mid', hn, hxs, by simp, hk⟩
  · rintro ⟨xs, mid, hn, hxs, rfl, hk⟩
    refine ⟨xs.length, _, ⟨hn, ?_, List.append_assoc ..⟩, xs, mid, ⟨rfl, hxs, rfl⟩, hk⟩
    have := length_flatMap_ge fun x hx => hsize x (hxs x hx)
    simp only [List.length_append]
    omega

/-- The same for a section that is absent when its count is zero. -/
theorem run_count_optional_ok {β : Type} {p : Decode α} {valid encode} (h : Reads p valid encode)
    (hsize : ∀ x, valid x → size ≤ (encode x).length) {field} {absent : Decode β} {k : Nat → List α → Decode β} {b : β} :
    (count field size >>= fun n => if n = 0 then absent else elements n p >>= k n).run input =
        .ok (b, rest) ↔
      (∃ mid, input = compactSizeBytes 0 ++ mid ∧ absent.run mid = .ok (b, rest)) ∨
      ∃ xs mid, xs ≠ [] ∧ xs.length ≤ maxCompactSize ∧ (∀ x ∈ xs, valid x) ∧
        input = countedEncode encode xs ++ mid ∧ (k xs.length xs).run mid = .ok (b, rest) := by
  simp only [elements, run_bind_ok, run_count_ok, countedEncode]
  constructor
  · rintro ⟨n, mid, ⟨hn, -, rfl⟩, hr⟩
    split at hr
    · rename_i hzero
      exact .inl ⟨mid, by rw [hzero], hr⟩
    · rename_i hpos
      obtain ⟨xs, mid', hxs, hk⟩ := run_bind_ok.mp hr
      obtain ⟨rfl, hvalid, rfl⟩ := h.run_repeated_ok.mp hxs
      exact .inr ⟨xs, mid', fun hnil => hpos (by rw [hnil]; rfl), hn, hvalid, by simp, hk⟩
  · rintro (⟨mid, rfl, hr⟩ | ⟨xs, mid, hne, hn, hvalid, rfl, hk⟩)
    · exact ⟨0, mid, ⟨Nat.zero_le _, by simp, rfl⟩, by simpa using hr⟩
    · have hfit := length_flatMap_ge fun x hx => hsize x (hvalid x hx)
      refine ⟨xs.length, xs.flatMap encode ++ mid, ⟨hn, ?_, List.append_assoc ..⟩, ?_⟩
      · rw [List.length_append]
        omega
      · rw [if_neg (by simpa using hne)]
        exact run_bind_ok.mpr ⟨xs, mid, h.run_repeated_ok.mpr ⟨rfl, hvalid, rfl⟩, hk⟩

end Zakura.Wire
