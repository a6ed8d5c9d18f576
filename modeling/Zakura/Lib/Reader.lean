import Zakura.Lib.Bytes
import Mathlib.Data.List.Forall2

/-! # Readers and the formats they read

A reader consumes a prefix of its input or fails. Its specification is an equivalence: it succeeds with
a value and a remainder exactly when the input is the value's encoding followed by that remainder. The
rules below build the equivalence of a composite reader from those of its parts. -/

namespace Zakura

open List

/-- A reader over a byte string: it returns a value and the input it did not consume, or fails. -/
def Reader (ε α : Type) := Bytes → Except ε (α × Bytes)

namespace Reader

variable {ε α β : Type}

def run (p : Reader ε α) (input : Bytes) : Except ε (α × Bytes) := p input

instance : Monad (Reader ε) where
  pure a := fun input => .ok (a, input)
  bind p f := fun input =>
    match p.run input with
    | .ok (a, rest) => (f a).run rest
    | .error e => .error e

def fail (e : ε) : Reader ε α := fun _ => .error e

def failIf (c : Prop) [Decidable c] (e : ε) : Reader ε Unit :=
  if c then fail e else pure ()

/-- Takes `n` bytes; the error is told how many more were needed. -/
def takeBytes (n : Nat) (truncated : Nat → ε) : Reader ε (FixedBytes n) := fun input =>
  if h : n ≤ input.length then
    .ok (⟨input.take n, length_take_of_le h⟩, input.drop n)
  else
    .error (truncated (n - input.length))

def remaining : Reader ε Nat := fun input => .ok (input.length, input)

def ofExcept (x : Except ε α) : Reader ε α := fun input => x.map (·, input)

def peek (truncated : ε) : Reader ε UInt8 := fun input =>
  match input with
  | [] => .error truncated
  | b :: _ => .ok (b, input)

def mapError {ε' : Type} (f : ε → ε') (p : Reader ε α) : Reader ε' α := fun input => (p.run input).mapError f

def forEach (f : α → Reader ε β) : List α → Reader ε (List β)
  | [] => pure []
  | x :: xs => do
    let y ← f x
    let ys ← forEach f xs
    pure (y :: ys)

/-- Reads `count` values one after another. -/
def repeated (count : Nat) (p : Reader ε α) : Reader ε (List α) :=
  forEach (fun _ => p) (List.replicate count ())

/-! ## When a reader succeeds -/

variable {input rest : Bytes}

@[simp] theorem run_pure_ok {a b : α} :
    (pure a : Reader ε α).run input = .ok (b, rest) ↔ a = b ∧ input = rest := by
  change Except.ok (a, input) = Except.ok (b, rest) ↔ _
  simp

variable {e : ε} {r : α × Bytes}

@[simp] theorem run_fail_ok : (fail e : Reader ε α).run input = .ok r ↔ False := by
  change Except.error e = Except.ok r ↔ _
  simp

variable {p : Reader ε α}

@[simp] theorem run_bind_ok {f : α → Reader ε β} {b : β} :
    (p >>= f).run input = .ok (b, rest) ↔
      ∃ a mid, p.run input = .ok (a, mid) ∧ (f a).run mid = .ok (b, rest) := by
  change (match p.run input with
    | .ok (a, mid) => (f a).run mid
    | .error e => .error e) = _ ↔ _
  rcases p.run input with e | ⟨a, mid⟩ <;> simp

theorem run_bind (p : Reader ε α) (f : α → Reader ε β) (input : Bytes) :
    (p >>= f).run input = p.run input >>= fun r => (f r.1).run r.2 := by
  change (match p.run input with
    | .ok (a, mid) => (f a).run mid
    | .error e => .error e) = _
  cases p.run input <;> rfl

@[simp] theorem run_failIf_ok {c : Prop} [Decidable c] {u : Unit} :
    (failIf c e).run input = .ok (u, rest) ↔ ¬ c ∧ input = rest := by
  unfold failIf
  split <;> simp_all

theorem run_ite_fail_ok {c : Prop} [Decidable c] :
    (if c then fail e else p).run input = .ok r ↔ ¬ c ∧ p.run input = .ok r := by
  split_ifs with h
  · rw [run_fail_ok]
    exact ⟨False.elim, fun hr => hr.1 h⟩
  · exact (and_iff_right h).symm

@[simp] theorem run_remaining_ok {n : Nat} :
    (remaining : Reader ε Nat).run input = .ok (n, rest) ↔ input.length = n ∧ input = rest := by
  change Except.ok (input.length, input) = Except.ok (n, rest) ↔ _
  simp

@[simp] theorem run_ofExcept_ok {x : Except ε α} {a : α} :
    (ofExcept x).run input = .ok (a, rest) ↔ x = .ok a ∧ input = rest := by
  change x.map (·, input) = _ ↔ _
  cases x <;> simp [Except.map]

@[simp] theorem run_peek_ok {truncated : ε} {b : UInt8} :
    (peek truncated).run input = .ok (b, rest) ↔ input.head? = some b ∧ input = rest := by
  change peek truncated input = _ ↔ _
  cases input <;> simp [peek]

@[simp] theorem run_mapError_ok {ε' : Type} {f : ε → ε'} :
    (mapError f p).run input = .ok r ↔ p.run input = .ok r := by
  change (p.run input).mapError f = _ ↔ _
  cases p.run input <;> simp [Except.mapError]

@[simp] theorem run_takeBytes_ok {n : Nat} {truncated : Nat → ε} {a : FixedBytes n} :
    (takeBytes n truncated).run input = .ok (a, rest) ↔ input = a.val ++ rest := by
  change takeBytes n truncated input = _ ↔ _
  unfold takeBytes
  split
  · rename_i h
    simp only [Except.ok.injEq, Prod.mk.injEq]
    constructor
    · rintro ⟨rfl, rfl⟩
      simp
    · rintro rfl
      exact ⟨Subtype.ext (by simp [a.property]), by simp [a.property]⟩
  · rename_i h
    simp only [reduceCtorEq, false_iff]
    rintro rfl
    simp at h

/-! ## Formats -/

/-- The reader accepts exactly the encodings of the valid values, and returns what follows them. -/
def Reads (p : Reader ε α) (valid : α → Prop) (encode : α → Bytes) : Prop :=
  ∀ input a rest, p.run input = .ok (a, rest) ↔ valid a ∧ input = encode a ++ rest

section Reads

variable {p : Reader ε α} {valid : α → Prop} {encode : α → Bytes}

/-- A valid value is read back from its encoding, whatever follows it. -/
theorem Reads.run_encode (h : Reads p valid encode) {a} (ha : valid a) (rest : Bytes) :
    p.run (encode a ++ rest) = .ok (a, rest) :=
  (h _ _ _).mpr ⟨ha, rfl⟩

theorem Reads.encode_injective (h : Reads p valid encode) {a b} (ha : valid a) (hb : valid b)
    (hab : encode a = encode b) : a = b := by
  have ra := h.run_encode ha []
  have rb := h.run_encode hb []
  rw [hab, rb] at ra
  simpa using ra.symm

theorem Reads.run_append (h : Reads p valid encode) {input rest a} (more : Bytes)
    (hr : p.run input = .ok (a, rest)) : p.run (input ++ more) = .ok (a, rest ++ more) := by
  obtain ⟨ha, rfl⟩ := (h _ _ _).mp hr
  rw [append_assoc]
  exact h.run_encode ha _

theorem Reads.not_run_strictPrefix (h : Reads p valid encode) {a} (ha : valid a) {start tail : Bytes}
    (hs : encode a = start ++ tail) (ht : tail ≠ []) (r : α × Bytes) : p.run start ≠ .ok r := by
  obtain ⟨b, rest⟩ := r
  intro hr
  have hb := h.run_append tail hr
  have ha' := h.run_encode ha []
  rw [append_nil, hs, hb] at ha'
  simp_all

end Reads

/-! ## Repetition -/

theorem run_forEach_ok {f : α → Reader ε β} {rel : α → β → Prop} {encode : β → Bytes}
    (hf : ∀ x input y rest, (f x).run input = .ok (y, rest) ↔ rel x y ∧ input = encode y ++ rest)
    {xs : List α} {ys : List β}
    :
    (forEach f xs).run input = .ok (ys, rest) ↔
      List.Forall₂ rel xs ys ∧ input = ys.flatMap encode ++ rest := by
  induction xs generalizing input ys rest with
  | nil => simp only [forEach, run_pure_ok, forall₂_nil_left_iff]; aesop
  | cons x xs ih =>
    simp only [forEach, run_bind_ok, run_pure_ok, hf, ih]
    constructor
    · rintro ⟨y, mid, ⟨hy, rfl⟩, ys', mid', ⟨hys, rfl⟩, rfl, rfl⟩
      exact ⟨.cons hy hys, by simp⟩
    · rintro ⟨hys, rfl⟩
      obtain ⟨y, ys', hy, hys', rfl⟩ := forall₂_cons_left_iff.mp hys
      exact ⟨y, _, ⟨hy, by simp⟩, ys', rest, ⟨hys', rfl⟩, rfl, rfl⟩

theorem Reads.run_repeated_ok {valid encode} (h : Reads p valid encode) {count : Nat} {xs : List α} :
    (repeated count p).run input = .ok (xs, rest) ↔
      xs.length = count ∧ (∀ x ∈ xs, valid x) ∧ input = xs.flatMap encode ++ rest := by
  unfold repeated
  rw [run_forEach_ok (fun _ => h)]
  have key : List.Forall₂ (fun _ x => valid x) (List.replicate count ()) xs ↔
      xs.length = count ∧ ∀ x ∈ xs, valid x := by
    induction count generalizing xs with
    | zero => simp +contextual [forall₂_nil_left_iff]
    | succ count ih =>
      cases xs with
      | nil => simp [replicate_succ]
      | cons x xs => simp [replicate_succ, ih, and_left_comm]
  rw [key, and_assoc]

end Reader

end Zakura
