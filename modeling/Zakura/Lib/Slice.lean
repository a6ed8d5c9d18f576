import Zakura.Lib.Reader
import Mathlib.Data.List.Infix

/-! # Code that indexes byte slices

A run of such code returns, fails with an error of its own, or panics: an index outside its slice, an array of
the wrong width, a sum or a shift that overflows. Code that never panics is the reader it refines. -/

namespace Zakura

open List

/-- A run of code; `none` is a panic. -/
abbrev Checked (ε : Type) := ExceptT ε Option

namespace Checked

variable {ε α β : Type}

def done (x : Except ε α) : Checked ε α := ExceptT.mk (some x)

def panics : Checked ε α := ExceptT.mk none

def fails (e : ε) : Checked ε α := done (.error e)

def mapError {ε' : Type} (f : ε → ε') (x : Checked ε α) : Checked ε' α :=
  ExceptT.mk (x.run.map fun r => r.mapError f)

/-- The numbers below which a `usize` stays, on the narrowest target. -/
def usizeBound : Nat := 2 ^ 32

def add (a b : Nat) : Checked ε Nat := if a + b < usizeBound then pure (a + b) else panics

/-- Sums, differences and products of 64-bit words. -/
def addWord (a b : Nat) : Checked ε Nat := if a + b < 2 ^ 64 then pure (a + b) else panics

def subWord (a b : Nat) : Checked ε Nat := if b ≤ a then pure (a - b) else panics

def mulWord (a b : Nat) : Checked ε Nat := if a * b < 2 ^ 64 then pure (a * b) else panics

def shiftLeft (value shift : Nat) : Checked ε Nat :=
  if shift < 64 then pure (value <<< shift % 2 ^ 64) else panics

/-- `bytes[i]`. -/
def index (bytes : Bytes) (i : Nat) : Checked ε UInt8 :=
  match bytes[i]? with
  | some b => pure b
  | none => panics

/-- `bytes.get(i)` or the error. -/
def getByte (bytes : Bytes) (i : Nat) (e : ε) : Checked ε UInt8 :=
  match bytes[i]? with
  | some b => pure b
  | none => fails e

/-- `&bytes[start..stop]`. -/
def slice (bytes : Bytes) (start stop : Nat) : Checked ε Bytes :=
  if start ≤ stop ∧ stop ≤ bytes.length then pure (bytesAt bytes start (stop - start)) else panics

/-- `bytes.get(start..stop)` or the error. -/
def getSlice (bytes : Bytes) (start stop : Nat) (e : ε) : Checked ε Bytes :=
  if start ≤ stop ∧ stop ≤ bytes.length then pure (bytesAt bytes start (stop - start)) else fails e

/-- `&bytes[start..]`. -/
def sliceFrom (bytes : Bytes) (start : Nat) : Checked ε Bytes := slice bytes start bytes.length

/-- `bytes.try_into().expect(..)`. -/
def array (n : Nat) (bytes : Bytes) : Checked ε (FixedBytes n) :=
  if h : bytes.length = n then pure ⟨bytes, h⟩ else panics

/-- `target[start..stop].copy_from_slice(source)`. -/
def copy (target : Bytes) (start stop : Nat) (source : Bytes) : Checked ε Bytes :=
  if start ≤ stop ∧ stop ≤ target.length ∧ source.length = stop - start then
    pure (target.take start ++ source ++ target.drop stop)
  else panics

def expect (x : Option α) : Checked ε α := x.elim panics pure

/-! ## What runs -/

theorem done_ok (a : α) : (done (.ok a) : Checked ε α) = pure a := rfl

@[simp] theorem done_inj {x y : Except ε α} : done x = done y ↔ x = y := Option.some_inj

@[simp] theorem done_error_bind (e : ε) (f : α → Checked ε β) : done (.error e) >>= f = done (.error e) := rfl

@[simp] theorem mapError_done {ε' : Type} (f : ε → ε') (x : Except ε α) :
    mapError f (done x) = done (x.mapError f) := rfl

variable {f : α → Checked ε β}

theorem done_bind {x : Except ε α} {g : α → Except ε β} (h : ∀ a, x = .ok a → f a = done (g a)) :
    done x >>= f = done (x >>= g) := by
  cases x with
  | error e => rfl
  | ok a => exact h a rfl

variable {x : Checked ε α}

theorem bind_eq_ok {b : β} : x >>= f = done (.ok b) ↔ ∃ a, x = done (.ok a) ∧ f a = done (.ok b) := by
  constructor
  · intro h
    match x, h with
    | some (.ok a), h => exact ⟨a, rfl, h⟩
  · rintro ⟨a, rfl, h⟩
    exact h

variable {c : Prop} {e : ε}

theorem ite_fails_eq_ok [Decidable c] {a : α} :
    (if c then fails e else x) = done (.ok a) ↔ ¬ c ∧ x = done (.ok a) := by
  by_cases hc : c
  · rw [if_pos hc]
    exact ⟨fun h => (nomatch Option.some_inj.mp h), fun h => absurd hc h.1⟩
  · rw [if_neg hc]
    exact ⟨fun h => ⟨hc, h⟩, fun h => h.2⟩

theorem ite_fails [Decidable c] {y : Except ε α} (h : ¬ c → x = done y) :
    (if c then fails e else x) = done (if c then .error e else y) := by
  split_ifs with hc
  · rfl
  · exact h hc

theorem expect_eq_ok {x : Option α} {a : α} : (expect x : Checked ε α) = done (.ok a) ↔ x = some a := by
  cases x with
  | none => exact ⟨fun h => (nomatch h), fun h => (nomatch h)⟩
  | some b => exact ⟨fun h => congrArg some (Except.ok.inj (done_inj.mp h)), fun h => Option.some_inj.mp h ▸ rfl⟩

theorem mapM_eq_pure {g : α → β} {xs : List α} (h : ∀ x ∈ xs, f x = pure (g x)) :
    xs.mapM f = pure (xs.map g) := by
  induction xs with
  | nil => rfl
  | cons x xs ih =>
    rw [mapM_cons, h x mem_cons_self, pure_bind, ih fun y hy => h y (mem_cons_of_mem x hy), pure_bind,
      map_cons]

/-- A run that does not panic. -/
def Returns (x : Checked ε α) : Prop := ∃ r, x = done r

theorem Returns.done (r : Except ε α) : Returns (done r) := ⟨r, rfl⟩

theorem Returns.pure (a : α) : Returns (pure a : Checked ε α) := ⟨.ok a, rfl⟩

theorem Returns.fails (e : ε) : Returns (fails e : Checked ε α) := ⟨.error e, rfl⟩

theorem Returns.bind (h : Returns x) (hf : ∀ a, x = Checked.done (.ok a) → Returns (f a)) : Returns (x >>= f) := by
  obtain ⟨r, rfl⟩ := h
  cases r with
  | error e => exact Returns.fails e
  | ok a => exact hf a rfl

theorem Returns.unless [Decidable c] {e : ε} (h : ¬ c → Returns x) : Returns (if c then Checked.fails e else x) := by
  split_ifs with hc
  · exact Returns.fails e
  · exact h hc

variable {a b : Nat}

theorem add_of_lt (h : a + b < usizeBound) : (add a b : Checked ε Nat) = pure (a + b) := if_pos h

theorem addWord_of_lt (h : a + b < 2 ^ 64) : (addWord a b : Checked ε Nat) = pure (a + b) := if_pos h

theorem subWord_of_le (h : b ≤ a) : (subWord a b : Checked ε Nat) = pure (a - b) := if_pos h

theorem mulWord_of_lt (h : a * b < 2 ^ 64) : (mulWord a b : Checked ε Nat) = pure (a * b) := if_pos h

variable {bytes : Bytes} {i : Nat}

theorem index_of_getElem? {b : UInt8} (h : bytes[i]? = some b) :
    (index bytes i : Checked ε UInt8) = pure b := by
  rw [index, h]

theorem getByte_of_getElem? {b : UInt8} (h : bytes[i]? = some b) : getByte bytes i e = pure b := by
  rw [getByte, h]

theorem getByte_of_none (h : bytes[i]? = none) : getByte bytes i e = fails e := by
  rw [getByte, h]

variable {start : Nat}

theorem slice_of_le {stop : Nat} (h : start ≤ stop) (hstop : stop ≤ bytes.length) :
    (slice bytes start stop : Checked ε Bytes) = pure (bytesAt bytes start (stop - start)) :=
  if_pos ⟨h, hstop⟩

theorem sliceFrom_of_le (h : start ≤ bytes.length) :
    (sliceFrom bytes start : Checked ε Bytes) = pure (bytes.drop start) := by
  rw [sliceFrom, slice_of_le h le_rfl, bytesAt, take_of_length_le (by rw [length_drop])]

theorem array_of_length {n : Nat} (h : bytes.length = n) :
    (array n bytes : Checked ε (FixedBytes n)) = pure ⟨bytes, h⟩ :=
  dif_pos h

theorem copy_append {front middle back source : Bytes} {stop : Nat} (hstart : front.length = start)
    (hstop : start + middle.length = stop) (hsource : source.length = middle.length) :
    (copy (front ++ (middle ++ back)) start stop source : Checked ε Bytes) = pure (front ++ (source ++ back)) := by
  subst hstart hstop
  rw [copy, if_pos ⟨Nat.le_add_right .., by rw [length_append, length_append]; omega, by omega⟩,
    take_left, ← append_assoc front, ← length_append, drop_left, append_assoc]

end Checked

namespace Reader

variable {ε α β : Type}

/-- What a reader returns at a position of a slice, and the position it stops at. -/
def runAt (p : Reader ε α) (bytes : Bytes) (position : Nat) : Except ε (α × Nat) :=
  (p.run (bytes.drop position)).map fun r => (r.1, bytes.length - r.2.length)

def LeavesSuffix (p : Reader ε α) : Prop := ∀ input a rest, p.run input = .ok (a, rest) → rest <:+ input

variable {p : Reader ε α} {bytes : Bytes} {position : Nat}

theorem runAt_error {e : ε} (h : p.run (bytes.drop position) = .error e) : p.runAt bytes position = .error e := by
  rw [runAt, h]
  rfl

theorem runAt_pure (a : α) (h : position ≤ bytes.length) :
    (pure a : Reader ε α).runAt bytes position = .ok (a, position) := by
  have hrun : (pure a : Reader ε α).run (bytes.drop position) = .ok (a, bytes.drop position) := rfl
  rw [runAt, hrun]
  change Except.ok (a, bytes.length - (bytes.drop position).length) = _
  rw [length_drop, Nat.sub_sub_self h]

theorem runAt_ok (hp : p.LeavesSuffix) {stop : Nat} {a : α} (hposition : position ≤ bytes.length)
    (h : p.runAt bytes position = .ok (a, stop)) :
    p.run (bytes.drop position) = .ok (a, bytes.drop stop) ∧ position ≤ stop ∧ stop ≤ bytes.length := by
  cases hrun : p.run (bytes.drop position) with
  | error e => rw [runAt_error hrun] at h; cases h
  | ok r =>
    obtain ⟨b, rest⟩ := r
    rw [runAt, hrun] at h
    obtain ⟨rfl, rfl⟩ : b = a ∧ bytes.length - rest.length = stop := Prod.mk.inj (Except.ok.inj h)
    have hsuffix := hp _ _ _ hrun
    have hle := hsuffix.length_le
    rw [length_drop] at hle
    have hwhole : rest <:+ bytes := hsuffix.trans (drop_suffix position bytes)
    rw [← suffix_iff_eq_drop.mp hwhole]
    exact ⟨rfl, by omega, Nat.sub_le ..⟩

theorem runAt_bind (hp : p.LeavesSuffix) (f : α → Reader ε β) (hposition : position ≤ bytes.length) :
    (p >>= f).runAt bytes position = p.runAt bytes position >>= fun r => (f r.1).runAt bytes r.2 := by
  cases hrun : p.runAt bytes position with
  | error e =>
    cases hp : p.run (bytes.drop position) with
    | error e' =>
      rw [runAt_error hp] at hrun
      obtain rfl := Except.error.inj hrun
      exact runAt_error (by rw [run_bind, hp]; rfl)
    | ok r => rw [runAt, hp] at hrun; cases hrun
  | ok r =>
    obtain ⟨a, stop⟩ := r
    obtain ⟨hok, -, -⟩ := runAt_ok hp hposition hrun
    rw [runAt, run_bind, hok]
    rfl

theorem runAt_ofExcept_bind (x : Except ε α) (f : α → Reader ε β) (bytes : Bytes) (position : Nat) :
    (ofExcept x >>= f).runAt bytes position = x >>= fun a => (f a).runAt bytes position := by
  cases x <;> rfl

theorem runAt_remaining_bind (f : Nat → Reader ε β) (bytes : Bytes) (position : Nat) :
    ((remaining : Reader ε Nat) >>= f).runAt bytes position = (f (bytes.length - position)).runAt bytes position := by
  rw [← length_drop]
  rfl

theorem runAt_mapError {ε' : Type} (f : ε → ε') (p : Reader ε α) (bytes : Bytes) (position : Nat) :
    (mapError f p).runAt bytes position = (p.runAt bytes position).mapError f := by
  change ((p.run (bytes.drop position)).mapError f).map _ = ((p.run (bytes.drop position)).map _).mapError f
  cases p.run (bytes.drop position) <;> rfl

theorem runAt_ite_fail (c : Prop) [Decidable c] (e : ε) (p : Reader ε α) (bytes : Bytes) (position : Nat) :
    (if c then fail e else p).runAt bytes position = if c then .error e else p.runAt bytes position := by
  split_ifs <;> rfl

theorem LeavesSuffix.mapError {ε' : Type} {f : ε → ε'} (h : p.LeavesSuffix) : (mapError f p).LeavesSuffix :=
  fun input a rest hrun => h input a rest (run_mapError_ok.mp hrun)

theorem peek_leavesSuffix (e : ε) : (peek e).LeavesSuffix := by
  intro input b rest h
  obtain ⟨-, rfl⟩ := run_peek_ok.mp h
  exact suffix_rfl

theorem takeBytes_leavesSuffix (n : Nat) (truncated : Nat → ε) : (takeBytes n truncated).LeavesSuffix := by
  intro input a rest h
  rw [run_takeBytes_ok.mp h]
  exact suffix_append ..

theorem runAt_peek {b : UInt8} (e : ε) (h : bytes[position]? = some b) :
    (peek e).runAt bytes position = .ok (b, position) := by
  obtain ⟨hlt, rfl⟩ := List.getElem?_eq_some_iff.mp h
  have hrun : (peek e).run (bytes.drop position) = .ok (bytes[position], bytes.drop position) :=
    run_peek_ok.mpr ⟨by rw [head?_drop, h], rfl⟩
  rw [runAt, hrun]
  change Except.ok (_, bytes.length - (bytes.drop position).length) = _
  rw [length_drop, Nat.sub_sub_self hlt.le]

theorem runAt_takeBytes {n : Nat} {truncated : Nat → ε} (h : position + n ≤ bytes.length) :
    (takeBytes n truncated).runAt bytes position =
      .ok (⟨bytesAt bytes position n, length_bytesAt h⟩, position + n) := by
  have hsplit : bytes.drop position = bytesAt bytes position n ++ bytes.drop (position + n) := by
    rw [bytesAt, ← drop_drop, take_append_drop]
  have hrun : (takeBytes n truncated).run (bytes.drop position) =
      .ok (⟨bytesAt bytes position n, length_bytesAt h⟩, bytes.drop (position + n)) :=
    run_takeBytes_ok.mpr hsplit
  rw [runAt, hrun]
  change Except.ok (_, bytes.length - (bytes.drop (position + n)).length) = _
  rw [length_drop, Nat.sub_sub_self h]

theorem runAt_takeBytes_short {n : Nat} {e : ε} (h : bytes.length < position + n) (hn : position ≤ bytes.length) :
    (takeBytes n fun _ => e).runAt bytes position = .error e := by
  refine runAt_error ?_
  change takeBytes n (fun _ => e) (bytes.drop position) = _
  rw [takeBytes, dif_neg (by rw [length_drop]; omega)]

theorem runAt_drop (hp : p.LeavesSuffix) (hposition : position ≤ bytes.length) :
    p.runAt bytes position = (p.runAt (bytes.drop position) 0).map fun r => (r.1, position + r.2) := by
  rw [runAt, runAt, drop_zero]
  cases hrun : p.run (bytes.drop position) with
  | error e => rfl
  | ok r =>
    have hle := (hp _ _ _ hrun).length_le
    rw [length_drop] at hle
    change Except.ok (r.1, bytes.length - r.2.length) =
      Except.ok (r.1, position + ((bytes.drop position).length - r.2.length))
    rw [length_drop]
    congr 2
    omega

end Reader

end Zakura
