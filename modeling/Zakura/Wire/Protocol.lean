import Zakura.Lib.Bytes
import Mathlib.Logic.Function.Basic

/-! # The protocol tables of `zcash_protocol`

The reader takes amount ranges, version groups and the branch table from another crate. Amounts carry
their range, and the tables the crate publishes are collected in one record. -/

namespace Zakura.Wire

/-! ## Amounts -/

/-- `MAX_MONEY`: twenty-one million coins in zatoshis. -/
def maxMoney : Nat := 21000000 * 100000000

/-- A non-negative amount, in `0..=MAX_MONEY`. -/
abbrev Zatoshis := { value : Nat // value ≤ maxMoney }

/-- A signed amount, in `-MAX_MONEY..=MAX_MONEY`. -/
abbrev ZatBalance := { value : Int // -(maxMoney : Int) ≤ value ∧ value ≤ (maxMoney : Int) }

def i64OfWord (word : Nat) : Int := if word < 2 ^ 63 then word else (word : Int) - 2 ^ 64

def wordOfI64 (value : Int) : Nat := (value % 2 ^ 64).toNat

def Zatoshis.fromU64LeBytes (bytes : FixedBytes 8) : Option Zatoshis :=
  if h : leNat bytes.val ≤ maxMoney then some ⟨leNat bytes.val, h⟩ else none

def Zatoshis.fromNonnegativeI64LeBytes (bytes : FixedBytes 8) : Option Zatoshis :=
  let value := i64OfWord (leNat bytes.val)
  if h : 0 ≤ value ∧ value ≤ (maxMoney : Int) then some ⟨value.toNat, by omega⟩ else none

def ZatBalance.fromI64LeBytes (bytes : FixedBytes 8) : Option ZatBalance :=
  let value := i64OfWord (leNat bytes.val)
  if h : -(maxMoney : Int) ≤ value ∧ value ≤ (maxMoney : Int) then some ⟨value, h⟩ else none

def ZatBalance.zero : ZatBalance := ⟨0, by decide⟩

def Zatoshis.toLeBytes (value : Zatoshis) : Bytes := leBytes 8 value.val

def ZatBalance.toLeBytes (value : ZatBalance) : Bytes := leBytes 8 (wordOfI64 value.val)

@[simp] theorem Zatoshis.length_toLeBytes (value : Zatoshis) : value.toLeBytes.length = 8 :=
  length_leBytes ..

@[simp] theorem ZatBalance.length_toLeBytes (value : ZatBalance) : value.toLeBytes.length = 8 :=
  length_leBytes ..

theorem maxMoney_lt : maxMoney < 2 ^ 63 := by decide

theorem wordOfI64_lt (value : Int) : wordOfI64 value < 256 ^ 8 := by
  unfold wordOfI64
  omega

/-- A 64-bit word is the two's complement form of exactly one signed number. -/
theorem i64OfWord_eq_iff {word : Nat} {value : Int} (hw : word < 256 ^ 8)
    (hlo : -2 ^ 63 ≤ value) (hhi : value < 2 ^ 63) :
    i64OfWord word = value ↔ word = wordOfI64 value := by
  unfold i64OfWord wordOfI64
  split <;> omega

theorem Zatoshis.fromU64LeBytes_eq_some {bytes : FixedBytes 8} {value : Zatoshis} :
    fromU64LeBytes bytes = some value ↔ bytes.val = value.toLeBytes := by
  have hv := value.property
  have hm := maxMoney_lt
  rw [toLeBytes, bytes.val_eq_leBytes_iff (by omega)]
  unfold fromU64LeBytes
  split
  · simp [Subtype.ext_iff]
  · simp only [reduceCtorEq, false_iff]
    omega

theorem Zatoshis.fromNonnegativeI64LeBytes_eq_some {bytes : FixedBytes 8} {value : Zatoshis} :
    fromNonnegativeI64LeBytes bytes = some value ↔ bytes.val = value.toLeBytes := by
  have hv := value.property
  have hm := maxMoney_lt
  have hb := leNat_lt bytes.val
  rw [FixedBytes.length_val] at hb
  have hi : i64OfWord (leNat bytes.val) = value.val ↔ leNat bytes.val = value.val := by
    rw [i64OfWord_eq_iff hb (by omega) (by omega)]
    unfold wordOfI64
    omega
  rw [toLeBytes, bytes.val_eq_leBytes_iff (by omega), ← hi]
  unfold fromNonnegativeI64LeBytes
  simp only
  split
  · simp only [Option.some.injEq, Subtype.ext_iff]
    omega
  · simp only [reduceCtorEq, false_iff]
    omega

theorem ZatBalance.fromI64LeBytes_eq_some {bytes : FixedBytes 8} {value : ZatBalance} :
    fromI64LeBytes bytes = some value ↔ bytes.val = value.toLeBytes := by
  have hv := value.property
  have hm := maxMoney_lt
  have hb := leNat_lt bytes.val
  rw [FixedBytes.length_val] at hb
  rw [toLeBytes, bytes.val_eq_leBytes_iff (wordOfI64_lt _), ← i64OfWord_eq_iff hb (by omega) (by omega)]
  unfold fromI64LeBytes
  simp only
  split
  · simp only [Option.some.injEq, Subtype.ext_iff]
  · simp only [reduceCtorEq, false_iff]
    omega

theorem ZatBalance.toLeBytes_injective {a b : ZatBalance} (h : a.toLeBytes = b.toLeBytes) : a = b := by
  have ha := a.property
  have hb := b.property
  have hm := maxMoney_lt
  have hw := leBytes_inj (wordOfI64_lt _) (wordOfI64_lt _) h
  unfold wordOfI64 at hw
  apply Subtype.ext
  omega

/-! ## Consensus branches -/

inductive BranchId where
  | sprout | overwinter | sapling | blossom | heartwood | canopy
  | nu5 | nu6 | nu6_1 | nu6_2 | nu6_3 | nu7
deriving DecidableEq, Repr

def BranchId.all : List BranchId :=
  [.sprout, .overwinter, .sapling, .blossom, .heartwood, .canopy, .nu5, .nu6, .nu6_1, .nu6_2, .nu6_3, .nu7]

theorem BranchId.mem_all (b : BranchId) : b ∈ all := by
  cases b <;> decide

inductive OrchardProtocolRevision where
  | insecureV1 | v2 | v3
deriving DecidableEq, Repr

/-- The tables `zcash_protocol` publishes. -/
structure Protocol where
  v3VersionGroupId : UInt32
  v4VersionGroupId : UInt32
  v5VersionGroupId : UInt32
  v6VersionGroupId : UInt32
  /-- `u32::from(BranchId)`. -/
  branchValue : BranchId → UInt32
  /-- No two branches share an identifier. -/
  branchValue_injective : Function.Injective branchValue
  /-- `BranchId::orchard_protocol_revision`. -/
  orchardProtocolRevision : BranchId → Option OrchardProtocolRevision

/-- `BranchId::try_from`. -/
def Protocol.branchOf (P : Protocol) (raw : UInt32) : Option BranchId :=
  BranchId.all.find? fun b => P.branchValue b = raw

theorem Protocol.branchOf_eq_some {P : Protocol} {raw b} : P.branchOf raw = some b ↔ raw = P.branchValue b := by
  constructor
  · intro h
    simpa [eq_comm] using List.find?_some h
  · rintro rfl
    cases hf : P.branchOf (P.branchValue b) with
    | none => simpa using List.find?_eq_none.mp hf b b.mem_all
    | some c =>
      have hc : P.branchValue c = P.branchValue b := by simpa using List.find?_some hf
      rw [P.branchValue_injective hc]

end Zakura.Wire
