import Zakura.Lib.Except
import Zakura.ShardInventory.Capture

/-! # What a shard's digest binds -/

namespace Zakura.ShardInventory

open List

open Zakura.Receiver (Hash)

variable {P : Type}

theorem toNat_inj_of_leBytes32 {a b : UInt32} (h : leBytes 4 a.toNat = leBytes 4 b.toNat) : a = b :=
  UInt32.toNat_inj.mp (leBytes_inj a.toNat_lt b.toNat_lt h)

theorem toNat_inj_of_leBytes64 {a b : UInt64} (h : leBytes 8 a.toNat = leBytes 8 b.toNat) : a = b :=
  UInt64.toNat_inj.mp (leBytes_inj a.toNat_lt b.toNat_lt h)

theorem filterBytes_inj {a b : Option FilterRef} (h : filterBytes a = filterBytes b) : a = b := by
  cases a with
  | none => cases b with
    | none => rfl
    | some filter => simp [filterBytes] at h
  | some filter => cases b with
    | none => simp [filterBytes] at h
    | some filter' =>
      simp only [filterBytes, append_assoc, append_cancel_left_eq] at h
      obtain ⟨hdigest, h⟩ := FixedBytes.append_inj h
      obtain ⟨hbytes, hreceivers⟩ := List.append_inj h (by simp)
      have hbytes := toNat_inj_of_leBytes32 hbytes
      have hreceivers := toNat_inj_of_leBytes32 hreceivers
      cases filter
      cases filter'
      simp_all

theorem length_filterBytes (filter : Option FilterRef) :
    (filterBytes filter).length = 1 ∨ (filterBytes filter).length = 41 := by
  cases filter with
  | none => exact .inl rfl
  | some filter => exact .inr (by simp [filterBytes])

theorem length_idBytes (ids : List (Hash × Hash)) :
    (ids.flatMap fun id => id.1.val ++ id.2.val).length = 64 * ids.length := by
  induction ids with
  | nil => rfl
  | cons id ids ih =>
    rw [flatMap_cons, length_append, ih, length_append, FixedBytes.length_val, FixedBytes.length_val,
      length_cons]
    omega

theorem idBytes_inj {ids ids' : List (Hash × Hash)}
    (h : (ids.flatMap fun id => id.1.val ++ id.2.val) = ids'.flatMap fun id => id.1.val ++ id.2.val) : ids = ids' := by
  induction ids generalizing ids' with
  | nil =>
    have hlength := congrArg List.length h
    rw [length_idBytes, length_idBytes] at hlength
    exact (length_eq_zero_iff.mp (by simpa using hlength.symm)).symm
  | cons id ids ih =>
    cases ids' with
    | nil =>
      have hlength := congrArg List.length h
      rw [length_idBytes, length_idBytes] at hlength
      simp at hlength
    | cons id' ids' =>
      rw [flatMap_cons, flatMap_cons, append_assoc, append_assoc] at h
      obtain ⟨hfirst, h⟩ := FixedBytes.append_inj h
      obtain ⟨hsecond, h⟩ := FixedBytes.append_inj h
      rw [ih h, Prod.ext hfirst hsecond]

theorem Shard.preimage_inj {a b : Shard P} {ids ids' : List (Hash × Hash)} (h : a.preimage ids = b.preimage ids') :
    ids = ids' ∧ a = { b with segments := a.segments } := by
  have hform : ∀ (shard : Shard P) ids, shard.preimage ids =
      (asciiBytes "ironwood-receiver-inventory/v1/shard" ++ [0]) ++ (leBytes 4 shard.index.toNat ++
        ([if shard.sealed then 1 else 0] ++ (leBytes 4 shard.startHeight.toNat ++ (shard.startParent.val ++
        (leBytes 8 shard.startPosition.toNat ++ (leBytes 4 shard.endHeight.toNat ++ (shard.endHash.val ++
        (leBytes 8 shard.endPosition.toNat ++ (leBytes 4 shard.segments.length ++
        ((ids.flatMap fun id => id.1.val ++ id.2.val) ++ filterBytes shard.filter)))))))))) := by
    intro shard ids
    simp only [preimage, append_assoc]
  rw [hform, hform] at h
  have h := append_cancel_left h
  obtain ⟨hindex, h⟩ := List.append_inj h (by simp)
  obtain ⟨hsealed, h⟩ := List.append_inj h rfl
  obtain ⟨hstartHeight, h⟩ := List.append_inj h (by simp)
  obtain ⟨hstartParent, h⟩ := FixedBytes.append_inj h
  obtain ⟨hstartPosition, h⟩ := List.append_inj h (by simp)
  obtain ⟨hendHeight, h⟩ := List.append_inj h (by simp)
  obtain ⟨hendHash, h⟩ := FixedBytes.append_inj h
  obtain ⟨hendPosition, h⟩ := List.append_inj h (by simp)
  obtain ⟨-, h⟩ := List.append_inj h (by simp)
  -- The ids are 64 bytes each, which the filter's part is too short to make up for.
  have hlength := congrArg List.length h
  rw [length_append, length_append, length_idBytes, length_idBytes] at hlength
  have hcount : ids.length = ids'.length := by
    rcases length_filterBytes a.filter with ha | ha <;> rcases length_filterBytes b.filter with hb | hb <;> omega
  obtain ⟨hids, hfilter⟩ := List.append_inj h (by rw [length_idBytes, length_idBytes, hcount])
  refine ⟨idBytes_inj hids, ?_⟩
  have hindex := toNat_inj_of_leBytes32 hindex
  have hstartHeight := toNat_inj_of_leBytes32 hstartHeight
  have hstartPosition := toNat_inj_of_leBytes64 hstartPosition
  have hendHeight := toNat_inj_of_leBytes32 hendHeight
  have hendPosition := toNat_inj_of_leBytes64 hendPosition
  have hfilter := filterBytes_inj hfilter
  have hsealed : a.sealed = b.sealed := by
    cases hsa : a.sealed <;> cases hsb : b.sealed <;> simp_all
  cases a
  cases b
  simp_all

end Zakura.ShardInventory
