import Zakura.Directory.Lemmas.FixedRows
import Zakura.Receiver.Build
import Zakura.Receiver.Lemmas.Codec

/-! # What the tables hold once every extent is added

Slots are numbered through the extents. Each slot of the companion holds its record, everything else is zero,
and each directory row holds its extents' entries in order. -/

namespace Zakura.Receiver

open List

/-! ## Writing slots -/

theorem getElem?_bytesAt (bytes : Bytes) (offset n i : Nat) :
    (bytesAt bytes offset n)[i]? = if i < n then bytes[offset + i]? else none := by
  rw [bytesAt, getElem?_take]
  split_ifs
  · rw [getElem?_drop]
  · rfl

variable {bytes chunk : Bytes} {offset : Nat}

theorem getElem?_writeAt (h : offset + chunk.length ≤ bytes.length) (i : Nat) :
    (writeAt bytes offset chunk)[i]? =
      if offset ≤ i ∧ i < offset + chunk.length then chunk[i - offset]? else bytes[i]? := by
  have hfront : (bytes.take offset).length = offset := by
    rw [length_take]
    omega
  rw [writeAt, append_assoc]
  by_cases hbefore : i < offset
  · rw [if_neg (by omega), getElem?_append_left (by omega), getElem?_take, if_pos hbefore]
  · rw [getElem?_append_right (by omega), hfront]
    by_cases hin : i < offset + chunk.length
    · rw [if_pos ⟨by omega, hin⟩, getElem?_append_left (by omega)]
    · rw [if_neg (by omega), getElem?_append_right (by omega), getElem?_drop]
      congr 1
      omega

theorem length_writeAt (h : offset + chunk.length ≤ bytes.length) :
    (writeAt bytes offset chunk).length = bytes.length := by
  simp only [writeAt, length_append, length_take, length_drop]
  omega

theorem slotBytes_eq : slotBytes = 801 := rfl

theorem rowSlots_eq : rowSlots = 5 := rfl

theorem slot_end_le (slot : Nat) : slot % rowSlots * slotBytes + slotBytes ≤ rowBytes := by
  rw [rowSlots_eq, slotBytes_eq, rowBytes]
  omega

theorem slotOffset_eq (slot : Nat) : slotOffset slot = slot / 5 * 4096 + slot % 5 * 801 := rfl

variable {slot : Nat}

theorem slotOffset_add_le {later : Nat} (h : slot < later) : slotOffset slot + slotBytes ≤ slotOffset later := by
  rw [slotOffset_eq, slotOffset_eq, slotBytes_eq]
  omega

variable {rows : Nat}

theorem slotOffset_lt (h : slot < rows * rowSlots) : slotOffset slot + slotBytes ≤ rows * rowBytes := by
  rw [slotOffset_eq, slotBytes_eq, rowBytes]
  rw [rowSlots_eq] at h
  omega

/-- The first slots hold the chunks, everything else is zero. -/
structure Filled (data : Bytes) (rows : Nat) (chunks : List Bytes) : Prop where
  length : data.length = rows * rowBytes
  width : ∀ chunk ∈ chunks, chunk.length = slotBytes
  room : chunks.length ≤ rows * rowSlots
  slot : ∀ k chunk, chunks[k]? = some chunk → bytesAt data (slotOffset k) slotBytes = chunk
  zero : ∀ i b, data[i]? = some b → (∀ k < chunks.length, i < slotOffset k ∨ slotOffset k + slotBytes ≤ i) → b = 0

theorem filled_zero (rows : Nat) : Filled (List.replicate (rows * rowBytes) 0) rows [] where
  length := length_replicate
  width := by simp
  room := Nat.zero_le _
  slot := by simp
  zero := by
    intro i b hb _
    exact eq_of_mem_replicate (List.mem_of_getElem? hb)

variable {chunks : List Bytes}

theorem Filled.write {data : Bytes} (h : Filled data rows chunks) (hwidth : chunk.length = slotBytes)
    (hroom : chunks.length < rows * rowSlots) :
    Filled (writeAt data (slotOffset chunks.length) chunk) rows (chunks ++ [chunk]) := by
  have hfits : slotOffset chunks.length + chunk.length ≤ data.length := by
    rw [hwidth, h.length]
    exact slotOffset_lt hroom
  refine ⟨(length_writeAt hfits).trans h.length, ?_, ?_, fun k c hk => ?_, fun i b hb houtside => ?_⟩
  · intro c hc
    rcases mem_append.mp hc with hc | hc
    · exact h.width c hc
    · rw [mem_singleton.mp hc]
      exact hwidth
  · rw [length_append, length_singleton]
    exact hroom
  · rcases Nat.lt_trichotomy k chunks.length with hlt | heq | hgt
    · rw [getElem?_append_left hlt] at hk
      rw [← h.slot k c hk]
      refine ext_getElem? fun i => ?_
      have hbefore := slotOffset_add_le hlt
      rw [getElem?_bytesAt, getElem?_bytesAt]
      split_ifs with hi
      · rw [getElem?_writeAt hfits, if_neg (by omega)]
      · rfl
    · subst heq
      obtain rfl : chunk = c := by simpa using hk
      refine ext_getElem? fun i => ?_
      rw [getElem?_bytesAt]
      split_ifs with hi
      · rw [getElem?_writeAt hfits, if_pos (by omega), Nat.add_sub_cancel_left]
      · rw [getElem?_eq_none (by omega)]
    · rw [getElem?_eq_none (by rw [length_append, length_singleton]; omega)] at hk
      cases hk
  · have hlast := houtside chunks.length (by rw [length_append, length_singleton]; omega)
    rw [getElem?_writeAt hfits, if_neg (by omega)] at hb
    refine h.zero i b hb fun k hk => houtside k ?_
    rw [length_append]
    omega

/-! ## Records of an extent -/

def recordAt (first count slot : Nat) (paid : Paid) : RawRecord where
  receiver := paid.receiver
  page := slot - first
  total := count
  payment := paid.payment
  ordinal := slot

def recordsAt (first count : Nat) : Nat → List Paid → List (RawRecord × FixedBytes payloadBytes)
  | _, [] => []
  | slot, paid :: rest => (recordAt first count slot paid, paid.payload) :: recordsAt first count (slot + 1) rest

def chunkOf (slot : RawRecord × FixedBytes payloadBytes) : Bytes := slot.1.bytes ++ slot.2.val

theorem length_chunkOf (slot : RawRecord × FixedBytes payloadBytes) : (chunkOf slot).length = slotBytes := by
  rw [chunkOf, length_append, RawRecord.length_bytes, slot.2.property, slotBytes]

theorem length_recordsAt (first count slot : Nat) (paid : List Paid) :
    (recordsAt first count slot paid).length = paid.length := by
  induction paid generalizing slot with
  | nil => rfl
  | cons p paid ih => rw [recordsAt, length_cons, ih, length_cons]

theorem getElem?_recordsAt (first count slot : Nat) (paid : List Paid) (i : Nat) :
    (recordsAt first count slot paid)[i]? = paid[i]?.map fun p => (recordAt first count (slot + i) p, p.payload) := by
  induction paid generalizing slot i with
  | nil => rfl
  | cons p paid ih =>
    cases i with
    | zero => rfl
    | succ i =>
      rw [recordsAt, getElem?_cons_succ, ih, getElem?_cons_succ, Nat.add_right_comm, Nat.add_assoc]

variable {first : Nat}

theorem recordAt_fits {count : Nat} {paid : Paid} (hpage : slot - first < count) (hcount : count < 256 ^ 4)
    (hslot : slot < 256 ^ 4) : (recordAt first count slot paid).Fits :=
  ⟨hpage, hcount, hslot⟩

theorem addRecords_eq {c : Nat} (paid : List Paid) (draft : Draft) (hfilled : Filled draft.companion rows chunks)
    (hslot : draft.slot = chunks.length) (hfirst : first ≤ draft.slot) (hpages : draft.slot - first + paid.length ≤ c)
    (hcount : c < 256 ^ 4) (hroom : draft.slot + paid.length ≤ rows * rowSlots) (hrows : rows * rowSlots ≤ 256 ^ 4) :
    ∃ companion, Draft.addRecords first c paid draft =
        .ok { draft with slot := draft.slot + paid.length, companion } ∧
      Filled companion rows (chunks ++ (recordsAt first c draft.slot paid).map chunkOf) := by
  induction paid generalizing draft chunks with
  | nil => exact ⟨draft.companion, rfl, by simpa [recordsAt] using hfilled⟩
  | cons p paid ih =>
    rw [length_cons] at hpages hroom
    have hfits : (recordAt first c draft.slot p).Fits := recordAt_fits (by omega) hcount (by omega)
    have hwritten := hfilled.write (length_chunkOf (recordAt first c draft.slot p, p.payload)) (by omega)
    rw [← hslot] at hwritten
    obtain ⟨companion, hadd, hdone⟩ := ih ⟨draft.slot + 1, draft.directoryRows, writeAt draft.companion
      (slotOffset draft.slot) (chunkOf (recordAt first c draft.slot p, p.payload))⟩ hwritten (by simp [hslot])
      (by dsimp only; omega) (by dsimp only; omega) (by dsimp only; omega)
    refine ⟨companion, ?_, ?_⟩
    · rw [Draft.addRecords]
      change (encodeSlot (recordAt first c draft.slot p) p.payload >>= _) = _
      rw [encodeSlot_eq hfits]
      refine hadd.trans ?_
      rw [length_cons, Nat.add_right_comm, Nat.add_assoc]
    · rw [recordsAt, map_cons]
      rwa [append_assoc, singleton_append] at hdone

/-! ## All extents -/

/-- The entry of an extent that starts at a slot. -/
def entryAt (coverage : Coverage) (first : Nat) (extent : Tag × List Paid) : Entry where
  tag := extent.1
  first := first
  count := extent.2.length
  last := ((extent.2.getLast?.map fun p => p.payment.height.toNat).getD 0) - coverage.startHeight.toNat

def placeExtents : Nat → List (Tag × List Paid) → List (Nat × (Tag × List Paid))
  | _, [] => []
  | first, extent :: extents => (first, extent) :: placeExtents (first + extent.2.length) extents

def slotsOf (placed : List (Nat × (Tag × List Paid))) : List (RawRecord × FixedBytes payloadBytes) :=
  placed.flatMap fun x => recordsAt x.1 x.2.2.length x.1 x.2.2

def entriesOf (coverage : Coverage) (placed : List (Nat × (Tag × List Paid))) : List Entry :=
  placed.map fun x => entryAt coverage x.1 x.2

def sizeOf (extents : List (Tag × List Paid)) : Nat := (extents.map fun x => x.2.length).sum

theorem length_slotsOf (first : Nat) (extents : List (Tag × List Paid)) :
    (slotsOf (placeExtents first extents)).length = sizeOf extents := by
  induction extents generalizing first with
  | nil => rfl
  | cons extent extents ih =>
    rw [placeExtents, slotsOf, flatMap_cons, length_append, length_recordsAt, ← slotsOf, ih, sizeOf, sizeOf,
      map_cons, sum_cons]

def HeightsFrom (coverage : Coverage) (extents : List (Tag × List Paid)) : Prop :=
  ∀ x ∈ extents, x.2 ≠ [] ∧ ∀ p ∈ x.2, coverage.startHeight.toNat ≤ p.payment.height.toNat

theorem addExtents_eq {coverage : Coverage} {rowOf : Tag → Nat} {extents : List (Tag × List Paid)} (draft : Draft)
    (hfilled : Filled draft.companion rows chunks) (hslot : draft.slot = chunks.length)
    (hheights : HeightsFrom coverage extents) (hroom : draft.slot + sizeOf extents ≤ rows * rowSlots)
    (hrows : rows * rowSlots < 256 ^ 4) :
    ∃ companion, Draft.addExtents coverage rowOf extents draft = .ok
        { slot := draft.slot + sizeOf extents
          directoryRows := (entriesOf coverage (placeExtents draft.slot extents)).foldl
            (fun rows entry => rows.modify (rowOf entry.tag) (· ++ [entry])) draft.directoryRows
          companion } ∧
      Filled companion rows (chunks ++ (slotsOf (placeExtents draft.slot extents)).map chunkOf) := by
  induction extents generalizing draft chunks with
  | nil => exact ⟨draft.companion, rfl, by simpa [slotsOf, placeExtents] using hfilled⟩
  | cons extent extents ih =>
    obtain ⟨tag, paid⟩ := extent
    obtain ⟨⟨hnonempty, hstart⟩, hrest⟩ := forall_mem_cons.mp hheights
    have hsum : sizeOf ((tag, paid) :: extents) = paid.length + sizeOf extents := by
      rw [sizeOf, map_cons, sum_cons, sizeOf]
    rw [hsum] at hroom
    have hheight : ¬ ((paid.getLast?.map fun p => p.payment.height.toNat).getD 0) < coverage.startHeight.toNat := by
      rw [getLast?_eq_getLast_of_ne_nil hnonempty]
      exact Nat.not_lt.mpr (hstart _ (getLast_mem hnonempty))
    -- The tables with the entry added, before its records.
    obtain ⟨entered, hentered⟩ : ∃ entered : Draft, entered = ⟨draft.slot, draft.directoryRows.modify (rowOf tag)
      (· ++ [entryAt coverage draft.slot (tag, paid)]), draft.companion⟩ := ⟨_, rfl⟩
    have hslot' : entered.slot = draft.slot := by rw [hentered]
    have hfilled' : Filled entered.companion rows chunks := by rwa [hentered]
    obtain ⟨companion₁, hrecords, hfilled₁⟩ := addRecords_eq (c := paid.length) paid entered hfilled'
      (hslot'.trans hslot) (Nat.le_of_eq hslot'.symm) (by omega) (by omega) (by omega) (by omega)
    obtain ⟨companion, hextents, hdone⟩ := ih ⟨entered.slot + paid.length, entered.directoryRows, companion₁⟩ hfilled₁
      (by simp [hslot', hslot, length_recordsAt]) hrest (by dsimp only; omega)
    rw [hslot'] at hdone
    refine ⟨companion, ?_, ?_⟩
    · rw [Draft.addExtents]
      dsimp only
      rw [if_neg hheight]
      change (Draft.addRecords draft.slot paid.length paid ⟨draft.slot, draft.directoryRows.modify (rowOf tag)
        (· ++ [entryAt coverage draft.slot (tag, paid)]), draft.companion⟩ >>= _) = _
      rw [← hentered, hrecords]
      refine hextents.trans ?_
      rw [hsum, hentered, Nat.add_assoc]
      rfl
    · rw [placeExtents, slotsOf, flatMap_cons, map_append, ← slotsOf]
      rwa [append_assoc] at hdone

theorem getElem?_foldl_modify (rowOf : Tag → Nat) (entries : List Entry) (rows : List (List Entry)) (row : Nat) :
    (entries.foldl (fun rows entry => rows.modify (rowOf entry.tag) (· ++ [entry])) rows)[row]? =
      rows[row]?.map (· ++ entries.filter fun entry => rowOf entry.tag = row) := by
  induction entries generalizing rows with
  | nil => simp
  | cons entry entries ih =>
    rw [foldl_cons, ih, getElem?_modify]
    by_cases heq : rowOf entry.tag = row
    · rw [filter_cons_of_pos (by simpa using heq)]
      cases rows[row]? with
      | none => rfl
      | some old => simp [heq]
    · rw [filter_cons_of_neg (by simpa using heq)]
      cases rows[row]? with
      | none => rfl
      | some old => simp [heq]

end Zakura.Receiver
