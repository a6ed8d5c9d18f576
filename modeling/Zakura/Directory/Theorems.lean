import Zakura.Directory.Lemmas.Choice
import Zakura.Directory.Lemmas.FixedRows

/-! # What placement and choice tables guarantee -/

namespace Zakura.Directory

open List FixedRows ChoiceTable

variable (sha256 : Bytes → FixedBytes 32)

/-- After any sequence of calls that return, every key of a successful batch is one entry, in one of its two candidate
rows and seated there once; the row loads are the sums of their entries, within the capacity; and a call that fails
leaves the rows as they were. The bounds keep the sums from wrapping and the numbers of rows and entries apart. -/
theorem placement_sound (salts : FixedBytes 32 × FixedBytes 32) (rows capacity : Nat) (batches : List (List (Bytes × Nat)))
    (s : FixedRows) (done : List (Bytes × Nat)) (hcapacity : capacity < 2 ^ 63) (hrows : rows ≤ 2 ^ 32)
    (hkeys : batches.flatten.length ≤ 2 ^ 32)
    (h : insertAll sha256 batches (.new salts rows capacity) [] = some (s, done)) :
    (s.entries.map fun e => (e.candidates, e.size)) =
        done.map (fun item => (candidates sha256 salts item.1 rows, item.2)) ∧
      (∀ e ∈ s.entries, e.row = e.candidates.1 ∨ e.row = e.candidates.2) ∧
      (∀ row < rows, s.usedIn row = (s.entries.map fun e => if e.row = row then e.size else 0).sum ∧
        s.usedIn row ≤ capacity) ∧
      (∀ (i : Nat) (e : Entry), s.entries[i]? = some e → ∀ row, (s.residents row).count i = if e.row = row then 1 else 0) ∧
      ∀ batch index s', done.length + batch.length ≤ 2 ^ 32 → s.insertCall sha256 batch = some (.error index, s') →
        s' = s := by
  have hs := (new_holds sha256 salts rows hcapacity).insertAll hrows (by simpa using hkeys) h
  refine ⟨hs.shape, fun e he => (hs.sound.wellPlaced e he).placed, fun row hrow => ⟨hs.sound.used row hrow, ?_⟩,
    fun i e he row => hs.sound.count_residents hs.seated he row, fun batch index s' hbatch hcall => ?_⟩
  · exact hs.sized ▸ hs.sound.within row hrow
  · exact (hs.insertCall hrows hbatch hcall).2 fun hok => by cases hok

/-- A hash under which the two low bits of a key's last byte are its two candidate rows out of two. -/
def lastBits (bytes : Bytes) : FixedBytes 32 :=
  let last := bytes.getLast?.getD 0
  ⟨(if bytes.head? = some 0 then last &&& 1 else last >>> 1 &&& 1) :: List.replicate 31 0, rfl⟩

/-- Two rows of three bytes. The second key has only the row that the first took, which moves over; a third key for the
same row fails its batch, which is undone, the move included, before the second key comes again. -/
theorem placement_sound_relocating : ∃ s,
    insertAll lastBits [[([2], 2)], [([0], 2), ([4], 2)], [([0], 2)]] (.new (.zero 32, ⟨List.replicate 32 1, rfl⟩) 2 3) [] =
      some (s, [([2], 2), ([0], 2)]) ∧
      s.assignment = [1, 0] ∧ (s.entries.map fun e => (e.candidates, e.size)) = [((0, 1), 2), ((0, 0), 2)] :=
  ⟨_, rfl, rfl, (placement_sound lastBits (.zero 32, ⟨List.replicate 32 1, rfl⟩) 2 3
    [[([2], 2)], [([0], 2), ([4], 2)], [([0], 2)]] _ _ (by decide) (by decide) (by decide) rfl).1⟩

/-! ## Past the bounds -/

theorem usedIn_new (salts : FixedBytes 32 × FixedBytes 32) (rows capacity row : Nat) :
    (FixedRows.new salts rows capacity).usedIn row = 0 := by
  rw [usedIn, FixedRows.new, getElem?_replicate]
  split_ifs <;> rfl

section Bounds

variable {sha256} {salts : FixedBytes 32 × FixedBytes 32} {key : Bytes}

/-- The entry of a key in new rows: its row is the cast of its first candidate. -/
def firstEntry (sha256 : Bytes → FixedBytes 32) (salts : FixedBytes 32 × FixedBytes 32) (key : Bytes)
    (rows : Nat) : Entry :=
  let drawn := candidates sha256 salts key rows
  ⟨(asU32 drawn.1, asU32 drawn.2), 1, asU32 drawn.1⟩

theorem insertAll_single {rows : Nat} (hrows : 0 < rows) :
    insertAll sha256 [[(key, 1)]] (.new salts rows 1) [] =
      some ((FixedRows.new salts rows 1).push (firstEntry sha256 salts key rows), [(key, 1)]) := by
  have hlength : (FixedRows.new salts rows 1).used.length = rows := length_replicate
  have hinsert : (FixedRows.new salts rows 1).insert sha256 [(key, 1)] =
      (.ok (), (FixedRows.new salts rows 1).push (firstEntry sha256 salts key rows)) := by
    simp only [FixedRows.insert, insertLoop, findRow, usedIn_new, hlength]
    rfl
  rw [insertAll, insertCall, if_neg (by omega), hinsert]
  rfl

/-- The numbers of keys that all go to one row. -/
theorem insertLoop_replicate {n used first index : Nat} {moves : List Move} {occupants : List Nat} {s : FixedRows}
    (hused : s.used = [used]) (hoccupants : s.occupants = [occupants]) (hroom : used + n ≤ s.capacity)
    (hcapacity : s.capacity < 2 ^ 63) :
    ∃ s', insertLoop sha256 first index moves (List.replicate n (key, 1)) s = (.ok (), s') ∧
      s'.residents 0 = occupants ++ (List.range' s.entries.length n).map asU32 := by
  induction n generalizing s used index occupants with
  | zero => exact ⟨s, rfl, by simp [residents, hoccupants]⟩
  | succ n ih =>
    have hadd : addSize used 1 = used + 1 := addSize_eq (by omega)
    have hcandidates : candidates sha256 s.salts key 1 = (0, 0) := by simp [candidates, bucketFor, Nat.mod_one]
    have hfound : s.findRow moves (0, 0) 1 = some (0, s, moves) := by
      have hfits : used + 1 ≤ s.capacity := by omega
      simp [findRow, usedIn, hused, hadd, hfits]
    have hused' : (s.push ⟨(0, 0), 1, 0⟩).used = [used + 1] := by simp [push, hused, hadd]
    have hoccupants' : (s.push ⟨(0, 0), 1, 0⟩).occupants = [occupants ++ [asU32 s.entries.length]] := by
      simp [push, hoccupants]
    have hroom' : used + 1 + n ≤ s.capacity := by omega
    obtain ⟨s', hs', hresidents⟩ := ih hused' hoccupants' hroom' hcapacity
    refine ⟨s', ?_, ?_⟩
    · rw [replicate_succ, insertLoop, hused]
      simp only [length_singleton, hcandidates, asU32, Nat.zero_mod, hfound]
      exact hs'
    · rw [hresidents, range'_succ]
      simp [push]

theorem insertAll_replicate {n capacity : Nat} (hroom : n ≤ capacity) (hcapacity : capacity < 2 ^ 63) :
    ∃ s, insertAll sha256 [List.replicate n (key, 1)] (.new salts 1 capacity) [] =
        some (s, List.replicate n (key, 1)) ∧ s.residents 0 = (List.range' 0 n).map asU32 := by
  have hstart : 0 + n ≤ (FixedRows.new salts 1 capacity).capacity := (Nat.zero_add n).trans_le hroom
  obtain ⟨s, hloop, hresidents⟩ : ∃ s, insertLoop sha256 0 0 [] (List.replicate n (key, 1)) (.new salts 1 capacity) =
      (.ok (), s) ∧ s.residents 0 = [] ++ (List.range' 0 n).map asU32 :=
    insertLoop_replicate rfl rfl hstart hcapacity
  refine ⟨s, ?_, hresidents⟩
  have hchecked : (List.replicate n (key, 1)).findIdx? (fun item => item.2 = 0 ∨ capacity < item.2) = none := by
    refine findIdx?_eq_none_iff.mpr fun item hitem => ?_
    obtain ⟨hn, rfl⟩ := mem_replicate.mp hitem
    rw [decide_eq_false_iff_not]
    omega
  have hinsert : (FixedRows.new salts 1 capacity).insert sha256 (List.replicate n (key, 1)) = (.ok (), s) := by
    rw [FixedRows.insert, FixedRows.new, hchecked]
    exact hloop
  rw [insertAll, insertCall, if_neg (fun hnone => absurd hnone.1 (by simp [FixedRows.new])), hinsert]
  rfl

/-- A hash that is `2 ^ 32` as a word. -/
def fifthByte (_ : Bytes) : FixedBytes 32 := ⟨0 :: 0 :: 0 :: 0 :: 1 :: List.replicate 27 0, rfl⟩

/-- Each of the three bounds is the last one that works. Two keys of `2 ^ 63` bytes in a row of that capacity wrap
its load to nothing. With one row more than `2 ^ 32`, a key whose candidates are both the last row goes to the first.
With one key more than `2 ^ 32`, a row holds two entries under one number. -/
theorem placement_wraps :
    (∃ s, insertAll (fun _ => .zero 32) [[([], 2 ^ 63)], [([1], 2 ^ 63)]] (.new (.zero 32, .zero 32) 1 (2 ^ 63)) [] =
        some (s, [([], 2 ^ 63), ([1], 2 ^ 63)]) ∧
      s.usedIn 0 = 0 ∧ (s.entries.map fun e => if e.row = 0 then e.size else 0).sum = 2 ^ 64) ∧
    (∃ s, insertAll fifthByte [[([], 1)]] (.new (.zero 32, .zero 32) (2 ^ 32 + 1) 1) [] = some (s, [([], 1)]) ∧
      s.assignment = [0] ∧ candidates fifthByte (.zero 32, .zero 32) [] (2 ^ 32 + 1) = (2 ^ 32, 2 ^ 32)) ∧
    ∃ s, insertAll (fun _ => .zero 32) [List.replicate (2 ^ 32 + 1) ([], 1)] (.new (.zero 32, .zero 32) 1 (2 ^ 33)) [] =
        some (s, List.replicate (2 ^ 32 + 1) ([], 1)) ∧
      2 ≤ (s.residents 0).count 0 := by
  refine ⟨⟨_, rfl, rfl, rfl⟩, ⟨_, insertAll_single (by decide), rfl, by decide⟩, ?_⟩
  obtain ⟨s, hs, hresidents⟩ : ∃ s, insertAll (fun _ => .zero 32) [List.replicate (2 ^ 32 + 1) ([], 1)]
      (.new (.zero 32, .zero 32) 1 (2 ^ 33)) [] = some (s, List.replicate (2 ^ 32 + 1) ([], 1)) ∧
      s.residents 0 = (List.range' 0 (2 ^ 32 + 1)).map asU32 :=
    insertAll_replicate (by decide) (by decide)
  refine ⟨s, hs, ?_⟩
  have htwice (n m : Nat) (hn : n = m + 2) (hm : asU32 (m + 1) = 0) : 2 ≤ ((List.range' 0 n).map asU32).count 0 := by
    rw [hn, range'_succ, range'_1_concat, Nat.add_comm (0 + 1) m, map_cons, map_append,
      map_singleton, hm, show asU32 0 = 0 from rfl, count_cons_self, count_append]
    exact Nat.succ_le_succ (Nat.le_add_left 1 _)
  rw [hresidents]
  exact htwice (2 ^ 32 + 1) (2 ^ 32 - 1) (by decide) (by decide)

end Bounds

/-! ## Choice tables -/

/-- A table that is built answers every key it was built over, before and after its encoding; the decoder accepts only
encodings; and no lookup in a table that is built or decoded reads outside the bits. -/
theorem choice_tables_answer :
    (∀ (domain context : Bytes) (seeds : List UInt32) (entries : List (Bytes × Bool)) (table : ChoiceTable),
      build sha256 domain context seeds entries = .ok table →
        (∀ entry ∈ entries, table.choice sha256 domain context entry.1 = entry.2.toNat) ∧
        (∀ policy : SeedPolicy, policy.Accepts table.seed → decode table.encode policy = .ok table) ∧
        ∀ key, ∀ i ∈ positions sha256 domain context table.seed table.segment key, i / 8 < table.bits.length) ∧
    ∀ (bytes : Bytes) (policy : SeedPolicy) (table : ChoiceTable), decode bytes policy = .ok table →
      table.encode = bytes ∧
      ∀ domain context key, ∀ i ∈ positions sha256 domain context table.seed table.segment key,
        i / 8 < table.bits.length := by
  refine ⟨fun domain context seeds entries table h => ?_, fun bytes policy table h => ?_⟩
  · obtain ⟨hkeys, -, hbuilt⟩ := builtFor_of_build h
    refine ⟨hbuilt.choice, fun policy haccepts => hbuilt.decode_encode hkeys haccepts, fun key => ?_⟩
    exact positions_in_bits sha256 domain context key (hbuilt.keys ▸ hbuilt.segment) hbuilt.length
  · obtain ⟨hlength, -, htable, hsegment⟩ := decode_ok h
    refine ⟨encode_of_decode h, fun domain context key => positions_in_bits sha256 domain context key hsegment ?_⟩
    have hbits : table.bits = bytes.drop choiceHeaderBytes := congrArg ChoiceTable.bits htable
    rw [hbits, length_drop, hlength, Nat.add_sub_cancel_left]

end Zakura.Directory
