import Mathlib.Data.List.InsertIdx
import Zakura.Directory.FixedRows
import Zakura.Lib.Except

/-! # Placement keeps every entry in a candidate row, within capacity

A batch that fits extends the rows; one that does not leaves them as they were. -/

namespace Zakura.Directory

open List

/-! ## Changing one element of a list -/

section

variable {α : Type}

variable {xs : List α} {i : Nat}

theorem getD_modify (h : i < xs.length) (f : α → α) (j : Nat) (d : α) :
    (xs.modify i f)[j]?.getD d = if i = j then f (xs[j]?.getD d) else xs[j]?.getD d := by
  rw [getElem?_modify]
  by_cases heq : i = j
  · subst heq
    simp [h]
  · simp [heq]

variable {f : α → α}

theorem modify_eq_self (h : ∀ a, xs[i]? = some a → f a = a) : xs.modify i f = xs := by
  refine ext_getElem? fun j => ?_
  rw [getElem?_modify]
  by_cases heq : i = j
  · subst heq
    cases hget : xs[i]? with
    | none => rfl
    | some a => simp [h a hget]
  · simp [heq]

theorem modify_modify_cancel {g : α → α} (h : ∀ a, xs[i]? = some a → g (f a) = a) :
    (xs.modify i f).modify i g = xs := by
  rw [modify_modify_eq]
  exact modify_eq_self h

theorem sum_map_modify (f : α → Nat) (g : α → α) {a : α} (h : xs[i]? = some a) :
    ((xs.modify i g).map f).sum + f a = (xs.map f).sum + f (g a) := by
  induction xs generalizing i with
  | nil => simp at h
  | cons x xs ih =>
    cases i with
    | zero =>
      obtain rfl : x = a := by simpa using h
      simp
      omega
    | succ i =>
      have htail := ih (i := i) (by simpa using h)
      simp only [modify_succ_cons, map_cons, sum_cons]
      omega

end

/-! ## Words that do not wrap -/

theorem addSize_eq {a b : Nat} (h : a + b < 2 ^ 64) : addSize a b = a + b := Nat.mod_eq_of_lt h

theorem subSize_eq {a b : Nat} (hle : b ≤ a) (ha : a < 2 ^ 64) : subSize a b = a - b := by
  unfold subSize
  omega

theorem asU32_eq {n : Nat} (h : n < 2 ^ 32) : asU32 n = n := Nat.mod_eq_of_lt h

theorem subSize_addSize {n size : Nat} (hn : n < 2 ^ 64) (hsize : size < 2 ^ 64) :
    subSize (addSize n size) size = n := by
  unfold subSize addSize
  omega

theorem addSize_subSize {n size : Nat} (hn : n < 2 ^ 64) (hsize : size < 2 ^ 64) :
    addSize (subSize n size) size = n := by
  unfold subSize addSize
  omega

/-! ## Invariant -/

/-- An entry that has bytes and lies in one of its candidate rows. -/
structure Entry.WellPlaced (rows : Nat) (e : Entry) : Prop where
  placed : e.row = e.candidates.1 ∨ e.row = e.candidates.2
  inRange : e.candidates.1 < rows ∧ e.candidates.2 < rows
  positive : 0 < e.size

theorem Entry.WellPlaced.row_lt {e : Entry} {rows : Nat} (h : e.WellPlaced rows) : e.row < rows := by
  rcases h.placed with hrow | hrow
  · exact hrow ▸ h.inRange.1
  · exact hrow ▸ h.inRange.2

namespace FixedRows

variable {sha256 : Bytes → FixedBytes 32} {s : FixedRows} {rows : Nat}

def bytesIn (s : FixedRows) (row : Nat) : Nat := (s.entries.map fun e => if e.row = row then e.size else 0).sum

def shape (s : FixedRows) : List ((Nat × Nat) × Nat) := s.entries.map fun e => (e.candidates, e.size)

structure Sound (s : FixedRows) (rows : Nat) : Prop where
  occupants_length : s.occupants.length = rows
  used_length : s.used.length = rows
  nodup : ∀ row, (s.residents row).Nodup
  resident : ∀ row, ∀ i ∈ s.residents row, ∃ e, s.entries[i]? = some e ∧ e.row = row
  used : ∀ row < rows, s.usedIn row = s.bytesIn row
  within : ∀ row < rows, s.usedIn row ≤ s.capacity
  wellPlaced : ∀ e ∈ s.entries, e.WellPlaced rows
  fits : s.capacity < 2 ^ 63

theorem new_sound (salts : FixedBytes 32 × FixedBytes 32) (rows : Nat) {capacity : Nat} (hcapacity : capacity < 2 ^ 63) :
    Sound (new salts rows capacity) rows where
  occupants_length := length_replicate
  used_length := length_replicate
  nodup := by
    intro row
    rw [residents, new, getElem?_replicate]
    split_ifs <;> exact nodup_nil
  resident := by
    intro row i hi
    rw [residents, new, getElem?_replicate] at hi
    split_ifs at hi <;> simp at hi
  used := by
    intro row hrow
    simp [usedIn, bytesIn, new, hrow]
  within := by
    intro row hrow
    simp [usedIn, new, hrow]
  wellPlaced := by simp [new]
  fits := hcapacity

variable {row : Nat}

theorem Sound.entry (h : Sound s rows) {i : Nat} (hrow : row < rows) (hi : i ∈ s.residents row) :
    ∃ e, s.entries[i]? = some e ∧ e.row = row ∧ s.sizeOf i = e.size ∧ e.size ≤ s.usedIn row := by
  obtain ⟨e, he, hrow_eq⟩ := h.resident row i hi
  refine ⟨e, he, hrow_eq, by simp [sizeOf, he], ?_⟩
  rw [h.used row hrow]
  refine single_le_sum (by simp) _ (mem_map.mpr ⟨e, List.mem_of_getElem? he, ?_⟩)
  rw [if_pos hrow_eq]

theorem Sound.used_le (h : Sound s rows) {n : Nat} (hn : s.used[row]? = some n) : n ≤ s.capacity := by
  have hrow : row < rows := h.used_length ▸ (List.getElem?_eq_some_iff.mp hn).1
  have hwithin := h.within row hrow
  rwa [usedIn, hn] at hwithin

/-- Every entry is a resident of its row. -/
def Seated (s : FixedRows) : Prop := ∀ (i : Nat) (e : Entry), s.entries[i]? = some e → i ∈ s.residents e.row

/-- A number is in one row once, if at all. -/
theorem Sound.count_residents (h : Sound s rows) (hseated : s.Seated) {i : Nat} {e : Entry} (he : s.entries[i]? = some e)
    (row : Nat) : (s.residents row).count i = if e.row = row then 1 else 0 := by
  split_ifs with hrow
  · exact count_eq_one_of_mem (h.nodup row) (hrow ▸ hseated i e he)
  · refine count_eq_zero.mpr fun hmem => hrow ?_
    obtain ⟨e', he', rfl⟩ := h.resident row i hmem
    rw [Option.some_inj.mp (he.symm.trans he')]

/-! ## Adding an entry -/

section Push

variable {entry : Entry}

theorem usedIn_push (h : Sound s rows) (hrow : entry.row < rows)
    (hroom : s.usedIn entry.row + entry.size ≤ s.capacity) (row : Nat) :
    (s.push entry).usedIn row = if entry.row = row then s.usedIn row + entry.size else s.usedIn row := by
  have hfits := h.fits
  refine (getD_modify (by rwa [h.used_length]) ..).trans ?_
  split_ifs with hsame
  · subst hsame
    exact addSize_eq (a := s.usedIn entry.row) (by omega)
  · rfl

theorem residents_push (h : Sound s rows) (hrow : entry.row < rows) (hnumber : s.entries.length < 2 ^ 32) (row : Nat) :
    (s.push entry).residents row =
      if entry.row = row then s.residents row ++ [s.entries.length] else s.residents row := by
  refine (getD_modify (by rwa [h.occupants_length]) ..).trans ?_
  rw [asU32_eq hnumber]
  rfl

theorem bytesIn_push (s : FixedRows) (entry : Entry) (row : Nat) :
    (s.push entry).bytesIn row = s.bytesIn row + if entry.row = row then entry.size else 0 := by
  simp [bytesIn, push]

theorem shape_push (s : FixedRows) (entry : Entry) :
    (s.push entry).shape = s.shape ++ [(entry.candidates, entry.size)] := by
  simp [shape, push]

theorem Sound.push (h : Sound s rows) (hentry : entry.WellPlaced rows)
    (hroom : s.usedIn entry.row + entry.size ≤ s.capacity) (hnumber : s.entries.length < 2 ^ 32) :
    Sound (s.push entry) rows := by
  have hrow := hentry.row_lt
  have hold : ∀ row, ∀ i ∈ s.residents row, ∃ e, (s.entries ++ [entry])[i]? = some e ∧ e.row = row := by
    intro row i hi
    obtain ⟨e, he, heq⟩ := h.resident row i hi
    exact ⟨e, getElem?_append_left (List.getElem?_eq_some_iff.mp he).1 ▸ he, heq⟩
  refine ⟨?_, ?_, fun row => ?_, fun row i hi => ?_, fun row hlt => ?_, fun row hlt => ?_, fun e' he' => ?_, h.fits⟩
  · exact (length_modify ..).trans h.occupants_length
  · exact (length_modify ..).trans h.used_length
  · rw [residents_push h hrow hnumber]
    split_ifs
    · refine nodup_append.mpr ⟨h.nodup row, nodup_singleton _, fun i hi j hj heq => ?_⟩
      obtain ⟨e, he, _⟩ := h.resident row i hi
      rw [heq, mem_singleton.mp hj, getElem?_eq_none (Nat.le_refl _)] at he
      cases he
    · exact h.nodup row
  · rw [residents_push h hrow hnumber] at hi
    split_ifs at hi with hsame
    · rcases mem_append.mp hi with hi | hi
      · exact hold row i hi
      · rw [mem_singleton.mp hi]
        exact ⟨entry, by simp [FixedRows.push], hsame⟩
    · exact hold row i hi
  · rw [usedIn_push h hrow hroom, bytesIn_push, h.used row hlt]
    split_ifs <;> rfl
  · rw [usedIn_push h hrow hroom]
    split_ifs with hsame
    · exact hsame ▸ hroom
    · exact h.within row hlt
  · rcases mem_append.mp he' with he' | he'
    · exact h.wellPlaced e' he'
    · rwa [mem_singleton.mp he']

theorem Sound.push_seated (h : Sound s rows) (hrow : entry.row < rows) (hnumber : s.entries.length < 2 ^ 32)
    (hseated : s.Seated) : (s.push entry).Seated := by
  intro i e he
  rw [residents_push h hrow hnumber]
  have he' : (s.entries ++ [entry])[i]? = some e := he
  by_cases hi : i < s.entries.length
  · rw [getElem?_append_left hi] at he'
    have hmem := hseated i e he'
    split_ifs
    · exact mem_append_left _ hmem
    · exact hmem
  · rw [getElem?_append_right (Nat.not_lt.mp hi), getElem?_singleton] at he'
    split_ifs at he' with hlast
    cases he'
    rw [if_pos rfl]
    exact mem_append_right _ (mem_singleton.mpr (by omega))

end Push

/-! ## Moving a resident -/

section Move

variable {moved source target : Nat}

structure Movable (s : FixedRows) (rows moved source target : Nat) : Prop where
  source_lt : source < rows
  target_lt : target < rows
  ne : source ≠ target
  resident : moved ∈ s.residents source
  candidate : ∀ e, s.entries[moved]? = some e → target = e.candidates.1 ∨ target = e.candidates.2
  room : s.usedIn target + s.sizeOf moved ≤ s.capacity

variable (h : Sound s rows) (hm : Movable s rows moved source target)

include h hm in
theorem usedIn_move (row : Nat) :
    (s.move moved source target).1.usedIn row =
      if target = row then s.usedIn row + s.sizeOf moved
      else if source = row then s.usedIn row - s.sizeOf moved else s.usedIn row := by
  have hsource : source < s.used.length := h.used_length ▸ hm.source_lt
  have htarget : target < (s.used.modify source (subSize · (s.sizeOf moved))).length := by
    rw [length_modify, h.used_length]
    exact hm.target_lt
  obtain ⟨e, -, -, hsize, hle⟩ := h.entry hm.source_lt hm.resident
  have hfits := h.fits
  have hroom := hm.room
  have hwithin := h.within source hm.source_lt
  refine (getD_modify htarget ..).trans ?_
  rw [getD_modify hsource]
  split_ifs with heq hsame
  · exact absurd (hsame.trans heq.symm) hm.ne
  · subst heq
    exact addSize_eq (a := s.usedIn target) (by omega)
  · rename_i hsame
    subst hsame
    exact subSize_eq (a := s.usedIn source) (by omega) (by omega)
  · rfl

include h hm in
theorem residents_move (row : Nat) :
    (s.move moved source target).1.residents row =
      if target = row then s.residents row ++ [moved]
      else if source = row then (s.residents row).erase moved else s.residents row := by
  have hsource : source < s.occupants.length := h.occupants_length ▸ hm.source_lt
  have htarget : target < (s.occupants.modify source (·.eraseIdx ((s.residents source).idxOf moved))).length := by
    rw [length_modify, h.occupants_length]
    exact hm.target_lt
  refine (getD_modify htarget ..).trans ?_
  rw [getD_modify hsource]
  split_ifs with heq hsame hsame
  · exact absurd (hsame.trans heq.symm) hm.ne
  · rfl
  · subst hsame
    exact eraseIdx_idxOf_eq_erase ..
  · rfl

theorem entries_move_of_ne (s : FixedRows) {i : Nat} (hne : i ≠ moved) :
    (s.move moved source target).1.entries[i]? = s.entries[i]? := by
  have hne' : moved ≠ i := fun heq => hne heq.symm
  simp [move, hne']

variable {e : Entry}

theorem entries_move_self (s : FixedRows) (he : s.entries[moved]? = some e) :
    (s.move moved source target).1.entries[moved]? = some { e with row := target } := by
  simp [move, he]

theorem shape_move (s : FixedRows) (moved source target : Nat) : (s.move moved source target).1.shape = s.shape := by
  refine ext_getElem? fun i => ?_
  by_cases heq : moved = i
  · simp [shape, move, heq, Function.comp_def]
  · simp [shape, move, heq]

theorem mem_entries_move (he : e ∈ (s.move moved source target).1.entries) :
    ∃ i old, s.entries[i]? = some old ∧ e = if i = moved then { old with row := target } else old := by
  obtain ⟨i, hi⟩ := mem_iff_getElem?.mp he
  cases hold : s.entries[i]? with
  | none =>
    have hnone : (s.move moved source target).1.entries[i]? = none := by
      simpa [move] using List.getElem?_eq_none_iff.mp hold
    rw [hnone] at hi
    cases hi
  | some old =>
    refine ⟨i, old, hold, ?_⟩
    split_ifs with heq
    · subst heq
      rw [entries_move_self s hold] at hi
      exact (Option.some.inj hi).symm
    · rw [entries_move_of_ne s heq, hold] at hi
      exact (Option.some.inj hi).symm

include h hm in
theorem bytesIn_move (row : Nat) :
    (s.move moved source target).1.bytesIn row =
      if target = row then s.bytesIn row + s.sizeOf moved
      else if source = row then s.bytesIn row - s.sizeOf moved else s.bytesIn row := by
  obtain ⟨e, he, hrow, hsize, _⟩ := h.entry hm.source_lt hm.resident
  have hsum := sum_map_modify (fun e => if e.row = row then e.size else 0)
    (fun entry : Entry => { entry with row := target }) he
  rw [hsize]
  change ((s.entries.modify moved fun entry => { entry with row := target }).map _).sum = _
  unfold bytesIn
  rw [hrow] at hsum
  have hne := hm.ne
  split_ifs at hsum ⊢ with h1 h2
  · omega
  all_goals omega

include h hm in
theorem Sound.move : Sound (s.move moved source target).1 rows := by
  obtain ⟨e, he, hrow, hsize, hle⟩ := h.entry hm.source_lt hm.resident
  -- The resident of any other row is not the one that moves.
  have hother : ∀ row, source ≠ row → ∀ i ∈ s.residents row, i ≠ moved := by
    intro row hne i hi heq
    obtain ⟨e', he', hrow'⟩ := h.resident row i hi
    rw [heq, he, Option.some.injEq] at he'
    exact hne (hrow.symm.trans (he' ▸ hrow'))
  refine ⟨?_, ?_, fun row => ?_, fun row i hi => ?_, fun row hlt => ?_, fun row hlt => ?_, fun e' he' => ?_, h.fits⟩
  · simp only [FixedRows.move, length_modify, h.occupants_length]
  · simp only [FixedRows.move, length_modify, h.used_length]
  · rw [residents_move h hm]
    split_ifs with htarget hsource
    · refine nodup_append.mpr ⟨h.nodup row, nodup_singleton _, fun i hi j hj heq => ?_⟩
      exact hother row (fun hs => hm.ne (hs.trans htarget.symm)) i hi (heq.trans (mem_singleton.mp hj))
    · exact (h.nodup row).erase moved
    · exact h.nodup row
  · rw [residents_move h hm] at hi
    split_ifs at hi with htarget hsource
    · rcases mem_append.mp hi with hi | hi
      · rw [entries_move_of_ne s (hother row (fun hs => hm.ne (hs.trans htarget.symm)) i hi)]
        exact h.resident row i hi
      · rw [mem_singleton.mp hi]
        exact ⟨_, entries_move_self s he, htarget⟩
    · rw [entries_move_of_ne s (List.Nodup.mem_erase_iff (h.nodup row) |>.mp hi).1]
      exact h.resident row i (mem_of_mem_erase hi)
    · rw [entries_move_of_ne s (hother row hsource i hi)]
      exact h.resident row i hi
  · rw [usedIn_move h hm, bytesIn_move h hm, h.used row hlt]
  · rw [usedIn_move h hm]
    have hwithin := h.within row hlt
    split_ifs with htarget hsource
    · exact htarget ▸ hm.room
    · exact Nat.le_trans (Nat.sub_le ..) hwithin
    · exact hwithin
  · obtain ⟨i, old, hold, rfl⟩ := mem_entries_move he'
    have hplaced := h.wellPlaced old (List.mem_of_getElem? hold)
    split_ifs with heq
    · exact ⟨hm.candidate old (heq ▸ hold), hplaced.inRange, hplaced.positive⟩
    · exact hplaced

include h hm in
theorem Sound.move_seated (hseated : s.Seated) : (s.move moved source target).1.Seated := by
  intro i e he
  rw [residents_move h hm]
  by_cases hi : i = moved
  · subst hi
    obtain ⟨old, hold, -⟩ := h.resident source i hm.resident
    rw [entries_move_self s hold] at he
    cases he
    rw [if_pos rfl]
    exact mem_append_right _ (mem_singleton_self i)
  · rw [entries_move_of_ne s hi] at he
    have hmem := hseated i e he
    split_ifs
    · exact mem_append_left _ hmem
    · exact (mem_erase_of_ne hi).mpr hmem
    · exact hmem

end Move

/-! ## Relocation paths -/

/-- Every step of the path gives up a resident that may live in the child's row, and frees what the step
before it needs. -/
def Valid (s : FixedRows) (rows : Nat) : Node → Prop
  | .root row need => row < rows ∧ need ≤ s.capacity
  | .child row need parent moved =>
    Valid s rows parent ∧ row < rows ∧ row ∉ parent.rows ∧ moved ∈ s.residents parent.row ∧
      s.sizeOf moved = need ∧ (∀ e, s.entries[moved]? = some e → row = e.candidates.1 ∨ row = e.candidates.2) ∧
      s.usedIn parent.row - need + parent.need ≤ s.capacity

variable {node : Node}

theorem Valid.row_lt (h : Valid s rows node) : node.row < rows := by
  cases node with
  | root row need => exact h.1
  | child row need parent moved => exact h.2.1

theorem Valid.need_le (hsound : Sound s rows) (h : Valid s rows node) : node.need ≤ s.capacity := by
  cases node with
  | root row need => exact h.2
  | child row need parent moved =>
    obtain ⟨hparent, -, -, hmoved, hsize, -⟩ := h
    obtain ⟨e, -, -, hentry, hle⟩ := hsound.entry hparent.row_lt hmoved
    have hwithin := hsound.within parent.row hparent.row_lt
    change need ≤ s.capacity
    omega

variable {s' : FixedRows}

theorem Valid.frame (h : Valid s rows node) (hcapacity : s'.capacity = s.capacity)
    (hused : ∀ row ∈ node.rows.tail, s'.usedIn row = s.usedIn row)
    (hresidents : ∀ row ∈ node.rows.tail, s'.residents row = s.residents row)
    (hentries : ∀ row ∈ node.rows.tail, ∀ i ∈ s.residents row, s'.entries[i]? = s.entries[i]?) :
    Valid s' rows node := by
  induction node with
  | root row need => exact ⟨h.1, hcapacity ▸ h.2⟩
  | child row need parent moved ih =>
    obtain ⟨hparent, hlt, hnew, hmoved, hsize, hcandidate, hfrees⟩ := h
    have hself : parent.row ∈ parent.rows := by cases parent <;> exact mem_cons_self
    have htail : ∀ r ∈ parent.rows.tail, r ∈ parent.rows := fun r hr => mem_of_mem_tail hr
    have hentry := hentries parent.row hself moved hmoved
    refine ⟨ih hparent (fun r hr => hused r (htail r hr)) (fun r hr => hresidents r (htail r hr))
      fun r hr => hentries r (htail r hr), hlt, hnew, ?_, ?_, ?_, ?_⟩
    · rw [hresidents parent.row hself]
      exact hmoved
    · rw [sizeOf, hentry]
      exact hsize
    · rw [hentry]
      exact hcandidate
    · rw [hused parent.row hself, hcapacity]
      exact hfrees

/-! ## Undoing -/

theorem pop_push (h : Sound s rows) {entry : Entry} (hsize : entry.size ≤ s.capacity) : (s.push entry).pop = s := by
  have hfits := h.fits
  have hoccupants : (s.occupants.modify entry.row (· ++ [asU32 s.entries.length])).modify entry.row List.dropLast =
      s.occupants := modify_modify_cancel fun xs _ => dropLast_concat
  have hused : (s.used.modify entry.row (addSize · entry.size)).modify entry.row (subSize · entry.size) = s.used := by
    refine modify_modify_cancel fun n hn => subSize_addSize ?_ (by omega)
    have hle := h.used_le hn
    omega
  simp only [pop, push, getLast?_append, getLast?_singleton, Option.some_or, dropLast_concat,
    hoccupants, hused]

theorem truncate_push (h : Sound s rows) {entry : Entry} (hsize : entry.size ≤ s.capacity) {len : Nat}
    (hlen : len ≤ s.entries.length) : (s.push entry).truncate len = s.truncate len := by
  have hlength : (s.push entry).entries.length - len = (s.entries.length - len) + 1 := by
    rw [push, length_append, length_singleton]
    omega
  rw [truncate, hlength, popMany, pop_push h hsize, truncate]

theorem truncate_length (s : FixedRows) : s.truncate s.entries.length = s := by
  rw [truncate, Nat.sub_self, popMany]

theorem undo_append (s : FixedRows) (first : Nat) (moves : List Move) (m : Move) :
    s.undo first (moves ++ [m]) = ((s.truncate m.placed).revert m).undo first moves := by
  rw [undo, foldr_append, foldr_cons, foldr_nil, undo]

variable {first : Nat} {moves : List Move}

theorem undo_push (h : Sound s rows) {entry : Entry} (hsize : entry.size ≤ s.capacity)
    (hfirst : first ≤ s.entries.length) (hmoves : ∀ m ∈ moves, m.placed ≤ s.entries.length) :
    (s.push entry).undo first moves = s.undo first moves := by
  rcases eq_nil_or_concat moves with rfl | ⟨moves, m, rfl⟩
  · exact truncate_push h hsize hfirst
  · rw [concat_eq_append] at hmoves ⊢
    rw [undo_append, undo_append, truncate_push h hsize (hmoves m (by simp))]

variable {moved source target : Nat} (h : Sound s rows) (hm : Movable s rows moved source target)
  (hnumber : s.entries.length < 2 ^ 32)

include h hm in
theorem revert_move : (s.move moved source target).1.revert (s.move moved source target).2 = s := by
  obtain ⟨e, he, hrow, hsize, hle⟩ := h.entry hm.source_lt hm.resident
  have hentries : ((s.entries.modify moved fun entry => { entry with row := target }).modify moved
      fun entry => { entry with row := source }) = s.entries := by
    refine modify_modify_cancel fun a ha => ?_
    rw [he, Option.some.injEq] at ha
    subst ha
    rw [← hrow]
  have hfits := h.fits
  have hwithin := h.within source hm.source_lt
  have hused : (((s.used.modify source (subSize · e.size)).modify target (addSize · e.size)).modify target
      (subSize · e.size)).modify source (addSize · e.size) = s.used := by
    have hcancel : ((s.used.modify source (subSize · e.size)).modify target (addSize · e.size)).modify target
        (subSize · e.size) = s.used.modify source (subSize · e.size) := by
      refine modify_modify_cancel fun n hn => subSize_addSize ?_ (by omega)
      rw [getElem?_modify_ne _ _ hm.ne] at hn
      have hle := h.used_le hn
      omega
    rw [hcancel]
    refine modify_modify_cancel fun n hn => addSize_subSize ?_ (by omega)
    have hle := h.used_le hn
    omega
  have hoccupants : (((s.occupants.modify source (·.eraseIdx ((s.residents source).idxOf moved))).modify target
      (· ++ [moved])).modify target List.dropLast).modify source
      (·.insertIdx ((s.residents source).idxOf moved) moved) = s.occupants := by
    have hcancel : ∀ xs : List (List Nat), (xs.modify target (· ++ [moved])).modify target List.dropLast = xs :=
      fun xs => modify_modify_cancel fun _ _ => dropLast_concat
    rw [hcancel]
    refine modify_modify_cancel fun xs hxs => ?_
    have hresidents : s.residents source = xs := by rw [residents, hxs, Option.getD_some]
    have hin : xs.idxOf moved < xs.length := idxOf_lt_length_of_mem (hresidents ▸ hm.resident)
    have hback := insertIdx_eraseIdx_getElem hin
    rw [getElem_idxOf] at hback
    rw [hresidents]
    exact hback
  have htarget : (s.entries.modify moved fun entry => { entry with row := target })[moved]? =
      some { e with row := target } := by simp [he]
  simp only [revert, move, sizeOf, he, htarget, Option.map_some, Option.getD_some, hoccupants, hused, hentries]

include h hm hnumber in
theorem undo_move (first : Nat) (moves : List Move) :
    (s.move moved source target).1.undo first (moves ++ [(s.move moved source target).2]) = s.undo first moves := by
  have hplaced : (s.move moved source target).2.placed = (s.move moved source target).1.entries.length := by
    simp only [move, length_modify, asU32_eq hnumber]
  rw [undo_append, hplaced, truncate_length, revert_move h hm]

/-! ## What relocation changes -/

/-- Relocation keeps the entries' shape and records what undoes it. -/
structure Relocated (s : FixedRows) (moves : List Move) (s' : FixedRows) (moves' : List Move) : Prop where
  salts : s'.salts = s.salts
  capacity : s'.capacity = s.capacity
  shape : s'.shape = s.shape
  undo : ∀ first, s'.undo first moves' = s.undo first moves
  placed : (∀ m ∈ moves, m.placed ≤ s.entries.length) → ∀ m ∈ moves', m.placed ≤ s'.entries.length

theorem Relocated.refl (s : FixedRows) (moves : List Move) : Relocated s moves s moves :=
  ⟨rfl, rfl, rfl, fun _ => rfl, fun h => h⟩

theorem Relocated.trans {s₁ s₂ s₃ : FixedRows} {m₁ m₂ m₃ : List Move} (h : Relocated s₁ m₁ s₂ m₂)
    (h' : Relocated s₂ m₂ s₃ m₃) : Relocated s₁ m₁ s₃ m₃ where
  salts := h'.salts.trans h.salts
  capacity := h'.capacity.trans h.capacity
  shape := h'.shape.trans h.shape
  undo first := (h'.undo first).trans (h.undo first)
  placed hplaced := h'.placed (h.placed hplaced)

theorem length_shape (s : FixedRows) : s.shape.length = s.entries.length := length_map ..

include h hm hnumber in
theorem Sound.relocated_move (moves : List Move) :
    Relocated s moves (s.move moved source target).1 (moves ++ [(s.move moved source target).2]) where
  salts := rfl
  capacity := rfl
  shape := shape_move ..
  undo first := undo_move h hm hnumber first moves
  placed := by
    intro hplaced m hmem
    have hlength : (s.move moved source target).1.entries.length = s.entries.length := by
      simp only [FixedRows.move, length_modify]
    rw [hlength]
    rcases mem_append.mp hmem with hmem | hmem
    · exact hplaced m hmem
    · rw [mem_singleton.mp hmem]
      exact Nat.mod_le ..

/-- The deepest step of a path is a move, after which the rest of the path is valid and has room. -/
theorem Valid.step {row need moved : Nat} {parent : Node} (h : Sound s rows)
    (hvalid : Valid s rows (.child row need parent moved)) (hroom : s.usedIn row + need ≤ s.capacity) :
    Movable s rows moved parent.row row ∧ Valid (s.move moved parent.row row).1 rows parent ∧
      (s.move moved parent.row row).1.usedIn parent.row + parent.need ≤ (s.move moved parent.row row).1.capacity := by
  obtain ⟨hparent, hlt, hnew, hmoved, hsize, hcandidate, hfrees⟩ := hvalid
  have hself : parent.row ∈ parent.rows := by cases parent <;> exact mem_cons_self
  have hm : Movable s rows moved parent.row row :=
    ⟨hparent.row_lt, hlt, fun heq => hnew (heq ▸ hself), hmoved, hcandidate, by rw [hsize]; exact hroom⟩
  -- No row above the parent takes part in the move.
  have habove : ∀ r ∈ parent.rows.tail, row ≠ r ∧ parent.row ≠ r := by
    intro r hr
    refine ⟨fun heq => hnew (heq ▸ mem_of_mem_tail hr), fun heq => ?_⟩
    cases parent with
    | root => simp [Node.rows] at hr
    | child prow _ grand _ =>
      obtain ⟨_, _, hnew', _⟩ := hparent
      rw [← heq] at hr
      exact hnew' hr
  refine ⟨hm, ?_, ?_⟩
  · refine hparent.frame rfl (fun r hr => ?_) (fun r hr => ?_) fun r hr i hi => ?_
    · rw [usedIn_move h hm, if_neg (habove r hr).1, if_neg (habove r hr).2]
    · rw [residents_move h hm, if_neg (habove r hr).1, if_neg (habove r hr).2]
    · refine entries_move_of_ne s fun heq => (habove r hr).2 ?_
      obtain ⟨e, he, hrow⟩ := h.resident r i hi
      obtain ⟨e', he', hrow'⟩ := h.resident parent.row moved hmoved
      rw [← heq, he, Option.some.injEq] at he'
      rw [← hrow', ← he', hrow]
  · rw [usedIn_move h hm, if_neg (Ne.symm hm.ne), if_pos rfl, hsize]
    exact hfrees

theorem applyPath_spec (h : Sound s rows) (hvalid : Valid s rows node) (hroom : s.usedIn node.row + node.need ≤ s.capacity)
    (hnumber : s.entries.length < 2 ^ 32) (moves : List Move) :
    Sound (s.applyPath moves node).1 rows ∧ Relocated s moves (s.applyPath moves node).1 (s.applyPath moves node).2 ∧
      (s.applyPath moves node).1.usedIn node.top.row + node.top.need ≤ s.capacity ∧
      (s.Seated → (s.applyPath moves node).1.Seated) := by
  induction node generalizing s moves with
  | root row need => exact ⟨h, Relocated.refl s moves, hroom, fun hseated => hseated⟩
  | child row need parent moved ih =>
    obtain ⟨hm, hparent, hroom'⟩ := hvalid.step h hroom
    have hlength : (s.move moved parent.row row).1.entries.length = s.entries.length := by
      simp only [FixedRows.move, length_modify]
    obtain ⟨hsound, hrelocated, htop, hseats⟩ :=
      ih (h.move hm) hparent hroom' (hlength ▸ hnumber) (moves ++ [(s.move moved parent.row row).2])
    exact ⟨hsound, (h.relocated_move hm hnumber moves).trans hrelocated, htop,
      fun hseated => hseats (h.move_seated hm hseated)⟩

/-! ## The search -/

/-- A path of the frontier: valid, and rooted at a candidate that must take the incoming bytes. -/
def Frontier (s : FixedRows) (rows : Nat) (roots : Nat × Nat) (incoming : Nat) (node : Node) : Prop :=
  Valid s rows node ∧ (node.top.row = roots.1 ∨ node.top.row = roots.2) ∧ node.top.need = incoming

section Search

variable {roots : Nat × Nat} {incoming : Nat}

variable {row : Nat}

theorem alternate_eq_some {entry : Entry} {other : Nat} (h : alternate entry row = some other) :
    other = entry.candidates.1 ∨ other = entry.candidates.2 := by
  have hmem := mem_of_find?_eq_some h
  simpa using hmem

variable {nodes : List Node} {seen : List (Nat × Nat)}

theorem expand_frontier (h : Sound s rows) {node : Node} (hnode : Frontier s rows roots incoming node)
    {residents : List Nat}
    (hresidents : ∀ i ∈ residents, i ∈ s.residents node.row) (hnodes : ∀ n ∈ nodes, Frontier s rows roots incoming n) :
    ∀ n ∈ (s.expand node residents (nodes, seen)).1, Frontier s rows roots incoming n := by
  induction residents generalizing nodes seen with
  | nil => exact hnodes
  | cons resident residents ih =>
    obtain ⟨hresident, hrest⟩ := forall_mem_cons.mp hresidents
    rw [expand]
    cases hentry : s.entries[resident]? with
    | none => exact ih hrest hnodes
    | some entry =>
      dsimp only
      obtain ⟨e, he, -, -, hle⟩ := h.entry hnode.1.row_lt hresident
      obtain rfl := Option.some_inj.mp (hentry.symm.trans he)
      have hneed := hnode.1.need_le h
      have hwithin := h.within node.row hnode.1.row_lt
      have hfits := h.fits
      have hleft : addSize (subSize (s.usedIn node.row) entry.size) node.need =
          s.usedIn node.row - entry.size + node.need := by
        rw [subSize_eq hle (by omega), addSize_eq (by omega)]
      rw [hleft]
      by_cases hfull : s.capacity < s.usedIn node.row - entry.size + node.need
      · rw [if_pos hfull]
        exact ih hrest hnodes
      rw [if_neg hfull]
      cases halternate : alternate entry node.row with
      | none => exact ih hrest hnodes
      | some row =>
        have hcandidate := alternate_eq_some halternate
        have hlt : row < rows := by
          obtain ⟨hfst, hsnd⟩ := (h.wellPlaced entry (List.mem_of_getElem? hentry)).inRange
          rcases hcandidate with heq | heq
          · exact heq ▸ hfst
          · exact heq ▸ hsnd
        dsimp only
        split_ifs with hseen
        · exact ih hrest hnodes
        · refine ih hrest fun n hn => ?_
          rcases mem_append.mp hn with hn | hn
          · exact hnodes n hn
          · rw [mem_singleton.mp hn]
            rw [not_or] at hseen
            refine ⟨⟨hnode.1, hlt, hseen.1, hresident, by simp [sizeOf, hentry], fun e he => ?_, Nat.le_of_not_lt hfull⟩,
              hnode.2⟩
            rw [hentry, Option.some.injEq] at he
            exact he ▸ hcandidate
        · exact ih hrest hnodes

variable {found : Node}

theorem search_frontier (h : Sound s rows) {visits cursor : Nat} (hnodes : ∀ n ∈ nodes, Frontier s rows roots incoming n)
    (hfound : s.search visits cursor (nodes, seen) = some found) :
    Frontier s rows roots incoming found ∧ s.usedIn found.row + found.need ≤ s.capacity := by
  induction visits generalizing cursor nodes seen with
  | zero => cases hfound
  | succ visits ih =>
    rw [search] at hfound
    cases hnode : nodes[cursor]? with
    | none =>
      rw [hnode] at hfound
      cases hfound
    | some node =>
      have hmem := hnodes node (List.mem_of_getElem? hnode)
      rw [hnode] at hfound
      dsimp only at hfound
      split_ifs at hfound with hroom
      · obtain rfl := Option.some.inj hfound
        have hneed := hmem.1.need_le h
        have hwithin := h.within node.row hmem.1.row_lt
        have hfits := h.fits
        rw [addSize_eq (by omega)] at hroom
        exact ⟨hmem, hroom⟩
      · exact ih (expand_frontier h hmem (fun i hi => hi) hnodes) hfound

theorem searchFrom_frontier (h : Sound s rows) (hroots : roots.1 < rows ∧ roots.2 < rows) (hsize : incoming ≤ s.capacity)
    (hfound : s.searchFrom roots incoming = some found) :
    Frontier s rows roots incoming found ∧ s.usedIn found.row + found.need ≤ s.capacity := by
  refine search_frontier h (fun n hn => ?_) hfound
  have hn' : n = .root roots.1 incoming ∨ n = .root roots.2 incoming := by
    split_ifs at hn <;> simp at hn <;> tauto
  rcases hn' with rfl | rfl
  · exact ⟨⟨hroots.1, hsize⟩, Or.inl rfl, rfl⟩
  · exact ⟨⟨hroots.2, hsize⟩, Or.inr rfl, rfl⟩

theorem findRow_spec (h : Sound s rows) (hroots : roots.1 < rows ∧ roots.2 < rows) (hsize : incoming ≤ s.capacity)
    (hnumber : s.entries.length < 2 ^ 32) {moves moves' : List Move} {s' : FixedRows}
    (hfound : s.findRow moves roots incoming = some (row, s', moves')) :
    (row = roots.1 ∨ row = roots.2) ∧ Sound s' rows ∧ Relocated s moves s' moves' ∧
      s'.usedIn row + incoming ≤ s'.capacity ∧ (s.Seated → s'.Seated) := by
  unfold findRow at hfound
  dsimp only at hfound
  split at hfound
  next direct hdirect =>
    obtain ⟨rfl, rfl, rfl⟩ : direct = row ∧ s = s' ∧ moves = moves' := by simpa using hfound
    have hcandidate : direct = roots.1 ∨ direct = roots.2 := by
      have hmem := mem_of_find?_eq_some hdirect
      split_ifs at hmem <;> simp at hmem <;> tauto
    have hwithin : s.usedIn direct ≤ s.capacity := by
      rcases hcandidate with rfl | rfl
      · exact h.within _ hroots.1
      · exact h.within _ hroots.2
    have hfits := h.fits
    have hroom : addSize (s.usedIn direct) incoming ≤ s.capacity := by simpa using find?_some hdirect
    rw [addSize_eq (by omega)] at hroom
    exact ⟨hcandidate, h, Relocated.refl s moves, hroom, fun hseated => hseated⟩
  next =>
    obtain ⟨node, hnode, heq⟩ := Option.map_eq_some_iff.mp hfound
    obtain ⟨rfl, rfl, rfl⟩ : node.top.row = row ∧ (s.applyPath moves node).1 = s' ∧
        (s.applyPath moves node).2 = moves' := by
      simpa [Prod.ext_iff] using heq
    obtain ⟨⟨hvalid, htop, hneed⟩, hroom⟩ := searchFrom_frontier h hroots hsize hnode
    obtain ⟨hsound, hrelocated, htoproom, hseats⟩ := applyPath_spec h hvalid hroom hnumber moves
    rw [hneed] at htoproom
    exact ⟨htop, hsound, hrelocated, by rwa [hrelocated.capacity], hseats⟩

end Search

/-! ## Batches -/

theorem candidates_lt (sha256 : Bytes → FixedBytes 32) (salts : FixedBytes 32 × FixedBytes 32) (key : Bytes)
    {rows : Nat} (hrows : 0 < rows) :
    (candidates sha256 salts key rows).1 < rows ∧ (candidates sha256 salts key rows).2 < rows :=
  ⟨Nat.mod_lt _ hrows, Nat.mod_lt _ hrows⟩

theorem asU32_candidates (sha256 : Bytes → FixedBytes 32) (salts : FixedBytes 32 × FixedBytes 32) (key : Bytes)
    {rows : Nat} (hrows : 0 < rows) (hwide : rows ≤ 2 ^ 32) :
    (asU32 (candidates sha256 salts key rows).1, asU32 (candidates sha256 salts key rows).2) =
      candidates sha256 salts key rows := by
  obtain ⟨hfst, hsnd⟩ := candidates_lt sha256 salts key hrows
  rw [asU32_eq (hfst.trans_le hwide), asU32_eq (hsnd.trans_le hwide)]

/-- Entries have at least one byte, so their number is at most what the rows hold. -/
theorem Sound.length_le (h : Sound s rows) : s.entries.length ≤ rows * s.capacity := by
  have hbytes : ∀ entries : List Entry, (∀ e ∈ entries, e.row < rows ∧ 0 < e.size) → entries.length ≤
      ((range rows).map fun row => (entries.map fun e => if e.row = row then e.size else 0).sum).sum := by
    intro entries hentries
    induction entries with
    | nil => simp
    | cons e entries ih =>
      obtain ⟨⟨hlt, hpos⟩, hrest⟩ := forall_mem_cons.mp hentries
      have hself : e.size ≤ ((range rows).map fun row => if e.row = row then e.size else 0).sum :=
        single_le_sum (by simp) _ (mem_map.mpr ⟨e.row, mem_range.mpr hlt, if_pos rfl⟩)
      have hothers := ih hrest
      simp only [map_cons, sum_cons, length_cons]
      rw [sum_map_add]
      omega
  refine (hbytes s.entries fun e he => ⟨(h.wellPlaced e he).row_lt, (h.wellPlaced e he).positive⟩).trans ?_
  refine (sum_le_card_nsmul _ s.capacity fun bytes hin => ?_).trans (by simp)
  obtain ⟨row, hrow, rfl⟩ := mem_map.mp hin
  have hlt := mem_range.mp hrow
  exact (h.used row hlt).symm.trans_le (h.within row hlt)

/-- The numbers of the entries there are and of `count` more stay apart in 32 bits. -/
def Numbered (s : FixedRows) (rows count : Nat) : Prop :=
  rows * s.capacity < 2 ^ 32 ∨ s.entries.length + count ≤ 2 ^ 32

theorem Sound.number_lt (h : Sound s rows) {count : Nat} (hnumbers : s.Numbered rows (count + 1)) :
    s.entries.length < 2 ^ 32 := by
  rcases hnumbers with hbytes | hcount
  · exact h.length_le.trans_lt hbytes
  · omega

structure Inserted (sha256 : Bytes → FixedBytes 32) (s s' : FixedRows) (rows : Nat) (items : List (Bytes × Nat)) :
    Prop where
  sound : Sound s' rows
  salts : s'.salts = s.salts
  capacity : s'.capacity = s.capacity
  shape : s'.shape = s.shape ++ items.map fun item => (candidates sha256 s.salts item.1 rows, item.2)

variable {items : List (Bytes × Nat)} {result : Except Nat Unit}

theorem insertLoop_spec (hrows : 0 < rows) (hwide : rows ≤ 2 ^ 32) {index : Nat} (h : Sound s rows)
    (hsizes : ∀ item ∈ items, 0 < item.2 ∧ item.2 ≤ s.capacity) (hnumbers : s.Numbered rows items.length)
    (hfirst : first ≤ s.entries.length) (hplaced : ∀ m ∈ moves, m.placed ≤ s.entries.length)
    (hinsert : insertLoop sha256 first index moves items s = (result, s')) :
    (result = .ok () → Inserted sha256 s s' rows items ∧ (s.Seated → s'.Seated)) ∧
      (result ≠ .ok () → s' = s.undo first moves) := by
  induction items generalizing s index moves with
  | nil =>
    rw [insertLoop, Prod.mk.injEq] at hinsert
    obtain ⟨rfl, rfl⟩ := hinsert
    exact ⟨fun _ => ⟨⟨h, rfl, rfl, by simp⟩, fun hseated => hseated⟩, fun hne => absurd rfl hne⟩
  | cons item items ih =>
    obtain ⟨key, size⟩ := item
    obtain ⟨⟨hpos, hle⟩, hrest⟩ := forall_mem_cons.mp hsizes
    have hnumber := h.number_lt hnumbers
    have hroots := candidates_lt sha256 s.salts key hrows
    rw [insertLoop] at hinsert
    rw [h.used_length] at hinsert
    rw [asU32_candidates sha256 s.salts key hrows hwide] at hinsert
    split at hinsert
    next =>
      rw [Prod.mk.injEq] at hinsert
      obtain ⟨rfl, rfl⟩ := hinsert
      exact ⟨fun hok => (by cases hok), fun _ => rfl⟩
    next row s₁ moves₁ hfound =>
      obtain ⟨hrow, hsound, hrelocated, hroom, hseats⟩ := findRow_spec h hroots hle hnumber hfound
      have hlength : s₁.entries.length = s.entries.length := by
        rw [← length_shape, hrelocated.shape, length_shape]
      have hplaced₁ := hrelocated.placed hplaced
      have hnumber₁ : s₁.entries.length < 2 ^ 32 := hlength ▸ hnumber
      have hsound' : Sound (s₁.push ⟨candidates sha256 s.salts key rows, size, row⟩) rows :=
        hsound.push ⟨hrow, hroots, hpos⟩ hroom hnumber₁
      have hpushed : (s₁.push ⟨candidates sha256 s.salts key rows, size, row⟩).entries.length = s₁.entries.length + 1 := by
        simp [push]
      have hnumbers' : (s₁.push ⟨candidates sha256 s.salts key rows, size, row⟩).Numbered rows items.length := by
        rcases hnumbers with hbytes | hcount
        · exact .inl (hrelocated.capacity ▸ hbytes)
        · refine .inr ?_
          rw [length_cons] at hcount
          omega
      obtain ⟨hok, herror⟩ := ih hsound' (hrelocated.capacity ▸ hrest) hnumbers' (by omega)
        (fun m hm => (hplaced₁ m hm).trans (by omega)) hinsert
      refine ⟨fun hres => ?_, fun hres => ?_⟩
      · obtain ⟨⟨hs, hsalts, hcapacity, hshape⟩, hkeeps⟩ := hok hres
        refine ⟨⟨hs, hsalts.trans hrelocated.salts, hcapacity.trans hrelocated.capacity, ?_⟩, fun hseated =>
          hkeeps (hsound.push_seated (Entry.WellPlaced.row_lt ⟨hrow, hroots, hpos⟩) hnumber₁ (hseats hseated))⟩
        rw [hshape, shape_push, hrelocated.shape]
        change _ = s.shape ++ (_ :: items.map _)
        rw [append_assoc, singleton_append]
        simp only [push, hrelocated.salts]
      · rw [herror hres, undo_push hsound (hrelocated.capacity ▸ hle) (by omega) hplaced₁, hrelocated.undo]

theorem insert_spec (hrows : 0 < rows) (hwide : rows ≤ 2 ^ 32) (h : Sound s rows)
    (hnumbers : s.Numbered rows items.length) (hinsert : s.insert sha256 items = (result, s')) :
    (result = .ok () → Inserted sha256 s s' rows items ∧ (s.Seated → s'.Seated)) ∧ (result ≠ .ok () → s' = s) := by
  unfold insert at hinsert
  split at hinsert
  next i _ =>
    rw [Prod.mk.injEq] at hinsert
    obtain ⟨rfl, rfl⟩ := hinsert
    exact ⟨fun hok => (by cases hok), fun _ => rfl⟩
  next hsizes =>
    have hsizes' : ∀ item ∈ items, 0 < item.2 ∧ item.2 ≤ s.capacity := by
      intro item hitem
      have hchecked := findIdx?_eq_none_iff.mp hsizes item hitem
      rw [decide_eq_false_iff_not] at hchecked
      omega
    obtain ⟨hok, herror⟩ := insertLoop_spec hrows hwide h hsizes' hnumbers (Nat.le_refl _) (by simp) hinsert
    refine ⟨hok, fun hres => ?_⟩
    rw [herror hres, undo]
    exact truncate_length s

theorem Sound.count_le (h : Sound s rows) {size : Nat} (hsize : ∀ e ∈ s.entries, e.size = size) (hrow : row < rows) :
    s.assignment.count row * size ≤ s.capacity := by
  refine Nat.le_trans (Nat.le_of_eq ?_) (h.within row hrow)
  rw [h.used row hrow, bytesIn, assignment]
  generalize s.entries = entries at hsize
  induction entries with
  | nil => simp
  | cons e entries ih =>
    obtain ⟨he, hrest⟩ := forall_mem_cons.mp hsize
    rw [map_cons, map_cons, sum_cons, count_cons, ← ih hrest, he, Nat.add_mul, Nat.add_comm]
    congr 1
    by_cases heq : e.row = row <;> simp [heq]

/-! ## Sequences of calls -/

/-- What holds of the rows between the calls: `done` are the keys of the batches that succeeded. -/
structure Holds (sha256 : Bytes → FixedBytes 32) (salts : FixedBytes 32 × FixedBytes 32) (rows capacity : Nat)
    (done : List (Bytes × Nat)) (s : FixedRows) : Prop where
  sound : Sound s rows
  seated : s.Seated
  salted : s.salts = salts
  sized : s.capacity = capacity
  shape : s.shape = done.map fun item => (candidates sha256 salts item.1 rows, item.2)

variable {salts : FixedBytes 32 × FixedBytes 32} {capacity : Nat} {done : List (Bytes × Nat)}

/-- Without rows, a call that returns has nothing to place or refuses a size. -/
theorem insertCall_noRows (h : s.used.length = 0) (hcall : s.insertCall sha256 items = some (result, s')) :
    s' = s ∧ (result = .ok () → items = []) := by
  rw [insertCall] at hcall
  split_ifs at hcall with hpanics
  have hinsert := Option.some_inj.mp hcall
  rw [insert] at hinsert
  split at hinsert
  next i _ =>
    cases hinsert
    exact ⟨rfl, fun hok => (by cases hok)⟩
  next hsizes =>
    obtain rfl : items = [] := by
      by_contra hne
      refine hpanics ⟨h, hne, fun item hitem => ?_⟩
      simpa using findIdx?_eq_none_iff.mp hsizes item hitem
    cases hinsert
    exact ⟨rfl, fun _ => rfl⟩

theorem Holds.insertCall (h : Holds sha256 salts rows capacity done s) (hwide : rows ≤ 2 ^ 32)
    (hkeys : done.length + items.length ≤ 2 ^ 32) (hcall : s.insertCall sha256 items = some (result, s')) :
    (result = .ok () → Holds sha256 salts rows capacity (done ++ items) s') ∧ (result ≠ .ok () → s' = s) := by
  rcases Nat.eq_zero_or_pos rows with hrows | hrows
  · obtain ⟨rfl, hnone⟩ := insertCall_noRows (h.sound.used_length.trans hrows) hcall
    refine ⟨fun hok => ?_, fun _ => rfl⟩
    rwa [hnone hok, append_nil]
  · have hinsert : s.insert sha256 items = (result, s') := by
      rw [FixedRows.insertCall, if_neg fun hnone => by rw [h.sound.used_length] at hnone; omega] at hcall
      exact Option.some_inj.mp hcall
    have hlength : s.entries.length = done.length := by rw [← length_shape, h.shape, length_map]
    obtain ⟨hok, herror⟩ := insert_spec hrows hwide h.sound (.inr (hlength ▸ hkeys)) hinsert
    refine ⟨fun hres => ?_, herror⟩
    obtain ⟨⟨hsound, hsalts, hcapacity, hshape⟩, hseats⟩ := hok hres
    refine ⟨hsound, hseats h.seated, hsalts.trans h.salted, hcapacity.trans h.sized, ?_⟩
    rw [hshape, h.shape, h.salted, map_append]

theorem Holds.insertAll {batches : List (List (Bytes × Nat))} {done' : List (Bytes × Nat)}
    (h : Holds sha256 salts rows capacity done s) (hwide : rows ≤ 2 ^ 32)
    (hkeys : done.length + batches.flatten.length ≤ 2 ^ 32)
    (hall : FixedRows.insertAll sha256 batches s done = some (s', done')) :
    Holds sha256 salts rows capacity done' s' := by
  induction batches generalizing s done with
  | nil =>
    cases hall
    exact h
  | cons batch batches ih =>
    rw [FixedRows.insertAll] at hall
    rw [flatten_cons, length_append] at hkeys
    split at hall
    next => cases hall
    next s₁ hcall =>
      refine ih ((h.insertCall hwide (by omega) hcall).1 rfl) ?_ hall
      rw [length_append]
      omega
    next index s₁ hcall =>
      rw [(h.insertCall hwide (by omega) hcall).2 (fun hok => by cases hok)] at hall
      exact ih h (by omega) hall

theorem new_holds (sha256 : Bytes → FixedBytes 32) (salts : FixedBytes 32 × FixedBytes 32) (rows : Nat) {capacity : Nat}
    (hcapacity : capacity < 2 ^ 63) : Holds sha256 salts rows capacity [] (new salts rows capacity) where
  sound := new_sound salts rows hcapacity
  seated i e he := by simp [new] at he
  salted := rfl
  sized := rfl
  shape := rfl

end FixedRows

end Zakura.Directory
