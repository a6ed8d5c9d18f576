import Zakura.Filter.Matching
import Zakura.Lib.Except

/-! # What matching returns -/

namespace Zakura.Filter

open List Zakura.Except

/-! ## The merge -/

variable {cursor : List Nat}

variable {v : Nat}

theorem mem_advanceCursor (value : Nat) (hsorted : cursor.Pairwise (· ≤ ·)) :
    v ∈ advanceCursor value cursor ↔ v ∈ cursor ∧ value ≤ v := by
  induction cursor with
  | nil => simp [advanceCursor]
  | cons w cursor ih =>
    obtain ⟨hw, hrest⟩ := pairwise_cons.mp hsorted
    rw [advanceCursor]
    by_cases hlt : w < value
    · rw [if_pos hlt, ih hrest, mem_cons]
      constructor
      · intro h
        exact ⟨.inr h.1, h.2⟩
      · intro h
        rcases h with ⟨rfl | hv, hle⟩
        · omega
        · exact ⟨hv, hle⟩
    · rw [if_neg hlt]
      constructor
      · intro h
        refine ⟨h, ?_⟩
        rcases mem_cons.mp h with rfl | hv
        · omega
        · exact Nat.le_trans (Nat.not_lt.mp hlt) (hw v hv)
      · exact fun h => h.1

theorem advanceCursor_pairwise (value : Nat) (hsorted : cursor.Pairwise (· ≤ ·)) :
    (advanceCursor value cursor).Pairwise (· ≤ ·) := by
  induction cursor with
  | nil => exact .nil
  | cons w cursor ih =>
    rw [advanceCursor]
    by_cases hlt : w < value
    · rw [if_pos hlt]
      exact ih (pairwise_cons.mp hsorted).2
    · rwa [if_neg hlt]

variable {value : Nat}

theorem head?_advanceCursor (hsorted : cursor.Pairwise (· ≤ ·)) :
    (advanceCursor value cursor).head? = some value ↔ value ∈ cursor := by
  have hmem := mem_advanceCursor (v := value) value hsorted
  constructor
  · intro h
    exact (hmem.mp (mem_of_head? h)).1
  · intro h
    have hin := hmem.mpr ⟨h, Nat.le_refl value⟩
    have hpair := advanceCursor_pairwise value hsorted
    cases hcursor : advanceCursor value cursor with
    | nil => simp [hcursor] at hin
    | cons w rest =>
      have hw : value ≤ w := ((mem_advanceCursor value hsorted).mp (hcursor ▸ mem_cons_self)).2
      rw [hcursor] at hin hpair
      rcases mem_cons.mp hin with rfl | hrest
      · rfl
      · have hle := (pairwise_cons.mp hpair).1 value hrest
        rw [head?_cons, Nat.le_antisymm hle hw]

/-- Over values and mapped scripts in ascending order, the merge keeps exactly the scripts whose value
occurs. -/
theorem mergeMapped_eq {mapped : List (Nat × Nat)} (hsorted : cursor.Pairwise (· ≤ ·))
    (hmapped : mapped.Pairwise fun a b => a.1 ≤ b.1) :
    mergeMapped cursor mapped = (mapped.filter fun a => a.1 ∈ cursor).map Prod.snd := by
  induction mapped generalizing cursor with
  | nil => rfl
  | cons a mapped ih =>
    obtain ⟨value, index⟩ := a
    obtain ⟨hle, hrest⟩ := pairwise_cons.mp hmapped
    -- Passing the smaller values loses none that a later script could have.
    have hsame : (mapped.filter fun a => a.1 ∈ advanceCursor value cursor) =
        mapped.filter fun a => a.1 ∈ cursor := by
      refine filter_congr fun a ha => ?_
      have hmem := mem_advanceCursor (v := a.1) value hsorted
      simp [hmem, hle a ha]
    have hnext := ih (advanceCursor_pairwise value hsorted) hrest
    rw [hsame] at hnext
    rw [mergeMapped]
    by_cases hin : value ∈ cursor
    · rw [if_pos ((head?_advanceCursor hsorted).mpr hin), hnext, filter_cons_of_pos (by simpa using hin)]
      rfl
    · rw [if_neg (fun h => hin ((head?_advanceCursor hsorted).mp h)), hnext,
        filter_cons_of_neg (by simpa using hin)]

/-! ## The result -/

theorem mapWalletScriptsKeyed_pairwise (sip : SipHash) (filter : ValidatedFilter) (keys : FilterKeys)
    (scripts : List Bytes) :
    (mapWalletScriptsKeyed sip filter keys scripts).Pairwise fun a b => a.1 ≤ b.1 := by
  refine (pairwise_insertionSort _ _).imp fun {a b} h => ?_
  rcases Prod.Lex.toLex_le_toLex.mp h with hlt | heq
  · exact Nat.le_of_lt hlt
  · exact Nat.le_of_eq heq.1

variable {sip : SipHash} {filter : ValidatedFilter} {index : Nat}

variable {keys : FilterKeys} {scripts : List Bytes}

theorem mem_mapWalletScriptsKeyed :
    (value, index) ∈ mapWalletScriptsKeyed sip filter keys scripts ↔
      ∃ script, scripts[index]? = some script ∧ script ≠ [] ∧
        value = hashToRange sip keys.k0 keys.k1 filter.range script := by
  simp only [mapWalletScriptsKeyed, mem_insertionSort, mem_map, mem_filter,
    mk_mem_zipIdx_iff_getElem?, Prod.exists, Prod.mk.injEq]
  constructor
  · intro h
    obtain ⟨script, _, ⟨hscript, hnonempty⟩, rfl, rfl⟩ := h
    exact ⟨script, hscript, by simpa using hnonempty, rfl⟩
  · intro h
    obtain ⟨script, hscript, hnonempty, rfl⟩ := h
    exact ⟨script, index, ⟨hscript, by simpa using hnonempty⟩, rfl, rfl⟩

theorem mapWalletScriptsKeyed_indices_nodup (sip : SipHash) (filter : ValidatedFilter) (keys : FilterKeys)
    (scripts : List Bytes) : ((mapWalletScriptsKeyed sip filter keys scripts).map Prod.snd).Nodup := by
  refine ((perm_insertionSort _ _).map Prod.snd).nodup_iff.mpr ?_
  rw [map_map]
  refine (filter_sublist.map Prod.snd).nodup ?_
  rw [zipIdx_map_snd]
  exact nodup_range'

theorem matchKeyed_pairwise (keys : FilterKeys) (scripts : List Bytes) (hsorted : filter.values.Pairwise (· ≤ ·)) :
    (matchKeyed sip filter keys scripts).Pairwise (· < ·) := by
  have hnodup := mapWalletScriptsKeyed_indices_nodup sip filter keys scripts
  have hmerge := mergeMapped_eq hsorted (mapWalletScriptsKeyed_pairwise sip filter keys scripts)
  have hkept : (mergeMapped filter.values (mapWalletScriptsKeyed sip filter keys scripts)).Nodup := by
    rw [hmerge]
    exact (filter_sublist.map Prod.snd).nodup hnodup
  have hresult : (matchKeyed sip filter keys scripts).Nodup :=
    (perm_insertionSort _ _).nodup_iff.mpr hkept
  exact (pairwise_insertionSort (· ≤ ·) _).imp₂ (fun a b hle hne => Nat.lt_of_le_of_ne hle hne) hresult

theorem mem_matchKeyed (hsorted : filter.values.Pairwise (· ≤ ·)) :
    index ∈ matchKeyed sip filter keys scripts ↔
      ∃ script, scripts[index]? = some script ∧ script ≠ [] ∧
        hashToRange sip keys.k0 keys.k1 filter.range script ∈ filter.values := by
  rw [matchKeyed, matchMapped, mem_insertionSort,
    mergeMapped_eq hsorted (mapWalletScriptsKeyed_pairwise sip filter keys scripts)]
  simp only [mem_map, mem_filter, decide_eq_true_eq, Prod.exists]
  constructor
  · intro h
    obtain ⟨value, _, ⟨hmapped, hvalue⟩, rfl⟩ := h
    obtain ⟨script, hscript, hnonempty, rfl⟩ := mem_mapWalletScriptsKeyed.mp hmapped
    exact ⟨script, hscript, hnonempty, hvalue⟩
  · intro h
    obtain ⟨script, hscript, hnonempty, hvalue⟩ := h
    exact ⟨_, index, ⟨mem_mapWalletScriptsKeyed.mpr ⟨script, hscript, hnonempty, rfl⟩, hvalue⟩, rfl⟩

/-! ## Filters that validate -/

variable {p range : Nat}

variable {last : Nat} {r r' : BitReader}

theorem readElement_le (h : readElement p range index last r = .ok (v, r')) : last ≤ v := by
  rw [readElement] at h
  obtain ⟨⟨quotient, r₁⟩, -, h⟩ := bind_eq_ok.mp h
  obtain ⟨⟨remainder, r₂⟩, -, h⟩ := bind_eq_ok.mp h
  obtain ⟨delta, -, h⟩ := bind_eq_ok.mp h
  obtain ⟨next, hnext, h⟩ := bind_eq_ok.mp h
  obtain ⟨-, heq⟩ := ite_error_eq_ok.mp h
  cases heq
  rw [checkedWord] at hnext
  split_ifs at hnext
  cases hnext
  exact Nat.le_add_right last delta

variable {count : Nat} {values : List Nat}

theorem readElements_sorted (h : readElements p range count index last r = .ok (values, r')) :
    (∀ v ∈ values, last ≤ v) ∧ values.Pairwise (· ≤ ·) := by
  induction count generalizing index last values r with
  | zero =>
    cases h
    exact ⟨fun v hv => absurd hv not_mem_nil, List.Pairwise.nil⟩
  | succ count ih =>
    rw [readElements] at h
    obtain ⟨⟨next, r₁⟩, hnext, h⟩ := bind_eq_ok.mp h
    obtain ⟨⟨rest, r₂⟩, hrest, h⟩ := bind_eq_ok.mp h
    cases h
    obtain ⟨hle, hsorted⟩ := ih hrest
    have hlast := readElement_le hnext
    exact ⟨forall_mem_cons.mpr ⟨hlast, fun v hv => Nat.le_trans hlast (hle v hv)⟩, pairwise_cons.mpr ⟨hle, hsorted⟩⟩

theorem readBody_sorted {body : Bytes} (h : readBody p range count body = .ok values) : values.Pairwise (· ≤ ·) := by
  rw [readBody] at h
  obtain ⟨⟨read, r⟩, hread, h⟩ := bind_eq_ok.mp h
  obtain ⟨-, h⟩ := check_bind_eq_ok.mp h
  obtain ⟨-, heq⟩ := ite_error_eq_ok.mp h
  cases heq
  exact (readElements_sorted hread).2

variable {bytes : Bytes} {limits : FilterLimits}

/-- Whatever the limits, an accepted filter keeps its bytes and its values ascend. -/
theorem validateParameters_values {m : Nat}
    (h : validateParameters bytes limits m p = .ok filter) :
    filter.bytes = bytes ∧ filter.values.Pairwise (· ≤ ·) := by
  simp only [validateParameters] at h
  obtain ⟨-, h⟩ := ite_error_eq_ok.mp h
  obtain ⟨-, h⟩ := ite_error_eq_ok.mp h
  obtain ⟨⟨count, length⟩, -, h⟩ := bind_eq_ok.mp h
  obtain ⟨-, h⟩ := ite_error_eq_ok.mp h
  obtain ⟨bits, -, h⟩ := bind_eq_ok.mp h
  obtain ⟨-, h⟩ := ite_error_eq_ok.mp h
  by_cases hcount : count = 0
  · rw [if_pos hcount] at h
    obtain ⟨-, heq⟩ := ite_error_eq_ok.mp h
    cases heq
    exact ⟨rfl, List.Pairwise.nil⟩
  · rw [if_neg hcount] at h
    obtain ⟨range, -, h⟩ := bind_eq_ok.mp h
    obtain ⟨values, hvalues, h⟩ := bind_eq_ok.mp h
    cases h
    exact ⟨rfl, readBody_sorted hvalues⟩

theorem validateRangeFilter_values {profile : RangeProfile}
    (h : validateRangeFilter bytes limits profile = .ok filter) :
    filter.bytes = bytes ∧ filter.values.Pairwise (· ≤ ·) :=
  validateParameters_values h

end Zakura.Filter
