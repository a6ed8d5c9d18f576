import Zakura.Hints.Lemmas.Gcs
import Zakura.Hints.Shards

/-! # Matching receivers

Both matchers find exactly the wanted values that are in an ascending list: one by binary search, the other by one
pass over the list that stops after the last wanted value. -/

namespace Zakura.Hints

open List

open Zakura.Receiver (ReceiverBytes)

/-! ## Binary search -/

namespace Filter

variable {values : List Nat}

theorem ordered_compare (hsorted : values.Pairwise (· ≤ ·)) (value : Nat) :
    Ordered (compare · value) values := by
  refine hsorted.imp fun {a b} hab => ?_
  simp only [Nat.compare_eq_lt, ne_eq, Nat.compare_eq_gt]
  omega

theorem binarySearch_eq (hsorted : values.Pairwise (· ≤ ·)) (value : Nat) :
    (binarySearchBy (compare · value) values).toOption.isSome = decide (value ∈ values) := by
  have hfound := binarySearchBy_isOk (ordered_compare hsorted value)
  simp only [Nat.compare_eq_eq, exists_eq_right] at hfound
  rw [Bool.eq_iff_iff, decide_eq_true_eq, ← hfound]
  cases binarySearchBy (compare · value) values <;> simp [Except.toOption]

theorem matchReceivers_eq {sha : Sha256} {sip : Zakura.Filter.SipHash} {filter : Filter}
    (hsorted : filter.values.Pairwise (· ≤ ·)) (key : Receiver.Hash) (receivers : List ReceiverBytes) :
    filter.matchReceivers sha sip key receivers = receivers.map fun receiver =>
      decide (Gcs.value sip (Gcs.keys sha key) filter.values.length filter.m receiver ∈ filter.values) :=
  map_congr_left fun _ _ => binarySearch_eq hsorted _

end Filter

/-! ## One pass over the values -/

namespace ShardFilter

variable {value : Nat} {wanted : List (Nat × Nat)}

theorem markEqual_spec (hsorted : (wanted.map (·.1)).Pairwise (· ≤ ·)) (hfront : ∀ entry ∈ wanted, value ≤ entry.1)
    (found : List Bool) :
    (markEqual value wanted found).length = found.length ∧
      ∀ i < found.length, (markEqual value wanted found)[i]? = some true ↔
        found[i]? = some true ∨ (value, i) ∈ wanted := by
  induction wanted generalizing found with
  | nil => simp [markEqual]
  | cons entry wanted ih =>
    obtain ⟨v, index⟩ := entry
    obtain ⟨hfirst, hrest⟩ := pairwise_cons.mp hsorted
    rw [markEqual]
    split
    · rename_i heq
      obtain ⟨hlength, hmarked⟩ := ih hrest (fun entry hentry => hfront entry (mem_cons_of_mem _ hentry))
        (found.set index true)
      rw [length_set] at hlength hmarked
      refine ⟨hlength, fun i hi => ?_⟩
      rw [hmarked i hi, mem_cons, heq]
      by_cases hindex : index = i
      · subst hindex
        simp [hi]
      · rw [getElem?_set_ne hindex]
        simp [Ne.symm hindex]
    · rename_i hne
      refine ⟨rfl, fun i hi => ?_⟩
      -- The entry at the front is larger, and so are all after it.
      have hlarger : (value, i) ∉ (v, index) :: wanted := by
        intro hmem
        cases hmem with
        | head => exact hne rfl
        | tail _ hmem =>
          have hle : v ≤ value := hfirst value (mem_map.mpr ⟨_, hmem, rfl⟩)
          have hge := hfront (v, index) mem_cons_self
          exact hne (le_antisymm hle hge)
      simp [hlarger]

theorem mem_dropWhile {v i : Nat} (hge : value ≤ v) :
    (v, i) ∈ wanted.dropWhile (·.1 < value) ↔ (v, i) ∈ wanted := by
  induction wanted with
  | nil => rfl
  | cons entry wanted ih =>
    rw [dropWhile_cons]
    split
    · rename_i hless
      rw [ih, mem_cons]
      have hne : (v, i) ≠ entry := by
        rintro rfl
        simp only [decide_eq_true_eq] at hless
        omega
      simp [hne]
    · rfl

theorem le_of_mem_dropWhile (hsorted : (wanted.map (·.1)).Pairwise (· ≤ ·)) {entry : Nat × Nat}
    (h : entry ∈ wanted.dropWhile (·.1 < value)) : value ≤ entry.1 := by
  induction wanted with
  | nil => cases h
  | cons first wanted ih =>
    obtain ⟨hfirst, hrest⟩ := pairwise_cons.mp hsorted
    rw [dropWhile_cons] at h
    split at h
    · exact ih hrest h
    · rename_i hless
      simp only [decide_eq_true_eq, not_lt] at hless
      cases h with
      | head => exact hless
      | tail _ h => exact hless.trans (hfirst entry.1 (mem_map.mpr ⟨_, h, rfl⟩))

variable {s : Matcher}

theorem each_spec (last value : Nat) (hsorted : (s.next.map (·.1)).Pairwise (· ≤ ·)) :
    let s' := (s.each last value).1
    (s'.next.map (·.1)).Pairwise (· ≤ ·) ∧ (∀ v i, value ≤ v → ((v, i) ∈ s'.next ↔ (v, i) ∈ s.next)) ∧
      s'.found.length = s.found.length ∧
      ∀ i < s.found.length, s'.found[i]? = some true ↔ s.found[i]? = some true ∨ (value, i) ∈ s.next := by
  have hnext : ((s.next.dropWhile (·.1 < value)).map (·.1)).Pairwise (· ≤ ·) :=
    hsorted.sublist ((dropWhile_sublist _).map _)
  obtain ⟨hlength, hmarked⟩ := markEqual_spec hnext (fun _ h => le_of_mem_dropWhile hsorted h) s.found
  refine ⟨hnext, fun v i hge => mem_dropWhile hge, hlength, fun i hi => (hmarked i hi).trans ?_⟩
  rw [mem_dropWhile le_rfl]

/-- By induction on the values: the pass marks exactly the wanted entries whose value is in the list. A break loses
nothing, since the values left are past the last wanted one or equal to a value already seen. -/
theorem visitAll_each {last : Nat} {values : List Nat} (hvalues : values.Pairwise (· ≤ ·))
    (hsorted : (s.next.map (·.1)).Pairwise (· ≤ ·)) (hlast : ∀ entry ∈ s.next, entry.1 ≤ last) :
    (Gcs.visitAll (Matcher.each last) s values).1.found.length = s.found.length ∧
      ∀ i < s.found.length, (Gcs.visitAll (Matcher.each last) s values).1.found[i]? = some true ↔
        s.found[i]? = some true ∨ ∃ v ∈ values, (v, i) ∈ s.next := by
  induction values generalizing s with
  | nil => simp [Gcs.visitAll]
  | cons value values ih =>
    obtain ⟨hfirst, hrest⟩ := pairwise_cons.mp hvalues
    obtain ⟨hnext, hkept, hlength, hmarked⟩ := each_spec last value hsorted
    rw [Gcs.visitAll]
    split
    · rename_i hbreak
      refine ⟨hlength, fun i hi => ?_⟩
      rw [hmarked i hi]
      refine or_congr_right ⟨fun h => ⟨value, mem_cons_self, h⟩, ?_⟩
      rintro ⟨v, hv, hentry⟩
      have hge : value ≤ v := by
        cases hv with
        | head => exact le_rfl
        | tail _ hv => exact hfirst v hv
      simp only [Matcher.each, Bool.or_eq_true, List.isEmpty_iff, decide_eq_true_eq] at hbreak
      cases hbreak with
      | inl hempty =>
        have hmem := (mem_dropWhile hge).mpr hentry
        rw [hempty] at hmem
        cases hmem
      | inr hpast =>
        have hle := hlast _ hentry
        obtain rfl : v = value := by omega
        exact hentry
    · have hlast' : ∀ entry ∈ (s.each last value).1.next, entry.1 ≤ last := fun entry hentry =>
        hlast entry ((dropWhile_sublist _).subset hentry)
      obtain ⟨hlength', hmarked'⟩ := ih hrest hnext hlast'
      refine ⟨hlength'.trans hlength, fun i hi => ?_⟩
      rw [hmarked' i (by omega), hmarked i hi, or_assoc, exists_mem_cons_iff]
      refine or_congr_right (or_congr_right ?_)
      exact exists_congr fun v => and_congr_right fun hv => hkept v i (hfirst v hv)

end ShardFilter

end Zakura.Hints
