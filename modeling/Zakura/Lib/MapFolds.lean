import Zakura.Lib.OrderedMap
import Mathlib.Data.Finset.Card
import Mathlib.Data.List.Induction

/-! # Ordered maps written key by key

What stands under a key after a list of keys was erased or a list of values inserted, and which keys there are. -/

namespace Zakura.OrderedMap

open List

variable {κ ν : Type} [LinearOrder κ]

theorem getElem?_foldl_erase {α : Type} (key : α → κ) (xs : List α) (m : OrderedMap κ ν) (k : κ) (v : ν) :
    (xs.foldl (fun m x => m.erase (key x)) m)[k]? = some v ↔ (∀ x ∈ xs, key x ≠ k) ∧ m[k]? = some v := by
  induction xs generalizing m with
  | nil => simp
  | cons x xs ih =>
    rw [foldl_cons, ih, getElem?_erase_eq, forall_mem_cons]
    by_cases hx : key x = k
    · simp [hx]
    · simp [hx]

theorem getElem?_foldl_erase_keys (ks : List κ) (m : OrderedMap κ ν) (k : κ) (v : ν) :
    (ks.foldl (fun m k => m.erase k) m)[k]? = some v ↔ k ∉ ks ∧ m[k]? = some v := by
  have h := getElem?_foldl_erase (fun k : κ => k) ks m k v
  rwa [show (∀ x ∈ ks, x ≠ k) ↔ k ∉ ks from ⟨fun h hk => h k hk rfl, fun h x hx heq => h (heq ▸ hx)⟩] at h

theorem getElem?_foldl_insert_last {key : ν → κ} {k : κ} {p : ν → Bool} (hp : ∀ x, p x = true ↔ key x = k) (xs : List ν)
    (m : OrderedMap κ ν) : (xs.foldl (fun m x => m.insert (key x) x) m)[k]? = (xs.reverse.find? p).or m[k]? := by
  induction xs using List.reverseRecOn with
  | nil => rfl
  | append_singleton xs x ih =>
    rw [foldl_append, foldl_cons, foldl_nil, getElem?_insert_eq, ih, reverse_append]
    by_cases hx : key x = k
    · simp [hx, (hp x).mpr hx]
    · simp [hx, mt (hp x).mp hx]

theorem getElem?_insert_of_absent (m : OrderedMap κ ν) (k a : κ) (v : ν) [Decidable (k = a)] :
    (if k ∈ m then m else m.insert k v)[a]? = m[a]?.or (if k = a then some v else none) := by
  by_cases hk : k = a
  · subst hk
    by_cases hmem : k ∈ m
    · obtain ⟨held, hheld⟩ := mem_iff_exists.mp hmem
      rw [if_pos hmem, hheld]
      rfl
    · have hnone : m[k]? = none := Std.ExtTreeMap.getElem?_eq_none hmem
      rw [if_neg hmem, getElem?_insert_eq, if_pos rfl, if_pos rfl, hnone]
      rfl
  · rw [if_neg hk, Option.or_none]
    split_ifs
    · rfl
    · rw [getElem?_insert_eq, if_neg hk]

theorem eq_map_of_getElem? {ν' : Type} {m : OrderedMap κ ν} {m' : OrderedMap κ ν'} {f : ν → ν'}
    (h : ∀ k : κ, m'[k]? = m[k]?.map f) : m' = m.map fun _ v => f v :=
  Std.ExtTreeMap.ext_getElem? fun k => by rw [h, Std.ExtTreeMap.getElem?_map]

theorem vals_map {ν' : Type} (m : OrderedMap κ ν) (f : ν → ν') : vals (m.map fun _ v => f v) = m.vals.map f := by
  rw [vals, vals, Std.ExtTreeMap.toList_map, map_map, map_map]
  rfl

/-! ## The set of keys -/

def keySet (m : OrderedMap κ ν) : Finset κ := m.keys.toFinset

@[simp] theorem mem_keySet {m : OrderedMap κ ν} {k : κ} : k ∈ keySet m ↔ k ∈ m := by
  rw [keySet, mem_toFinset, Std.ExtTreeMap.mem_keys]

theorem card_keySet (m : OrderedMap κ ν) : (keySet m).card = m.size := by
  have hnodup : m.keys.Nodup := Std.ExtTreeMap.distinct_keys.imp fun hne heq => hne (compare_eq_iff_eq.mpr heq)
  rw [keySet, toFinset_card_of_nodup hnodup, Std.ExtTreeMap.length_keys]

theorem keySet_insert (m : OrderedMap κ ν) (k : κ) (v : ν) : keySet (m.insert k v) = insert k (keySet m) := by
  ext a
  rw [mem_keySet, Std.ExtTreeMap.mem_insert, compare_eq_iff_eq, Finset.mem_insert, mem_keySet, eq_comm]

theorem keySet_foldl_erase (ks : List κ) (m : OrderedMap κ ν) :
    keySet (ks.foldl (fun m k => m.erase k) m) = keySet m \ ks.toFinset := by
  induction ks generalizing m with
  | nil => simp
  | cons k ks ih =>
    rw [foldl_cons, ih]
    ext a
    simp only [Finset.mem_sdiff, mem_keySet, Std.ExtTreeMap.mem_erase, ne_eq, compare_eq_iff_eq, mem_toFinset,
      mem_cons]
    rw [eq_comm (a := a)]
    tauto

end Zakura.OrderedMap
