import Mathlib.Algebra.Order.BigOperators.Group.List
import Mathlib.Algebra.Order.Ring.Nat
import Mathlib.Data.List.Lex
import Mathlib.Data.List.Sort
import Zakura.Lib.Bytes

/-! # Ordered maps

Maps over a linear order, with the folds that check and accumulate: values that must agree with what a key
already has, and entries that are created on first use. -/

namespace Zakura

open List

instance instLawfulEqOrdOfLinearOrder {κ : Type} [LinearOrder κ] : Std.LawfulEqOrd κ where
  eq_of_compare h := compare_eq_iff_eq.mp h

-- The order's laws as constants, so that no definition over a map carries a proof of them.
instance instTransOrdOfLinearOrder {κ : Type} [LinearOrder κ] : Std.TransOrd κ := inferInstance

instance : @Std.TransOrd Bytes LinearOrder.toOrd := inferInstance

abbrev OrderedMap (κ ν : Type) [LinearOrder κ] := Std.ExtTreeMap κ ν

namespace OrderedMap

variable {κ ν : Type} [LinearOrder κ]

@[simp] theorem getElem?_insert_eq (m : OrderedMap κ ν) (k a : κ) (v : ν) :
    (m.insert k v)[a]? = if k = a then some v else m[a]? := by
  simp [Std.ExtTreeMap.getElem?_insert]

@[simp] theorem getElem?_erase_eq (m : OrderedMap κ ν) (k a : κ) :
    (m.erase k)[a]? = if k = a then none else m[a]? := by
  simp [Std.ExtTreeMap.getElem?_erase]

variable {m : OrderedMap κ ν} {k : κ} {v : ν}

theorem mem_iff_exists : k ∈ m ↔ ∃ v, m[k]? = some v := by
  rw [Std.ExtTreeMap.mem_iff_isSome_getElem?, Option.isSome_iff_exists]

theorem mem_of_getElem? (h : m[k]? = some v) : k ∈ m := mem_iff_exists.mpr ⟨v, h⟩

theorem not_mem_of_getElem? (h : m[k]? = none) : k ∉ m := by
  rw [mem_iff_exists, h]
  simp

def vals (m : OrderedMap κ ν) : List ν := m.toList.map Prod.snd

theorem mem_vals : v ∈ m.vals ↔ ∃ k : κ, m[k]? = some v := by
  simp only [vals, mem_map, Prod.exists, exists_eq_right, Std.ExtTreeMap.mem_toList_iff_getElem?_eq_some]

/-! ## Folds over the entries -/

theorem nodup_keys_toList (m : OrderedMap κ ν) : (m.toList.map Prod.fst).Nodup := by
  have h := Std.ExtTreeMap.distinct_keys_toList (t := m)
  rw [List.Nodup, pairwise_map]
  exact h.imp fun hne heq => hne (compare_eq_iff_eq.mpr heq)

variable {σ τ : Type} {step : σ → κ × ν → σ}

omit [LinearOrder κ] in
theorem foldl_view_eq {view : σ → τ} (hother : ∀ s entry, entry.1 ≠ k → view (step s entry) = view s)
    (entries : List (κ × ν)) (s : σ) (hk : k ∉ entries.map Prod.fst) : view (entries.foldl step s) = view s := by
  induction entries generalizing s with
  | nil => rfl
  | cons entry entries ih =>
    rw [map_cons, mem_cons, not_or] at hk
    rw [foldl_cons, ih _ hk.2, hother _ _ (Ne.symm hk.1)]

theorem foldl_toList_view (m : OrderedMap κ ν) (k : κ) {f : σ → τ} {p q : τ → Prop}
    (hother : ∀ s entry, entry.1 ≠ k → f (step s entry) = f s)
    (hsome : ∀ v, m[k]? = some v → ∀ s, p (f s) → q (f (step s (k, v)))) (hnone : m[k]? = none → ∀ t, p t → q t) (s : σ)
    (h : p (f s)) :
    q (f (m.toList.foldl step s)) := by
  cases hm : m[k]? with
  | none =>
    rw [foldl_view_eq hother]
    · exact hnone hm _ h
    · intro hmem
      obtain ⟨⟨k', v⟩, hentry, rfl⟩ := mem_map.mp hmem
      rw [Std.ExtTreeMap.mem_toList_iff_getElem?_eq_some] at hentry
      simp [hm] at hentry
  | some v =>
    obtain ⟨front, back, hsplit⟩ := append_of_mem (Std.ExtTreeMap.mem_toList_iff_getElem?_eq_some.mpr hm)
    have hnodup := nodup_keys_toList m
    rw [hsplit, map_append, map_cons, nodup_append, nodup_cons] at hnodup
    have hfront : k ∉ front.map Prod.fst := fun hmem => hnodup.2.2 k hmem k (mem_cons_self ..) rfl
    rw [hsplit, foldl_append, foldl_cons, foldl_view_eq hother _ _ hnodup.2.1.1]
    refine hsome v hm _ ?_
    rwa [foldl_view_eq hother _ _ hfront]

/-! ## Values that must agree -/

def disagrees [DecidableEq ν] (m : OrderedMap κ ν) (k : κ) (v : ν) : Bool := m[k]?.any (· ≠ v)

theorem disagrees_eq_false [DecidableEq ν] : m.disagrees k v = false ↔ ∀ w, m[k]? = some w → w = v := by
  cases h : m[k]? <;> simp [disagrees, h]

/-- Items can be entered one after another and no key ever changes its value. -/
structure Fits (m : OrderedMap κ ν) (items : List (κ × ν)) : Prop where
  known : ∀ x ∈ items, ∀ w, m[x.1]? = some w → w = x.2
  agree : ∀ x ∈ items, ∀ y ∈ items, x.1 = y.1 → x.2 = y.2

theorem fits_nil (m : OrderedMap κ ν) : Fits m [] := ⟨by simp, by simp⟩

variable {items : List (κ × ν)}

theorem fits_cons [DecidableEq ν] :
    Fits m ((k, v) :: items) ↔ m.disagrees k v = false ∧ Fits (m.insert k v) items := by
  rw [disagrees_eq_false]
  constructor
  · intro h
    refine ⟨h.known _ mem_cons_self, ?_, ?_⟩
    · intro x hx w hw
      rw [getElem?_insert_eq] at hw
      split_ifs at hw with hk
      · rw [← Option.some.inj hw]
        exact h.agree _ mem_cons_self x (mem_cons_of_mem _ hx) hk
      · exact h.known x (mem_cons_of_mem _ hx) w hw
    · exact fun x hx y hy => h.agree x (mem_cons_of_mem _ hx) y (mem_cons_of_mem _ hy)
  · intro h
    obtain ⟨hknown, hrest⟩ := h
    have hsame : ∀ x ∈ items, k = x.1 → v = x.2 := fun x hx hk => hrest.known x hx v (by simp [hk])
    refine ⟨?_, ?_⟩
    · intro x hx w hw
      rcases mem_cons.mp hx with rfl | hx
      · exact hknown w hw
      · by_cases hk : k = x.1
        · rw [← hsame x hx hk]
          exact hknown w (hk ▸ hw)
        · exact hrest.known x hx w (by simpa [hk] using hw)
    · intro x hx y hy hxy
      rcases mem_cons.mp hx with rfl | hx <;> rcases mem_cons.mp hy with rfl | hy
      · rfl
      · exact hsame y hy hxy
      · exact (hsame x hx hxy.symm).symm
      · exact hrest.agree x hx y hy hxy

theorem Fits.subset {items' : List (κ × ν)} (h : Fits ∅ items) (hsub : ∀ x ∈ items', x ∈ items) :
    Fits (∅ : OrderedMap κ ν) items' :=
  ⟨by simp, fun x hx y hy => h.agree x (hsub x hx) y (hsub y hy)⟩

theorem Fits.getElem?_foldl_insert (h : Fits m items) (k : κ) (v : ν) :
    (items.foldl (fun m x => m.insert x.1 x.2) m)[k]? = some v ↔ m[k]? = some v ∨ (k, v) ∈ items := by
  classical
  induction items generalizing m with
  | nil => simp
  | cons x items ih =>
    obtain ⟨k', v'⟩ := x
    obtain ⟨hknown, hrest⟩ := fits_cons.mp h
    rw [foldl_cons, ih hrest, getElem?_insert_eq, mem_cons, Prod.mk.injEq]
    by_cases hk : k' = k
    · subst hk
      have hv : m[k']? = some v → v = v' := disagrees_eq_false.mp hknown v
      rw [if_pos rfl, Option.some.injEq]
      tauto
    · have hk' : k ≠ k' := fun heq => hk heq.symm
      rw [if_neg hk]
      tauto

/-! ## Totals -/

variable {α : Type}

omit [LinearOrder κ] in
theorem sum_map_le_of_subset {xs ys : List α} (f : α → Nat) (hnodup : xs.Nodup) (hsub : xs ⊆ ys) :
    (xs.map f).sum ≤ (ys.map f).sum := by
  obtain ⟨zs, hperm, hsublist⟩ := subperm_of_subset hnodup hsub
  rw [← (hperm.map f).sum_eq]
  exact (hsublist.map f).sum_le_sum fun _ _ => Nat.zero_le _

theorem nodup_toList (m : OrderedMap κ ν) : m.toList.Nodup := List.Nodup.of_map _ (nodup_keys_toList m)

def total (m : OrderedMap κ Nat) : Nat := (m.toList.map Prod.snd).sum

theorem total_empty : total (∅ : OrderedMap κ Nat) = 0 := by
  have hnil : (∅ : OrderedMap κ Nat).toList = [] := by
    refine eq_nil_iff_forall_not_mem.mpr fun x hx => ?_
    obtain ⟨k, v⟩ := x
    simp [Std.ExtTreeMap.mem_toList_iff_getElem?_eq_some] at hx
  rw [total, hnil, map_nil, sum_nil]

theorem toList_perm_of_insert (hk : m[k]? = none) (v : ν) :
    (m.insert k v).toList.Perm ((k, v) :: m.toList) := by
  refine (perm_ext_iff_of_nodup (nodup_toList _) (nodup_cons.mpr ⟨?_, nodup_toList _⟩)).mpr fun x => ?_
  · simp [Std.ExtTreeMap.mem_toList_iff_getElem?_eq_some, hk]
  · obtain ⟨k', v'⟩ := x
    rw [mem_cons, Std.ExtTreeMap.mem_toList_iff_getElem?_eq_some, Std.ExtTreeMap.mem_toList_iff_getElem?_eq_some,
      getElem?_insert_eq, Prod.mk.injEq]
    by_cases heq : k = k'
    · subst heq
      rw [if_pos rfl, hk, Option.some.injEq]
      simp [eq_comm]
    · rw [if_neg heq]
      simp [Ne.symm heq]

theorem total_insert {m : OrderedMap κ Nat} (hk : m[k]? = none) (v : Nat) :
    total (m.insert k v) = total m + v := by
  rw [total, ((toList_perm_of_insert hk v).map _).sum_eq, map_cons, sum_cons, Nat.add_comm, total]

theorem total_erase {m : OrderedMap κ Nat} {v : Nat} (hk : m[k]? = some v) :
    total (m.erase k) = total m - v := by
  have hback : (m.erase k).insert k v = m := by
    refine Std.ExtTreeMap.ext_getElem? fun a => ?_
    simp only [getElem?_insert_eq, getElem?_erase_eq]
    by_cases ha : k = a
    · rw [if_pos ha, ← ha, hk]
    · rw [if_neg ha, if_neg ha]
  have hsum := total_insert (m := m.erase k) (k := k) (by simp) v
  rw [hback] at hsum
  omega

/-! ## Positions in a list -/

def IsIndex (m : OrderedMap κ Nat) (keys : List κ) : Prop := ∀ (k : κ) i, m[k]? = some i ↔ keys[i]? = some k

theorem isIndex_empty : IsIndex (∅ : OrderedMap κ Nat) [] := by simp [IsIndex]

namespace IsIndex

variable {m : OrderedMap κ Nat} {keys : List κ}

variable {k : κ}

theorem mem_iff (h : IsIndex m keys) : k ∈ m ↔ k ∈ keys := by
  rw [mem_iff_exists, mem_iff_getElem?]
  exact exists_congr (h k)

theorem nodup (h : IsIndex m keys) : keys.Nodup := by
  refine nodup_iff_getElem?_ne_getElem?.mpr fun i j hij hj heq => ?_
  have hk := getElem?_eq_getElem hj
  have hi := (h _ i).mpr (heq.trans hk)
  exact absurd (Option.some.inj (hi.symm.trans ((h _ j).mpr hk))) (Nat.ne_of_lt hij)

theorem append (h : IsIndex m keys) (hk : k ∉ m) : IsIndex (m.insert k keys.length) (keys ++ [k]) := by
  have hnot := mt h.mem_iff.mpr hk
  intro a i
  rw [getElem?_insert_eq]
  by_cases ha : k = a
  · subst ha
    rw [if_pos rfl, Option.some.injEq]
    constructor
    · intro hi
      subst hi
      simp
    · intro hi
      rcases Nat.lt_or_ge i keys.length with hlt | hge
      · rw [getElem?_append_left hlt] at hi
        exact absurd (List.mem_of_getElem? hi) hnot
      · have hlt := (List.getElem?_eq_some_iff.mp hi).1
        rw [length_append, length_singleton] at hlt
        omega
  · rw [if_neg ha, h a i]
    rcases Nat.lt_or_ge i keys.length with hlt | hge
    · rw [getElem?_append_left hlt]
    · rw [getElem?_append_right hge, getElem?_eq_none hge]
      cases i - keys.length with
      | zero => simp [ha]
      | succ n => simp

end IsIndex

theorem isIndex_foldl_zipIdx {keys : List κ} (h : keys.Nodup) :
    IsIndex (keys.zipIdx.foldl (fun m x => m.insert x.1 x.2) (∅ : OrderedMap κ Nat)) keys := by
  have hfits : Fits (∅ : OrderedMap κ Nat) keys.zipIdx := by
    refine ⟨by simp, fun x hx y hy hxy => ?_⟩
    obtain ⟨k, i⟩ := x
    obtain ⟨k', j⟩ := y
    rw [mk_mem_zipIdx_iff_getElem?] at hx hy
    obtain rfl : k = k' := hxy
    have hi := (List.getElem?_eq_some_iff.mp hx).1
    exact (getElem?_inj hi h).mp (hx.trans hy.symm)
  intro k i
  rw [hfits.getElem?_foldl_insert, mk_mem_zipIdx_iff_getElem?]
  simp

/-! ## Entries created on first use -/

/-- Changes the value of a key, which starts as `init` where the key has none. -/
def upsert (m : OrderedMap κ ν) (k : κ) (init : ν) (change : ν → ν) : OrderedMap κ ν :=
  m.insert k (change (m[k]?.getD init))

@[simp] theorem getElem?_upsert (m : OrderedMap κ ν) (k a : κ) (init : ν) (change : ν → ν) :
    (m.upsert k init change)[a]? = if k = a then some (change (m[k]?.getD init)) else m[a]? :=
  getElem?_insert_eq ..

/-- What a key's value counts, where a key without value counts nothing. -/
def tally (f : ν → Nat) (m : OrderedMap κ ν) (k : κ) : Nat := (m[k]?.map f).getD 0

variable {f : ν → Nat} {init : ν} {change : ν → ν}

theorem tally_upsert {n : Nat} (hinit : f init = 0) (hchange : ∀ v, f (change v) = f v + n) (m : OrderedMap κ ν) (k a : κ) :
    tally f (m.upsert k init change) a = tally f m a + if k = a then n else 0 := by
  rw [tally, tally, getElem?_upsert]
  by_cases hk : k = a
  · subst hk
    cases hm : m[k]? with
    | none => simp [hchange, hinit]
    | some v => simp [hchange]
  · simp [hk]

variable {key : α → κ} {p : α → Bool}

theorem tally_foldl_upsert {init : α → ν} {change : α → ν → ν} {n : α → Nat} (hp : ∀ a, p a = true ↔ key a = k)
    (hinit : ∀ a, f (init a) = 0) (hchange : ∀ a v, f (change a v) = f v + n a) (items : List α) (m : OrderedMap κ ν) :
    tally f (items.foldl (fun m a => m.upsert (key a) (init a) (change a)) m) k =
      tally f m k + ((items.filter p).map n).sum := by
  induction items generalizing m with
  | nil => simp
  | cons a items ih =>
    rw [foldl_cons, ih, tally_upsert (hinit a) (hchange a)]
    by_cases hk : key a = k
    · rw [if_pos hk, filter_cons_of_pos ((hp a).mpr hk), map_cons, sum_cons, Nat.add_assoc]
    · rw [if_neg hk, filter_cons_of_neg (mt (hp a).mp hk), Nat.add_zero]

def collected (items : List ν) : Option (List ν) := if items = [] then none else some items

theorem getElem?_upsert_append {m : OrderedMap κ (List ν)} {items : List ν} (h : m[k]? = collected items) (item : ν) :
    (m.upsert k [] (· ++ [item]))[k]? = collected (items ++ [item]) := by
  rw [getElem?_upsert, if_pos rfl, h]
  unfold collected
  split_ifs <;> simp_all

theorem getElem?_collect (hp : ∀ a, p a = true ↔ key a = k) (val : α → ν) (items : List α) :
    (items.foldl (fun m a => m.upsert (key a) [] (· ++ [val a])) (∅ : OrderedMap κ (List ν)))[k]? =
      collected ((items.filter p).map val) := by
  suffices hfold : ∀ (m : OrderedMap κ (List ν)) front, m[k]? = collected front →
      (items.foldl (fun m a => m.upsert (key a) [] (· ++ [val a])) m)[k]? =
        collected (front ++ (items.filter p).map val) by
    exact hfold ∅ [] (by simp [collected])
  induction items with
  | nil =>
    intro m front h
    simpa using h
  | cons item items ih =>
    intro m front h
    rw [foldl_cons]
    by_cases hown : key item = k
    · rw [ih _ (front ++ [val item]) (hown ▸ getElem?_upsert_append (hown ▸ h) (val item)),
        filter_cons_of_pos ((hp item).mpr hown), map_cons, append_assoc, singleton_append]
    · rw [ih _ front (by rw [getElem?_upsert, if_neg hown, h]), filter_cons_of_neg (mt (hp item).mp hown)]

/-- Changes of different keys commute, and so do changes of one key that agree in either order. -/
theorem upsert_comm (m : OrderedMap κ ν) {j : κ} {init' : ν} {change' : ν → ν}
    (h : j = k → (∀ v, change' (change v) = change (change' v)) ∧ change' (change init) = change (change' init')) :
    (m.upsert j init change).upsert k init' change' = (m.upsert k init' change').upsert j init change := by
  refine Std.ExtTreeMap.ext_getElem? fun a => ?_
  simp only [getElem?_upsert]
  by_cases hjk : j = k
  · obtain ⟨hsome, hnone⟩ := h hjk
    subst hjk
    by_cases hj : j = a
    · cases hm : m[j]? with
      | none => simpa [hj] using hnone
      | some v => simpa [hj] using hsome v
    · simp [hj]
  · by_cases hk : k = a
    · have hja : j ≠ a := fun hja => hjk (hja.trans hk.symm)
      simp [hk, hja]
    · have hkj : k ≠ j := fun hkj => hjk hkj.symm
      simp [hk, hkj]

end OrderedMap

end Zakura
