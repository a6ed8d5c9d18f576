import Mathlib.Algebra.Order.Ring.Nat
import Mathlib.Data.List.Nodup
import Mathlib.Data.List.Perm.Basic

/-! # Peeling a hypergraph, and retrieval by xor

Every key touches some slots. A slot touched by one remaining key lets that key be peeled. When every key is
peeled, slots can be filled in reverse order such that the xor over each key's slots is the key's bit. -/

namespace Zakura.Peel

open List

/-! ## Peeling -/

/-- How many remaining keys touch each slot, and the xor of their numbers. -/
structure Counters where
  count : List Nat
  xor : List Nat

namespace Counters

def add (key : Nat) (c : Counters) (slot : Nat) : Counters :=
  ⟨c.count.modify slot (· + 1), c.xor.modify slot (· ^^^ key)⟩

def remove (key : Nat) (c : Counters) (slot : Nat) : Counters :=
  ⟨c.count.modify slot (· - 1), c.xor.modify slot (· ^^^ key)⟩

def empty (slots : Nat) : Counters := ⟨List.replicate slots 0, List.replicate slots 0⟩

def fill (edges : List (List Nat)) (slots : Nat) : Counters :=
  edges.zipIdx.foldl (fun c edge => edge.1.foldl (add edge.2) c) (empty slots)

end Counters

/-- Removes a key from its slots, and stacks those that one key is left to touch. -/
def release (key : Nat) : List Nat → Counters → List Nat → Counters × List Nat
  | [], c, stack => (c, stack)
  | slot :: slots, c, stack =>
    let c := c.remove key slot
    release key slots c (if c.count[slot]? = some 1 then slot :: stack else stack)

/-- The peeling loop: each key with the slot it was peeled from. -/
def loop (edges : List (List Nat)) : Nat → Counters → List Nat → List (Nat × Nat) → List (Nat × Nat)
  | 0, _, _, order => order
  | _ + 1, _, [], order => order
  | fuel + 1, c, slot :: stack, order =>
    if c.count[slot]? = some 1 then
      let key := c.xor[slot]?.getD 0
      let next := release key (edges[key]?.getD []) c stack
      loop edges fuel next.1 next.2 (order ++ [(key, slot)])
    else loop edges fuel c stack order

/-- Peels the hypergraph: the keys in peeling order, or nothing if a core remains. -/
def peel (edges : List (List Nat)) (slots : Nat) : Option (List (Nat × Nat)) :=
  let c := Counters.fill edges slots
  let stack := ((List.range slots).filter fun slot => c.count[slot]? = some 1).reverse
  let order := loop edges (slots + (edges.map List.length).sum + 1) c stack []
  if order.length = edges.length then some order else none

/-! ## What the counters count -/

def slotsOf (edges : List (List Nat)) (key : Nat) : List Nat := edges[key]?.getD []

def touching (edges : List (List Nat)) (keys : List Nat) (slot : Nat) : List Nat :=
  keys.filter fun key => slot ∈ slotsOf edges key

def xorAll (keys : List Nat) : Nat := keys.foldr (· ^^^ ·) 0

theorem xorAll_perm {a b : List Nat} (h : a.Perm b) : xorAll a = xorAll b :=
  h.foldr_eq' (fun x _ y _ z => by rw [← Nat.xor_assoc, ← Nat.xor_assoc, Nat.xor_comm x y]) 0

theorem xorAll_erase {keys : List Nat} {key : Nat} (h : key ∈ keys) : xorAll (keys.erase key) = xorAll keys ^^^ key := by
  have hcons : xorAll keys = key ^^^ xorAll (keys.erase key) := xorAll_perm (perm_cons_erase h)
  rw [hcons, Nat.xor_comm key, Nat.xor_assoc, Nat.xor_self, Nat.xor_zero]

theorem xorAll_append_singleton (keys : List Nat) (key : Nat) : xorAll (keys ++ [key]) = xorAll keys ^^^ key := by
  rw [xorAll_perm (perm_append_singleton key keys), Nat.xor_comm]
  rfl

variable {f : Nat → Nat}

theorem getElem?_modifyAll {slots : List Nat} (hnodup : slots.Nodup) (xs : List Nat) (slot : Nat) :
    (slots.foldl (fun xs slot => xs.modify slot f) xs)[slot]? = if slot ∈ slots then xs[slot]?.map f else xs[slot]? := by
  induction slots generalizing xs with
  | nil => simp
  | cons first slots ih =>
    obtain ⟨hfirst, hrest⟩ := nodup_cons.mp hnodup
    rw [foldl_cons, ih hrest, getElem?_modify]
    by_cases heq : first = slot
    · subst heq
      simp [hfirst]
    · have hne : slot ≠ first := fun h => heq h.symm
      simp [heq, hne]

theorem foldl_add (key : Nat) (slots : List Nat) (c : Counters) :
    slots.foldl (Counters.add key) c = ⟨slots.foldl (fun xs slot => xs.modify slot (· + 1)) c.count,
      slots.foldl (fun xs slot => xs.modify slot (· ^^^ key)) c.xor⟩ := by
  induction slots generalizing c with
  | nil => rfl
  | cons slot slots ih => exact ih (c.add key slot)

theorem foldl_remove (key : Nat) (slots : List Nat) (c : Counters) :
    slots.foldl (Counters.remove key) c = ⟨slots.foldl (fun xs slot => xs.modify slot (· - 1)) c.count,
      slots.foldl (fun xs slot => xs.modify slot (· ^^^ key)) c.xor⟩ := by
  induction slots generalizing c with
  | nil => rfl
  | cons slot slots ih => exact ih (c.remove key slot)

theorem length_modifyAll (slots xs : List Nat) :
    (slots.foldl (fun xs slot => xs.modify slot f) xs).length = xs.length := by
  induction slots generalizing xs with
  | nil => rfl
  | cons slot slots ih => rw [foldl_cons, ih, length_modify]

/-- The counters are those of the remaining keys. -/
structure Counts (edges : List (List Nat)) (slots : Nat) (keys : List Nat) (c : Counters) : Prop where
  length : c.count.length = slots
  count : ∀ slot < slots, c.count[slot]? = some (touching edges keys slot).length
  xor : ∀ slot < slots, c.xor[slot]? = some (xorAll (touching edges keys slot))

/-- Every hyperedge touches distinct slots in range. -/
structure WellFormed (edges : List (List Nat)) (slots : Nat) : Prop where
  nodup : ∀ edge ∈ edges, edge.Nodup
  lt : ∀ edge ∈ edges, ∀ slot ∈ edge, slot < slots

section

variable {edges : List (List Nat)} {slots : Nat} {keys : List Nat} {c : Counters}

theorem WellFormed.nodup_slotsOf (h : WellFormed edges slots) (key : Nat) : (slotsOf edges key).Nodup := by
  unfold slotsOf
  cases hkey : edges[key]? with
  | none => exact nodup_nil
  | some edge => exact h.nodup edge (List.mem_of_getElem? hkey)

theorem counts_empty (edges : List (List Nat)) (slots : Nat) : Counts edges slots [] (.empty slots) where
  length := length_replicate
  count := fun slot hslot => by simp [Counters.empty, touching, hslot]
  xor := fun slot hslot => by simp [Counters.empty, touching, xorAll, hslot]

theorem touching_append (edges : List (List Nat)) (keys : List Nat) (key slot : Nat) :
    touching edges (keys ++ [key]) slot =
      if slot ∈ slotsOf edges key then touching edges keys slot ++ [key] else touching edges keys slot := by
  unfold touching
  rw [filter_append]
  split_ifs with h <;> simp [h]

theorem Counts.add (h : Counts edges slots keys c) (hedges : WellFormed edges slots) (key : Nat) :
    Counts edges slots (keys ++ [key]) ((slotsOf edges key).foldl (Counters.add key) c) := by
  have hnodup := hedges.nodup_slotsOf key
  rw [foldl_add]
  refine ⟨(length_modifyAll ..).trans h.length, fun slot hslot => ?_, fun slot hslot => ?_⟩
  · rw [getElem?_modifyAll hnodup, h.count slot hslot, touching_append]
    split_ifs <;> simp
  · rw [getElem?_modifyAll hnodup, h.xor slot hslot, touching_append]
    split_ifs
    · rw [Option.map_some, xorAll_append_singleton]
    · rfl

theorem fill_counts (hedges : WellFormed edges slots) :
    Counts edges slots (List.range edges.length) (.fill edges slots) := by
  -- The loop over the numbered edges has counted the keys before the next number.
  suffices hloop : ∀ (rest : List (List Nat)) (i : Nat) (c : Counters), (∀ j, rest[j]? = edges[i + j]?) →
      Counts edges slots (List.range i) c → Counts edges slots (List.range (i + rest.length))
        ((rest.zipIdx i).foldl (fun c edge => edge.1.foldl (Counters.add edge.2) c) c) by
    have := hloop edges 0 (.empty slots) (fun j => by rw [Nat.zero_add]) (counts_empty edges slots)
    rwa [Nat.zero_add] at this
  intro rest
  induction rest with
  | nil => exact fun i c _ hc => hc
  | cons edge rest ih =>
    intro i c hrest hc
    have hedge : slotsOf edges i = edge := by
      have hzero := hrest 0
      rw [getElem?_cons_zero, Nat.add_zero] at hzero
      rw [slotsOf, ← hzero, Option.getD_some]
    have hnext := hc.add hedges i
    rw [hedge, ← range_succ] at hnext
    rw [zipIdx_cons, foldl_cons, length_cons, Nat.add_comm rest.length 1, ← Nat.add_assoc]
    refine ih (i + 1) _ (fun j => ?_) hnext
    have hj := hrest (j + 1)
    rwa [getElem?_cons_succ, Nat.add_comm j 1, ← Nat.add_assoc] at hj

theorem touching_erase (hnodup : keys.Nodup) (key slot : Nat) :
    touching edges (keys.erase key) slot = (touching edges keys slot).erase key := by
  unfold touching
  rw [hnodup.erase_eq_filter, (hnodup.filter _).erase_eq_filter, filter_comm]

variable {key : Nat}

theorem Counts.remove (h : Counts edges slots keys c) (hedges : WellFormed edges slots) (hnodup : keys.Nodup)
    (hkey : key ∈ keys) :
    Counts edges slots (keys.erase key) ((slotsOf edges key).foldl (Counters.remove key) c) := by
  have hmem : ∀ slot, key ∈ touching edges keys slot ↔ slot ∈ slotsOf edges key := by
    intro slot
    simp [touching, hkey]
  rw [foldl_remove]
  refine ⟨(length_modifyAll ..).trans h.length, fun slot hslot => ?_, fun slot hslot => ?_⟩
  · rw [getElem?_modifyAll (hedges.nodup_slotsOf key), h.count slot hslot, touching_erase hnodup]
    split_ifs with hin
    · rw [Option.map_some, length_erase_of_mem ((hmem slot).mpr hin)]
    · rw [erase_of_not_mem (mt (hmem slot).mp hin)]
  · rw [getElem?_modifyAll (hedges.nodup_slotsOf key), h.xor slot hslot, touching_erase hnodup]
    split_ifs with hin
    · rw [Option.map_some, xorAll_erase ((hmem slot).mpr hin)]
    · rw [erase_of_not_mem (mt (hmem slot).mp hin)]

variable {slot : Nat}

theorem Counts.single (h : Counts edges slots keys c) (hone : c.count[slot]? = some 1) :
    touching edges keys slot = [c.xor[slot]?.getD 0] := by
  have hslot : slot < slots := by
    rw [← h.length]
    exact (List.getElem?_eq_some_iff.mp hone).1
  rw [h.count slot hslot, Option.some.injEq] at hone
  obtain ⟨key, hkey⟩ := length_eq_one_iff.mp hone
  rw [h.xor slot hslot, hkey, Option.getD_some]
  simp [xorAll]

/-! ## The loop -/

theorem release_fst (key : Nat) (freed : List Nat) (c : Counters) (stack : List Nat) :
    (release key freed c stack).1 = freed.foldl (Counters.remove key) c := by
  induction freed generalizing c stack with
  | nil => rfl
  | cons slot freed ih => exact ih ..

/-- Each peeled key owns a slot that no key peeled later, and no key left, touches. -/
structure Peeled (edges : List (List Nat)) (keys : List Nat) (order : List (Nat × Nat)) : Prop where
  perm : (order.map Prod.fst ++ keys).Perm (List.range edges.length)
  owns : ∀ x ∈ order, x.2 ∈ slotsOf edges x.1
  later : order.Pairwise fun a b => a.2 ∉ slotsOf edges b.1
  left : ∀ x ∈ order, ∀ key ∈ keys, x.2 ∉ slotsOf edges key

variable {order : List (Nat × Nat)}

theorem Peeled.nodup (h : Peeled edges keys order) : keys.Nodup :=
  (nodup_append.mp (h.perm.nodup_iff.mpr nodup_range)).2.1

theorem Peeled.step (h : Peeled edges keys order) (hsingle : touching edges keys slot = [key]) :
    key ∈ keys ∧ Peeled edges (keys.erase key) (order ++ [(key, slot)]) := by
  have hmem : ∀ k, k ∈ keys ∧ slot ∈ slotsOf edges k ↔ k = key := by
    intro k
    have hk : k ∈ touching edges keys slot ↔ k = key := by rw [hsingle, mem_singleton]
    simpa [touching] using hk
  obtain ⟨hkey, howns⟩ := (hmem key).mpr rfl
  refine ⟨hkey, ?_, ?_, ?_, ?_⟩
  · rw [map_append, map_singleton, append_assoc, singleton_append]
    exact ((perm_cons_erase hkey).symm.append_left _).trans h.perm
  · intro x hx
    rcases mem_append.mp hx with hx | hx
    · exact h.owns x hx
    · rw [mem_singleton.mp hx]
      exact howns
  · refine pairwise_append.mpr ⟨h.later, pairwise_singleton .., fun x hx y hy => ?_⟩
    rw [mem_singleton.mp hy]
    exact h.left x hx key hkey
  · intro x hx k hk hin
    have hkept := mem_of_mem_erase hk
    rcases mem_append.mp hx with hx | hx
    · exact h.left x hx k hkept hin
    · rw [mem_singleton.mp hx] at hin
      rw [(hmem k).mp ⟨hkept, hin⟩] at hk
      exact h.nodup.not_mem_erase hk

variable {fuel : Nat} {stack : List Nat}

theorem loop_peeled (hedges : WellFormed edges slots) (hc : Counts edges slots keys c) (h : Peeled edges keys order) :
    ∃ keys', Peeled edges keys' (loop edges fuel c stack order) := by
  induction fuel generalizing keys c stack order with
  | zero => exact ⟨keys, h⟩
  | succ fuel ih =>
    cases stack with
    | nil => exact ⟨keys, h⟩
    | cons slot stack =>
      rw [loop]
      split_ifs with hone
      · obtain ⟨hkey, hnext⟩ := h.step (hc.single hone)
        refine ih ?_ hnext
        rw [release_fst]
        exact hc.remove hedges h.nodup hkey
      · exact ih hc h

theorem peel_spec (hedges : WellFormed edges slots) (h : peel edges slots = some order) :
    (order.map Prod.fst).Perm (List.range edges.length) ∧ (∀ x ∈ order, x.2 ∈ slotsOf edges x.1) ∧
      order.Pairwise fun a b => a.2 ∉ slotsOf edges b.1 := by
  have hstart : Peeled edges (List.range edges.length) [] := ⟨List.Perm.refl _, by simp, List.Pairwise.nil, by simp⟩
  simp only [peel] at h
  split_ifs at h with hall
  obtain rfl := Option.some.inj h
  obtain ⟨keys, hpeeled⟩ := loop_peeled hedges (fill_counts hedges) hstart
  have hlength := hpeeled.perm.length_eq
  rw [length_append, length_map, hall, length_range] at hlength
  obtain rfl : keys = [] := length_eq_zero_iff.mp (by omega)
  have hperm := hpeeled.perm
  rw [append_nil] at hperm
  exact ⟨hperm, hpeeled.owns, hpeeled.later⟩

/-! ## Retrieval -/

def xorAt (array : List Bool) (slots : List Nat) : Bool :=
  slots.foldl (fun acc slot => acc ^^ (array[slot]?.getD false)) false

/-- Fills the slots in reverse peeling order: each key's own slot makes its xor come out right. -/
def assign (edges : List (List Nat)) (bits : List Bool) (slots : Nat) (order : List (Nat × Nat)) : List Bool :=
  order.foldr (fun (key, free) array =>
    let array := array.set free false
    array.set free ((bits[key]?.getD false) ^^ xorAt array (slotsOf edges key))) (List.replicate slots false)

theorem foldl_xor (array : List Bool) (slots : List Nat) (acc : Bool) :
    slots.foldl (fun acc slot => acc ^^ (array[slot]?.getD false)) acc = (acc ^^ xorAt array slots) := by
  unfold xorAt
  induction slots generalizing acc with
  | nil => simp
  | cons slot slots ih => rw [foldl_cons, ih, foldl_cons, ih (false ^^ _), Bool.false_xor, Bool.xor_assoc]

theorem xorAt_cons (array : List Bool) (slot : Nat) (slots : List Nat) :
    xorAt array (slot :: slots) = ((array[slot]?.getD false) ^^ xorAt array slots) := by
  rw [xorAt, foldl_cons, foldl_xor, Bool.false_xor]

variable {array : List Bool} {free : Nat} {v : Bool}

theorem xorAt_set_of_not_mem {slots : List Nat} (h : free ∉ slots) :
    xorAt (array.set free v) slots = xorAt array slots := by
  induction slots with
  | nil => rfl
  | cons slot slots ih =>
    rw [mem_cons, not_or] at h
    rw [xorAt_cons, xorAt_cons, ih h.2, getElem?_set_ne h.1]

theorem xorAt_set_of_mem {slots : List Nat} (hnodup : slots.Nodup) (h : free ∈ slots) (hlt : free < array.length) :
    xorAt (array.set free v) slots = (v ^^ xorAt (array.set free false) slots) := by
  induction slots with
  | nil => simp at h
  | cons slot slots ih =>
    obtain ⟨hslot, hrest⟩ := nodup_cons.mp hnodup
    rw [xorAt_cons, xorAt_cons]
    rcases mem_cons.mp h with rfl | hmem
    · rw [xorAt_set_of_not_mem hslot, xorAt_set_of_not_mem hslot]
      simp [hlt]
    · have hne : free ≠ slot := fun heq => hslot (heq ▸ hmem)
      rw [ih hrest hmem, getElem?_set_ne hne, getElem?_set_ne hne]
      cases (array[slot]?.getD false) <;> simp

theorem length_assign (edges : List (List Nat)) (bits : List Bool) (slots : Nat) (order : List (Nat × Nat)) :
    (assign edges bits slots order).length = slots := by
  induction order with
  | nil => exact length_replicate
  | cons x order ih =>
    have hcons : (assign edges bits slots (x :: order)).length = (assign edges bits slots order).length := by
      simp [assign]
    rw [hcons, ih]

theorem xorAt_assign (hedges : WellFormed edges slots) {bits : List Bool} (howns : ∀ x ∈ order, x.2 ∈ slotsOf edges x.1)
    (hlater : order.Pairwise fun a b => a.2 ∉ slotsOf edges b.1) :
    ∀ x ∈ order, xorAt (assign edges bits slots order) (slotsOf edges x.1) = bits[x.1]?.getD false := by
  induction order with
  | nil => simp
  | cons first order ih =>
    obtain ⟨key, free⟩ := first
    obtain ⟨hfirst, hrest⟩ := pairwise_cons.mp hlater
    have hmem : free ∈ slotsOf edges key := howns _ mem_cons_self
    have hlt : free < (assign edges bits slots order).length := by
      rw [length_assign]
      unfold slotsOf at hmem
      cases hedge : edges[key]? with
      | none => simp [hedge] at hmem
      | some edge =>
        rw [hedge, Option.getD_some] at hmem
        exact hedges.lt edge (List.mem_of_getElem? hedge) free hmem
    have hcons : assign edges bits slots ((key, free) :: order) = (assign edges bits slots order).set free
        ((bits[key]?.getD false) ^^ xorAt ((assign edges bits slots order).set free false) (slotsOf edges key)) := by
      simp [assign]
    intro x hx
    rw [hcons]
    rcases mem_cons.mp hx with rfl | hx
    · rw [xorAt_set_of_mem (hedges.nodup_slotsOf key) hmem hlt, Bool.xor_assoc, Bool.xor_self, Bool.xor_false]
    · rw [xorAt_set_of_not_mem (hfirst x hx)]
      exact ih (fun y hy => howns y (mem_cons_of_mem _ hy)) hrest x hx

theorem xorAt_peel (hedges : WellFormed edges slots) (h : peel edges slots = some order) (hkey : key < edges.length)
    (bits : List Bool) :
    xorAt (assign edges bits slots order) (slotsOf edges key) = bits[key]?.getD false := by
  obtain ⟨hperm, howns, hlater⟩ := peel_spec hedges h
  obtain ⟨x, hx, rfl⟩ := mem_map.mp (hperm.mem_iff.mpr (mem_range.mpr hkey))
  exact xorAt_assign hedges howns hlater x hx

end

end Zakura.Peel
