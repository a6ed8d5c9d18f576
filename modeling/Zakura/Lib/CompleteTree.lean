import Mathlib.Data.List.Infix
import Mathlib.Data.Nat.Bitwise

/-! # Complete binary trees, level by level

The nodes of a level are the pairs of the one below. Only complete subtrees have a node, so more leaves only add
nodes, and a leaf climbs to the root along its siblings. -/

namespace Zakura

open List

variable {α : Type}

/-- The nodes over adjacent pairs; an odd last one waits for its sibling. -/
def pairUp (f : α → α → α) : List α → List α
  | a :: b :: rest => f a b :: pairUp f rest
  | _ => []

variable {f : α → α → α} {xs ys : List α}

theorem length_pairUp (f : α → α → α) (xs : List α) : (pairUp f xs).length = xs.length / 2 := by
  fun_induction pairUp f xs with
  | case1 a b rest ih =>
    rw [length_cons, ih, length_cons, length_cons]
    omega
  | case2 xs hshort =>
    match xs, hshort with
    | [], _ => exact (Nat.zero_div 2).symm
    | [_], _ => exact (Nat.div_eq_of_lt Nat.one_lt_two).symm
    | a :: b :: rest, hshort => exact absurd rfl (hshort a b rest)

theorem getElem?_pairUp (f : α → α → α) (xs : List α) (i : Nat) :
    (pairUp f xs)[i]? = xs[2 * i]?.bind fun a => xs[2 * i + 1]?.map fun b => f a b := by
  fun_induction pairUp f xs generalizing i with
  | case1 a b rest ih =>
    cases i with
    | zero => rfl
    | succ i =>
      rw [getElem?_cons_succ, ih i]
      rfl
  | case2 xs hshort =>
    match xs, hshort with
    | [], _ => rfl
    | [a], _ =>
      cases i with
      | zero => rfl
      | succ i => rfl
    | a :: b :: rest, hshort => exact absurd rfl (hshort a b rest)

theorem pairUp_prefix (h : xs <+: ys) : pairUp f xs <+: pairUp f ys := by
  fun_induction pairUp f xs generalizing ys with
  | case1 a b rest ih =>
    obtain ⟨more, rfl⟩ := h
    rw [cons_append, cons_append, pairUp]
    exact cons_prefix_cons.mpr ⟨rfl, ih (prefix_append _ _)⟩
  | case2 xs hshort => exact nil_prefix

variable (combine : Nat → α → α → α)

def nodesAt (leaves : List α) : Nat → List α
  | 0 => leaves
  | level + 1 => pairUp (combine level) (nodesAt leaves level)

theorem length_nodesAt (leaves : List α) (level : Nat) :
    (nodesAt combine leaves level).length = leaves.length / 2 ^ level := by
  induction level with
  | zero => rw [nodesAt, pow_zero, Nat.div_one]
  | succ level ih => rw [nodesAt, length_pairUp, ih, Nat.div_div_eq_div_mul, pow_succ]

theorem nodesAt_append {leaves more : List α} (h : leaves <+: more) (level : Nat) :
    nodesAt combine leaves level <+: nodesAt combine more level := by
  induction level with
  | zero => exact h
  | succ level ih => exact pairUp_prefix ih

/-- The node reached from one at a level and an index, along its siblings. -/
def climb : Nat → Nat → α → List α → α
  | _, _, node, [] => node
  | level, index, node, sibling :: siblings =>
    let parent := if index % 2 = 0 then combine level node sibling else combine level sibling node
    climb (level + 1) (index / 2) parent siblings

theorem getElem?_parent {leaves : List α} {level index : Nat} {node sibling : α}
    (hnode : (nodesAt combine leaves level)[index]? = some node)
    (hsibling : (nodesAt combine leaves level)[index ^^^ 1]? = some sibling) :
    (nodesAt combine leaves (level + 1))[index / 2]? =
      some (if index % 2 = 0 then combine level node sibling else combine level sibling node) := by
  rw [nodesAt, getElem?_pairUp]
  rcases Nat.mod_two_eq_zero_or_one index with heven | hodd
  · rw [Nat.xor_one_of_even (Nat.even_iff.mpr heven)] at hsibling
    rw [if_pos heven, show 2 * (index / 2) = index by omega, hnode, Option.bind_some, hsibling, Option.map_some]
  · rw [Nat.xor_one_of_odd (Nat.odd_iff.mpr hodd)] at hsibling
    rw [if_neg (by omega), show 2 * (index / 2) = index - 1 by omega, show index - 1 + 1 = index by omega, hsibling,
      Option.bind_some, hnode, Option.map_some]

theorem getElem?_climb {leaves : List α} {level index : Nat} {node : α} {siblings : List α}
    (hnode : (nodesAt combine leaves level)[index]? = some node)
    (hsiblings : ∀ up sibling, siblings[up]? = some sibling →
      (nodesAt combine leaves (level + up))[(index / 2 ^ up) ^^^ 1]? = some sibling) :
    (nodesAt combine leaves (level + siblings.length))[index / 2 ^ siblings.length]? =
      some (climb combine level index node siblings) := by
  induction siblings generalizing level index node with
  | nil => simpa [climb] using hnode
  | cons sibling siblings ih =>
    have hsibling := hsiblings 0 sibling rfl
    rw [Nat.add_zero, pow_zero, Nat.div_one] at hsibling
    have hparent := getElem?_parent combine hnode hsibling
    have hrest := ih hparent fun up sibling hup => by
      have hnext := hsiblings (up + 1) sibling hup
      rwa [Nat.div_div_eq_div_mul, ← pow_succ', show level + 1 + up = level + (up + 1) by omega]
    rw [Nat.div_div_eq_div_mul, ← pow_succ'] at hrest
    rw [length_cons, climb, show level + (siblings.length + 1) = level + 1 + siblings.length by omega]
    exact hrest

end Zakura
