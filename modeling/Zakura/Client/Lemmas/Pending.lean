import Zakura.Client.Lemmas.MemoryStore

/-! # Pending items and cached runs after a commit

The limit on pending items is checked against an estimate made from the lengths of the commit's lists. -/

namespace Zakura.Client.MemoryStore

open List OrderedMap

variable {store after : MemoryStore} {commit : ShardCommit}

def upsertIds (commit : ShardCommit) : List Nat := commit.pendingUpsert.filterMap (·.id)

def freshCount (commit : ShardCommit) : Nat := (commit.pendingUpsert.filter fun p => p.id.isNone).length

def idsAfter (store : MemoryStore) (commit : ShardCommit) : Finset Nat :=
  keySet store.pending \ commit.pendingComplete.toFinset ∪ (upsertIds commit).toFinset

/-! ## The items -/

theorem card_foldl_upsertPending (items : List PendingPages) (pending : OrderedMap Nat PendingPages) (next : Nat) :
    (keySet (items.foldl upsertPending (pending, next)).1).card ≤
      (keySet pending ∪ (items.filterMap (·.id)).toFinset).card + (items.filter fun p => p.id.isNone).length := by
  induction items generalizing pending next with
  | nil => simp
  | cons item items ih =>
    rw [foldl_cons, upsertPending]
    cases hid : item.id with
    | some id =>
      refine (ih _ _).trans (le_of_eq ?_)
      rw [keySet_insert, filterMap_cons_some hid, filter_cons_of_neg (by simp [hid]), toFinset_cons,
        Finset.insert_union, Finset.union_insert]
    | none =>
      refine (ih _ _).trans ?_
      rw [keySet_insert, filterMap_cons_none hid, filter_cons_of_pos (by simp [hid]), Finset.insert_union,
        length_cons, Nat.add_comm (List.length _), ← Nat.add_assoc]
      exact Nat.add_le_add_right (Finset.card_insert_le _ _) _

theorem size_applyCommit_le (new : List StoredEvent) :
    (store.applyCommit commit new).pending.size ≤ (store.idsAfter commit).card + freshCount commit := by
  rw [applyCommit_pending, ← card_keySet, updatePending]
  refine (card_foldl_upsertPending _ _ _).trans (le_of_eq ?_)
  rw [keySet_foldl_erase, idsAfter, upsertIds, freshCount]

/-- The estimate counts right: every item with an id is pending already and stays so, and every completed id is
pending and named once, unless all pending ones are completed. -/
def CountsRight (store : MemoryStore) (commit : ShardCommit) : Prop :=
  (∀ item ∈ commit.pendingUpsert, ∀ id, item.id = some id → id ∈ store.pending ∧ id ∉ commit.pendingComplete) ∧
    ((commit.pendingComplete.Nodup ∧ ∀ id ∈ commit.pendingComplete, id ∈ store.pending) ∨
      ∀ id ∈ store.pending, id ∈ commit.pendingComplete)

theorem card_completed_iff (pending : Finset Nat) (complete : List Nat) :
    min complete.length pending.card ≤ (pending ∩ complete.toFinset).card ↔
      (complete.Nodup ∧ ∀ id ∈ complete, id ∈ pending) ∨ ∀ id ∈ pending, id ∈ complete := by
  constructor
  · intro h
    rcases le_total complete.length pending.card with hle | hle
    · left
      rw [min_eq_left hle] at h
      have hcard : complete.length ≤ complete.toFinset.card := h.trans (Finset.card_le_card Finset.inter_subset_right)
      have hinter : pending ∩ complete.toFinset = complete.toFinset :=
        Finset.eq_of_subset_of_card_le Finset.inter_subset_right ((toFinset_card_le complete).trans h)
      refine ⟨Multiset.coe_nodup.mp (Multiset.toFinset_card_eq_card_iff_nodup.mp ?_), fun id hid => ?_⟩
      · exact le_antisymm (toFinset_card_le complete) hcard
      · exact Finset.inter_eq_right.mp hinter (mem_toFinset.mpr hid)
    · right
      rw [min_eq_right hle] at h
      have hinter : pending ∩ complete.toFinset = pending :=
        Finset.eq_of_subset_of_card_le Finset.inter_subset_left h
      exact fun id hid => mem_toFinset.mp (Finset.inter_eq_left.mp hinter hid)
  · rintro (⟨hnodup, hsub⟩ | hsub)
    · have hinter : pending ∩ complete.toFinset = complete.toFinset :=
        Finset.inter_eq_right.mpr fun id hid => hsub id (mem_toFinset.mp hid)
      rw [hinter, toFinset_card_of_nodup hnodup]
      exact min_le_left _ _
    · have hinter : pending ∩ complete.toFinset = pending :=
        Finset.inter_eq_left.mpr fun id hid => mem_toFinset.mpr (hsub id hid)
      rw [hinter]
      exact min_le_right _ _

theorem countsRight_iff :
    CountsRight store commit ↔ (store.idsAfter commit).card + freshCount commit ≤ store.pendingAfter commit := by
  have hsplit : (keySet store.pending \ commit.pendingComplete.toFinset).card +
      (keySet store.pending ∩ commit.pendingComplete.toFinset).card = store.pending.size := by
    rw [Finset.card_sdiff_add_card_inter, card_keySet]
  have hkept : (keySet store.pending \ commit.pendingComplete.toFinset).card ≤ (store.idsAfter commit).card :=
    Finset.card_le_card Finset.subset_union_left
  have hdone : (keySet store.pending ∩ commit.pendingComplete.toFinset).card ≤
      min commit.pendingComplete.length store.pending.size := by
    rw [← card_keySet]
    exact le_min ((Finset.card_le_card Finset.inter_subset_right).trans (toFinset_card_le _))
      (Finset.card_le_card Finset.inter_subset_left)
  have hupsert : (∀ item ∈ commit.pendingUpsert, ∀ id, item.id = some id →
      id ∈ store.pending ∧ id ∉ commit.pendingComplete) ↔
      (store.idsAfter commit).card ≤ (keySet store.pending \ commit.pendingComplete.toFinset).card := by
    rw [idsAfter, Finset.eq_iff_card_le_of_subset Finset.subset_union_left, eq_comm, Finset.union_eq_left]
    simp only [Finset.subset_iff, mem_toFinset, upsertIds, mem_filterMap, Finset.mem_sdiff, mem_keySet]
    constructor
    · rintro h id ⟨item, hitem, hid⟩
      exact h item hitem id hid
    · exact fun h item hitem id hid => h ⟨item, hitem, hid⟩
  have hcomplete := card_completed_iff (keySet store.pending) commit.pendingComplete
  rw [card_keySet] at hcomplete
  simp only [mem_keySet] at hcomplete
  rw [CountsRight, hupsert, ← hcomplete, pendingAfter, freshCount]
  omega

theorem CountsRight.size_le (h : CountsRight store commit) (hok : store.commitShard commit = .ok after) :
    after.pending.size ≤ after.pendingLimit := by
  obtain ⟨new, hcheck, rfl⟩ := commitShard_eq_ok.mp hok
  obtain ⟨-, -, -, -, -, -, hlimit, -⟩ := checkCommit_eq_ok.mp hcheck
  calc (store.applyCommit commit new).pending.size
      ≤ (store.idsAfter commit).card + freshCount commit := size_applyCommit_le new
    _ ≤ store.pendingAfter commit := countsRight_iff.mp h
    _ ≤ store.pendingLimit := hlimit
    _ = (store.applyCommit commit new).pendingLimit := by rw [pendingLimit, pendingLimit, applyCommit_limit]

end Zakura.Client.MemoryStore
