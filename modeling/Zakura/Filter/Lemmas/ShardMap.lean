import Zakura.Filter.ShardMap
import Zakura.Lib.Except
import Zakura.Lib.Tiles

/-! # What the shape check of a shard map establishes -/

namespace Zakura.Filter.ShardMap

open List Zakura.Except

variable {map : ShardMap} {recut : Recut} {index : Nat}

/-! ## Published entries -/

variable {shard : ShardMapEntry}

theorem checkNeighbours_next {previous : ShardMapEntry} (h : checkNeighbours index previous shard = .ok ()) :
    previous.endHeight.toNat + 1 = shard.startHeight.toNat := by
  unfold checkNeighbours at h
  dsimp only at h
  rw [ite_error_eq_ok, not_not] at h
  exact h.1

theorem checkEntry_le (h : map.checkEntry index shard = .ok ()) :
    shard.startHeight.toNat ≤ shard.endHeight.toNat := by
  unfold checkEntry at h
  dsimp only at h
  rw [ite_error_eq_ok, ite_error_eq_ok] at h
  exact UInt64.le_iff_toNat_le.mp (UInt64.not_lt.mp h.2.1)

variable {previous : Option ShardMapEntry} {shards : List ShardMapEntry}

theorem checkShards_tiles (h : map.checkShards index previous shards = .ok ()) :
    ∃ start stop, Tiles (fun e : ShardMapEntry => e.startHeight.toNat) (fun e => e.endHeight.toNat) start shards stop ∧
      ∀ e, previous = some e → shards ≠ [] → e.endHeight.toNat + 1 = start := by
  induction shards generalizing index previous with
  | nil => exact ⟨0, 0, rfl, fun e _ hne => absurd rfl hne⟩
  | cons shard shards ih =>
    rw [checkShards, check_bind_eq_ok, check_bind_eq_ok] at h
    obtain ⟨hentry, hneighbours, hrest⟩ := h
    have hle := checkEntry_le hentry
    have hnext : ∀ e, previous = some e → e.endHeight.toNat + 1 = shard.startHeight.toNat := by
      rintro e rfl
      exact checkNeighbours_next hneighbours
    obtain ⟨start, stop, htiles, hstart⟩ := ih hrest
    cases shards with
    | nil => exact ⟨_, _, ⟨rfl, hle, rfl⟩, fun e he _ => hnext e he⟩
    | cons next shards =>
      obtain rfl := hstart shard rfl (cons_ne_nil next shards)
      exact ⟨_, stop, ⟨rfl, hle, htiles⟩, fun e he _ => hnext e he⟩

theorem checkShards_ids (h : map.checkShards index previous shards = .ok ()) {i : Nat} (hi : shards[i]? = some shard) :
    shard.shardId.toNat = index + i := by
  induction shards generalizing index previous i with
  | nil => cases hi
  | cons first shards ih =>
    rw [checkShards, check_bind_eq_ok, check_bind_eq_ok] at h
    cases i with
    | zero =>
      cases hi
      have hentry := h.1
      unfold checkEntry at hentry
      dsimp only at hentry
      rw [ite_error_eq_ok, not_not] at hentry
      exact hentry.1
    | succ i =>
      rw [ih h.2.2 hi]
      omega

theorem checkShape_parts (h : map.checkShape = .ok ()) :
    (∃ first, map.shards.head? = some first ∧ first.startHeight = map.startHeight) ∧
      map.checkShards 0 none map.shards = .ok () ∧ map.checkRecuts = .ok () := by
  unfold checkShape at h
  cases hhead : map.shards.head? with
  | none =>
    rw [hhead] at h
    cases h
  | some first =>
    rw [hhead] at h
    dsimp only at h
    rw [ite_error_eq_ok, check_bind_eq_ok, not_not] at h
    exact ⟨⟨first, rfl, h.1⟩, h.2⟩

theorem checkShape_tiles (h : map.checkShape = .ok ()) :
    ∃ stop, Tiles (fun e : ShardMapEntry => e.startHeight.toNat) (fun e => e.endHeight.toNat) map.startHeight.toNat
      map.shards stop := by
  obtain ⟨⟨first, hfirst, hstart⟩, hshards, -⟩ := checkShape_parts h
  obtain ⟨start, stop, htiles, -⟩ := checkShards_tiles hshards
  refine ⟨stop, ?_⟩
  rw [← hstart, htiles.head hfirst]
  exact htiles

theorem checkShape_starts (h : map.checkShape = .ok ()) :
    map.shards.Pairwise fun a b => a.startHeight ≠ b.startHeight := by
  obtain ⟨stop, htiles⟩ := checkShape_tiles h
  refine htiles.pairwise.imp_of_mem fun {a b} ha _ hab heq => ?_
  have hle := (htiles.bounds ha).2.1
  rw [heq] at hle
  omega

theorem published_le_one (h : map.checkShape = .ok ()) (geometry : String) (startHeight : UInt64) :
    (map.shards.filter fun entry => entry.geometry = geometry ∧ entry.startHeight = startHeight).length ≤ 1 := by
  have hpairs := (checkShape_starts h).filter fun entry => entry.geometry = geometry ∧ entry.startHeight = startHeight
  match hlist : map.shards.filter fun entry => entry.geometry = geometry ∧ entry.startHeight = startHeight with
  | [] =>
    rw [hlist]
    exact Nat.zero_le 1
  | [_] =>
    rw [hlist]
    exact Nat.le_refl 1
  | a :: b :: rest =>
    rw [hlist] at hpairs
    have hstart : ∀ e ∈ a :: b :: rest, e.startHeight = startHeight := by
      intro e he
      rw [← hlist, mem_filter, decide_eq_true_eq] at he
      exact he.2.2
    refine absurd ?_ (rel_of_pairwise_cons hpairs mem_cons_self)
    rw [hstart a mem_cons_self, hstart b (mem_cons_of_mem a mem_cons_self)]

/-! ## Superseded entries -/

variable {digests : List String}

theorem checkSupersededShard_ok {previous : Option SupersededShard} {shard : SupersededShard}
    (h : map.checkSupersededShard recut index previous digests shard = .ok ()) :
    shard.startHeight.toNat ≤ shard.endHeight.toNat ∧
      (∀ e, previous = some e → e.endHeight.toNat + 1 = shard.startHeight.toNat) ∧
      ∀ revision, map.current shard.geometry shard.startHeight = some revision → shard.revision < revision := by
  unfold checkSupersededShard at h
  dsimp only at h
  iterate 9 rw [ite_error_eq_ok] at h
  obtain ⟨hrange, hfollows, -, -, -, -, -, -, hrevision, -⟩ := h
  refine ⟨by omega, ?_, fun revision hcurrent => ?_⟩
  · rintro e rfl
    rw [Option.any_some, Bool.not_eq_true', follows, decide_eq_false_iff_not, not_not] at hfollows
    exact hfollows.1
  · rw [hcurrent, Option.any_some, decide_eq_true_eq, UInt32.not_le] at hrevision
    exact hrevision

variable {after : List String}

theorem checkSuperseded_ok {previous : Option SupersededShard} {shards : List SupersededShard}
    (h : map.checkSuperseded recut index previous digests shards = .ok after) :
    (∃ start stop, Tiles (fun e : SupersededShard => e.startHeight.toNat) (fun e => e.endHeight.toNat) start shards
      stop ∧ ∀ e, previous = some e → shards ≠ [] → e.endHeight.toNat + 1 = start) ∧
      ∀ shard ∈ shards, ∀ revision, map.current shard.geometry shard.startHeight = some revision →
        shard.revision < revision := by
  induction shards generalizing index previous digests with
  | nil => exact ⟨⟨0, 0, rfl, fun e _ hne => absurd rfl hne⟩, fun shard hmem => absurd hmem not_mem_nil⟩
  | cons shard shards ih =>
    rw [checkSuperseded, check_bind_eq_ok] at h
    obtain ⟨hle, hnext, hbelow⟩ := checkSupersededShard_ok h.1
    obtain ⟨⟨start, stop, htiles, hstart⟩, hrest⟩ := ih h.2
    refine ⟨?_, forall_mem_cons.mpr ⟨hbelow, hrest⟩⟩
    cases shards with
    | nil => exact ⟨_, _, ⟨rfl, hle, rfl⟩, fun e he _ => hnext e he⟩
    | cons next shards =>
      obtain rfl := hstart shard rfl (cons_ne_nil next shards)
      exact ⟨_, stop, ⟨rfl, hle, htiles⟩, fun e he _ => hnext e he⟩

/-- What a re-cut that passes satisfies on its own. -/
def Passes (map : ShardMap) (recut : Recut) : Prop :=
  (recut.superseded.Pairwise fun a b => a.startHeight ≠ b.startHeight) ∧
    ∀ shard ∈ recut.superseded, ∀ revision, map.current shard.geometry shard.startHeight = some revision →
      shard.revision < revision

variable {before : UInt32}

theorem checkRecut_ok (h : map.checkRecut before digests recut = .ok after) : before < recut.epoch ∧ map.Passes recut := by
  unfold checkRecut at h
  dsimp only at h
  rw [ite_error_eq_ok, ite_error_eq_ok] at h
  obtain ⟨hepoch, -, h⟩ := h
  cases hhead : recut.superseded.head? with
  | none =>
    rw [hhead] at h
    cases h
  | some first =>
    rw [hhead] at h
    dsimp only at h
    rw [ite_error_eq_ok] at h
    obtain ⟨⟨start, stop, htiles, -⟩, hbelow⟩ := checkSuperseded_ok h.2
    refine ⟨UInt32.not_le.mp hepoch, ?_, hbelow⟩
    refine htiles.pairwise.imp_of_mem fun {a b} ha _ hab heq => ?_
    have hle := (htiles.bounds ha).2.1
    rw [heq] at hle
    omega

/-- By induction on the re-cuts: the epochs rise, and each re-cut passes. -/
theorem checkRecutsFrom_ok {recuts : List Recut} (h : map.checkRecutsFrom before digests recuts = .ok ()) :
    (∀ recut ∈ recuts, before < recut.epoch ∧ map.Passes recut) ∧ recuts.Pairwise fun a b => a.epoch < b.epoch := by
  induction recuts generalizing before digests with
  | nil => exact ⟨fun recut hmem => absurd hmem not_mem_nil, List.Pairwise.nil⟩
  | cons recut recuts ih =>
    rw [checkRecutsFrom, bind_eq_ok] at h
    obtain ⟨after, hrecut, hrest⟩ := h
    obtain ⟨hepoch, hpasses⟩ := checkRecut_ok hrecut
    obtain ⟨hall, hpairs⟩ := ih hrest
    refine ⟨forall_mem_cons.mpr ⟨⟨hepoch, hpasses⟩, fun later hlater => ?_⟩, pairwise_cons.mpr
      ⟨fun later hlater => (hall later hlater).1, hpairs⟩⟩
    exact ⟨UInt32.lt_trans hepoch (hall later hlater).1, (hall later hlater).2⟩

theorem checkShape_recuts (h : map.checkShape = .ok ()) :
    (∀ recut ∈ map.recuts, map.Passes recut) ∧ map.recuts.Pairwise fun a b => a.epoch < b.epoch := by
  obtain ⟨-, -, hrecuts⟩ := checkShape_parts h
  unfold checkRecuts at hrecuts
  dsimp only at hrecuts
  rw [ite_error_eq_ok, check_bind_eq_ok] at hrecuts
  obtain ⟨hall, hpairs⟩ := checkRecutsFrom_ok hrecuts.2.1
  exact ⟨fun recut hmem => (hall recut hmem).2, hpairs⟩

theorem recutsByEpoch_eq (h : map.checkShape = .ok ()) : map.recutsByEpoch = map.recuts := by
  refine mergeSort_of_pairwise ?_
  exact (checkShape_recuts h).2.imp fun hlt => decide_eq_true (UInt32.le_of_lt hlt)

theorem superseded_lt_published (h : map.checkShape = .ok ()) {shard : SupersededShard} {entry : ShardMapEntry}
    (hrecut : recut ∈ map.recuts) (hshard : shard ∈ recut.superseded) (hentry : entry ∈ map.shards)
    (hgeometry : entry.geometry = shard.geometry) (hstart : entry.startHeight = shard.startHeight) :
    shard.revision < entry.revision := by
  refine ((checkShape_recuts h).1 recut hrecut).2 shard hshard entry.revision ?_
  have hone := published_le_one h shard.geometry shard.startHeight
  have hmem : entry ∈ map.shards.filter fun e => e.geometry = shard.geometry ∧ e.startHeight = shard.startHeight :=
    mem_filter.mpr ⟨hentry, decide_eq_true ⟨hgeometry, hstart⟩⟩
  rw [current]
  match hlist : map.shards.filter fun e => e.geometry = shard.geometry ∧ e.startHeight = shard.startHeight with
  | [] =>
    rw [hlist] at hmem
    exact absurd hmem not_mem_nil
  | [only] =>
    rw [hlist] at hmem ⊢
    obtain rfl := mem_singleton.mp hmem
    rfl
  | a :: b :: rest =>
    rw [hlist, length_cons, length_cons] at hone
    omega

end Zakura.Filter.ShardMap
