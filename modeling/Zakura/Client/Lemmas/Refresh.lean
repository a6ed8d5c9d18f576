import Zakura.Client.Refresh
import Zakura.Filter.Lemmas.ShardMap
import Zakura.Lib.Lists

/-! # What an accepted refresh leaves in place -/

namespace Zakura.Client

open List Zakura.Filter

namespace PublishedMap

abbrev TilesFrom (map : PublishedMap) (stop : Nat) : Prop :=
  Tiles (fun shard : PublishedEntry => shard.startHeight.toNat) (fun shard => shard.endHeight.toNat)
    map.startHeight.toNat map.shards stop

variable {map : PublishedMap} {shard : PublishedEntry} {height : UInt64} {stop i : Nat}

theorem checkShape_tilesFrom (h : map.checkShape = .ok ()) : ∃ stop, map.TilesFrom stop := by
  obtain ⟨stop, htiles⟩ := ShardMap.checkShape_tiles h
  exact ⟨stop, Tiles.map_iff.mp htiles⟩

theorem checkShape_id (h : map.checkShape = .ok ()) (hi : map.shards[i]? = some shard) : shard.shardId.toNat = i := by
  obtain ⟨-, hshards, -⟩ := ShardMap.checkShape_parts h
  have hi' : map.shape.shards[i]? = some shard.toShardMapEntry := by
    rw [shape, getElem?_map, hi, Option.map_some]
  rw [ShardMap.checkShards_ids hshards hi', Nat.zero_add]

theorem compareHeight_eq_sideOfInterval (height : UInt64) :
    (fun shard : PublishedEntry => ShardMap.compareHeight height shard.toShardMapEntry) =
      sideOfInterval (fun shard => shard.startHeight.toNat) (fun shard => shard.endHeight.toNat) height.toNat := by
  funext shard
  simp only [ShardMap.compareHeight, sideOfInterval, UInt64.lt_iff_toNat_lt]

theorem shardForHeight_eq_some (htiles : map.TilesFrom stop) : map.shardForHeight height = some shard ↔
    shard ∈ map.shards ∧ shard.startHeight.toNat ≤ height.toNat ∧ height.toNat ≤ shard.endHeight.toNat := by
  rw [shardForHeight, compareHeight_eq_sideOfInterval]
  exact htiles.search_eq_some

theorem shardForHeight_eq_some_of_le (htiles : map.TilesFrom stop) {last : PublishedEntry}
    (hlast : map.shards[i]? = some last) (hle : height ≤ last.endHeight) : map.shardForHeight height = some shard ↔
    shard ∈ map.shards.take (i + 1) ∧ shard.startHeight.toNat ≤ height.toNat ∧
      height.toNat ≤ shard.endHeight.toNat := by
  rw [shardForHeight_eq_some htiles]
  refine and_congr_left fun hcovers => ⟨fun hmem => ?_, mem_of_mem_take⟩
  obtain ⟨j, hj⟩ := mem_iff_getElem?.mp hmem
  have hij : j < i + 1 := by
    by_contra hlt
    have habove : last.endHeight.toNat < shard.startHeight.toNat := htiles.lt_of_index_lt hlast hj (by omega)
    have hle := UInt64.le_iff_toNat_le.mp hle
    omega
  refine List.mem_of_getElem? (i := j) ?_
  rw [getElem?_take_of_lt hij, hj]

theorem id_lt_iff (h : map.checkShape = .ok ()) {entry : PublishedEntry} (hentry : map.shards[i]? = some entry)
    (hrouted : map.shardForHeight height = some shard) :
    shard.shardId < entry.shardId ↔ height < entry.startHeight := by
  obtain ⟨stop, htiles⟩ := checkShape_tilesFrom h
  obtain ⟨hmem, hstart, hend⟩ := (shardForHeight_eq_some htiles).mp hrouted
  obtain ⟨j, hj⟩ := mem_iff_getElem?.mp hmem
  rw [UInt64.lt_iff_toNat_lt, UInt64.lt_iff_toNat_lt, checkShape_id h hentry, checkShape_id h hj]
  rcases Nat.lt_trichotomy j i with hlt | rfl | hgt
  · have hbelow : shard.endHeight.toNat < entry.startHeight.toNat := htiles.lt_of_index_lt hj hentry hlt
    omega
  · cases hj.symm.trans hentry
    omega
  · have habove : entry.endHeight.toNat < shard.startHeight.toNat := htiles.lt_of_index_lt hentry hj hgt
    have hle : entry.startHeight.toNat ≤ entry.endHeight.toNat := (htiles.bounds (List.mem_of_getElem? hentry)).2.1
    omega

end PublishedMap

variable {coveredThrough : UInt64}

theorem checkCovered_prefix {fresh covered rest : List PublishedEntry} {index : Nat}
    (hcovered : ∀ shard ∈ covered, shard.endHeight ≤ coveredThrough)
    (h : checkCovered fresh coveredThrough index (covered ++ rest) = .ok ()) : covered <+: fresh.drop index := by
  induction covered generalizing index with
  | nil => exact nil_prefix
  | cons before covered ih =>
    obtain ⟨hbefore, hlater⟩ := forall_mem_cons.mp hcovered
    rw [cons_append, checkCovered, if_neg (UInt64.not_lt.mpr hbefore)] at h
    cases hafter : fresh[index]? with
    | none =>
      rw [hafter] at h
      cases h
    | some after =>
      rw [hafter] at h
      dsimp only at h
      split_ifs at h with heq
      subst heq
      obtain ⟨hlt, rfl⟩ := List.getElem?_eq_some_iff.mp hafter
      rw [drop_eq_getElem_cons hlt]
      exact cons_prefix_cons.mpr ⟨rfl, ih hlater h⟩

variable {startedFrom fresh : PublishedMap}

theorem checkContinuation_ok (h : checkContinuation startedFrom fresh coveredThrough = .ok ()) :
    fresh.startHeight = startedFrom.startHeight ∧
      checkCovered fresh.shards coveredThrough 0 startedFrom.shards = .ok () := by
  unfold checkContinuation at h
  dsimp only at h
  iterate 6 rw [Except.ite_error_eq_ok] at h
  obtain ⟨-, -, -, -, hstart, -, h⟩ := h
  rw [Except.check_bind_eq_ok, Except.check_bind_eq_ok] at h
  exact ⟨not_not.mp hstart, h.2.1⟩

def coveredShards (map : PublishedMap) (coveredThrough : UInt64) : Nat :=
  map.shards.countP fun shard => shard.endHeight ≤ coveredThrough

theorem take_coveredShards (hshape : startedFrom.checkShape = .ok ())
    (h : checkContinuation startedFrom fresh coveredThrough = .ok ()) :
    fresh.shards.take (coveredShards startedFrom coveredThrough) =
      startedFrom.shards.take (coveredShards startedFrom coveredThrough) := by
  obtain ⟨stop, htiles⟩ := PublishedMap.checkShape_tilesFrom hshape
  have hends : startedFrom.shards.Pairwise fun a b => a.endHeight.toNat < b.endHeight.toNat :=
    htiles.pairwise.imp_of_mem fun _ hb hab => hab.trans_le (htiles.bounds hb).2.1
  have hsplit := eq_filter_append_filter_not hends fun a b hab hb => by
    have hle := UInt64.le_iff_toNat_le.mp (of_decide_eq_true hb : b.endHeight ≤ coveredThrough)
    exact decide_eq_true (UInt64.le_iff_toNat_le.mpr (hab.le.trans hle))
  have hcovered := (checkContinuation_ok h).2
  rw [hsplit] at hcovered
  have hfirst := checkCovered_prefix (fun shard hshard => of_decide_eq_true (mem_filter.mp hshard).2) hcovered
  rw [drop_zero, prefix_iff_eq_take, ← countP_eq_length_filter] at hfirst
  rw [coveredShards, ← hfirst, countP_eq_length_filter]
  nth_rewrite 3 [hsplit]
  rw [take_left]

section Accepted

variable {startedFrom fresh : PublishedMap} {coveredThrough : UInt64} (hshape : startedFrom.checkShape = .ok ())
  (hfresh : fresh.checkShape = .ok ()) (haccepted : checkContinuation startedFrom fresh coveredThrough = .ok ())

include hshape hfresh haccepted

theorem shardForHeight_eq {last : PublishedEntry} (hpos : 0 < coveredShards startedFrom coveredThrough)
    (hlast : startedFrom.shards[coveredShards startedFrom coveredThrough - 1]? = some last) {height : UInt64}
    (hle : height ≤ last.endHeight) : fresh.shardForHeight height = startedFrom.shardForHeight height := by
  have htake := take_coveredShards hshape haccepted
  obtain ⟨stop, htiles⟩ := PublishedMap.checkShape_tilesFrom hshape
  obtain ⟨stop', htiles'⟩ := PublishedMap.checkShape_tilesFrom hfresh
  have hsucc : coveredShards startedFrom coveredThrough - 1 + 1 = coveredShards startedFrom coveredThrough := by omega
  have hlast' : fresh.shards[coveredShards startedFrom coveredThrough - 1]? = some last := by
    have hget := congrArg (·[coveredShards startedFrom coveredThrough - 1]?) htake
    rw [getElem?_take_of_lt (by omega), getElem?_take_of_lt (by omega)] at hget
    exact hget.trans hlast
  refine Option.ext fun shard => ?_
  rw [PublishedMap.shardForHeight_eq_some_of_le htiles hlast hle,
    PublishedMap.shardForHeight_eq_some_of_le htiles' hlast' hle, hsucc, htake]

theorem resumed_startHeight {withdrawn resumed : PublishedEntry}
    (hwithdrawn : startedFrom.shards[coveredShards startedFrom coveredThrough]? = some withdrawn)
    (hresumed : fresh.shards[coveredShards startedFrom coveredThrough]? = some resumed) :
    resumed.startHeight = withdrawn.startHeight := by
  obtain ⟨stop, htiles⟩ := PublishedMap.checkShape_tilesFrom hshape
  obtain ⟨stop', htiles'⟩ := PublishedMap.checkShape_tilesFrom hfresh
  have hbefore := (htiles.split (List.getElem?_eq_some_iff.mp hwithdrawn).1.le).1
  have hafter := (htiles'.split (List.getElem?_eq_some_iff.mp hresumed).1.le).1
  rw [startAt_of_getElem? hwithdrawn] at hbefore
  rw [startAt_of_getElem? hresumed, take_coveredShards hshape haccepted, (checkContinuation_ok haccepted).1] at hafter
  exact UInt64.toNat_inj.mp (hafter.stop_eq hbefore)

end Accepted

end Zakura.Client
