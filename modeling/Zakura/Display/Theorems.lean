import Zakura.Display.Lemmas.Seal
import Zakura.Display.Lemmas.Split

/-! # Display shards

Splitting the map keeps every shard and every route, and a checked split routes every sealed height. Sealing as the
tip advances makes the seals of one pass. -/

namespace Zakura.Display

open List Checked

theorem split_routes :
    (∀ (encoding : Encoding) (map : DisplayMap), map.checkShape = pure () →
      map.firstShardId.toNat + map.archives.length < 2 ^ 64 →
      ∃ split : SplitMap, map.split encoding = pure split ∧
        (split.chunks.flatMap fun chunk => chunk.chunk.shards) ++ split.recent.recent.toList = map.shards ∧
        ∀ height, (map.shardForHeight height : Checked String (Option DisplayMapEntry)) =
          pure (split.recent.route (split.chunks.map (·.chunk)) height)) ∧
    (∀ (map : DisplayRecentMap) (chunks : List DisplayIndexChunk), map.checkStructure = pure () →
      chunks.length = map.chunks.length →
      (∀ index chunk, chunks[index]? = some chunk → map.checkChunkStructure index chunk = pure ()) →
      ∀ height, map.startHeight.toNat ≤ height → height < map.unsealedStart.toNat →
        ∃ shard ∈ chunks.flatMap (·.shards), Covers shard height ∧ map.route chunks height = some shard ∧
          ∀ other ∈ chunks.flatMap (·.shards), Covers other height → other = shard) ∧
    (∀ map : DisplayRecentMap, Returns map.checkStructure ∧
      (map.checkStructure = pure () → ∀ index chunk, Returns (map.checkChunkStructure index chunk))) := by
  refine ⟨fun encoding map hshape hroom => ?_, fun map chunks hstructure hlength hpass height hstart hstop => ?_,
    fun map => ⟨map.checkStructure_returns, fun hstructure index chunk => ?_⟩⟩
  · obtain ⟨unsealed, hunsealed, hshaped⟩ := DisplayMap.checkShape_ok hshape
    refine ⟨_, DisplayMap.split_eq hshaped hroom hshape (hunsealed String), ?_, DisplayMap.route_eq hshaped hroom hunsealed⟩
    rw [DisplayMap.splitChunks_shards]
    exact hshaped.shards_eq.symm
  · have haccepted : map.Accepted chunks := ⟨hlength, hpass⟩
    obtain ⟨shard, hmem, hcovers, hroute⟩ := haccepted.route hstructure hstart hstop
    refine ⟨shard, hmem, hcovers, hroute, fun other hother hcovers' => ?_⟩
    exact (haccepted.tiles hstructure).eq_of_covers hother hmem hcovers' hcovers
  · exact (DisplayRecentMap.checkStructure_ok hstructure).1.checkChunkStructure_returns index chunk

def zeroDigest : String := String.ofList (List.replicate 64 '0')

/-- A shard of a map whose blocks all have one hash. -/
def displayShard (shardId startHeight endHeight : UInt64) (sealed : Bool) : DisplayMapEntry where
  shardId
  startHeight
  endHeight
  parentBlockHash := ""
  terminalBlockHash := ""
  geometry := "txid-2k8"
  nBuckets := 1
  directorySegments := [1]
  placementSeeds := [0]
  records := 0
  minBucketRecords := 0
  manifestDigest := zeroDigest
  revision := 0
  sealed

/-- The archives 31 and 32, which lie in different chunks, and a recent shard. -/
def threeShards : DisplayMap where
  schema := displaySchema
  network := "main"
  genesisHash := ""
  sealParams := ⟨1, 1, 0, 0, 0⟩
  startHeight := 100
  firstShardId := 31
  shards := [displayShard 31 100 109 true, displayShard 32 110 119 true, displayShard 33 120 125 false]

def twoChunks : List DisplayIndexChunk :=
  [⟨displaySchema, 0, [displayShard 31 100 109 true]⟩, ⟨displaySchema, 32, [displayShard 32 110 119 true]⟩]

def twoChunkMap : DisplayRecentMap :=
  ⟨displaySchema, "main", "", ⟨1, 1, 0, 0, 0⟩, 100, 31, 2, 120, 32, [⟨100, zeroDigest⟩, ⟨110, zeroDigest⟩],
    some (displayShard 33 120 125 false)⟩

/-- The map of three shards is split and routes the height 115; the split map routes the height 105. -/
theorem split_routes_two_chunks :
    (∃ split : SplitMap, threeShards.split ⟨fun _ => [], fun _ => [], fun _ => .zero 32⟩ = pure split ∧
      split.recent.route (split.chunks.map (·.chunk)) 115 = some (displayShard 32 110 119 true)) ∧
    ∃ shard ∈ twoChunks.flatMap (·.shards), Covers shard 105 ∧ twoChunkMap.route twoChunks 105 = some shard := by
  constructor
  · obtain ⟨split, hsplit, -, hroute⟩ := split_routes.1 ⟨fun _ => [], fun _ => [], fun _ => .zero 32⟩ threeShards
      rfl (by decide)
    have hmap : (threeShards.shardForHeight 115 : Checked String (Option DisplayMapEntry)) =
        pure (some (displayShard 32 110 119 true)) := rfl
    exact ⟨split, hsplit, Except.ok.inj (done_inj.mp ((hroute 115).symm.trans hmap))⟩
  · have hchunks : ∀ index chunk, twoChunks[index]? = some chunk →
        twoChunkMap.checkChunkStructure index chunk = pure () := by
      rintro (_ | _ | index) chunk ⟨⟩ <;> rfl
    obtain ⟨shard, hmem, hcovers, hroute, -⟩ :=
      split_routes.2.1 twoChunkMap twoChunks rfl rfl hchunks 105 (by decide) (by decide)
    exact ⟨shard, hmem, hcovers, hroute⟩

/-! ## Sealing -/

/-- The blocks of the heights from one to another, for a chain that starts at `start`. -/
def blocksOf (start : Nat) (counts : List HeightCounts) (first last : Nat) : List HeightCounts :=
  span counts (first - start) (last - start)

/-- Planning at each tip of any rising schedule makes the seals of one plan at its last tip. The seals tile the
heights from the start; each ends at the first height where every archive bucket of its range holds the target, the
margin below the tip, and no further seal is due behind the last one. -/
theorem incremental_sealing_eq_bootstrap (params : DisplaySealParams) (start : Nat) (counts : List HeightCounts)
    (hfit : start + counts.length + params.reorgMargin ≤ 2 ^ 64) :
    (∀ tips : List Nat, tips.Pairwise (· ≤ ·) → (∀ tip ∈ tips, tip ≤ counts.length) →
      planTips params start counts tips 0 = planSeals params start (counts.take (tips.getLastD 0))) ∧
    (∃ stop ≤ start + counts.length,
      Tiles (fun range : Nat × Nat => range.1) (fun range => range.2) start (planSeals params start counts) stop ∧
      ∀ height, stop ≤ height → height + params.reorgMargin + 1 ≤ start + counts.length →
        ¬ reached params (blocksOf start counts stop height) = true) ∧
    (∀ range ∈ planSeals params start counts, range.2 + params.reorgMargin + 1 ≤ start + counts.length ∧
      reached params (blocksOf start counts range.1 range.2) = true ∧
      ∀ height, range.1 ≤ height → height < range.2 →
        ¬ reached params (blocksOf start counts range.1 height) = true) ∧
    ∀ blocks : List HeightCounts, (∀ bucket < params.nArchive, (blocks.map (inBucket bucket)).sum < 2 ^ 64) →
      (reached params blocks = true ↔
        ∀ bucket < params.nArchive, params.archiveTarget ≤ (blocks.map (inBucket bucket)).sum) := by
  have hwhole : planSeals params start counts =
      (pieces (nextSeal params counts) (counts.length - params.reorgMargin) counts.length 0).map (atHeights start) := by
    have hplan : planSeals params (start + 0) ((counts.take counts.length).drop 0) = _ :=
      planSeals_eq (Nat.zero_le _) (Nat.le_refl _) (Nat.le_refl _) hfit
    rwa [take_length, drop_zero, Nat.add_zero] at hplan
  refine ⟨fun tips hsorted hbound => ?_, ?_, fun range hrange => ?_, fun blocks hsums => reached_iff hsums⟩
  · cases hlast : tips.getLast? with
    | none =>
      rw [getLast?_eq_none_iff.mp hlast]
      rfl
    | some tip =>
      have htip := hbound tip (mem_of_getLast? hlast)
      have hplan : planSeals params (start + 0) ((counts.take tip).drop 0) = _ :=
        planSeals_eq (Nat.zero_le _) htip htip (by omega)
      rw [drop_zero, Nat.add_zero] at hplan
      rw [getLastD_eq_getLast?, hlast, Option.getD_some, hplan]
      exact planTips_eq hsorted hbound (Nat.le_refl _) hfit (fun _ _ => Nat.zero_le _) hlast
  · rw [hwhole]
    have hforward : Forward (nextSeal params counts) := nextSeal_forward
    have htiles : Tiles _ _ 0 (pieces (nextSeal params counts) (counts.length - params.reorgMargin) counts.length 0) _ :=
      pieces_tiles hforward
    refine ⟨start + _, ?_, htiles.shift start, fun height hstop hheight hmet => ?_⟩
    · exact Nat.add_le_add_left (Nat.le_trans behind_pieces_le (by omega)) start
    · rw [blocksOf, Nat.add_sub_cancel_left] at hmet
      obtain ⟨last, hnext, hlast⟩ := exists_nextSeal (show _ ≤ height - start by omega) (by omega) hmet
      have hlimit := next_behind_pieces hforward (by omega) hnext
      omega
  · rw [hwhole] at hrange
    obtain ⟨piece, hpiece, rfl⟩ := mem_map.mp hrange
    obtain ⟨hnext, hlimit⟩ := pieces_mem hpiece
    obtain ⟨hle, hlt, hmet, hleast⟩ := nextSeal_eq_some.mp hnext
    dsimp only [atHeights, blocksOf]
    rw [Nat.add_sub_cancel_left, Nat.add_sub_cancel_left]
    refine ⟨by omega, hmet, fun height hfirst hheight => ?_⟩
    exact hleast (height - start) (by omega) (by omega)

/-- Seven blocks over two buckets, a target of two and a margin of one: planned at three tips and at once. -/
theorem incremental_sealing_seven_blocks :
    let counts : List HeightCounts := [⟨[1, 0], [1]⟩, ⟨[1, 1], [2]⟩, ⟨[2, 1], [3]⟩, ⟨[0, 1], [1]⟩, ⟨[1, 1], [2]⟩,
      ⟨[3, 0], [3]⟩, ⟨[0, 0], [0]⟩]
    planTips ⟨2, 1, 2, 2, 1⟩ 100 counts [3, 4, 7] 0 = planSeals ⟨2, 1, 2, 2, 1⟩ 100 counts ∧
      planSeals ⟨2, 1, 2, 2, 1⟩ 100 (counts.take 4) = [(100, 102)] ∧
      planSeals ⟨2, 1, 2, 2, 1⟩ 100 counts = [(100, 102), (103, 105)] := by
  intro counts
  refine ⟨?_, by decide, by decide⟩
  exact (incremental_sealing_eq_bootstrap ⟨2, 1, 2, 2, 1⟩ 100 counts (by decide)).1 [3, 4, 7] (by decide) (by decide)

end Zakura.Display
