import Zakura.Display.Lemmas.Groups

/-! # Checked recent maps and their chunks

What the structure checks establish, that they never overflow, and where a height is routed. -/

namespace Zakura.Display

open List Checked

namespace DisplayRecentMap

variable {map : DisplayRecentMap} {ε : Type} {index : Nat} {chunk : DisplayIndexChunk}
  {chunks : List DisplayIndexChunk}

/-- The ids fit, and there is a reference for each chunk of archives. -/
structure Sized (map : DisplayRecentMap) : Prop where
  fits : map.firstShardId.toNat + map.archives.toNat < 2 ^ 64
  length : map.chunks.length = chunkCount map.firstShardId.toNat map.archives.toNat

/-- The height at which a chunk starts; the unsealed start behind the last. -/
def startOf (map : DisplayRecentMap) (index : Nat) : Nat :=
  startAt (·.startHeight.toNat) map.chunks map.unsealedStart.toNat index

theorem nextStart_eq (map : DisplayRecentMap) (index : Nat) : map.nextStart index = map.startOf (index + 1) := by
  unfold nextStart startOf startAt
  cases map.chunks[index + 1]? <;> rfl

/-! ## Ids -/

theorem Sized.chunkBaseId_eq (h : Sized map) (hindex : index < map.chunks.length) :
    (map.chunkBaseId index : Checked ε Nat) =
      pure (chunkBase map.firstShardId.toNat + index * indexChunkShards) := by
  rw [h.length] at hindex
  have hlt := (lt_chunkCount (count_ne_zero_of_lt hindex)).mp hindex
  have hfits := h.fits
  rw [chunkBaseId, mulWord_of_lt (by omega), pure_bind, addWord_of_lt (by omega)]

theorem Sized.chunkIds_eq (h : Sized map) (hindex : index < map.chunks.length) :
    (map.chunkIds index : Checked ε (Nat × Nat)) =
      pure (chunkStart map.firstShardId.toNat index, chunkStop map.firstShardId.toNat map.archives.toNat index) := by
  have hbase : (map.chunkBaseId index : Checked ε Nat) = _ := h.chunkBaseId_eq hindex
  rw [h.length] at hindex
  have hlt := (lt_chunkCount (count_ne_zero_of_lt hindex)).mp hindex
  have hfits := h.fits
  rw [chunkIds, hbase, pure_bind, addWord_of_lt hfits, pure_bind, subWord_of_le (Nat.le_of_lt hlt), pure_bind,
    addWord_of_lt (by omega), pure_bind]
  unfold chunkStart chunkStop
  refine congrArg pure (Prod.ext rfl ?_)
  dsimp only
  omega

theorem Sized.chunkFloor_eq (h : Sized map) {reference : DisplayChunkRef} (hget : map.chunks[index]? = some reference) :
    map.chunkFloor index =
      let floor := reference.startHeight.toNat +
        (chunkStop map.firstShardId.toNat map.archives.toNat index - chunkStart map.firstShardId.toNat index)
      if 2 ^ 64 ≤ floor then .fails "index chunk height range" else pure floor := by
  obtain ⟨hindex, -⟩ := List.getElem?_eq_some_iff.mp hget
  have hids : (map.chunkIds index : Checked String (Nat × Nat)) = _ := h.chunkIds_eq hindex
  rw [h.length] at hindex
  have hle := (chunkStart_lt_stop hindex).2.1
  rw [chunkFloor, hids, pure_bind]
  dsimp only
  rw [hget, subWord_of_le (Nat.le_of_lt hle)]
  rfl

theorem Sized.floorAt_returns (h : Sized map) (hindex : index ≤ map.chunks.length) : Returns (map.floorAt index) := by
  cases index with
  | zero => exact Returns.pure _
  | succ before =>
    rw [floorAt, h.chunkFloor_eq (getElem?_eq_getElem hindex)]
    exact Returns.unless fun _ => Returns.pure _

theorem expectedChunks_eq (hfits : map.firstShardId.toNat + map.archives.toNat < 2 ^ 64) :
    map.expectedChunks (map.firstShardId.toNat + map.archives.toNat) =
      pure (chunkCount map.firstShardId.toNat map.archives.toNat) := by
  have hzero : map.archives = 0 ↔ map.archives.toNat = 0 := UInt64.toNat_inj.symm
  unfold expectedChunks chunkCount
  by_cases hnone : map.archives = 0
  · rw [if_pos hnone, if_pos (hzero.mp hnone)]
  · have hpos := hzero.not.mp hnone
    rw [if_neg hnone, if_neg hpos, subWord_of_le (by omega), pure_bind, subWord_of_le, pure_bind, addWord_of_lt]
    · unfold indexChunkShards
      rw [chunkBase_eq, chunkBase_eq]
      omega
    · rw [chunkBase_eq, chunkBase_eq]
      omega

/-! ## The checks return -/

theorem Sized.checkRefs_returns (h : Sized map) {refs : List DisplayChunkRef}
    (hlength : index + refs.length ≤ map.chunks.length) : Returns (map.checkRefs index refs) := by
  induction refs generalizing index with
  | nil => exact Returns.pure ()
  | cons ref refs ih =>
    rw [length_cons] at hlength
    rw [checkRefs]
    refine Returns.unless fun _ => ?_
    refine Returns.bind (h.floorAt_returns (by omega)) fun floor _ => Returns.unless fun _ => ?_
    exact ih (by omega)

/-- No arithmetic of the structure check overflows, whatever the map says. -/
theorem checkStructure_returns (map : DisplayRecentMap) : Returns map.checkStructure := by
  unfold checkStructure
  dsimp only
  refine Returns.unless fun _ => Returns.unless fun _ => ?_
  refine Returns.bind (Returns.done _) fun _ _ => Returns.unless fun _ =>
    Returns.unless fun hfits => ?_
  rw [Nat.not_le] at hfits
  rw [expectedChunks_eq hfits, pure_bind]
  refine Returns.unless fun hlength => ?_
  have hsized : Sized map := ⟨hfits, not_not.mp hlength⟩
  refine Returns.bind (hsized.checkRefs_returns (Nat.le_of_eq (Nat.zero_add _))) fun _ _ => ?_
  refine Returns.bind (hsized.floorAt_returns (Nat.le_refl _)) fun _ _ => Returns.unless fun _ => ?_
  cases map.recent with
  | none => exact Returns.pure ()
  | some recent =>
    exact Returns.bind (Returns.done _) fun _ _ => Returns.unless fun _ => Returns.done _

theorem Sized.checkChunkStructure_returns (h : Sized map) (index : Nat) (chunk : DisplayIndexChunk) :
    Returns (map.checkChunkStructure index chunk) := by
  unfold checkChunkStructure
  cases hget : map.chunks[index]? with
  | none => exact Returns.fails _
  | some reference =>
    obtain ⟨hindex, -⟩ := List.getElem?_eq_some_iff.mp hget
    dsimp only
    refine Returns.unless fun _ => ?_
    rw [h.chunkBaseId_eq hindex, pure_bind]
    refine Returns.unless fun _ => ?_
    rw [h.chunkIds_eq hindex, pure_bind]
    rw [h.length] at hindex
    have hlt := (chunkStart_lt_stop hindex).2.1
    dsimp only
    rw [subWord_of_le (Nat.le_of_lt hlt), pure_bind]
    refine Returns.unless fun hlength => Returns.bind (Returns.done _) fun _ _ => ?_
    -- The chunk lists an archive, so it has a first and a last.
    have hne : chunk.shards ≠ [] := by
      rintro hnil
      rw [hnil, length_nil] at hlength
      omega
    rw [head?_eq_some_head hne, getLast?_eq_some_getLast hne]
    refine Returns.unless fun _ => Returns.unless fun _ => ?_
    cases map.recent with
    | none => exact Returns.pure ()
    | some recent => exact Returns.done _

/-! ## What they establish -/

theorem checkRefs_head {ref : DisplayChunkRef} {refs : List DisplayChunkRef}
    (h : map.checkRefs 0 (ref :: refs) = .done (.ok ())) : ref.startHeight.toNat = map.startHeight.toNat := by
  rw [checkRefs, ite_fails_eq_ok, floorAt, pure_bind, ite_fails_eq_ok, not_or, not_and] at h
  exact not_not.mp (h.2.1.1 rfl)

theorem checkStructure_ok (h : map.checkStructure = .done (.ok ())) :
    Sized map ∧ map.startOf 0 = map.startHeight.toNat := by
  unfold checkStructure at h
  dsimp only at h
  rw [ite_fails_eq_ok, ite_fails_eq_ok, bind_eq_ok] at h
  obtain ⟨-, -, _, -, h⟩ := h
  rw [ite_fails_eq_ok, ite_fails_eq_ok, Nat.not_le] at h
  obtain ⟨-, hfits, h⟩ := h
  rw [expectedChunks_eq hfits, pure_bind, ite_fails_eq_ok, not_not, bind_eq_ok] at h
  obtain ⟨hlength, _, hrefs, h⟩ := h
  have hsized : Sized map := ⟨hfits, hlength⟩
  refine ⟨hsized, ?_⟩
  unfold startOf
  cases hchunks : map.chunks with
  | cons ref refs =>
    rw [hchunks] at hrefs
    rw [startAt_of_getElem? (getElem?_cons_zero)]
    exact checkRefs_head hrefs
  | nil =>
    -- Without chunks there are no archives, and the unsealed heights start with the map.
    have hnone : map.archives.toNat = 0 := by
      by_contra hpos
      have hcount : 0 < chunkCount map.firstShardId.toNat map.archives.toNat := by
        rw [lt_chunkCount hpos, chunkBase_eq]
        omega
      rw [← hlength, hchunks] at hcount
      exact absurd hcount (Nat.lt_irrefl 0)
    rw [bind_eq_ok] at h
    obtain ⟨floor, -, h⟩ := h
    rw [ite_fails_eq_ok, not_or, not_and, not_not] at h
    rw [startAt_of_length_le (Nat.le_of_eq length_nil), h.1.1 hnone]

theorem checkChunkStructure_ok (h : map.checkChunkStructure index chunk = .done (.ok ())) :
    index < map.chunks.length ∧ TilesHeights (map.startOf index) chunk.shards (map.startOf (index + 1)) := by
  unfold checkChunkStructure at h
  cases hget : map.chunks[index]? with
  | none =>
    rw [hget] at h
    cases Option.some_inj.mp h
  | some reference =>
    rw [hget] at h
    dsimp only at h
    rw [ite_fails_eq_ok, bind_eq_ok] at h
    obtain ⟨-, base, -, h⟩ := h
    rw [ite_fails_eq_ok, bind_eq_ok] at h
    obtain ⟨-, ids, -, h⟩ := h
    rw [bind_eq_ok] at h
    obtain ⟨count, -, h⟩ := h
    rw [ite_fails_eq_ok, bind_eq_ok] at h
    obtain ⟨-, _, hlisted, h⟩ := h
    rw [bind_eq_ok] at h
    obtain ⟨first, hfirst, h⟩ := h
    rw [bind_eq_ok] at h
    obtain ⟨last, hlast, h⟩ := h
    rw [ite_fails_eq_ok, not_not, ite_fails_eq_ok, not_not] at h
    obtain ⟨hstart, hnext, -⟩ := h
    obtain ⟨-, hentries, hchain⟩ := checkListed_ok.mp (done_inj.mp hlisted)
    rw [Option.toList_none, nil_append] at hchain
    refine ⟨(List.getElem?_eq_some_iff.mp hget).1, ?_⟩
    refine tiles_of_chained hchain (fun e he => (hentries e he).2) ?_ ?_
    · rw [expect_eq_ok.mp hfirst, Option.map_some, hstart, startOf, startAt_of_getElem? hget]
    · rw [expect_eq_ok.mp hlast, Option.map_some, hnext, nextStart_eq]

/-! ## Routing -/

def Accepted (map : DisplayRecentMap) (chunks : List DisplayIndexChunk) : Prop :=
  chunks.length = map.chunks.length ∧
    ∀ index chunk, chunks[index]? = some chunk → map.checkChunkStructure index chunk = .done (.ok ())

theorem Accepted.tiles_drop (h : map.Accepted chunks) (hindex : index ≤ chunks.length) :
    TilesHeights (map.startOf index) ((chunks.drop index).flatMap (·.shards)) map.unsealedStart.toNat := by
  obtain ⟨hlength, hpass⟩ := h
  induction hrest : chunks.length - index generalizing index with
  | zero =>
    have hend : chunks.length ≤ index := Nat.sub_eq_zero_iff_le.mp hrest
    rw [drop_eq_nil_of_le hend, startOf, startAt_of_length_le (hlength ▸ hend)]
    rfl
  | succ rest ih =>
    have hlt : index < chunks.length := by omega
    rw [drop_eq_getElem_cons hlt, flatMap_cons]
    have hhere := (checkChunkStructure_ok (hpass index _ (getElem?_eq_getElem hlt))).2
    exact hhere.append (ih (by omega) (by omega))

theorem Accepted.tiles (h : map.Accepted chunks) (hstructure : map.checkStructure = .done (.ok ())) :
    TilesHeights map.startHeight.toNat (chunks.flatMap (·.shards)) map.unsealedStart.toNat := by
  have htiles := h.tiles_drop (Nat.zero_le chunks.length)
  rwa [(checkStructure_ok hstructure).2] at htiles

theorem Accepted.startOf_le (h : map.Accepted chunks) {i j : Nat} (hij : i ≤ j) (hj : j ≤ map.chunks.length) :
    map.startOf i ≤ map.startOf j := by
  induction j, hij using Nat.le_induction with
  | base => exact Nat.le_refl _
  | succ j hij ih =>
    obtain ⟨hlength, hpass⟩ := h
    have hlt : j < chunks.length := by omega
    have hhere := (checkChunkStructure_ok (hpass j _ (getElem?_eq_getElem hlt))).2.length_le
    have := ih (by omega)
    omega

theorem Accepted.chunkForHeight (h : map.Accepted chunks) (hstructure : map.checkStructure = .done (.ok ()))
    {height : Nat} (hstart : map.startHeight.toNat ≤ height) (hstop : height < map.unsealedStart.toNat) :
    ∃ index chunk, map.chunkForHeight height = some index ∧ chunks[index]? = some chunk ∧
      map.startOf index ≤ height ∧ height < map.startOf (index + 1) := by
  have hfirst := (checkStructure_ok hstructure).2
  have hsorted : map.chunks.Pairwise fun a b =>
      decide (b.startHeight.toNat ≤ height) = true → decide (a.startHeight.toNat ≤ height) = true := by
    refine pairwise_iff_getElem.mpr fun i j hi hj hij hb => ?_
    have hle := h.startOf_le (Nat.le_of_lt hij) (Nat.le_of_lt hj)
    rw [startOf, startOf, startAt_of_getElem? (getElem?_eq_getElem hi),
      startAt_of_getElem? (getElem?_eq_getElem hj)] at hle
    exact decide_eq_true (Nat.le_trans hle (of_decide_eq_true hb))
  obtain ⟨hle, hpoint⟩ := partitionPoint_spec hsorted
  -- The first chunk starts with the map, so the point is behind it.
  have hpos : 0 < partitionPoint (fun chunk => decide (chunk.startHeight.toNat ≤ height)) map.chunks := by
    have hzero : 0 < map.chunks.length := by
      by_contra hempty
      rw [startOf, startAt_of_length_le (Nat.not_lt.mp hempty)] at hfirst
      omega
    rw [hpoint 0 _ (getElem?_eq_getElem hzero), decide_eq_true_eq]
    rw [startOf, startAt_of_getElem? (getElem?_eq_getElem hzero)] at hfirst
    omega
  obtain ⟨last, hlast⟩ := Nat.exists_eq_succ_of_ne_zero (Nat.ne_of_gt hpos)
  have hlt : last < map.chunks.length := by omega
  have hlt' : last < chunks.length := by
    rw [h.1]
    exact hlt
  refine ⟨last, chunks[last], ?_, getElem?_eq_getElem hlt', ?_, ?_⟩
  · rw [DisplayRecentMap.chunkForHeight, if_neg (by omega)]
    dsimp only
    rw [hlast, if_neg (Nat.succ_ne_zero last), Nat.succ_sub_one]
  · rw [startOf, startAt_of_getElem? (getElem?_eq_getElem hlt)]
    have := (hpoint last _ (getElem?_eq_getElem hlt)).mp (by omega)
    exact of_decide_eq_true this
  · by_cases hnext : last + 1 < map.chunks.length
    · rw [startOf, startAt_of_getElem? (getElem?_eq_getElem hnext)]
      have hnot := (hpoint (last + 1) _ (getElem?_eq_getElem hnext)).not.mp (by omega)
      rw [decide_eq_true_eq, Nat.not_le] at hnot
      exact hnot
    · rw [startOf, startAt_of_length_le (Nat.not_lt.mp hnext)]
      exact hstop

theorem Accepted.route (h : map.Accepted chunks) (hstructure : map.checkStructure = .done (.ok ())) {height : Nat}
    (hstart : map.startHeight.toNat ≤ height) (hstop : height < map.unsealedStart.toNat) :
    ∃ shard ∈ chunks.flatMap (·.shards), Covers shard height ∧ map.route chunks height = some shard := by
  obtain ⟨index, chunk, hchunk, hget, hlo, hhi⟩ := h.chunkForHeight hstructure hstart hstop
  have htiles := (checkChunkStructure_ok (h.2 index chunk hget)).2
  obtain ⟨shard, hmem, hcovers⟩ := htiles.covered hlo hhi
  refine ⟨shard, mem_flatMap.mpr ⟨chunk, List.mem_of_getElem? hget, hmem⟩, hcovers, ?_⟩
  rw [DisplayRecentMap.route, if_neg (Nat.not_lt.mpr hstart), hchunk]
  dsimp only
  rw [hget]
  exact (findByHeight_eq_some htiles).mpr ⟨hmem, hcovers⟩

end DisplayRecentMap

end Zakura.Display
