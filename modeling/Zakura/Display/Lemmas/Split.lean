import Mathlib.Data.List.Chain
import Mathlib.Data.List.TakeWhile
import Zakura.Display.Lemmas.Routing

/-! # Splitting a display map that passes its shape check -/

namespace Zakura.Display

open List Checked

/-! ## Recent maps and chunks that pass -/

namespace DisplayRecentMap

variable {map : DisplayRecentMap} {index : Nat} {chunk : DisplayIndexChunk}

/-- References that pass: digests, and each chunk with room for its archives before the next. -/
structure Laid (map : DisplayRecentMap) : Prop extends Sized map where
  digests : ∀ reference ∈ map.chunks, isDigest reference.sha256 = true
  start : map.startOf 0 = map.startHeight.toNat
  room : ∀ index < map.chunks.length,
    map.startOf index + (chunkStop map.firstShardId.toNat map.archives.toNat index -
      chunkStart map.firstShardId.toNat index) ≤ map.startOf (index + 1)

theorem startOf_lt (map : DisplayRecentMap) (index : Nat) : map.startOf index < 2 ^ 64 := by
  unfold startOf startAt
  cases map.chunks[index]? with
  | none => exact UInt64.toNat_lt _
  | some reference => exact UInt64.toNat_lt _

theorem Laid.floorAt_le (h : Laid map) (hindex : index ≤ map.chunks.length) :
    ∃ floor, map.floorAt index = pure floor ∧ floor ≤ map.startOf index ∧ (index = 0 → map.startOf index = floor) := by
  cases index with
  | zero => exact ⟨_, rfl, Nat.le_of_eq h.start.symm, fun _ => h.start⟩
  | succ before =>
    have hget := getElem?_eq_getElem hindex
    have hroom := h.room before hindex
    have hlt := map.startOf_lt (before + 1)
    rw [startOf, startAt_of_getElem? hget] at hroom
    refine ⟨_, ?_, hroom, fun hzero => absurd hzero (Nat.succ_ne_zero _)⟩
    rw [floorAt, h.chunkFloor_eq hget]
    exact if_neg (Nat.not_le.mpr (Nat.lt_of_le_of_lt hroom hlt))

/-- By induction on the references left. -/
theorem Laid.checkRefs_ok (h : Laid map) (hindex : index ≤ map.chunks.length) :
    map.checkRefs index (map.chunks.drop index) = pure () := by
  induction hrest : map.chunks.length - index generalizing index with
  | zero => rw [drop_eq_nil_of_le (Nat.sub_eq_zero_iff_le.mp hrest), checkRefs]
  | succ rest ih =>
    have hlt : index < map.chunks.length := by omega
    obtain ⟨floor, hfloor, hle, hfirst⟩ := h.floorAt_le hindex
    rw [startOf, startAt_of_getElem? (getElem?_eq_getElem hlt)] at hle hfirst
    rw [drop_eq_getElem_cons hlt, checkRefs, if_neg, hfloor, pure_bind, if_neg]
    · exact ih hlt (by omega)
    · rintro (⟨hzero, hne⟩ | hbelow)
      · exact hne (hfirst hzero)
      · omega
    · rw [not_not]
      exact h.digests _ (getElem_mem hlt)

theorem Laid.checkStructure_ok (h : Laid map) (hschema : map.schema = displaySchema)
    (hper : map.chunkShards.toNat = indexChunkShards) (hparams : map.sealParams.check = .ok ())
    (hlists : ¬ (map.archives.toNat = 0 ∧ map.recent = none))
    (hrecent : ∀ recent, map.recent = some recent → checkEntryStructure map.sealParams recent = .ok () ∧
      recent.sealed = false ∧ recent.shardId.toNat = map.firstShardId.toNat + map.archives.toNat ∧
      checkRecent map.sealParams map.startHeight.toNat map.unsealedStart.toNat recent = .ok ()) :
    map.checkStructure = pure () := by
  have hrefs : map.checkRefs 0 map.chunks = pure () := h.checkRefs_ok (Nat.zero_le _)
  obtain ⟨floor, hfloor, hle, -⟩ := h.floorAt_le (Nat.le_refl _)
  have hunsealed : map.startOf map.chunks.length = map.unsealedStart.toNat := startAt_of_length_le (Nat.le_refl _)
  have hsealed : ¬ ((map.archives.toNat = 0 ∧ map.unsealedStart ≠ map.startHeight) ∨
      map.unsealedStart.toNat < floor) := by
    rintro (⟨hnone, hne⟩ | hbelow)
    · have hempty : map.chunks.length = 0 := by
        rw [h.length, hnone]
        rfl
      rw [hempty, h.start] at hunsealed
      exact hne (UInt64.toNat_inj.mp hunsealed.symm)
    · omega
  unfold checkStructure
  dsimp only
  rw [if_neg (not_not.mpr hschema), if_neg (not_not.mpr hper), hparams, done_ok, pure_bind,
    if_neg hlists, if_neg (Nat.not_le.mpr h.fits), expectedChunks_eq h.fits, pure_bind,
    if_neg (not_not.mpr h.length), hrefs, pure_bind, hfloor, pure_bind, if_neg hsealed]
  cases hopen : map.recent with
  | none => rfl
  | some recent =>
    obtain ⟨hentry, hsealed, hid, hcheck⟩ := hrecent recent hopen
    dsimp only
    rw [hentry, done_ok, pure_bind, if_neg (by simp [hsealed, hid]), hcheck, done_ok]

theorem Sized.checkChunkStructure_ok (h : Sized map) (hindex : index < map.chunks.length)
    (hschema : chunk.schema = displaySchema)
    (hbase : chunk.baseShardId.toNat = chunkBase map.firstShardId.toNat + index * indexChunkShards)
    (hlength : chunk.shards.length = chunkStop map.firstShardId.toNat map.archives.toNat index -
      chunkStart map.firstShardId.toNat index)
    (hnumbered : Numbered (chunkStart map.firstShardId.toNat index) chunk.shards)
    (hentries : ∀ e ∈ chunk.shards, e.sealed = true ∧ checkEntryStructure map.sealParams e = .ok ())
    (hchain : chunk.shards.IsChain fun a b => checkChain a b = .ok ())
    (htiles : TilesHeights (map.startOf index) chunk.shards (map.startOf (index + 1)))
    (hparents : ∀ recent, map.recent = some recent → ∀ e ∈ chunk.shards, checkRecentParent e recent = .ok ()) :
    map.checkChunkStructure index chunk = pure () := by
  have hget := getElem?_eq_getElem hindex
  have hlt := (chunkStart_lt_stop (h.length ▸ hindex)).2.1
  have hne : chunk.shards ≠ [] := by
    rintro hnil
    rw [hnil, length_nil] at hlength
    omega
  have hfirst := htiles.head (head?_eq_some_head hne)
  have hlast := htiles.last (getLast?_eq_some_getLast hne)
  rw [startOf, startAt_of_getElem? hget, UInt64.toNat_inj] at hfirst
  have hlisted : map.checkListed index (chunkStart map.firstShardId.toNat index) none chunk.shards = .ok () :=
    checkListed_ok.mpr ⟨hnumbered, hentries, hchain⟩
  unfold checkChunkStructure
  rw [hget]
  dsimp only
  rw [if_neg (not_not.mpr hschema), h.chunkBaseId_eq hindex, pure_bind,
    if_neg (not_not.mpr hbase), h.chunkIds_eq hindex, pure_bind]
  dsimp only
  rw [subWord_of_le (Nat.le_of_lt hlt), pure_bind, if_neg (not_not.mpr hlength), hlisted, done_ok, pure_bind,
    head?_eq_some_head hne, getLast?_eq_some_getLast hne]
  change (if _ then _ else if _ then _ else _) = _
  rw [if_neg (not_not.mpr hfirst), if_neg (not_not.mpr (hlast.trans (nextStart_eq map index).symm))]
  cases hopen : map.recent with
  | none => rfl
  | some recent =>
    dsimp only
    rw [Except.forM_eq_ok.mpr (hparents recent hopen), done_ok]

end DisplayRecentMap

namespace DisplayMap

variable {map : DisplayMap} {ε : Type} {unsealed : Nat} {encoding : Encoding}

/-! ## The shape -/

structure Shaped (map : DisplayMap) (unsealed : Nat) : Prop where
  schema : map.schema = displaySchema
  params : map.sealParams.check = .ok ()
  shards_eq : map.shards = map.archives ++ map.recent.toList
  shards_ne : map.shards ≠ []
  numbered : Numbered map.firstShardId.toNat map.shards
  entries : ∀ e ∈ map.shards, checkEntry map.sealParams e = .ok ()
  chain : map.archives.IsChain fun a b => checkChain a b = .ok ()
  unsealed_lt : unsealed < 2 ^ 64
  tiles : TilesHeights map.startHeight.toNat map.archives unsealed
  recent_ok : ∀ recent, map.recent = some recent →
    checkRecent map.sealParams map.startHeight.toNat unsealed recent = .ok () ∧
      ∀ archive ∈ map.archives, checkRecentParent archive recent = .ok ()

theorem archives_sealed (map : DisplayMap) : ∀ e ∈ map.archives, e.sealed = true := fun _ he =>
  mem_takeWhile_imp he

theorem recent_open {recent : DisplayMapEntry} (h : map.recent = some recent) : recent.sealed = false := by
  have hfilter := (Option.filter_eq_some_iff.mp h).2
  simpa using hfilter

/-- Only the last shard may be unsealed, so the map is its archives and its recent shard. -/
theorem shards_eq_append
    (hlast : ∀ i e, map.shards[i]? = some e → e.sealed = false → i + 1 = map.shards.length) :
    map.shards = map.archives ++ map.recent.toList := by
  have hsplit : map.archives ++ map.shards.dropWhile (·.sealed) = map.shards := takeWhile_append_dropWhile
  cases hrest : map.shards.dropWhile (·.sealed) with
  | nil =>
    rw [hrest, append_nil] at hsplit
    have hnone : map.recent = none := by
      refine Option.eq_none_iff_forall_not_mem.mpr fun e he => ?_
      have hmem : e ∈ map.archives := by
        rw [hsplit]
        exact mem_of_getLast? (Option.filter_eq_some_iff.mp he).1
      exact absurd (map.archives_sealed e hmem) (by rw [recent_open he]; decide)
    rw [hnone, Option.toList_none, append_nil, hsplit]
  | cons e rest =>
    have hopen : e.sealed = false := by
      have hnot := head?_dropWhile_not (fun e : DisplayMapEntry => e.sealed) map.shards
      rw [hrest, head?_cons] at hnot
      exact hnot
    have hget : map.shards[map.archives.length]? = some e := by
      rw [← hsplit, hrest, getElem?_append_right (Nat.le_refl _), Nat.sub_self, getElem?_cons_zero]
    have hlength := hlast _ _ hget hopen
    have hnil : rest = [] := by
      rw [← hsplit, hrest, length_append, length_cons] at hlength
      exact length_eq_zero_iff.mp (by omega)
    rw [hrest, hnil] at hsplit
    have hrecent : map.recent = some e := by
      rw [DisplayMap.recent, ← hsplit, getLast?_concat, Option.filter_some, hopen]
      rfl
    rw [hrecent, Option.toList_some, hsplit]

theorem checkShape_ok (h : map.checkShape = .done (.ok ())) :
    ∃ unsealed, (∀ ε : Type, map.unsealedStart = (pure unsealed : Checked ε Nat)) ∧ Shaped map unsealed := by
  unfold checkShape at h
  dsimp only at h
  rw [ite_fails_eq_ok, not_not, bind_eq_ok] at h
  obtain ⟨hschema, _, hparams, h⟩ := h
  cases hhead : map.shards.head? with
  | none =>
    rw [hhead] at h
    cases Option.some_inj.mp h
  | some first =>
    rw [hhead] at h
    dsimp only at h
    rw [ite_fails_eq_ok, not_or, not_not, not_not, bind_eq_ok] at h
    obtain ⟨⟨hstart, -⟩, _, hpositions, h⟩ := h
    rw [ite_fails_eq_ok, bind_eq_ok] at h
    obtain ⟨hfits, _, hchains, h⟩ := h
    obtain ⟨hnumbered, hentries, hlast⟩ := checkPositions_ok (done_inj.mp hpositions)
    simp only [Nat.zero_add] at hlast
    have hchain := checkChains_ok.mp (done_inj.mp hchains)
    have hshards := shards_eq_append hlast
    have hne : map.shards ≠ [] := by
      intro hnil
      rw [hnil] at hhead
      cases hhead
    have hstructure : ∀ e ∈ map.archives, checkEntryStructure map.sealParams e = .ok () := fun e he =>
      checkEntry_structure (hentries e ((takeWhile_sublist _).subset he))
    -- The first unsealed height: the map's start, or right after the last archive.
    obtain ⟨unsealed, hunsealed, hlt, htiles⟩ : ∃ unsealed,
        (∀ ε : Type, (map.unsealedStart : Checked ε Nat) = pure unsealed) ∧ unsealed < 2 ^ 64 ∧
          TilesHeights map.startHeight.toNat map.archives unsealed := by
      cases hback : map.archives.getLast? with
      | none =>
        refine ⟨map.startHeight.toNat, fun ε => ?_, UInt64.toNat_lt _, ?_⟩
        · rw [unsealedStart, hback]
        · rw [getLast?_eq_none_iff.mp hback]
          rfl
      | some back =>
        rw [hback, Option.any_some, decide_eq_true_eq, Nat.not_le] at hfits
        refine ⟨back.endHeight.toNat + 1, fun ε => ?_, hfits, ?_⟩
        · rw [unsealedStart, hback]
          exact addWord_of_lt hfits
        · refine tiles_of_chained hchain hstructure ?_ (by rw [hback, Option.map_some])
          have harchives : map.archives ≠ [] := by
            intro hnil
            rw [hnil] at hback
            cases hback
          rw [hshards, head?_append_of_ne_nil _ harchives] at hhead
          rw [hhead, Option.map_some, hstart]
    refine ⟨unsealed, hunsealed, hschema, done_inj.mp hparams, hshards, hne, hnumbered, hentries, hchain, hlt, htiles,
      fun recent hrecent => ?_⟩
    rw [hrecent] at h
    dsimp only at h
    rw [hunsealed, pure_bind, bind_eq_ok] at h
    obtain ⟨_, hcheck, hparents⟩ := h
    exact ⟨done_inj.mp hcheck, Except.forM_eq_ok.mp (done_inj.mp hparents)⟩

namespace Shaped

theorem archives_numbered (h : Shaped map unsealed) : Numbered map.firstShardId.toNat map.archives := by
  intro index shard hget
  refine h.numbered index shard ?_
  rw [h.shards_eq, getElem?_append_left (List.getElem?_eq_some_iff.mp hget).1, hget]

theorem recent_eq (h : Shaped map unsealed) : map.shards[map.archives.length]? = map.recent := by
  rw [h.shards_eq, getElem?_append_right (Nat.le_refl _), Nat.sub_self]
  cases map.recent <;> rfl

theorem archive_entry (h : Shaped map unsealed) {e : DisplayMapEntry} (he : e ∈ map.archives) :
    checkEntry map.sealParams e = .ok () :=
  h.entries e ((takeWhile_sublist _).subset he)

end Shaped

/-! ## The documents of the split -/

def groups (map : DisplayMap) : List (Nat × List DisplayMapEntry) := groupByChunk map.archives.length map.archives

def chunkOf (group : Nat × List DisplayMapEntry) : DisplayIndexChunk := ⟨displaySchema, .ofNat group.1, group.2⟩

def refOf (encoding : Encoding) (group : Nat × List DisplayMapEntry) : DisplayChunkRef :=
  ⟨(group.2.head?.map (·.startHeight)).getD 0, (SplitChunk.new encoding (chunkOf group)).sha256⟩

def recentMap (encoding : Encoding) (map : DisplayMap) (unsealed : Nat) : DisplayRecentMap :=
  ⟨map.schema, map.network, map.genesisHash, map.sealParams, map.startHeight, map.firstShardId,
    .ofNat map.archives.length, .ofNat unsealed, .ofNat indexChunkShards, map.groups.map (refOf encoding), map.recent⟩

section

variable (h : Shaped map unsealed) (hroom : map.firstShardId.toNat + map.archives.length < 2 ^ 64)

include hroom in
theorem recentMap_archives : (map.recentMap encoding unsealed).archives.toNat = map.archives.length :=
  UInt64.toNat_ofNat_of_lt (by change _ < 2 ^ 64; omega)

include h in
theorem recentMap_unsealed : (map.recentMap encoding unsealed).unsealedStart.toNat = unsealed :=
  UInt64.toNat_ofNat_of_lt h.unsealed_lt

include h hroom in
theorem recentMap_sized : (map.recentMap encoding unsealed).Sized := by
  refine ⟨?_, ?_⟩
  · rw [recentMap_archives hroom]
    exact hroom
  · rw [recentMap_archives hroom]
    change (map.groups.map (refOf encoding)).length = _
    rw [length_map]
    exact (groupByChunk_spec (Nat.le_refl _) h.archives_numbered).1

def slice (map : DisplayMap) (index : Nat) : List DisplayMapEntry :=
  (map.archives.drop (chunkStart map.firstShardId.toNat index - map.firstShardId.toNat)).take
    (chunkStop map.firstShardId.toNat map.archives.length index - chunkStart map.firstShardId.toNat index)

variable {index : Nat} (hindex : index < chunkCount map.firstShardId.toNat map.archives.length)

include h hindex in
theorem groups_getElem? :
    map.groups[index]? =
      some (chunkBase map.firstShardId.toNat + index * indexChunkShards, map.slice index) :=
  (groupByChunk_spec (Nat.le_refl _) h.archives_numbered).2 index hindex

theorem slice_subset {e : DisplayMapEntry} (he : e ∈ map.slice index) : e ∈ map.archives :=
  mem_of_mem_drop (mem_of_mem_take he)

include hindex in
theorem slice_length :
    (map.slice index).length = chunkStop map.firstShardId.toNat map.archives.length index -
      chunkStart map.firstShardId.toNat index := by
  obtain ⟨hle, hlt, hstop⟩ := chunkStart_lt_stop hindex
  rw [slice, length_take, length_drop]
  omega

include hindex in
theorem head_slice :
    ((map.slice index).head?.map (·.startHeight)).getD 0 =
      ((map.archives[chunkStart map.firstShardId.toNat index - map.firstShardId.toNat]?).map (·.startHeight)).getD 0 := by
  obtain ⟨hle, hlt, hstop⟩ := chunkStart_lt_stop hindex
  rw [slice, head?_take, if_neg (by omega), head?_drop]

include h hindex in
theorem recentMap_startOf :
    (map.recentMap encoding unsealed).startOf index = startAt (·.startHeight.toNat) map.archives unsealed
      (chunkStart map.firstShardId.toNat index - map.firstShardId.toNat) := by
  obtain ⟨hle, hlt, hstop⟩ := chunkStart_lt_stop hindex
  have hget : (map.recentMap encoding unsealed).chunks[index]? = some (refOf encoding
      (chunkBase map.firstShardId.toNat + index * indexChunkShards, map.slice index)) := by
    change (map.groups.map (refOf encoding))[index]? = _
    rw [getElem?_map, groups_getElem? h hindex, Option.map_some]
  have hin : chunkStart map.firstShardId.toNat index - map.firstShardId.toNat < map.archives.length := by omega
  rw [DisplayRecentMap.startOf, startAt_of_getElem? hget, startAt_of_getElem? (getElem?_eq_getElem hin)]
  change UInt64.toNat (((map.slice index).head?.map (·.startHeight)).getD 0) = _
  rw [head_slice hindex, getElem?_eq_getElem hin, Option.map_some, Option.getD_some]

include h hroom hindex in
theorem recentMap_startOf_succ :
    (map.recentMap encoding unsealed).startOf (index + 1) = startAt (·.startHeight.toNat) map.archives unsealed
      (chunkStop map.firstShardId.toNat map.archives.length index - map.firstShardId.toNat) := by
  by_cases hnext : index + 1 < chunkCount map.firstShardId.toNat map.archives.length
  · rw [recentMap_startOf h hnext, chunkStop_eq_start hnext]
  · have hlast : index + 1 = chunkCount map.firstShardId.toNat map.archives.length := by omega
    have hsized : (map.recentMap encoding unsealed).Sized := recentMap_sized h hroom
    have hlength := hsized.length
    rw [recentMap_archives hroom] at hlength
    rw [DisplayRecentMap.startOf, startAt_of_length_le (by rw [hlength, hlast]; exact Nat.le_refl _),
      recentMap_unsealed h, chunkStop_last hlast, startAt_of_length_le (by omega)]

include h hroom hindex in
theorem slice_tiles :
    TilesHeights ((map.recentMap encoding unsealed).startOf index) (map.slice index)
      ((map.recentMap encoding unsealed).startOf (index + 1)) := by
  obtain ⟨hle, hlt, hstop⟩ := chunkStart_lt_stop hindex
  rw [recentMap_startOf h hindex, recentMap_startOf_succ h hroom hindex]
  have htiles := h.tiles.slice
    (show chunkStart map.firstShardId.toNat index - map.firstShardId.toNat ≤
      chunkStop map.firstShardId.toNat map.archives.length index - map.firstShardId.toNat by omega) (by omega)
  rwa [show chunkStop map.firstShardId.toNat map.archives.length index - map.firstShardId.toNat -
    (chunkStart map.firstShardId.toNat index - map.firstShardId.toNat) =
      chunkStop map.firstShardId.toNat map.archives.length index - chunkStart map.firstShardId.toNat index
    by omega] at htiles

include h hroom in
theorem recentMap_laid : (map.recentMap encoding unsealed).Laid := by
  have hsized : (map.recentMap encoding unsealed).Sized := recentMap_sized h hroom
  refine ⟨hsized, ?_, ?_, ?_⟩
  · intro reference hmem
    obtain ⟨group, -, rfl⟩ := mem_map.mp hmem
    exact isDigest_hexEncode _
  · by_cases hnone : map.archives.length = 0
    · -- Without archives the unsealed range starts with the map.
      have hnil := length_eq_zero_iff.mp hnone
      have htiles := h.tiles
      have hempty : (map.recentMap encoding unsealed).chunks.length = 0 := by
        rw [hsized.length, recentMap_archives hroom, hnone]
        rfl
      rw [hnil] at htiles
      rw [DisplayRecentMap.startOf, startAt_of_length_le (Nat.le_of_eq hempty), recentMap_unsealed h]
      exact htiles.symm
    · have hindex : 0 < chunkCount map.firstShardId.toNat map.archives.length := by
        rw [lt_chunkCount hnone, chunkBase_eq]
        omega
      rw [recentMap_startOf h hindex, chunkStart_zero, Nat.sub_self]
      have hget := getElem?_eq_getElem (Nat.pos_of_ne_zero hnone)
      rw [startAt_of_getElem? hget]
      exact h.tiles.head (by rw [head?_eq_getElem?, hget])
  · intro index hindex
    rw [hsized.length, recentMap_archives hroom] at hindex
    have htiles : TilesHeights ((map.recentMap encoding unsealed).startOf index) _ _ := slice_tiles h hroom hindex
    have hlength := htiles.length_le
    rw [slice_length hindex] at hlength
    rw [recentMap_archives hroom]
    exact hlength

/-! ## The split succeeds -/

include h in
theorem recent_shardId {recent : DisplayMapEntry} (hrecent : map.recent = some recent) :
    recent.shardId.toNat = map.firstShardId.toNat + map.archives.length :=
  h.numbered _ _ (h.recent_eq.trans hrecent)

include h in
theorem recent_entry {recent : DisplayMapEntry} (hrecent : map.recent = some recent) :
    checkEntry map.sealParams recent = .ok () :=
  h.entries recent (List.mem_of_getElem? (h.recent_eq.trans hrecent))

include h hroom in
theorem recentMap_checkStructure : (map.recentMap encoding unsealed).checkStructure = pure () := by
  have hlaid : (map.recentMap encoding unsealed).Laid := recentMap_laid h hroom
  refine hlaid.checkStructure_ok h.schema rfl h.params ?_ fun recent hrecent => ⟨?_, recent_open hrecent, ?_, ?_⟩
  · rw [recentMap_archives hroom]
    rintro ⟨hnone, hclosed⟩
    have hclosed : map.recent = none := hclosed
    have hshards := h.shards_eq
    rw [length_eq_zero_iff.mp hnone, hclosed] at hshards
    exact h.shards_ne hshards
  · exact checkEntry_structure (recent_entry h hrecent)
  · rw [recentMap_archives hroom]
    exact recent_shardId h hrecent
  · rw [recentMap_unsealed h]
    exact (h.recent_ok recent hrecent).1

include h hroom in
theorem recentMap_checkShape : (map.recentMap encoding unsealed).checkShape = pure () := by
  rw [DisplayRecentMap.checkShape, recentMap_checkStructure h hroom, pure_bind]
  have hfield : (map.recentMap encoding unsealed).recent = map.recent := rfl
  rw [hfield]
  cases hrecent : map.recent with
  | none => rfl
  | some recent => exact congrArg done (recent_entry h hrecent)

include h hroom in
theorem recentMap_checkChunk {group : Nat × List DisplayMapEntry} (hget : map.groups[index]? = some group) :
    (map.recentMap encoding unsealed).checkChunkStructure index (chunkOf group) = pure () ∧
      (map.recentMap encoding unsealed).checkChunk index (chunkOf group) = pure () := by
  have hsized : (map.recentMap encoding unsealed).Sized := recentMap_sized h hroom
  have hlisted : index < (map.recentMap encoding unsealed).chunks.length := by
    change index < (map.groups.map (refOf encoding)).length
    rw [length_map]
    exact (List.getElem?_eq_some_iff.mp hget).1
  have hindex : index < chunkCount map.firstShardId.toNat map.archives.length := by
    rw [hsized.length, recentMap_archives hroom] at hlisted
    exact hlisted
  rw [groups_getElem? h hindex] at hget
  obtain rfl := Option.some_inj.mp hget
  obtain ⟨hle, hlt, hstop⟩ := chunkStart_lt_stop hindex
  have hbound := (lt_chunkCount (count_ne_zero_of_lt hindex)).mp hindex
  have hnumbered := h.archives_numbered.slice (chunkStart map.firstShardId.toNat index - map.firstShardId.toNat)
    (chunkStop map.firstShardId.toNat map.archives.length index - chunkStart map.firstShardId.toNat index)
  rw [Nat.add_sub_cancel' hle] at hnumbered
  have hstructure : (map.recentMap encoding unsealed).checkChunkStructure index
      (chunkOf (chunkBase map.firstShardId.toNat + index * indexChunkShards, map.slice index)) = pure () := by
    refine hsized.checkChunkStructure_ok hlisted rfl ?_ ?_ hnumbered (fun e he => ?_) ?_ (slice_tiles h hroom hindex)
      fun recent hrecent e he => (h.recent_ok recent hrecent).2 e (slice_subset he)
    · exact UInt64.toNat_ofNat_of_lt (by change _ < 2 ^ 64; omega)
    · rw [recentMap_archives hroom]
      exact slice_length hindex
    · exact ⟨map.archives_sealed e (slice_subset he), checkEntry_structure (h.archive_entry (slice_subset he))⟩
    · exact (h.chain.drop _).take _
  refine ⟨hstructure, ?_⟩
  rw [DisplayRecentMap.checkChunk, hstructure, pure_bind]
  exact congrArg done (Except.forM_eq_ok.mpr fun e he => h.archive_entry (slice_subset he))

theorem splitChunks_eq (encoding : Encoding) (map : DisplayMap) :
    map.splitChunks encoding = map.groups.map fun group => SplitChunk.new encoding (chunkOf group) := rfl

include h hroom in
/-- By induction on the chunks left. -/
theorem checkChunks_ok (hindex : index ≤ map.groups.length) :
    checkChunks (map.recentMap encoding unsealed) index ((map.splitChunks encoding).drop index) = pure () := by
  rw [splitChunks_eq]
  induction hrest : map.groups.length - index generalizing index with
  | zero =>
    rw [drop_eq_nil_of_le (by rw [length_map]; omega), checkChunks]
  | succ rest ih =>
    have hlt : index < map.groups.length := by omega
    rw [← map_drop, drop_eq_getElem_cons hlt, map_cons, checkChunks, map_drop]
    change (map.recentMap encoding unsealed).checkChunk index (chunkOf map.groups[index]) >>= _ = _
    rw [(recentMap_checkChunk h hroom (getElem?_eq_getElem hlt)).2, pure_bind]
    exact ih hlt (by omega)

include h in
theorem mapM_chunkRef : (map.splitChunks encoding).mapM chunkRef = pure (map.groups.map (refOf encoding)) := by
  have href : ∀ chunk ∈ map.splitChunks encoding, chunkRef chunk =
      pure ⟨(chunk.chunk.shards.head?.map (·.startHeight)).getD 0, chunk.sha256⟩ := by
    intro chunk hmem
    obtain ⟨group, hgroup, rfl⟩ := mem_map.mp hmem
    obtain ⟨index, hget⟩ := mem_iff_getElem?.mp hgroup
    have hindex := (List.getElem?_eq_some_iff.mp hget).1
    have hcount := (groupByChunk_spec (Nat.le_refl _) h.archives_numbered).1
    rw [show (groupByChunk map.archives.length map.archives).length = _ from hcount] at hindex
    have hslice := slice_length hindex
    have hlt := (chunkStart_lt_stop hindex).2.1
    have hne : map.slice index ≠ [] := by
      intro hnil
      rw [hnil, length_nil] at hslice
      omega
    obtain rfl := Option.some_inj.mp ((groups_getElem? h hindex).symm.trans hget)
    unfold chunkRef SplitChunk.new
    dsimp only
    rw [head?_eq_some_head hne]
    rfl
  rw [mapM_eq_pure href, splitChunks_eq, map_map]
  rfl

include h hroom in
theorem split_eq (hshape : map.checkShape = pure ())
    (hunsealed : map.unsealedStart = (pure unsealed : Checked String Nat)) :
    map.split encoding = pure ⟨map.recentMap encoding unsealed, encoding.recentBytes (map.recentMap encoding unsealed),
      hexEncode (encoding.sha256 (encoding.recentBytes (map.recentMap encoding unsealed))).val,
      map.splitChunks encoding⟩ := by
  have hchunks : checkChunks (map.recentMap encoding unsealed) 0 (map.splitChunks encoding) = pure () :=
    checkChunks_ok h hroom (Nat.zero_le _)
  have hrecent : (⟨map.schema, map.network, map.genesisHash, map.sealParams, map.startHeight, map.firstShardId,
      .ofNat map.archives.length, .ofNat unsealed, .ofNat indexChunkShards, map.groups.map (refOf encoding),
      map.shards[map.archives.length]?⟩ : DisplayRecentMap) = map.recentMap encoding unsealed := by
    rw [h.recent_eq]
    rfl
  rw [split, hshape, pure_bind]
  dsimp only
  rw [hunsealed, pure_bind, mapM_chunkRef h, pure_bind, hrecent, recentMap_checkShape h hroom, pure_bind, hchunks,
    pure_bind]

theorem splitChunks_shards :
    ((map.splitChunks encoding).flatMap fun chunk => chunk.chunk.shards) = map.archives := by
  rw [splitChunks_eq, flatMap_map]
  exact flatMap_groupByChunk (Nat.le_refl _)

include h hroom in
theorem recentMap_accepted :
    (map.recentMap encoding unsealed).Accepted ((map.splitChunks encoding).map (·.chunk)) := by
  rw [splitChunks_eq, map_map]
  refine ⟨?_, fun index chunk hget => ?_⟩
  · change _ = (map.groups.map (refOf encoding)).length
    rw [length_map, length_map]
  · rw [getElem?_map] at hget
    obtain ⟨group, hgroup, rfl⟩ := Option.map_eq_some_iff.mp hget
    exact (recentMap_checkChunk h hroom hgroup).1

include h hroom in
theorem route_eq (hunsealed : ∀ ε : Type, map.unsealedStart = (pure unsealed : Checked ε Nat)) (height : Nat) :
    (map.shardForHeight height : Checked ε (Option DisplayMapEntry)) =
      pure ((map.recentMap encoding unsealed).route ((map.splitChunks encoding).map (·.chunk)) height) := by
  have haccepted : (map.recentMap encoding unsealed).Accepted _ := recentMap_accepted h hroom
  have hstop : (map.recentMap encoding unsealed).unsealedStart.toNat = unsealed := recentMap_unsealed h
  have hlisted : (((map.splitChunks encoding).map (·.chunk)).flatMap (·.shards)) = map.archives := by
    rw [flatMap_map]
    exact splitChunks_shards
  rw [shardForHeight, hunsealed, pure_bind]
  by_cases hsealed : height < unsealed
  · rw [if_pos hsealed]
    refine congrArg pure ?_
    by_cases hstart : height < map.startHeight.toNat
    · rw [findByHeight_eq_none h.tiles (.inl hstart), DisplayRecentMap.route]
      exact (if_pos hstart).symm
    · obtain ⟨shard, hmem, hcovers, hroute⟩ := haccepted.route (recentMap_checkStructure h hroom)
        (Nat.not_lt.mp hstart) (hstop.symm ▸ hsealed)
      rw [hlisted] at hmem
      rw [hroute]
      exact (findByHeight_eq_some h.tiles).mpr ⟨hmem, hcovers⟩
  · rw [if_neg hsealed]
    have hstart := h.tiles.length_le
    have hnone : (map.recentMap encoding unsealed).chunkForHeight height = none :=
      if_pos (.inr (by rw [hstop]; exact Nat.not_lt.mp hsealed))
    have habove : ¬ height < (map.recentMap encoding unsealed).startHeight.toNat := by
      change ¬ height < map.startHeight.toNat
      omega
    rw [DisplayRecentMap.route, if_neg habove, hnone]
    rfl

end

end DisplayMap

end Zakura.Display
