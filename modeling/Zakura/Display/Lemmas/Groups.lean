import Zakura.Display.Lemmas.Checks

/-! # The archives of each chunk -/

namespace Zakura.Display

open List

variable {first count index : Nat} {archives : List DisplayMapEntry}

def chunkStart (first index : Nat) : Nat := max (chunkBase first + index * indexChunkShards) first

def chunkStop (first count index : Nat) : Nat :=
  min (chunkBase first + index * indexChunkShards + indexChunkShards) (first + count)

def chunkCount (first count : Nat) : Nat :=
  if count = 0 then 0 else (chunkBase (first + count - 1) - chunkBase first) / indexChunkShards + 1

theorem chunkBase_eq (n : Nat) : chunkBase n = n / 32 * 32 := by
  unfold chunkBase indexChunkShards
  omega

theorem lt_chunkCount (hcount : count ≠ 0) :
    index < chunkCount first count ↔ chunkBase first + index * indexChunkShards < first + count := by
  unfold chunkCount indexChunkShards
  rw [if_neg hcount, chunkBase_eq, chunkBase_eq]
  omega

theorem count_ne_zero_of_lt (h : index < chunkCount first count) : count ≠ 0 := by
  rintro rfl
  exact absurd h (Nat.not_lt_zero index)

theorem chunkStart_lt_stop (h : index < chunkCount first count) :
    first ≤ chunkStart first index ∧ chunkStart first index < chunkStop first count index ∧
      chunkStop first count index ≤ first + count := by
  have hcount := count_ne_zero_of_lt h
  rw [lt_chunkCount hcount] at h
  unfold chunkStart chunkStop indexChunkShards at *
  rw [chunkBase_eq] at *
  omega

theorem chunkStop_eq_start (h : index + 1 < chunkCount first count) :
    chunkStop first count index = chunkStart first (index + 1) := by
  have hcount := count_ne_zero_of_lt h
  rw [lt_chunkCount hcount] at h
  unfold chunkStart chunkStop indexChunkShards at *
  rw [chunkBase_eq] at *
  omega

theorem chunkStop_last (h : index + 1 = chunkCount first count) : chunkStop first count index = first + count := by
  have hcount : count ≠ 0 := count_ne_zero_of_lt (show index < chunkCount first count by omega)
  have hnot : ¬ index + 1 < chunkCount first count := by omega
  rw [lt_chunkCount hcount] at hnot
  unfold chunkStop indexChunkShards at *
  omega

theorem chunkStart_zero (first : Nat) : chunkStart first 0 = first := by
  unfold chunkStart indexChunkShards
  rw [chunkBase_eq]
  omega

/-! ## Grouping -/

theorem length_takeWhile_chunk {base : Nat} (hbase : base % 32 = 0) (hnumbered : Numbered first archives)
    (hle : base ≤ first) (hnext : first ≤ base + 32) :
    (archives.takeWhile fun shard => chunkBase shard.shardId.toNat = base).length =
      min archives.length (base + 32 - first) := by
  induction archives generalizing first with
  | nil => rw [takeWhile_nil, length_nil, Nat.zero_min]
  | cons shard archives ih =>
    obtain ⟨hid, hrest⟩ := numbered_cons.mp hnumbered
    rw [takeWhile_cons, hid, chunkBase_eq]
    by_cases hlt : first < base + 32
    · have hin : first / 32 * 32 = base := by omega
      rw [if_pos (decide_eq_true hin), length_cons, ih hrest (by omega) (by omega), length_cons]
      omega
    · have hout : ¬ first / 32 * 32 = base := by omega
      rw [if_neg (by simpa using hout), length_nil]
      omega

theorem length_firstGroup {shard : DisplayMapEntry} (hnumbered : Numbered first (shard :: archives)) :
    ((shard :: archives).takeWhile fun e => chunkBase e.shardId.toNat = chunkBase shard.shardId.toNat).length =
      chunkStop first (archives.length + 1) 0 - first := by
  have hid := (numbered_cons.mp hnumbered).1
  rw [hid, length_takeWhile_chunk (by rw [chunkBase_eq]; omega) hnumbered (by rw [chunkBase_eq]; omega)
    (by rw [chunkBase_eq]; omega)]
  unfold chunkStop indexChunkShards
  rw [chunkBase_eq, length_cons]
  omega

theorem flatMap_groupByChunk {fuel : Nat} (hfuel : archives.length ≤ fuel) :
    ((groupByChunk fuel archives).flatMap fun group => group.2) = archives := by
  induction fuel generalizing archives with
  | zero =>
    obtain rfl := length_eq_zero_iff.mp (Nat.le_zero.mp hfuel)
    rfl
  | succ fuel ih =>
    cases archives with
    | nil => rfl
    | cons shard archives =>
      rw [groupByChunk, flatMap_cons, ih, take_append_drop]
      rw [takeWhile_cons, if_pos (decide_eq_true rfl), length_cons, length_drop]
      rw [length_cons] at hfuel ⊢
      omega

theorem chunks_behind (hmore : chunkBase first + 32 < first + count) :
    chunkCount first count = chunkCount (chunkBase first + 32) (first + count - (chunkBase first + 32)) + 1 ∧
      ∀ index, chunkBase first + (index + 1) * 32 = chunkBase (chunkBase first + 32) + index * 32 ∧
        chunkStart first (index + 1) = chunkStart (chunkBase first + 32) index ∧
        chunkStop first count (index + 1) =
          chunkStop (chunkBase first + 32) (first + count - (chunkBase first + 32)) index := by
  unfold chunkCount chunkStart chunkStop indexChunkShards
  simp only [chunkBase_eq] at *
  rw [if_neg (by omega), if_neg (by omega)]
  refine ⟨by omega, fun index => ⟨by omega, by omega, by omega⟩⟩

/-- The groups are the chunks: one for each, with its base and its slice of the archives. By induction on the
rounds; a round leaves the archives from the next base on. -/
theorem groupByChunk_spec {fuel : Nat} (hfuel : archives.length ≤ fuel) (hnumbered : Numbered first archives) :
    (groupByChunk fuel archives).length = chunkCount first archives.length ∧
      ∀ index < chunkCount first archives.length,
        (groupByChunk fuel archives)[index]? = some (chunkBase first + index * indexChunkShards,
          (archives.drop (chunkStart first index - first)).take
            (chunkStop first archives.length index - chunkStart first index)) := by
  induction fuel generalizing archives first with
  | zero =>
    obtain rfl := length_eq_zero_iff.mp (Nat.le_zero.mp hfuel)
    exact ⟨rfl, fun index hindex => absurd hindex (Nat.not_lt_zero index)⟩
  | succ fuel ih =>
    cases archives with
    | nil => exact ⟨rfl, fun index hindex => absurd hindex (Nat.not_lt_zero index)⟩
    | cons shard archives =>
      have hid := (numbered_cons.mp hnumbered).1
      rw [groupByChunk, length_firstGroup hnumbered, hid]
      have hcount : (shard :: archives).length ≠ 0 := Nat.succ_ne_zero _
      have hhead : (chunkBase first, (shard :: archives).take (chunkStop first (archives.length + 1) 0 - first)) =
          (chunkBase first + 0 * indexChunkShards,
            ((shard :: archives).drop (chunkStart first 0 - first)).take
              (chunkStop first (shard :: archives).length 0 - chunkStart first 0)) := by
        rw [Nat.zero_mul, chunkStart_zero, Nat.sub_self, drop_zero, length_cons]
        rfl
      by_cases hmore : chunkBase first + 32 < first + (shard :: archives).length
      · obtain ⟨hcounts, hbehind⟩ := chunks_behind hmore
        have hstop : chunkStop first (archives.length + 1) 0 - first = chunkBase first + 32 - first := by
          unfold chunkStop indexChunkShards
          rw [length_cons] at hmore
          omega
        have hle : first ≤ chunkBase first + 32 := by
          rw [chunkBase_eq]
          omega
        have hrest := hnumbered.slice (chunkBase first + 32 - first) (shard :: archives).length
        rw [take_of_length_le (by rw [length_drop]; omega), Nat.add_sub_cancel' hle] at hrest
        have hlength : ((shard :: archives).drop (chunkBase first + 32 - first)).length =
            first + (shard :: archives).length - (chunkBase first + 32) := by
          rw [length_drop]
          omega
        obtain ⟨hgroups, hget⟩ := ih (by rw [hlength]; rw [length_cons] at hfuel ⊢; rw [chunkBase_eq]; omega) hrest
        rw [hlength] at hgroups hget
        rw [hstop] at hhead ⊢
        refine ⟨by rw [length_cons, hgroups, hcounts], fun index hindex => ?_⟩
        cases index with
        | zero => rw [getElem?_cons_zero, hhead]
        | succ index =>
          obtain ⟨hbase, hstart, hstopped⟩ := hbehind index
          have hge : chunkBase first + 32 ≤ chunkStart (chunkBase first + 32) index := Nat.le_max_right _ _
          rw [getElem?_cons_succ, hget index (by omega), drop_drop, hstart, hstopped]
          refine congrArg some (Prod.ext hbase.symm ?_)
          dsimp only
          rw [show chunkBase first + 32 - first + (chunkStart (chunkBase first + 32) index - (chunkBase first + 32)) =
            chunkStart (chunkBase first + 32) index - first by omega]
      · have hstop : chunkStop first (archives.length + 1) 0 - first = (shard :: archives).length := by
          unfold chunkStop indexChunkShards
          rw [length_cons] at hmore ⊢
          omega
        have hone : chunkCount first (shard :: archives).length = 1 := by
          have hzero : 0 < chunkCount first (shard :: archives).length ↔ _ := lt_chunkCount hcount
          have hsecond : 1 < chunkCount first (shard :: archives).length ↔ _ := lt_chunkCount hcount
          rw [length_cons] at *
          unfold indexChunkShards at *
          rw [chunkBase_eq] at *
          omega
        have hempty : groupByChunk fuel ((shard :: archives).drop (shard :: archives).length) = [] := by
          rw [drop_length]
          cases fuel <;> rfl
        rw [hstop] at hhead ⊢
        rw [hempty, hone]
        refine ⟨rfl, fun index hindex => ?_⟩
        obtain rfl := Nat.lt_one_iff.mp hindex
        rw [getElem?_cons_zero, hhead]

end Zakura.Display
