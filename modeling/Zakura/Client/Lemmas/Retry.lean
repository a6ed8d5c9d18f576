import Zakura.Client.Lemmas.Pending

/-! # A commit made again

Events and coverage are the same after a commit is repeated. Pending items are if none takes a fresh id, and cached
runs are if the commit does not list two different ones for one page shard and script. -/

namespace Zakura.Client.MemoryStore

open List Zakura.Transparent Zakura.Ledger OrderedMap
open Std.ExtTreeMap (ext_getElem? mem_insert)

variable {store after : MemoryStore} {commit : ShardCommit}

/-- The commit succeeds again and changes nothing of what the store has recovered. -/
def Repeats (after : MemoryStore) (commit : ShardCommit) : Prop :=
  ∃ again, after.commitShard commit = .ok again ∧ again.events = after.events ∧
    (∀ script, again.rangesOf script = after.rangesOf script) ∧ again.pending = after.pending ∧ again.runs = after.runs

def lastRun (commit : ShardCommit) (key : RunKey) : Option CachedRun :=
  commit.cachedRuns.reverse.find? fun run => run.key = key

/-- Whether a commit drops a run: its script is covered over the whole sealed shard. -/
def drops (commit : ShardCommit) (key : RunKey) (run : CachedRun) : Bool :=
  commit.finishesShard && run.shardId = commit.shardId && (ofLex key).2 ∈ commit.coveredScripts

/-- A commit that can be repeated: no item takes a fresh id, there is room for the items once more, and the runs it
lists for one page shard and script are the same one, or the last of them is dropped. -/
structure Repeatable (store : MemoryStore) (commit : ShardCommit) : Prop where
  ids : ∀ item ∈ commit.pendingUpsert, item.id.isSome
  room : (store.idsAfter commit).card - min commit.pendingComplete.length (store.idsAfter commit).card ≤
    store.pendingLimit
  runs : ∀ run ∈ commit.cachedRuns, ∀ last, lastRun commit run.key = some last → last = run ∨ drops commit run.key last

/-! ## Events and coverage -/

theorem Wf.newEvents_commitShard (h : Wf store) (hok : store.commitShard commit = .ok after) :
    Valid ((after.stored ++ commit.events).map entry) ∧ after.newEvents commit = [] := by
  obtain ⟨new, hcheck, rfl⟩ := commitShard_eq_ok.mp hok
  obtain ⟨-, hvalid, -, -, rfl⟩ := h.checkCommit_iff.mp hcheck
  refine ⟨hvalid.congr fun x => ?_, ?_⟩
  · have hsame := h.entries_applyCommit hvalid x
    rw [map_append, mem_append] at hsame ⊢
    rw [map_append, mem_append]
    tauto
  · refine filter_eq_nil_iff.mpr fun stored hmem hnone => ?_
    rw [Option.isNone_iff_eq_none, lookup_applyCommit, Option.or_eq_none_iff, find?_eq_none] at hnone
    refine hnone.1 stored (mem_reverse.mpr (mem_filter.mpr ⟨hmem, ?_⟩)) (decide_eq_true rfl)
    rw [hnone.2]
    rfl

theorem rangesOf_repeat (new new' : List StoredEvent) (script : Bytes) :
    ((store.applyCommit commit new).applyCommit commit new').rangesOf script =
      (store.applyCommit commit new).rangesOf script := by
  simp only [rangesOf_applyCommit]
  split_ifs
  · exact coverRange_coverRange _ _
  · rfl

/-! ## Pending items -/

variable {items : List PendingPages}

theorem getElem?_foldl_upsertPending (hids : ∀ item ∈ items, item.id.isSome) (pending : OrderedMap Nat PendingPages)
    (next id : Nat) :
    (items.foldl upsertPending (pending, next)).1[id]? =
      (items.reverse.find? fun item => item.id = some id).or pending[id]? := by
  induction items using List.reverseRecOn with
  | nil => rfl
  | append_singleton items item ih =>
    obtain ⟨given, hgiven⟩ := Option.isSome_iff_exists.mp (hids item (by simp))
    rw [foldl_append, foldl_cons, foldl_nil, upsertPending, hgiven, reverse_append]
    simp only [getElem?_insert_eq, ih fun item hitem => hids item (mem_append_left _ hitem)]
    by_cases hid : given = id
    · simp [hgiven, hid]
    · simp [hgiven, hid]

theorem getElem?_updatePending (hids : ∀ item ∈ commit.pendingUpsert, item.id.isSome)
    (pending : OrderedMap Nat PendingPages) (next id : Nat) (item : PendingPages) :
    (updatePending pending next commit).1[id]? = some item ↔
      commit.pendingUpsert.reverse.find? (fun item => item.id = some id) = some item ∨
        commit.pendingUpsert.reverse.find? (fun item => item.id = some id) = none ∧
          id ∉ commit.pendingComplete ∧ pending[id]? = some item := by
  rw [updatePending, getElem?_foldl_upsertPending hids, Option.or_eq_some_iff, getElem?_foldl_erase_keys]

theorem updatePending_repeat (hids : ∀ item ∈ commit.pendingUpsert, item.id.isSome)
    (pending : OrderedMap Nat PendingPages) (next next' : Nat) :
    (updatePending (updatePending pending next commit).1 next' commit).1 = (updatePending pending next commit).1 := by
  refine ext_getElem? fun id => Option.ext fun item => ?_
  simp only [getElem?_updatePending hids]
  tauto

theorem keySet_foldl_upsertPending (hids : ∀ item ∈ items, item.id.isSome) (pending : OrderedMap Nat PendingPages)
    (next : Nat) :
    keySet (items.foldl upsertPending (pending, next)).1 = keySet pending ∪ (items.filterMap (·.id)).toFinset := by
  induction items generalizing pending with
  | nil => simp
  | cons item items ih =>
    obtain ⟨given, hgiven⟩ := Option.isSome_iff_exists.mp (hids item mem_cons_self)
    rw [foldl_cons, upsertPending, hgiven]
    rw [ih (fun item hitem => hids item (mem_cons_of_mem _ hitem)), keySet_insert, filterMap_cons_some hgiven,
      toFinset_cons, Finset.insert_union, Finset.union_insert]

theorem size_applyCommit (hids : ∀ item ∈ commit.pendingUpsert, item.id.isSome) (new : List StoredEvent) :
    (store.applyCommit commit new).pending.size = (store.idsAfter commit).card := by
  rw [applyCommit_pending, ← card_keySet, updatePending, keySet_foldl_upsertPending hids, keySet_foldl_erase,
    idsAfter, upsertIds]

theorem freshCount_eq_zero (hids : ∀ item ∈ commit.pendingUpsert, item.id.isSome) : freshCount commit = 0 := by
  rw [freshCount, length_eq_zero_iff, filter_eq_nil_iff]
  intro item hitem hnone
  have hsome := hids item hitem
  rw [Option.isNone_iff_eq_none.mp hnone] at hsome
  simp at hsome

variable {pending : OrderedMap Nat PendingPages} {next : Nat}

theorem mem_foldl_upsertPending {id : Nat} (h : id ∈ pending) : id ∈ (items.foldl upsertPending (pending, next)).1 := by
  induction items generalizing pending next with
  | nil => exact h
  | cons item items ih =>
    rw [foldl_cons, upsertPending]
    cases item.id <;> exact ih (mem_insert.mpr (.inr h))

theorem next_mem_foldl_upsertPending (h : ∃ item ∈ items, item.id = none) :
    next + 1 ∈ (items.foldl upsertPending (pending, next)).1 := by
  induction items generalizing pending with
  | nil => simp at h
  | cons item items ih =>
    rw [foldl_cons, upsertPending]
    cases hid : item.id with
    | none => exact mem_foldl_upsertPending Std.ExtTreeMap.mem_insert_self
    | some id =>
      obtain ⟨fresh, hfresh, hnone⟩ := h
      rcases mem_cons.mp hfresh with rfl | hfresh
      · simp [hid] at hnone
      · exact ih ⟨fresh, hfresh, hnone⟩

theorem le_of_mem_foldl_upsertPending (hpending : ∀ id ∈ pending, id ≤ next)
    (hitems : ∀ item ∈ items, ∀ id, item.id = some id → id ≤ next) :
    ∀ id ∈ (items.foldl upsertPending (pending, next)).1, id ≤ (items.foldl upsertPending (pending, next)).2 := by
  induction items generalizing pending next with
  | nil => exact hpending
  | cons item items ih =>
    have hrest := fun item hitem => hitems item (mem_cons_of_mem _ hitem)
    rw [foldl_cons, upsertPending]
    cases hid : item.id with
    | some id =>
      refine ih (fun k hk => ?_) hrest
      rcases mem_insert.mp hk with heq | hk
      · exact compare_eq_iff_eq.mp heq ▸ hitems item mem_cons_self id hid
      · exact hpending k hk
    | none =>
      refine ih (fun k hk => ?_) fun item hitem id hid => (hrest item hitem id hid).trans (Nat.le_succ next)
      rcases mem_insert.mp hk with heq | hk
      · exact (compare_eq_iff_eq.mp heq).ge
      · exact (hpending k hk).trans (Nat.le_succ next)

/-! ## Cached runs -/

theorem getElem?_updateRuns (runs : OrderedMap RunKey CachedRun) (commit : ShardCommit) (key : RunKey) :
    (updateRuns runs commit)[key]? = ((lastRun commit key).or runs[key]?).filter fun run => ¬ drops commit key run := by
  have hinsert : (commit.cachedRuns.foldl (fun runs run => runs.insert run.key run) runs)[key]? =
      (lastRun commit key).or runs[key]? := getElem?_foldl_insert_last (fun run => decide_eq_true_iff) _ _
  rw [updateRuns]
  by_cases hfinishes : commit.finishesShard = true
  · rw [if_pos hfinishes, Std.ExtTreeMap.getElem?_filter', hinsert]
    have hsame : (fun run : CachedRun => decide ¬ (run.shardId = commit.shardId ∧ (ofLex key).2 ∈ commit.coveredScripts)) =
        fun run => decide ¬ drops commit key run = true := funext fun run => by simp [drops, hfinishes]
    rw [hsame]
  · rw [if_neg hfinishes, hinsert]
    have hkeep : ∀ run, drops commit key run = false := fun run => by simp [drops, hfinishes]
    cases (lastRun commit key).or runs[key]? <;> simp [hkeep, Option.filter]

theorem lastRun_isSome {run : CachedRun} (hrun : run ∈ commit.cachedRuns) : ∃ last, lastRun commit run.key = some last := by
  refine Option.isSome_iff_exists.mp (find?_isSome.mpr ⟨run, mem_reverse.mpr hrun, decide_eq_true rfl⟩)

theorem runs_hold_iff (runs : OrderedMap RunKey CachedRun) :
    (∀ run ∈ commit.cachedRuns, ∀ held, (updateRuns runs commit)[run.key]? = some held → held = run) ↔
      ∀ run ∈ commit.cachedRuns, ∀ last, lastRun commit run.key = some last → last = run ∨ drops commit run.key last := by
  constructor
  · intro h run hrun last hlast
    by_cases hdrops : drops commit run.key last = true
    · exact .inr hdrops
    · refine .inl (h run hrun last ?_)
      rw [getElem?_updateRuns, hlast, Option.some_or]
      simp [hdrops]
  · intro h run hrun held hheld
    obtain ⟨last, hlast⟩ := lastRun_isSome hrun
    rw [getElem?_updateRuns, hlast, Option.some_or, Option.filter_eq_some_iff] at hheld
    obtain ⟨hsame, hkeep⟩ := hheld
    cases hsame
    rcases h run hrun held hlast with heq | hdrops
    · exact heq
    · simp [hdrops] at hkeep

theorem updateRuns_repeat (runs : OrderedMap RunKey CachedRun) (commit : ShardCommit) :
    updateRuns (updateRuns runs commit) commit = updateRuns runs commit := by
  refine ext_getElem? fun key => ?_
  rw [getElem?_updateRuns, getElem?_updateRuns]
  cases lastRun commit key with
  | some last => rfl
  | none => simp

/-! ## The whole commit -/

theorem Repeatable.repeats (hrepeatable : Repeatable store commit) (h : Wf store)
    (hok : store.commitShard commit = .ok after) : Repeats after commit := by
  have hafter := h.commitShard hok
  obtain ⟨hvalid, hnone⟩ := h.newEvents_commitShard hok
  obtain ⟨new, hcheck, rfl⟩ := commitShard_eq_ok.mp hok
  obtain ⟨hraw, -⟩ := h.checkCommit_iff.mp hcheck
  have hroom : (store.applyCommit commit new).pendingAfter commit ≤ (store.applyCommit commit new).pendingLimit := by
    have hfresh := freshCount_eq_zero hrepeatable.ids
    rw [freshCount] at hfresh
    rw [pendingAfter, hfresh, size_applyCommit hrepeatable.ids, pendingLimit, applyCommit_limit]
    exact hrepeatable.room
  have hruns := (runs_hold_iff store.runs).mpr hrepeatable.runs
  rw [← applyCommit_runs new] at hruns
  have hagain := hafter.checkCommit_iff.mpr ⟨hraw, hvalid, hroom, hruns, hnone⟩
  refine ⟨_, commitShard_eq_ok.mpr ⟨[], hagain, rfl⟩, rfl, rangesOf_repeat new [], ?_, ?_⟩
  · rw [applyCommit_pending, applyCommit_pending, updatePending_repeat hrepeatable.ids]
  · rw [applyCommit_runs, applyCommit_runs, updateRuns_repeat]

/-- The pending ids, of the store and of a commit, are ones the store gave out. -/
def IdsGiven (store : MemoryStore) (commit : ShardCommit) : Prop :=
  (∀ id ∈ store.pending, id ≤ store.nextPending) ∧
    ∀ item ∈ commit.pendingUpsert, ∀ id, item.id = some id → id ≤ store.nextPending

theorem Repeats.repeatable (hrepeats : Repeats after commit)
    (hok : store.commitShard commit = .ok after) (hgiven : IdsGiven store commit) : Repeatable store commit := by
  obtain ⟨new, hcheck, rfl⟩ := commitShard_eq_ok.mp hok
  obtain ⟨again, hagain, -, -, hpending, -⟩ := hrepeats
  obtain ⟨new', hcheck', rfl⟩ := commitShard_eq_ok.mp hagain
  obtain ⟨-, -, -, -, -, -, hlimit, hruns, -⟩ := checkCommit_eq_ok.mp hcheck'
  have hids : ∀ item ∈ commit.pendingUpsert, item.id.isSome := by
    -- An item without an id takes one above all that are pending, and so a new one each time.
    intro item hitem
    by_contra hnone
    have hmem : (store.applyCommit commit new).nextPending + 1 ∈ (store.applyCommit commit new).pending := by
      rw [← hpending, applyCommit_pending]
      exact next_mem_foldl_upsertPending ⟨item, hitem, by simpa using hnone⟩
    have hle : ∀ id ∈ (store.applyCommit commit new).pending, id ≤ (store.applyCommit commit new).nextPending := by
      rw [applyCommit_pending, applyCommit_nextPending]
      refine le_of_mem_foldl_upsertPending (fun id hid => hgiven.1 id ?_) hgiven.2
      rw [← mem_keySet, keySet_foldl_erase, Finset.mem_sdiff, mem_keySet] at hid
      exact hid.1
    exact absurd (hle _ hmem) (Nat.not_succ_le_self _)
  refine ⟨hids, ?_, ?_⟩
  · rw [pendingAfter, size_applyCommit hids, pendingLimit, applyCommit_limit] at hlimit
    exact (Nat.sub_le_sub_right (Nat.le_add_right _ _) _).trans hlimit
  · refine (runs_hold_iff store.runs).mp fun run hrun => ?_
    rw [← applyCommit_runs new]
    exact checkRun_eq_ok.mp (hruns run hrun)

end Zakura.Client.MemoryStore
