import Zakura.Client.Lemmas.Retry
import Zakura.Client.Lemmas.SqliteRows

/-! # Cached runs in both stores

A table keeps the run it has for a page shard and script, where the store in memory takes the last one. -/

namespace Zakura.Client.SqliteStore

open List OrderedMap

variable {commit : ShardCommit}

def firstRun (commit : ShardCommit) (key : RunKey) : Option CachedRun := commit.cachedRuns.find? fun run => run.key = key

/-- The rows are those of the runs, which all can be read back. -/
structure RunsSim (rows : OrderedMap RunKey RunRow) (runs : OrderedMap RunKey CachedRun) : Prop where
  same : ∀ key : RunKey, rows[key]? = runs[key]?.map RunRow.of
  readable : ∀ (key : RunKey) (run : CachedRun), runs[key]? = some run →
    run.key = key ∧ 0 ≤ asI64 run.shardId ∧ ∃ raw, encodeEvents run.events = .ok raw

theorem runsSim_empty : RunsSim ∅ ∅ where
  same := by simp
  readable := by simp

variable {table : OrderedMap RunKey RunRow} {runs : OrderedMap RunKey CachedRun}

theorem RunsSim.read (h : RunsSim table runs) (key : RunKey) : table[key]?.mapM (RunRow.read key) = .ok runs[key]? := by
  rw [h.same]
  cases hrun : runs[key]? with
  | none => rfl
  | some run =>
    obtain ⟨rfl, hshard, raw, hraw⟩ := h.readable key run hrun
    rw [Option.map_some, Option.mapM_some, (RunRow.read_of_iff hraw).mpr ⟨hshard, rfl⟩]
    rfl

theorem getElem?_foldl_insertRun (listed : List CachedRun) (table : OrderedMap RunKey RunRow) (key : RunKey) :
    (listed.foldl (fun table run => insertRun table run (rawsOf run.events)) table)[key]? =
      table[key]?.or ((listed.find? fun run => run.key = key).map RunRow.of) := by
  induction listed generalizing table with
  | nil => simp
  | cons run listed ih =>
    have hstep : (insertRun table run (rawsOf run.events))[key]? =
        table[key]?.or (if run.key = key then some (RunRow.of run) else none) := getElem?_insert_of_absent _ _ _ _
    rw [foldl_cons, ih, hstep, Option.or_assoc]
    by_cases hkey : run.key = key
    · simp [hkey]
    · simp [hkey]

theorem getElem?_foldl_filter_scripts (shardId : Nat) (scripts : List Bytes) (table : OrderedMap RunKey RunRow)
    (key : RunKey) :
    (scripts.foldl (fun table script => table.filter fun key row => ¬ (row.shardId = shardId ∧ (ofLex key).2 = script))
      table)[key]? = table[key]?.filter fun row => ¬ (row.shardId = shardId ∧ (ofLex key).2 ∈ scripts) := by
  induction scripts generalizing table with
  | nil => exact Option.ext fun row => by simp [Option.filter_eq_some_iff]
  | cons script scripts ih =>
    rw [foldl_cons, ih, Std.ExtTreeMap.getElem?_filter', Option.filter_filter]
    congr 1
    funext row
    simp only [mem_cons, not_and, not_or]
    by_cases hshard : row.shardId = shardId <;> simp [hshard]

/-- A row of the table after a commit: the one held or the first listed, unless it is dropped. -/
theorem RunsSim.getElem?_updateRuns (h : RunsSim table runs) (commit : ShardCommit) (key : RunKey) :
    (updateRuns table commit (commit.cachedRuns.map fun run => rawsOf run.events))[key]? =
      ((runs[key]?.or (firstRun commit key)).filter fun run => ¬ MemoryStore.drops commit key run).map RunRow.of := by
  have hinserted : ((commit.cachedRuns.zip (commit.cachedRuns.map fun run => rawsOf run.events)).foldl
      (fun table run => insertRun table run.1 run.2) table)[key]? =
        (runs[key]?.or (firstRun commit key)).map RunRow.of := by
    rw [zip_map_self, foldl_map, getElem?_foldl_insertRun, h.same, ← Option.map_or]
    rfl
  rw [updateRuns]
  by_cases hfinishes : commit.finishesShard = true
  · rw [if_pos hfinishes, getElem?_foldl_filter_scripts, hinserted, Option.filter_map]
    congr 2
    funext run
    rw [Bool.eq_iff_iff]
    by_cases hshard : run.shardId = commit.shardId <;> simp [MemoryStore.drops, hfinishes, RunRow.of, hshard]
  · have hkeep : ∀ run, MemoryStore.drops commit key run = false := fun run => by simp [MemoryStore.drops, hfinishes]
    rw [if_neg hfinishes, hinserted]
    exact congrArg _ (Option.ext fun run => by simp [hkeep, Option.filter_eq_some_iff])

/-- The first and the last run that a commit lists for a page shard and script are the same, unless it drops them or
one is held; and it can be read back. -/
def RunsKept (runs : OrderedMap RunKey CachedRun) (commit : ShardCommit) : Prop :=
  ∀ key : RunKey, key ∉ runs →
    (firstRun commit key).filter (fun run => ¬ MemoryStore.drops commit key run) =
        (MemoryStore.lastRun commit key).filter (fun run => ¬ MemoryStore.drops commit key run) ∧
      ∀ run, (firstRun commit key).filter (fun run => ¬ MemoryStore.drops commit key run) = some run →
        0 ≤ asI64 run.shardId

theorem firstRun_mem {key : RunKey} {run : CachedRun} (h : firstRun commit key = some run) :
    run ∈ commit.cachedRuns ∧ run.key = key := by
  have hkey := find?_some h
  exact ⟨mem_of_find?_eq_some h, of_decide_eq_true hkey⟩

theorem lastRun_mem {key : RunKey} {run : CachedRun} (h : MemoryStore.lastRun commit key = some run) :
    run ∈ commit.cachedRuns ∧ run.key = key := by
  have hkey := find?_some h
  exact ⟨mem_reverse.mp (mem_of_find?_eq_some h), of_decide_eq_true hkey⟩

theorem RunsKept.same (hkept : RunsKept runs commit)
    (hheld : ∀ run ∈ commit.cachedRuns, ∀ held, runs[run.key]? = some held → held = run) (key : RunKey) :
    (runs[key]?.or (firstRun commit key)).filter (fun run => ¬ MemoryStore.drops commit key run) =
      ((MemoryStore.lastRun commit key).or runs[key]?).filter (fun run => ¬ MemoryStore.drops commit key run) := by
  cases hrun : runs[key]? with
  | none => rw [Option.none_or, Option.or_none, (hkept key (not_mem_of_getElem? hrun)).1]
  | some held =>
    cases hlast : MemoryStore.lastRun commit key with
    | none => rfl
    | some last =>
      obtain ⟨hmem, rfl⟩ := lastRun_mem hlast
      rw [hheld last hmem held hrun]
      rfl

theorem RunsSim.update (h : RunsSim table runs) (hkept : RunsKept runs commit)
    (hheld : ∀ run ∈ commit.cachedRuns, ∀ held, runs[run.key]? = some held → held = run)
    (hraw : ∀ run ∈ commit.cachedRuns, ∃ raw, encodeEvents run.events = .ok raw) :
    RunsSim (updateRuns table commit (commit.cachedRuns.map fun run => rawsOf run.events))
      (MemoryStore.updateRuns runs commit) := by
  refine ⟨fun key => ?_, fun key run hrun => ?_⟩
  · rw [h.getElem?_updateRuns, MemoryStore.getElem?_updateRuns, hkept.same hheld]
  · rw [MemoryStore.getElem?_updateRuns, ← hkept.same hheld] at hrun
    cases hold : runs[key]? with
    | some held =>
      rw [hold, Option.some_or, Option.filter_eq_some_iff] at hrun
      cases hrun.1
      exact h.readable key run hold
    | none =>
      rw [hold, Option.none_or] at hrun
      obtain ⟨hmem, hkey⟩ := firstRun_mem (Option.filter_eq_some_iff.mp hrun).1
      exact ⟨hkey, (hkept key (not_mem_of_getElem? hold)).2 run hrun, hraw run hmem⟩

theorem RunsSim.kept_of_read (h : RunsSim table runs)
    (hraw : ∀ run ∈ commit.cachedRuns, ∃ raw, encodeEvents run.events = .ok raw)
    (hread : ∀ key : RunKey,
      (updateRuns table commit (commit.cachedRuns.map fun run => rawsOf run.events))[key]?.mapM (RunRow.read key) =
        .ok (MemoryStore.updateRuns runs commit)[key]?) : RunsKept runs commit := by
  intro key hkey
  have hnone : runs[key]? = none := Std.ExtTreeMap.getElem?_eq_none hkey
  have hone := hread key
  rw [h.getElem?_updateRuns, MemoryStore.getElem?_updateRuns, hnone, Option.none_or, Option.or_none] at hone
  cases hfirst : (firstRun commit key).filter fun run => ¬ MemoryStore.drops commit key run with
  | none =>
    rw [hfirst] at hone
    exact ⟨Except.ok.inj hone, by simp⟩
  | some run =>
    obtain ⟨hmem, rfl⟩ := firstRun_mem (Option.filter_eq_some_iff.mp hfirst).1
    obtain ⟨raw, hraw⟩ := hraw run hmem
    rw [hfirst, Option.map_some, Option.mapM_some] at hone
    obtain ⟨run', hrun', hlast⟩ := Except.bind_eq_ok.mp hone
    obtain ⟨hshard, rfl⟩ := (RunRow.read_of_iff hraw).mp hrun'
    refine ⟨Except.pure_eq_ok.mp hlast, fun other hother => ?_⟩
    cases hother
    exact hshard

end Zakura.Client.SqliteStore
