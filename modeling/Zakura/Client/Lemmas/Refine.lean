import Zakura.Client.Lemmas.SqliteCoverage
import Zakura.Client.Lemmas.SqliteEvents
import Zakura.Client.Lemmas.SqlitePending

/-! # The store in SQLite against the one in memory

The tables hold what the store in memory does. A call keeps that unless it is a commit that the two treat
differently, and then they also differ in what they report. -/

namespace Zakura.Client

open Zakura.Transparent Zakura.Except
open Zakura.Ledger (Valid)
open MemoryStore (Call entry freshCount)

variable {mem : MemoryStore} {store : SqliteStore} {commit : ShardCommit}

/-- The tables hold what the store in memory does. -/
structure Sim (mem : MemoryStore) (store : SqliteStore) : Prop where
  wf : mem.Wf
  events : store.EventsSim mem
  coverage : SqliteStore.CoverageSim store.coverage mem.rangesOf
  pending : SqliteStore.PendingSim store.pendingWork mem.pending mem.nextPending
  sequence : store.pendingSequence = mem.nextPending
  runs : SqliteStore.RunsSim store.runCache mem.runs
  anchor : store.anchor = mem.anchor
  limit : store.pendingLimit = mem.pendingLimit
  failures : store.failedEntries = mem.failures
  revisions : store.failureRevisions = mem.failureRevisions

structure Agree (mem : MemoryStore) (store : SqliteStore) : Prop where
  events : store.events = .ok mem.events
  coverage : ∀ script, SqliteStore.coverageOf store.coverage script = mem.rangesOf script
  anchor : store.anchor = mem.anchor
  pending : store.pending = .ok mem.pending.vals
  runs : ∀ key : RunKey, store.cachedRun key = .ok mem.runs[key]?
  failures : ∀ shardId revision script,
    store.entryFailures shardId revision script = mem.entryFailures shardId revision script

theorem Sim.agree (h : Sim mem store) : Agree mem store where
  events := h.events.events
  coverage := h.coverage.coverageOf_eq
  anchor := h.anchor
  pending := h.pending.read
  runs := h.runs.read
  failures _ _ _ := by
    rw [SqliteStore.entryFailures, h.failures, h.revisions]
    rfl

theorem sim_empty (limit : Nat) : Sim { limit := some limit } { pendingLimit := limit } where
  wf := MemoryStore.wf_empty (some limit)
  events := by
    refine ⟨fun key => ?_, fun stored hstored => ?_⟩
    · cases key <;> simp [SqliteStore.lookup, MemoryStore.lookup]
    · simp [MemoryStore.stored, OrderedMap.vals] at hstored
  coverage := by
    have hnone : MemoryStore.rangesOf { limit := some limit } = fun _ => [] := funext fun script => by
      simp [MemoryStore.rangesOf]
    rw [hnone]
    exact SqliteStore.coverageSim_empty
  pending := SqliteStore.pendingSim_empty 0
  sequence := rfl
  runs := SqliteStore.runsSim_empty
  anchor := rfl
  limit := rfl
  failures := rfl
  revisions := rfl

/-! ## A commit -/

/-- The commit passes every check but the one for room. -/
structure Offered (mem : MemoryStore) (commit : ShardCommit) : Prop where
  encodable : ∃ raw, commit.encodeEvents = .ok raw
  valid : Valid ((mem.stored ++ commit.events).map entry)
  runs : ∀ run ∈ commit.cachedRuns, ∀ held, mem.runs[run.key]? = some held → held = run

/-- There is room for the items of a commit, as memory counts them: completed ids take away at most all that are
pending. -/
def Room (mem : MemoryStore) (commit : ShardCommit) : Prop :=
  mem.pending.size + freshCount commit ≤ mem.pendingLimit + min commit.pendingComplete.length mem.pending.size

def TableRoom (mem : MemoryStore) (commit : ShardCommit) : Prop :=
  (mem.pending.size + freshCount commit : Int) ≤ asI64 mem.pendingLimit + commit.pendingComplete.length

theorem Sim.commitShard_isOk_memory (h : Sim mem store) :
    (∃ after, mem.commitShard commit = .ok after) ↔ Offered mem commit ∧ Room mem commit := by
  have hroom : mem.pendingAfter commit ≤ mem.pendingLimit ↔ Room mem commit := by
    rw [MemoryStore.pendingAfter, Room, freshCount]
    omega
  simp only [MemoryStore.commitShard_eq_ok, h.wf.checkCommit_iff, hroom]
  constructor
  · rintro ⟨_, _, ⟨hraw, hvalid, hfits, hheld, _⟩, _⟩
    exact ⟨⟨hraw, hvalid, hheld⟩, hfits⟩
  · rintro ⟨hoffered, hfits⟩
    exact ⟨_, _, ⟨hoffered.encodable, hoffered.valid, hfits, hoffered.runs, rfl⟩, rfl⟩

theorem Sim.pendingAfter_le_iff (h : Sim mem store) :
    store.pendingAfter commit ≤ asI64 store.pendingLimit ↔ TableRoom mem commit := by
  have hsize : store.pendingWork.size = mem.pending.size := by
    rw [OrderedMap.eq_map_of_getElem? h.pending.same, Std.ExtTreeMap.size_map]
  rw [SqliteStore.pendingAfter, TableRoom, freshCount, hsize, h.limit]
  omega

theorem SqliteStore.countFailure_eq (failed : OrderedMap (Nat ×ₗ Bytes) Nat) (key : Nat ×ₗ Bytes) :
    countFailure failed key = failed.upsert key 0 (· + 1) := by
  rw [countFailure, OrderedMap.upsert]
  cases failed[key]? <;> rfl

/-- Writing the revision that is held changes nothing. -/
theorem SqliteStore.updateFailures_eq (failed : OrderedMap (Nat ×ₗ Bytes) Nat) (revisions : OrderedMap Nat Bytes)
    (commit : ShardCommit) :
    updateFailures failed revisions commit = MemoryStore.updateFailures failed revisions commit := by
  simp only [updateFailures, MemoryStore.updateFailures, countFailure_eq]
  by_cases hdigest : commit.revisionDigest = []
  · simp only [hdigest, ne_eq, not_true_eq_false, false_and, if_true, if_false]
  · by_cases hheld : revisions[commit.shardId]? = some commit.revisionDigest
    · have hsame : revisions.insert commit.shardId commit.revisionDigest = revisions := by
        refine Std.ExtTreeMap.ext_getElem? fun shardId => ?_
        rw [OrderedMap.getElem?_insert_eq]
        split_ifs with h
        · rw [← h, hheld]
        · rfl
      simp only [hdigest, hheld, hsame, ne_eq, not_true_eq_false, and_false, if_true, if_false]
    · simp only [hdigest, hheld, ne_eq, not_false_eq_true, and_self, if_true, if_false]

/-- What a commit that passes the checks leaves in the tables. -/
structure Written (mem : MemoryStore) (store after : SqliteStore) (commit : ShardCommit) : Prop where
  lookup : ∀ key, after.lookup key =
    (commit.events.foldl (fun store stored => store.insertEvent stored (rawOf stored.event)) store).lookup key
  coverage : SqliteStore.CoverageSim after.coverage (mem.applyCommit commit (mem.newEvents commit)).rangesOf
  pending : after.pendingWork = (SqliteStore.updatePending store.pendingWork mem.nextPending commit).1
  sequence : after.pendingSequence = (SqliteStore.updatePending store.pendingWork mem.nextPending commit).2
  runs : after.runCache =
    SqliteStore.updateRuns store.runCache commit (commit.cachedRuns.map fun run => rawsOf run.events)
  anchor : after.anchor = mem.anchor
  limit : after.pendingLimit = mem.pendingLimit
  failures : (after.failedEntries, after.failureRevisions) =
    MemoryStore.updateFailures mem.failures mem.failureRevisions commit

theorem Sim.applyCommit (h : Sim mem store) {encoded : List Bytes × List Bytes × List Bytes}
    (hraw : commit.encodeEvents = .ok encoded) :
    ∃ after, store.applyCommit commit encoded = .ok after ∧ Written mem store after commit := by
  obtain ⟨⟨hevents, -⟩, ⟨hpending, -⟩, hruns, -⟩ := ShardCommit.encodeEvents_eq_ok hraw
  obtain ⟨receives, spends, hframe⟩ := SqliteStore.foldl_insertEvent_frame commit.events store
  obtain ⟨coverage, hcoverage, hsim⟩ := h.coverage.coverScripts commit
  have hranges : (mem.applyCommit commit (mem.newEvents commit)).rangesOf =
      fun script => (MemoryStore.coverScripts mem.coverage commit)[script]?.getD [] := by
    funext script
    rw [MemoryStore.rangesOf, MemoryStore.applyCommit_coverage]
  have hfold : (commit.events.zip encoded.1).foldl (fun store event => store.insertEvent event.1 event.2) store =
      { store with receives, spends } := by
    rw [hevents, zip_map_self, List.foldl_map, hframe]
  have hupserts : (commit.pendingUpsert.zip encoded.2.1).foldl
      (fun state item => SqliteStore.upsertPending state item.1 item.2)
      (commit.pendingComplete.foldl (fun pending id => pending.erase id) store.pendingWork, store.pendingSequence) =
      SqliteStore.updatePending store.pendingWork mem.nextPending commit := by
    rw [hpending, zip_map_self, List.foldl_map, h.sequence]
    rfl
  refine ⟨{ store with
    receives, spends, coverage
    pendingWork := (SqliteStore.updatePending store.pendingWork mem.nextPending commit).1
    pendingSequence := (SqliteStore.updatePending store.pendingWork mem.nextPending commit).2
    failedEntries := (MemoryStore.updateFailures mem.failures mem.failureRevisions commit).1
    failureRevisions := (MemoryStore.updateFailures mem.failures mem.failureRevisions commit).2
    runCache := SqliteStore.updateRuns store.runCache commit (commit.cachedRuns.map fun run => rawsOf run.events)
    commits := store.commits + 1 }, ?_, ?_⟩
  · rw [SqliteStore.applyCommit]
    dsimp only
    rw [hfold]
    dsimp only
    rw [hcoverage, ok_bind, hupserts, hruns, h.failures, h.revisions, SqliteStore.updateFailures_eq]
    rfl
  · refine ⟨fun key => ?_, hranges ▸ hsim, rfl, rfl, rfl, h.anchor, h.limit, rfl⟩
    rw [hframe]
    cases key <;> rfl

theorem Sim.commitShard_isOk (h : Sim mem store) :
    (∃ after, store.commitShard commit = .ok after) ↔ Offered mem commit ∧ TableRoom mem commit := by
  have hcheck : ∀ encoded, store.checkCommit commit = .ok encoded ↔ _ := fun _ => h.events.checkCommit_iff h.wf h.runs
  simp only [h.pendingAfter_le_iff] at hcheck
  constructor
  · rintro ⟨after, hok⟩
    obtain ⟨encoded, hencoded, -⟩ := bind_eq_ok.mp hok
    obtain ⟨hraw, hvalid, hroom, hheld⟩ := (hcheck encoded).mp hencoded
    exact ⟨⟨⟨encoded, hraw⟩, hvalid, hheld⟩, hroom⟩
  · rintro ⟨⟨⟨encoded, hraw⟩, hvalid, hheld⟩, hroom⟩
    obtain ⟨after, hafter, -⟩ := h.applyCommit hraw
    exact ⟨after, bind_eq_ok.mpr ⟨encoded, (hcheck encoded).mpr ⟨hraw, hvalid, hroom, hheld⟩, hafter⟩⟩

theorem Sim.commitShard (h : Sim mem store) {memAfter : MemoryStore} {after : SqliteStore}
    (hmem : mem.commitShard commit = .ok memAfter) (hstore : store.commitShard commit = .ok after) :
    memAfter = mem.applyCommit commit (mem.newEvents commit) ∧ Written mem store after commit := by
  obtain ⟨new, hnew, rfl⟩ := MemoryStore.commitShard_eq_ok.mp hmem
  obtain ⟨-, -, -, -, rfl⟩ := h.wf.checkCommit_iff.mp hnew
  obtain ⟨encoded, hencoded, hafter⟩ := bind_eq_ok.mp hstore
  obtain ⟨hraw, -⟩ := (h.events.checkCommit_iff h.wf h.runs).mp hencoded
  obtain ⟨after', hafter', hwritten⟩ := h.applyCommit hraw
  rw [hafter] at hafter'
  cases hafter'
  exact ⟨rfl, hwritten⟩

/-- The commit leaves the same in both stores: events and runs it lists twice are the same, and its pending items fit
the rows they are written to. -/
structure Kept (mem : MemoryStore) (commit : ShardCommit) : Prop where
  events : SqliteStore.EventsKept mem commit
  pending : SqliteStore.WritesKept mem.pending mem.nextPending commit
  runs : SqliteStore.RunsKept mem.runs commit

section Step

variable {after : SqliteStore} (h : Sim mem store) (hoffered : Offered mem commit)
  (hwritten : Written mem store after commit)

include h hoffered hwritten

theorem Written.sim (hkept : Kept mem commit) (hwf : (mem.applyCommit commit (mem.newEvents commit)).Wf) :
    Sim (mem.applyCommit commit (mem.newEvents commit)) after := by
  obtain ⟨encoded, hraw⟩ := hoffered.encodable
  obtain ⟨⟨-, hevents⟩, ⟨-, hitems⟩, -, hruns⟩ := ShardCommit.encodeEvents_eq_ok hraw
  have hfailures := hwritten.failures.trans (MemoryStore.applyCommit_failures (mem.newEvents commit)).symm
  refine ⟨hwf, ?_, hwritten.coverage, ?_, ?_, ?_, ?_, ?_, congrArg Prod.fst hfailures, congrArg Prod.snd hfailures⟩
  · exact h.events.update h.wf hoffered.valid hwritten.lookup hevents hkept.events
  · rw [hwritten.pending, MemoryStore.applyCommit_pending, MemoryStore.applyCommit_nextPending]
    exact h.pending.update hkept.pending fun item hitem => (hitems item hitem).symm
  · rw [hwritten.sequence, MemoryStore.applyCommit_nextPending]
    exact SqliteStore.upsertAll_snd _ _ _ _
  · rw [hwritten.runs, MemoryStore.applyCommit_runs]
    exact h.runs.update hkept.runs hoffered.runs hruns
  · rw [hwritten.anchor, MemoryStore.applyCommit_anchor]
  · rw [hwritten.limit, MemoryStore.pendingLimit, MemoryStore.pendingLimit, MemoryStore.applyCommit_limit]

theorem Written.kept (hagree : Agree (mem.applyCommit commit (mem.newEvents commit)) after) : Kept mem commit := by
  obtain ⟨encoded, hraw⟩ := hoffered.encodable
  obtain ⟨⟨-, hevents⟩, ⟨-, hitems⟩, -, hruns⟩ := ShardCommit.encodeEvents_eq_ok hraw
  refine ⟨?_, ?_, ?_⟩
  · exact h.events.kept_of_read h.wf hoffered.valid hwritten.lookup hevents hagree.events
  · refine h.pending.kept_of_read (fun item hitem => (hitems item hitem).symm) ?_
    rw [← hwritten.pending, ← MemoryStore.applyCommit_pending (mem.newEvents commit)]
    exact hagree.pending
  · refine h.runs.kept_of_read hruns fun key => ?_
    rw [← hwritten.runs, ← MemoryStore.applyCommit_runs (mem.newEvents commit)]
    exact hagree.runs key

end Step

/-! ## The other calls -/

theorem SqliteStore.addScripts_frame (store : SqliteStore) (entries : List ScriptEntry) :
    ∃ scripts, (store.addScripts entries).1 = { store with scripts } := by
  induction entries generalizing store with
  | nil => exact ⟨store.scripts, rfl⟩
  | cons entry entries ih =>
    obtain ⟨scripts, hscripts⟩ := ih { store with
      scripts := store.scripts.upsert entry.script entry fun known =>
        { known with requiredFrom := min known.requiredFrom entry.requiredFrom } }
    exact ⟨scripts, hscripts⟩

theorem SqliteStore.lookup_rollbackAbove (store : SqliteStore) (accepted : Anchor) (key : Outpoint ⊕ SpendKey) :
    (store.rollbackAbove accepted).lookup key = (store.lookup key).filter fun row => row.height ≤ accepted.height := by
  cases key with
  | inl outpoint => exact Std.ExtTreeMap.getElem?_filter'
  | inr key => exact Std.ExtTreeMap.getElem?_filter'

theorem Sim.rollbackAbove (h : Sim mem store) (accepted : Anchor) :
    Sim (mem.rollbackAbove accepted) (store.rollbackAbove accepted) := by
  have hwf := h.wf.rollbackAbove accepted
  refine ⟨hwf, ⟨fun key => ?_, fun stored hstored => ?_⟩, ?_, ?_, h.sequence, h.runs, ?_, h.limit, h.failures, h.revisions⟩
  · rw [SqliteStore.lookup_rollbackAbove, MemoryStore.lookup_rollbackAbove, h.events.same, Option.filter_map]
    rfl
  · have hlookup := hwf.keyed.mem_stored.mp hstored
    rw [MemoryStore.lookup_rollbackAbove, Option.filter_eq_some_iff] at hlookup
    exact h.events.encoded stored (h.wf.keyed.mem_stored.mpr hlookup.1)
  · rw [show (mem.rollbackAbove accepted).rangesOf = fun script => (mem.rangesOf script).filterMap (cutRange accepted) from
      funext fun script => mem.rangesOf_rollbackAbove accepted script]
    exact h.coverage.rollback accepted
  · exact SqliteStore.pendingSim_empty _
  · rw [SqliteStore.rollbackAbove, h.anchor]
    rfl

theorem Sim.promoteProvisional (h : Sim mem store) (shardId : Nat) (revisionDigest : Bytes) :
    ∃ after, store.promoteProvisional shardId revisionDigest = .ok after ∧
      Sim (mem.promoteProvisional shardId revisionDigest) after := by
  have hcoverage := h.coverage.promote shardId revisionDigest
  refine ⟨{ store with coverage := store.coverage.map fun _ range => promoteRange shardId revisionDigest range }, ?_, ?_⟩
  · rw [SqliteStore.promoteProvisional, hcoverage.keyed.rewrite]
    rfl
  · refine ⟨⟨h.wf.keyed, h.wf.valid, h.wf.indexed⟩, ⟨h.events.same, h.events.encoded⟩, ?_, h.pending, h.sequence, h.runs,
      h.anchor, h.limit, h.failures, h.revisions⟩
    rw [show (mem.promoteProvisional shardId revisionDigest).rangesOf = fun script =>
        mergeCoverage ((mem.rangesOf script).map (promoteRange shardId revisionDigest)) from
      funext fun script => mem.rangesOf_promoteProvisional shardId revisionDigest script]
    exact hcoverage

/-! ## One call -/

/-- A commit that both stores treat the same: if it passes the other checks, both count the same room, and if there is
room it leaves the same. -/
def CommitAgrees (mem : MemoryStore) (commit : ShardCommit) : Prop :=
  Offered mem commit → (Room mem commit ↔ TableRoom mem commit) ∧ (Room mem commit → Kept mem commit)

def StepAgrees (mem : MemoryStore) (store : SqliteStore) (next : Call) : Prop :=
  (mem.result next).isOk = (store.result next).isOk ∧ Agree (mem.call next) (store.call next)

theorem Sim.commit_step (h : Sim mem store) (commit : ShardCommit) :
    (StepAgrees mem store (.commitShard commit) ↔ CommitAgrees mem commit) ∧
      (CommitAgrees mem commit → Sim (mem.call (.commitShard commit)) (store.call (.commitShard commit))) := by
  have hmem : (∃ after, mem.commitShard commit = .ok after) ↔ _ := h.commitShard_isOk_memory
  have hstore : (∃ after, store.commitShard commit = .ok after) ↔ _ := h.commitShard_isOk
  have hcall : mem.call (.commitShard commit) = (mem.commitShard commit).toOption.getD mem := rfl
  have hcall' : store.call (.commitShard commit) = (store.commitShard commit).toOption.getD store := rfl
  rw [StepAgrees, hcall, hcall', MemoryStore.result, SqliteStore.result]
  cases hleft : mem.commitShard commit with
  | error error =>
    have hrefused : ¬ (Offered mem commit ∧ Room mem commit) := by
      rw [← hmem, hleft]
      simp
    cases hright : store.commitShard commit with
    | error error' =>
      have hrefused' : ¬ (Offered mem commit ∧ TableRoom mem commit) := by
        rw [← hstore, hright]
        simp
      refine ⟨iff_of_true ⟨rfl, h.agree⟩ fun hoffered => ⟨?_, ?_⟩, fun _ => h⟩
      · exact iff_of_false (fun hroom => hrefused ⟨hoffered, hroom⟩) fun hroom => hrefused' ⟨hoffered, hroom⟩
      · exact fun hroom => absurd ⟨hoffered, hroom⟩ hrefused
    | ok after =>
      obtain ⟨hoffered, hroom⟩ := hstore.mp ⟨after, hright⟩
      have hdiffer : ¬ CommitAgrees mem commit := fun hagrees =>
        hrefused ⟨hoffered, (hagrees hoffered).1.mpr hroom⟩
      exact ⟨iff_of_false (fun hstep => Bool.noConfusion hstep.1) hdiffer, fun hagrees => absurd hagrees hdiffer⟩
  | ok memAfter =>
    obtain ⟨hoffered, hroom⟩ := hmem.mp ⟨memAfter, hleft⟩
    cases hright : store.commitShard commit with
    | error error =>
      have hdiffer : ¬ CommitAgrees mem commit := fun hagrees => by
        obtain ⟨after, hafter⟩ := hstore.mpr ⟨hoffered, (hagrees hoffered).1.mp hroom⟩
        rw [hright] at hafter
        cases hafter
      exact ⟨iff_of_false (fun hstep => Bool.noConfusion hstep.1) hdiffer, fun hagrees => absurd hagrees hdiffer⟩
    | ok after =>
      obtain ⟨rfl, hwritten⟩ := h.commitShard hleft hright
      have hwf := h.wf.commitShard hleft
      have hsim : Kept mem commit → Sim (mem.applyCommit commit (mem.newEvents commit)) after :=
        fun hkept => hwritten.sim h hoffered hkept hwf
      refine ⟨⟨fun hstep _ => ⟨?_, fun _ => hwritten.kept h hoffered hstep.2⟩, fun hagrees => ⟨rfl, ?_⟩⟩, fun hagrees => ?_⟩
      · exact iff_of_true hroom (hstore.mp ⟨after, hright⟩).2
      · exact (hsim ((hagrees hoffered).2 hroom)).agree
      · exact hsim ((hagrees hoffered).2 hroom)

def CallAgrees (mem : MemoryStore) : Call → Prop
  | .commitShard commit => CommitAgrees mem commit
  | _ => True

theorem Sim.step (h : Sim mem store) (next : Call) :
    (StepAgrees mem store next ↔ CallAgrees mem next) ∧
      (CallAgrees mem next → Sim (mem.call next) (store.call next)) := by
  -- Only a commit can be treated differently.
  have hother : ∀ after, (mem.result next).isOk = true → store.result next = .ok after → Sim (mem.call next) after →
      StepAgrees mem store next ∧ Sim (mem.call next) (store.call next) := by
    intro after hok hafter hsim
    have hcall : store.call next = after := by
      rw [SqliteStore.call, hafter]
      rfl
    rw [StepAgrees, hcall, hok, hafter]
    exact ⟨⟨rfl, hsim.agree⟩, hsim⟩
  cases next with
  | commitShard commit => exact h.commit_step commit
  | addScripts entries =>
    obtain ⟨scripts, hmem⟩ := mem.addScripts_frame entries
    obtain ⟨scripts', hstore⟩ := store.addScripts_frame entries
    have hsim : Sim (mem.addScripts entries).1 (store.addScripts entries).1 := by
      rw [hmem, hstore]
      exact ⟨⟨h.wf.keyed, h.wf.valid, h.wf.indexed⟩, ⟨h.events.same, h.events.encoded⟩, h.coverage, h.pending, h.sequence,
        h.runs, h.anchor, h.limit, h.failures, h.revisions⟩
    obtain ⟨hstep, hnext⟩ := hother _ rfl rfl hsim
    exact ⟨iff_of_true hstep trivial, fun _ => hnext⟩
  | commitAnchor anchor settledThrough coveredThrough =>
    have hsim : Sim (mem.commitAnchor anchor settledThrough coveredThrough)
        (store.commitAnchor anchor settledThrough coveredThrough) :=
      ⟨⟨h.wf.keyed, h.wf.valid, h.wf.indexed⟩, ⟨h.events.same, h.events.encoded⟩, h.coverage, h.pending, h.sequence,
        h.runs, rfl, h.limit, h.failures, h.revisions⟩
    obtain ⟨hstep, hnext⟩ := hother _ rfl rfl hsim
    exact ⟨iff_of_true hstep trivial, fun _ => hnext⟩
  | rollbackAbove accepted =>
    obtain ⟨hstep, hnext⟩ := hother _ rfl rfl (h.rollbackAbove accepted)
    exact ⟨iff_of_true hstep trivial, fun _ => hnext⟩
  | promoteProvisional shardId revisionDigest =>
    obtain ⟨after, hafter, hsim⟩ := h.promoteProvisional shardId revisionDigest
    obtain ⟨hstep, hnext⟩ := hother after rfl hafter hsim
    exact ⟨iff_of_true hstep trivial, fun _ => hnext⟩

end Zakura.Client
