import Zakura.Client.Lemmas.Refine

/-! # What a wallet's store guarantees -/

namespace Zakura.Client.MemoryStore

open Zakura.Transparent

/-! ## Coverage -/

/-- What a call does to the heights recovered for a script: a commit that succeeds adds its range, and a rollback
deletes all above it. -/
def recover (script : Bytes) (store : MemoryStore) (recovered : Set Nat) : Call → Set Nat
  | .commitShard commit =>
    match store.commitShard commit with
    | .ok _ =>
      if script ∈ commit.coveredScripts then recovered ∪ Set.Icc commit.startHeight commit.endHeight else recovered
    | .error _ => recovered
  | .rollbackAbove accepted => recovered ∩ Set.Iic accepted.height
  | _ => recovered

/-- The heights recovered by a run of calls. -/
def recoverAll (script : Bytes) : MemoryStore → Set Nat → List Call → Set Nat
  | _, recovered, [] => recovered
  | store, recovered, next :: calls => recoverAll script (store.call next) (recover script store recovered next) calls

theorem heights_call (store : MemoryStore) (script : Bytes) (next : Call) :
    heights ((store.call next).rangesOf script) = recover script store (heights (store.rangesOf script)) next := by
  cases next with
  | addScripts entries =>
    obtain ⟨scripts, hscripts⟩ := store.addScripts_frame entries
    rw [call, hscripts]
    rfl
  | commitShard commit =>
    rw [call, recover]
    cases hok : store.commitShard commit with
    | error error => rfl
    | ok after =>
      obtain ⟨new, -, rfl⟩ := commitShard_eq_ok.mp hok
      simp only [Except.toOption, Option.getD_some, rangesOf_applyCommit]
      split_ifs
      · exact heights_coverRange _ _
      · rfl
  | commitAnchor anchor settledThrough coveredThrough => rfl
  | rollbackAbove accepted => rw [call, rangesOf_rollbackAbove, heights_cut, recover]
  | promoteProvisional shardId revisionDigest =>
    rw [call, rangesOf_promoteProvisional, heights_promote]
    rfl

/-- The saved ranges cover exactly the heights that were recovered. -/
theorem saved_coverage_exact (store : MemoryStore) (calls : List Call) (script : Bytes) :
    heights ((store.callAll calls).rangesOf script) =
      recoverAll script store (heights (store.rangesOf script)) calls := by
  induction calls generalizing store with
  | nil => rfl
  | cons next calls ih => rw [callAll, List.foldl_cons, recoverAll, ← heights_call, ← ih, callAll]

/-- The commit leaves settled coverage alone: it is sealed, or for each script its range is held by another, or every
settled range it replaces is covered by settled ranges it does not. -/
def LeavesSettled (store : MemoryStore) (commit : ShardCommit) : Prop :=
  commit.sealed = true ∨ ∀ script ∈ commit.coveredScripts,
    held (store.rangesOf script) (commit.range script) = true ∨
      ∀ old ∈ store.rangesOf script, old.kind = .settled → old.Inside (commit.range script) →
        old.heights ⊆ settledHeights ((store.rangesOf script).filter fun old => ¬ old.Inside (commit.range script))

theorem commit_keeps_settled_iff (store after : MemoryStore) (commit : ShardCommit)
    (hok : store.commitShard commit = .ok after) :
    (∀ script, settledHeights (store.rangesOf script) ⊆ settledHeights (after.rangesOf script)) ↔
      LeavesSettled store commit := by
  obtain ⟨new, -, rfl⟩ := commitShard_eq_ok.mp hok
  have hkind : ∀ script, (commit.range script).kind = .settled ↔ commit.sealed = true := by
    intro script
    cases hsealed : commit.sealed <;> simp [ShardCommit.range, hsealed]
  have hscript : ∀ script, settledHeights (store.rangesOf script) ⊆
      settledHeights ((store.applyCommit commit new).rangesOf script) ↔ (script ∈ commit.coveredScripts →
        settledHeights (store.rangesOf script) ⊆
          settledHeights (coverRange (store.rangesOf script) (commit.range script))) := by
    intro script
    rw [rangesOf_applyCommit]
    split_ifs with hcovered <;> simp [hcovered]
  simp only [hscript, settledHeights_subset_coverRange_iff, hkind, LeavesSettled]
  by_cases hsealed : commit.sealed = true <;> simp [hsealed]

/-! ### Two commits of one script -/

def genesis : BlockHash := .zero 32

/-- A commit that covers one script over a range. -/
def covering (shardId startHeight endHeight : Nat) (sealed : Bool) : ShardCommit where
  sourceAnchor := none
  shardId
  revisionDigest := []
  sealed
  startHeight
  endHeight
  terminalBlockHash := genesis
  coveredScripts := [[0x51]]

def settledStore : MemoryStore := call {} (.commitShard (covering 1 5 9 true))

theorem settledStore_calls :
    (commitShard {} (covering 1 5 9 true)).toOption.isSome = true ∧
      (settledStore.commitShard (covering 2 10 20 false)).toOption.isSome = true ∧
      (settledStore.commitShard (covering 2 0 20 false)).toOption.isSome = true ∧
      settledStore.rangesOf [0x51] = [(covering 1 5 9 true).range [0x51]] ∧
      (settledStore.call (.commitShard (covering 2 0 20 false))).rangesOf [0x51] =
        [(covering 2 0 20 false).range [0x51]] := by
  decide +kernel

theorem provisional_commit_keeps_settled :
    settledStore.commitShard (covering 2 10 20 false) =
        .ok (settledStore.call (.commitShard (covering 2 10 20 false))) ∧
      ∀ script, settledHeights (settledStore.rangesOf script) ⊆
        settledHeights ((settledStore.call (.commitShard (covering 2 10 20 false))).rangesOf script) := by
  obtain ⟨-, hkept, -, hranges, -⟩ := settledStore_calls
  have hok : settledStore.commitShard (covering 2 10 20 false) = .ok _ := commitShard_eq_call hkept
  refine ⟨hok, (commit_keeps_settled_iff _ _ _ hok).mpr (.inr fun script hscript => .inr ?_)⟩
  obtain rfl := List.mem_singleton.mp hscript
  rw [hranges]
  intro old hold _ hin
  obtain rfl := List.mem_singleton.mp hold
  exact absurd hin (by decide)

theorem provisional_commit_loses_settled :
    settledStore.commitShard (covering 2 0 20 false) =
        .ok (settledStore.call (.commitShard (covering 2 0 20 false))) ∧
      7 ∈ settledHeights (settledStore.rangesOf [0x51]) ∧
      7 ∉ settledHeights ((settledStore.call (.commitShard (covering 2 0 20 false))).rangesOf [0x51]) := by
  obtain ⟨-, -, hlost, hbefore, hafter⟩ := settledStore_calls
  refine ⟨commitShard_eq_call hlost, ?_, ?_⟩
  · rw [hbefore, mem_settledHeights]
    exact ⟨_, List.mem_singleton_self _, rfl, by decide, by decide⟩
  · rw [hafter, mem_settledHeights]
    rintro ⟨range, hrange, hsettled, -⟩
    obtain rfl := List.mem_singleton.mp hrange
    exact absurd hsettled (by decide)

/-! ## A commit made again -/

/-- What every run of calls leads to: a commit that can be repeated repeats, and where all pending ids are ones the
store gave out no other does. -/
theorem commit_repeats_iff (limit : Option Nat) (calls : List Call) (commit : ShardCommit) (after : MemoryStore)
    (hok : (callAll { limit } calls).commitShard commit = .ok after) :
    (Repeatable (callAll { limit } calls) commit → Repeats after commit) ∧
      (IdsGiven (callAll { limit } calls) commit →
        (Repeats after commit ↔ Repeatable (callAll { limit } calls) commit)) := by
  have hwf := (wf_empty limit).callAll calls
  refine ⟨fun hrepeatable => hrepeatable.repeats hwf hok, fun hgiven => ⟨fun hrepeats => ?_, fun hrepeatable => ?_⟩⟩
  · exact hrepeats.repeatable hok hgiven
  · exact hrepeatable.repeats hwf hok

/-- Pending work for one script, under an id or to be given one. -/
def owed (id : Option Nat) : PendingPages where
  id
  shardId := 1
  revisionDigest := []
  script := [0x51]
  cursor := ⟨0, 0, none⟩
  carried := []
  fragments := []
  attempts := 0
  dummyQueries := none
  targetAnchor := none

def owing (id : Option Nat) : ShardCommit := { covering 1 5 9 false with pendingUpsert := [owed id] }

theorem owing_calls :
    (commitShard {} (owing none)).toOption.isSome = true ∧
      ((callAll {} [.commitShard (owing none)]).commitShard (owing none)).toOption.isSome = true ∧
      (callAll {} [.commitShard (owing none)]).pending.size = 1 ∧
      (callAll {} [.commitShard (owing none), .commitShard (owing none)]).pending.size = 2 ∧
      ((withPendingLimit 0).commitShard (owing (some 7))).toOption.isSome = true ∧
      ((withPendingLimit 0).call (.commitShard (owing (some 7)))).pending.size = 1 ∧
      1 ∈ (call { limit := some 1 } (.commitShard (owing none))).pending := by
  decide +kernel

theorem commit_repeats_covering :
    (callAll {} []).commitShard (covering 1 5 9 true) = .ok settledStore ∧ Repeats settledStore (covering 1 5 9 true) := by
  have hok : (callAll { limit := none } []).commitShard (covering 1 5 9 true) = .ok settledStore :=
    commitShard_eq_call settledStore_calls.1
  exact ⟨hok, (commit_repeats_iff none [] _ _ hok).1 ⟨by decide, by decide, by decide⟩⟩

/-- The retry queues the same pages a second time. -/
theorem commit_queues_twice :
    MemoryStore.commitShard {} (owing none) = .ok (callAll {} [.commitShard (owing none)]) ∧
      (callAll {} [.commitShard (owing none)]).commitShard (owing none) =
        .ok (callAll {} [.commitShard (owing none), .commitShard (owing none)]) ∧
      (callAll {} [.commitShard (owing none)]).pending.size = 1 ∧
      (callAll {} [.commitShard (owing none), .commitShard (owing none)]).pending.size = 2 :=
  ⟨commitShard_eq_call owing_calls.1, commitShard_eq_call owing_calls.2.1, owing_calls.2.2.1, owing_calls.2.2.2.1⟩

/-! ## Pending work -/

/-- Every commit of a run that the store accepts is estimated right. -/
def CountsRightAlong : MemoryStore → List Call → Prop
  | _, [] => True
  | store, next :: calls =>
    (∀ commit after, next = .commitShard commit → store.commitShard commit = .ok after → CountsRight store commit) ∧
      CountsRightAlong (store.call next) calls

theorem size_call_le {store : MemoryStore} {next : Call} (h : store.pending.size ≤ store.pendingLimit)
    (hcounts : ∀ commit after, next = .commitShard commit → store.commitShard commit = .ok after →
      CountsRight store commit) :
    (store.call next).pending.size ≤ (store.call next).pendingLimit := by
  cases next with
  | addScripts entries =>
    obtain ⟨scripts, hscripts⟩ := store.addScripts_frame entries
    rw [call, hscripts]
    exact h
  | commitShard commit =>
    rw [call]
    cases hok : store.commitShard commit with
    | error error => exact h
    | ok after => exact (hcounts commit after rfl hok).size_le hok
  | commitAnchor anchor settledThrough coveredThrough => exact h
  | rollbackAbove accepted => exact Nat.zero_le _
  | promoteProvisional shardId revisionDigest => exact h

/-- In every run whose accepted commits are estimated right, the pending work stays within the limit. -/
theorem pending_within_limit (limit : Option Nat) (calls : List Call) (hcounts : CountsRightAlong { limit } calls) :
    (callAll { limit } calls).pending.size ≤ (callAll { limit } calls).pendingLimit := by
  suffices ∀ store : MemoryStore, store.pending.size ≤ store.pendingLimit → CountsRightAlong store calls →
      (store.callAll calls).pending.size ≤ (store.callAll calls).pendingLimit from this _ (Nat.zero_le _) hcounts
  clear hcounts
  induction calls with
  | nil => exact fun store h _ => h
  | cons next calls ih => exact fun store h hcounts => ih (store.call next) (size_call_le h hcounts.1) hcounts.2

/-- One item of pending work, written again under its id. -/
theorem pending_within_limit_one :
    CountsRightAlong { limit := some 1 } [.commitShard (owing none), .commitShard (owing (some 1))] ∧
      (callAll { limit := some 1 } [.commitShard (owing none), .commitShard (owing (some 1))]).pending.size ≤
        (callAll { limit := some 1 } [.commitShard (owing none), .commitShard (owing (some 1))]).pendingLimit := by
  have hcounts : CountsRightAlong { limit := some 1 } [.commitShard (owing none), .commitShard (owing (some 1))] := by
    refine ⟨?_, ?_, trivial⟩
    · rintro commit after ⟨⟩ -
      exact ⟨by decide, .inl ⟨by decide, by decide⟩⟩
    · rintro commit after ⟨⟩ -
      refine ⟨fun item hitem id hid => ?_, .inl ⟨by decide, by decide⟩⟩
      obtain rfl := List.mem_singleton.mp hitem
      obtain rfl := Option.some.inj hid
      exact ⟨owing_calls.2.2.2.2.2.2, by decide⟩
  exact ⟨hcounts, pending_within_limit (some 1) _ hcounts⟩

/-- An item written under an id that is not pending is not counted. -/
theorem pending_exceeds_limit :
    (withPendingLimit 0).commitShard (owing (some 7)) = .ok ((withPendingLimit 0).call (.commitShard (owing (some 7)))) ∧
      ((withPendingLimit 0).call (.commitShard (owing (some 7)))).pending.size = 1 ∧
      ((withPendingLimit 0).call (.commitShard (owing (some 7)))).pendingLimit = 0 :=
  ⟨commitShard_eq_call owing_calls.2.2.2.2.1, owing_calls.2.2.2.2.2.1, rfl⟩

/-! ## The ledger -/

/-- An output that the store holds as received and that no stored spend consumes. -/
def Unspent (store : MemoryStore) (outpoint : Outpoint) (utxo : Ledger.Utxo) : Prop :=
  (∃ script receive, (script, .receive receive) ∈ store.stored.map entry ∧ receive.outpoint = outpoint ∧
    Ledger.Utxo.ofReceive script receive = utxo) ∧
  ∀ script spend, (script, .spend spend) ∈ store.stored.map entry → spend.spent ≠ outpoint

/-- After any calls the stored events replay without a contradiction. The unspent outputs a wallet is shown include
every received one without a spend, and are no others once no spend is unresolved; the balance is then a word. -/
theorem ledger_after_calls (limit : Option Nat) (calls : List Call) :
    ∃ ledger, (callAll { limit } calls).ledger = .ok ledger ∧
      (∀ outpoint utxo, Unspent (callAll { limit } calls) outpoint utxo → ledger.utxos[outpoint]? = some utxo) ∧
      (ledger.unresolved = [] → ledger.confirmedBalance < 2 ^ 64 ∧
        ∀ outpoint utxo, ledger.utxos[outpoint]? = some utxo → Unspent (callAll { limit } calls) outpoint utxo) := by
  obtain ⟨ledger, hledger, hsound⟩ := ((wf_empty limit).callAll calls).ledger
  refine ⟨ledger, hledger, ?_, fun hresolved => ⟨hsound.balance_lt (by simp [hresolved]), ?_⟩⟩
  · rintro outpoint utxo ⟨hreceived, hkept⟩
    rw [hsound.holds.utxos, if_neg, (hsound.holds.receives outpoint utxo).mpr hreceived]
    intro hspent
    obtain ⟨c, hc, rfl⟩ := hsound.holds.mem_spentIndex.mp hspent
    obtain ⟨script, spend, utxo', hspend, -, rfl⟩ := hsound.holds.confirmed c hc
    exact hkept script spend hspend rfl
  · intro outpoint utxo hutxo
    rw [hsound.holds.utxos] at hutxo
    split_ifs at hutxo with hspent
    refine ⟨(hsound.holds.receives outpoint utxo).mp hutxo, fun script spend hspend hout => ?_⟩
    rcases hsound.holds.recorded script spend hspend with hindex | hopen | hdue
    · exact hspent (hout ▸ hindex)
    · simp [hresolved] at hopen
    · simp at hdue

end Zakura.Client.MemoryStore

/-! ## The store in SQLite -/

namespace Zakura.Client

open MemoryStore (Call owing)

/-- Every call of a run has the same outcome in both stores, which report the same after it. -/
def AgreeAlong : MemoryStore → SqliteStore → List Call → Prop
  | _, _, [] => True
  | mem, store, next :: calls => StepAgrees mem store next ∧ AgreeAlong (mem.call next) (store.call next) calls

/-- Every call of a run is one that both stores treat the same. -/
def CallsAgree : MemoryStore → List Call → Prop
  | _, [] => True
  | mem, next :: calls => CallAgrees mem next ∧ CallsAgree (mem.call next) calls

/-- In the runs whose calls all are treated the same, and in no others, the two stores agree all along. -/
theorem sqlite_agrees_iff (limit : Nat) (calls : List Call) :
    AgreeAlong { limit := some limit } { pendingLimit := limit } calls ↔ CallsAgree { limit := some limit } calls := by
  suffices ∀ mem store, Sim mem store → (AgreeAlong mem store calls ↔ CallsAgree mem calls) from this _ _ (sim_empty limit)
  induction calls with
  | nil => exact fun _ _ _ => Iff.rfl
  | cons next calls ih =>
    intro mem store h
    obtain ⟨hstep, hnext⟩ := h.step next
    rw [AgreeAlong, CallsAgree, hstep]
    exact and_congr_right fun hagrees => ih _ _ (hnext hagrees)

/-- An item under an id that is not pending is kept in memory, and there is no row to update with it. -/
theorem sqlite_loses_unknown_item :
    (MemoryStore.commitShard {} (owing (some 7))).isOk = true ∧ (SqliteStore.commitShard {} (owing (some 7))).isOk = true ∧
      (MemoryStore.call {} (.commitShard (owing (some 7)))).pending.size = 1 ∧
      (SqliteStore.call {} (.commitShard (owing (some 7)))).pending = .ok [] :=
  by decide +kernel

end Zakura.Client
