import Zakura.Client.Lemmas.Coverage
import Zakura.Ledger.Lemmas.Valid
import Zakura.Lib.MapFolds
import Mathlib.Data.List.ReduceOption

/-! # What the store in memory holds

The events a store holds are valid together, so a commit is accepted exactly when they stay so with its own. A
commit that succeeds changes the store as `applyCommit` says. -/

namespace Zakura.Client.MemoryStore

open Zakura.Transparent Zakura.Ledger Zakura.Except
open Std.ExtTreeMap (getElem?_map mem_insert_self mem_insert getElem?_filter')

variable {store after : MemoryStore} {commit : ShardCommit} {script : Bytes}

theorem commitShard_eq_ok :
    store.commitShard commit = .ok after ↔
      ∃ new, store.checkCommit commit = .ok new ∧ store.applyCommit commit new = after := by
  simp only [commitShard, bind_eq_ok, pure_eq_ok]

theorem commitShard_eq_call (h : (store.commitShard commit).toOption.isSome = true) :
    store.commitShard commit = .ok (store.call (.commitShard commit)) := by
  rw [call]
  cases hok : store.commitShard commit with
  | error error => simp [hok, Except.toOption] at h
  | ok after => rfl

/-! ## The fields a commit leaves to one part of it -/

theorem foldl_addEvent_frame (new : List StoredEvent) (store : MemoryStore) :
    ∃ receives spends spentBy, new.foldl addEvent store = { store with receives, spends, spentBy } := by
  induction new generalizing store with
  | nil => exact ⟨store.receives, store.spends, store.spentBy, rfl⟩
  | cons stored new ih =>
    rw [List.foldl_cons, addEvent]
    cases stored.event with
    | receive receive => exact ih _
    | spend spend => exact ih _

section

variable (new : List StoredEvent)

theorem applyCommit_coverage :
    (store.applyCommit commit new).coverage = coverScripts store.coverage commit := by
  obtain ⟨_, _, _, h⟩ := foldl_addEvent_frame new store
  rw [applyCommit, h]

theorem applyCommit_pending :
    (store.applyCommit commit new).pending = (updatePending store.pending store.nextPending commit).1 := by
  obtain ⟨_, _, _, h⟩ := foldl_addEvent_frame new store
  rw [applyCommit, h]

theorem applyCommit_nextPending :
    (store.applyCommit commit new).nextPending = (updatePending store.pending store.nextPending commit).2 := by
  obtain ⟨_, _, _, h⟩ := foldl_addEvent_frame new store
  rw [applyCommit, h]

theorem applyCommit_runs : (store.applyCommit commit new).runs = updateRuns store.runs commit := by
  obtain ⟨_, _, _, h⟩ := foldl_addEvent_frame new store
  rw [applyCommit, h]

theorem applyCommit_failures :
    ((store.applyCommit commit new).failures, (store.applyCommit commit new).failureRevisions) =
      updateFailures store.failures store.failureRevisions commit := by
  obtain ⟨_, _, _, h⟩ := foldl_addEvent_frame new store
  rw [applyCommit, h]

theorem applyCommit_anchor : (store.applyCommit commit new).anchor = store.anchor := by
  obtain ⟨_, _, _, h⟩ := foldl_addEvent_frame new store
  rw [applyCommit, h]

theorem applyCommit_limit : (store.applyCommit commit new).limit = store.limit := by
  obtain ⟨_, _, _, h⟩ := foldl_addEvent_frame new store
  rw [applyCommit, h]

end

/-! ## Coverage -/

theorem getElem?_coverScripts (coverage : OrderedMap Bytes (List CoverageRange)) (commit : ShardCommit) (script : Bytes) :
    (coverScripts coverage commit)[script]?.getD [] =
      if script ∈ commit.coveredScripts then coverRange (coverage[script]?.getD []) (commit.range script)
      else coverage[script]?.getD [] := by
  rw [coverScripts]
  induction commit.coveredScripts generalizing coverage with
  | nil => rfl
  | cons first scripts ih =>
    rw [List.foldl_cons, ih, OrderedMap.getElem?_insert_eq]
    by_cases hfirst : first = script
    · subst hfirst
      -- The later scripts may name this one again.
      simp [coverRange_coverRange]
    · simp [hfirst, Ne.symm hfirst]

theorem rangesOf_applyCommit (new : List StoredEvent) (script : Bytes) :
    (store.applyCommit commit new).rangesOf script =
      if script ∈ commit.coveredScripts then coverRange (store.rangesOf script) (commit.range script)
      else store.rangesOf script := by
  rw [rangesOf, applyCommit_coverage, getElem?_coverScripts]
  rfl

theorem rangesOf_rollbackAbove (store : MemoryStore) (accepted : Anchor) (script : Bytes) :
    (store.rollbackAbove accepted).rangesOf script = (store.rangesOf script).filterMap (cutRange accepted) := by
  simp only [rangesOf, rollbackAbove, getElem?_map]
  cases store.coverage[script]? <;> rfl

theorem rangesOf_promoteProvisional (store : MemoryStore) (shardId : Nat) (revisionDigest script : Bytes) :
    (store.promoteProvisional shardId revisionDigest).rangesOf script =
      mergeCoverage ((store.rangesOf script).map (promoteRange shardId revisionDigest)) := by
  simp only [rangesOf, promoteProvisional, getElem?_map]
  cases store.coverage[script]? <;> rfl

/-! ## The stored events -/

def eventKey : TransparentEvent → Outpoint ⊕ SpendKey
  | .receive receive => .inl receive.outpoint
  | .spend spend => .inr (spendKey spend)

def lookup (store : MemoryStore) : Outpoint ⊕ SpendKey → Option StoredEvent
  | .inl outpoint => store.receives[outpoint]?
  | .inr key => store.spends[key]?

def Keyed (store : MemoryStore) : Prop := ∀ key stored, store.lookup key = some stored → eventKey stored.event = key

/-- The index of spent outputs names stored spends, and one for each output they consume. -/
def Indexed (store : MemoryStore) : Prop :=
  (∀ outpoint key, store.spentBy[outpoint]? = some key → key ∈ store.spends ∧ SpendKey.outpoint key = outpoint) ∧
    ∀ key ∈ store.spends, SpendKey.outpoint key ∈ store.spentBy

/-- The events a store holds are valid together, and the index of spent outputs names them. -/
structure Wf (store : MemoryStore) : Prop where
  keyed : Keyed store
  valid : Valid (store.stored.map entry)
  indexed : Indexed store

variable {stored : StoredEvent}

theorem Keyed.mem_stored (h : Keyed store) :
    stored ∈ store.stored ↔ store.lookup (eventKey stored.event) = some stored := by
  simp only [MemoryStore.stored, List.mem_append, OrderedMap.mem_vals]
  constructor
  · rintro (⟨outpoint, hmem⟩ | ⟨key, hmem⟩)
    · have hlookup : store.lookup (.inl outpoint) = some stored := hmem
      rwa [h _ _ hlookup]
    · have hlookup : store.lookup (.inr key) = some stored := hmem
      rwa [h _ _ hlookup]
  · intro hlookup
    cases hkey : eventKey stored.event with
    | inl outpoint => exact .inl ⟨outpoint, by rwa [hkey] at hlookup⟩
    | inr key => exact .inr ⟨key, by rwa [hkey] at hlookup⟩

theorem wf_empty (limit : Option Nat) : Wf { limit } where
  keyed := by
    intro key stored h
    cases key <;> simp [lookup] at h
  valid := by
    have hnil : MemoryStore.stored { limit } = [] := by simp [MemoryStore.stored, OrderedMap.vals]
    rw [hnil]
    exact valid_nil
  indexed := by simp [Indexed]

theorem entry_mem_map {stored : List StoredEvent} {x : Entry} :
    x ∈ stored.map entry ↔ ∃ s ∈ stored, s.script = x.1 ∧ s.event = x.2 := by
  simp [entry, Prod.ext_iff]

variable {all : List StoredEvent} {a b : StoredEvent}

theorem entry_eq_of_eventKey_eq (hvalid : Valid (all.map entry)) (ha : a ∈ all) (hb : b ∈ all)
    (hkey : eventKey a.event = eventKey b.event) : entry a = entry b := by
  have ha' := List.mem_map_of_mem (f := entry) ha
  have hb' := List.mem_map_of_mem (f := entry) hb
  obtain ⟨hreceives, hspends⟩ := hvalid.agree
  obtain ⟨script, event, shard, digest⟩ := a
  obtain ⟨script', event', shard', digest'⟩ := b
  cases event with
  | receive r =>
    cases event' with
    | receive r' => exact hreceives _ _ _ _ ha' hb' (Sum.inl.inj hkey)
    | spend e' => simp [eventKey] at hkey
  | spend e =>
    cases event' with
    | receive r' => simp [eventKey] at hkey
    | spend e' =>
      have hspent : e.spent = e'.spent := congrArg SpendKey.outpoint (Sum.inr.inj hkey)
      have hsame := hspends (script, e) (mem_spendEntries.mpr ha') (script', e') (mem_spendEntries.mpr hb') hspent
      cases hsame
      rfl

theorem spendKey_eq_of_outpoint_eq (hvalid : Valid (all.map entry)) {e e' : SpendEvent} (ha : a ∈ all) (hb : b ∈ all)
    (hae : a.event = .spend e) (hbe : b.event = .spend e') (hspent : e.spent = e'.spent) : spendKey e = spendKey e' := by
  have ha' : (a.script, .spend e) ∈ all.map entry := entry_mem_map.mpr ⟨a, ha, rfl, hae⟩
  have hb' : (b.script, .spend e') ∈ all.map entry := entry_mem_map.mpr ⟨b, hb, rfl, hbe⟩
  have hsame := hvalid.agree.2 (a.script, e) (mem_spendEntries.mpr ha') (b.script, e') (mem_spendEntries.mpr hb') hspent
  exact congrArg (fun x => spendKey x.2) hsame

/-! ## The checks of a commit -/

def newEvents (store : MemoryStore) (commit : ShardCommit) : List StoredEvent :=
  commit.events.filter fun stored => (store.lookup (eventKey stored.event)).isNone

theorem Wf.checkEvent_eq (h : Wf store) (hvalid : Valid (all.map entry)) (hsub : ∀ s ∈ store.stored, s ∈ all)
    (hmem : stored ∈ all) :
    store.checkEvent stored = .ok (if (store.lookup (eventKey stored.event)).isSome then none else some stored) := by
  have hheld : ∀ existing, store.lookup (eventKey stored.event) = some existing →
      existing.script = stored.script ∧ existing.event = stored.event := by
    intro existing hlookup
    have hkey := h.keyed _ _ hlookup
    have hsame := entry_eq_of_eventKey_eq hvalid (hsub _ (h.keyed.mem_stored.mpr (by rw [hkey, hlookup]))) hmem hkey
    exact Prod.mk.inj hsame
  rw [checkEvent]
  cases hevent : stored.event with
  | receive receive =>
    rw [hevent] at hheld
    dsimp only
    cases hlookup : store.lookup (eventKey (.receive receive)) with
    | none =>
      have hnone : store.receives[receive.outpoint]? = none := hlookup
      rw [hnone]
      rfl
    | some existing =>
      have hsome : store.receives[receive.outpoint]? = some existing := hlookup
      obtain ⟨hscript, hsame⟩ := hheld existing hlookup
      rw [hsome]
      simp [hscript, hsame]
  | spend spend =>
    rw [hevent] at hheld
    dsimp only
    cases hlookup : store.lookup (eventKey (.spend spend)) with
    | none =>
      have hnone : store.spends[spendKey spend]? = none := hlookup
      rw [hnone]
      cases hspent : store.spentBy[spend.spent]? with
      | none => rfl
      | some key =>
        -- The output's spend would be a stored one, and so the same as this one.
        exfalso
        obtain ⟨hin, hout⟩ := h.indexed.1 _ _ hspent
        obtain ⟨existing, hexisting⟩ := OrderedMap.mem_iff_exists.mp hin
        have hlooked : store.lookup (.inr key) = some existing := hexisting
        have hkey := h.keyed _ _ hlooked
        cases hother : existing.event with
        | receive r => simp [hother, eventKey] at hkey
        | spend e =>
          rw [hother] at hkey
          obtain rfl := Sum.inr.inj hkey
          have hold := hsub existing (h.keyed.mem_stored.mpr (by rw [hother]; exact hexisting))
          rw [spendKey_eq_of_outpoint_eq hvalid hold hmem hother hevent hout, hnone] at hexisting
          simp at hexisting
    | some existing =>
      have hsome : store.spends[spendKey spend]? = some existing := hlookup
      obtain ⟨hscript, hsame⟩ := hheld existing hlookup
      rw [hsome]
      simp [hscript, hsame]

theorem checkEvent_script {existing : StoredEvent} {found : Option StoredEvent}
    (hcheck : store.checkEvent stored = .ok found) (hlookup : store.lookup (eventKey stored.event) = some existing) :
    existing.script = stored.script := by
  rw [checkEvent] at hcheck
  cases hevent : stored.event with
  | receive receive =>
    have hsome : store.receives[receive.outpoint]? = some existing := by rwa [hevent] at hlookup
    simp only [hevent, hsome] at hcheck
    split_ifs at hcheck with hne
    rw [not_or, not_not, not_not] at hne
    exact hne.2
  | spend spend =>
    have hsome : store.spends[spendKey spend]? = some existing := by rwa [hevent] at hlookup
    simp only [hevent, hsome] at hcheck
    split_ifs at hcheck with hne
    rw [not_or, not_not, not_not] at hne
    exact hne.2

theorem checkRun_eq_ok {run : CachedRun} :
    store.checkRun run = .ok () ↔ ∀ held, store.runs[run.key]? = some held → held = run := by
  rw [checkRun]
  cases store.runs[run.key]? with
  | none => simp
  | some held => by_cases h : held = run <;> simp [h]

variable {new : List StoredEvent}

theorem checkCommit_eq_ok :
    store.checkCommit commit = .ok new ↔
      (∃ raw, commit.encodeEvents = .ok raw) ∧
        checkTransactionConsistency ((store.stored ++ commit.events).map (·.event)) = .ok () ∧
        checkEventIdentities (commit.events.map entry) = .ok () ∧ store.checkReplay commit = .ok () ∧
        ∃ found, commit.events.mapM store.checkEvent = .ok found ∧ store.pendingAfter commit ≤ store.pendingLimit ∧
          (∀ run ∈ commit.cachedRuns, store.checkRun run = .ok ()) ∧ found.reduceOption = new := by
  constructor
  · intro h
    obtain ⟨raw, hraw, h⟩ := bind_eq_ok.mp h
    obtain ⟨hfacts, h⟩ := check_bind_eq_ok.mp h
    obtain ⟨hidentities, h⟩ := check_bind_eq_ok.mp h
    obtain ⟨hreplay, h⟩ := check_bind_eq_ok.mp h
    obtain ⟨found, hfound, h⟩ := bind_eq_ok.mp h
    obtain ⟨hlimit, h⟩ := ite_error_eq_ok.mp h
    obtain ⟨hruns, h⟩ := check_bind_eq_ok.mp h
    exact ⟨⟨raw, hraw⟩, mapError_eq_ok.mp hfacts, mapError_eq_ok.mp hidentities, hreplay, found, hfound,
      not_lt.mp hlimit, forM_eq_ok.mp hruns, pure_eq_ok.mp h⟩
  · rintro ⟨⟨raw, hraw⟩, hfacts, hidentities, hreplay, found, hfound, hlimit, hruns, rfl⟩
    refine bind_eq_ok.mpr ⟨raw, hraw, check_bind_eq_ok.mpr ⟨mapError_eq_ok.mpr hfacts, ?_⟩⟩
    refine check_bind_eq_ok.mpr ⟨mapError_eq_ok.mpr hidentities, check_bind_eq_ok.mpr ⟨hreplay, ?_⟩⟩
    refine bind_eq_ok.mpr ⟨found, hfound, ite_error_eq_ok.mpr ⟨not_lt.mpr hlimit, ?_⟩⟩
    exact check_bind_eq_ok.mpr ⟨forM_eq_ok.mpr hruns, rfl⟩

theorem Wf.ledger (h : Wf store) :
    ∃ ledger, store.ledger = .ok ledger ∧ Sound { x | x ∈ store.stored.map entry } ledger := by
  have hsame : ∀ x, x ∈ store.stored.map entry ↔ x ∈ store.events.map entry := by
    simp [events, List.mem_insertionSort]
  obtain ⟨ledger, hreplay, hsound⟩ := (h.valid.congr hsame).replay
  refine ⟨ledger, by rw [MemoryStore.ledger, hreplay], ?_⟩
  rwa [show { x | x ∈ store.events.map entry } = { x | x ∈ store.stored.map entry } from
    Set.ext fun x => (hsame x).symm] at hsound

/-- A commit passes the checks when its events are valid together with the stored ones, the pending items stay
within the limit and its runs are the ones held. -/
theorem Wf.checkCommit_iff (h : Wf store) :
    store.checkCommit commit = .ok new ↔
      (∃ raw, commit.encodeEvents = .ok raw) ∧ Valid ((store.stored ++ commit.events).map entry) ∧
        store.pendingAfter commit ≤ store.pendingLimit ∧
        (∀ run ∈ commit.cachedRuns, ∀ held, store.runs[run.key]? = some held → held = run) ∧
        store.newEvents commit = new := by
  obtain ⟨ledger, hledger, hsound⟩ := h.ledger
  have hreplay : store.checkReplay commit = .ok () ↔
      ∃ ledger', ledger.replay (commit.events.map entry) = (.ok (), ledger') := by
    rw [checkReplay, hledger, ok_bind, mapError_eq_ok]
    constructor
    · intro hok
      exact ⟨_, Prod.ext hok rfl⟩
    · rintro ⟨ledger', hok⟩
      rw [hok]
  have hall : Valid (store.stored.map entry ++ commit.events.map entry) ↔ _ := hsound.valid_append_iff
  rw [← List.map_append] at hall
  have hchecked : Valid ((store.stored ++ commit.events).map entry) → commit.events.mapM store.checkEvent =
      .ok (commit.events.map fun s => if (store.lookup (eventKey s.event)).isSome then none else some s) := by
    intro hvalid
    refine mapM_eq_ok.mpr ?_
    rw [List.forall₂_map_right_iff, List.forall₂_same]
    exact fun s hs => h.checkEvent_eq hvalid (fun s => List.mem_append_left _) (List.mem_append_right _ hs)
  have hnew : (commit.events.map fun s => if (store.lookup (eventKey s.event)).isSome then none else some s).reduceOption =
      commit.events.filter fun s => (store.lookup (eventKey s.event)).isNone := by
    induction commit.events with
    | nil => rfl
    | cons s events ih =>
      cases hlookup : store.lookup (eventKey s.event) with
      | none => simp [hlookup, List.reduceOption_cons_of_some, ih]
      | some existing => simp [hlookup, List.reduceOption_cons_of_none, ih]
  simp only [checkCommit_eq_ok, hreplay, checkRun_eq_ok]
  constructor
  · rintro ⟨hraw, -, hidentities, hledger', found, hfound, hlimit, hruns, rfl⟩
    have hvalid : Valid ((store.stored ++ commit.events).map entry) := by
      refine hall.mpr ⟨?_, hledger'⟩
      obtain ⟨ledger', hledger'⟩ := hledger'
      have hnext := replay_spec hsound.toTracks hledger'
      -- A ledger does not compare the script of a confirmed spend; the store does.
      have hcross : ∀ s e s' e', (s, .spend e) ∈ store.stored.map entry → (s', .spend e') ∈ commit.events.map entry →
          e.spent = e'.spent → s = s' := by
        intro s e s' e' he he' hspent
        obtain rfl := hnext.spend_eq (.inl he) (.inr he') hspent
        obtain ⟨old, hold, rfl, hevent⟩ := entry_mem_map.mp he
        obtain ⟨offered, hoffered, rfl, hevent'⟩ := entry_mem_map.mp he'
        obtain ⟨result, -, hresult⟩ := mapM_ok_of_mem hfound hoffered
        exact checkEvent_script hresult (by rw [hevent', ← hevent]; exact h.keyed.mem_stored.mp hold)
      have hold := h.valid.oneScript
      have hoffered := (checkEventIdentities_ok_iff.mp hidentities).2
      intro s e s' e' he he' hspent
      simp only [List.map_append, List.mem_append, Set.mem_ofPred_eq] at he he'
      rcases he with he | he <;> rcases he' with he' | he'
      · exact hold s e s' e' he he' hspent
      · exact hcross s e s' e' he he' hspent
      · exact (hcross s' e' s e he' he hspent.symm).symm
      · exact congrArg Prod.fst (hoffered (s, e) (mem_spendEntries.mpr he) (s', e') (mem_spendEntries.mpr he') hspent)
    rw [hchecked hvalid] at hfound
    cases hfound
    exact ⟨hraw, hvalid, hlimit, hruns, hnew.symm⟩
  · rintro ⟨hraw, hvalid, hlimit, hruns, rfl⟩
    obtain ⟨hfacts, -⟩ := checkBatch_ok_iff.mp hvalid
    refine ⟨hraw, ?_, ?_, (hall.mp hvalid).2, _, hchecked hvalid, hlimit, hruns, hnew⟩
    · refine checkTransactionConsistency_subset hfacts fun e he => List.mem_append_right _ ?_
      simpa [entry] using he
    · exact hvalid.identities fun x hx => by simp only [List.map_append, List.mem_append]; exact .inr hx

/-! ## What every call keeps -/

theorem lookup_addEvent (store : MemoryStore) (stored : StoredEvent) (key : Outpoint ⊕ SpendKey) :
    (store.addEvent stored).lookup key = if eventKey stored.event = key then some stored else store.lookup key := by
  rw [addEvent]
  cases hevent : stored.event with
  | receive receive =>
    cases key with
    | inl outpoint => simp [lookup, eventKey]
    | inr key => simp [lookup, eventKey]
  | spend spend =>
    cases key with
    | inl outpoint => simp [lookup, eventKey]
    | inr key => simp [lookup, eventKey]

theorem lookup_foldl_addEvent (store : MemoryStore) (new : List StoredEvent) (key : Outpoint ⊕ SpendKey) :
    (new.foldl addEvent store).lookup key =
      (new.reverse.find? fun stored => eventKey stored.event = key).or (store.lookup key) := by
  induction new using List.reverseRecOn with
  | nil => rfl
  | append_singleton new stored ih =>
    rw [List.foldl_append, List.foldl_cons, List.foldl_nil, lookup_addEvent, ih, List.reverse_append]
    by_cases hkey : eventKey stored.event = key
    · simp [hkey]
    · simp [hkey]

theorem lookup_applyCommit (new : List StoredEvent) (key : Outpoint ⊕ SpendKey) :
    (store.applyCommit commit new).lookup key =
      (new.reverse.find? fun stored => eventKey stored.event = key).or (store.lookup key) := by
  rw [← lookup_foldl_addEvent]
  cases key <;> rfl

theorem Indexed.addEvent (h : Indexed store) (stored : StoredEvent) : Indexed (store.addEvent stored) := by
  rw [MemoryStore.addEvent]
  cases stored.event with
  | receive receive => exact h
  | spend spend =>
    refine ⟨fun outpoint key hkey => ?_, fun key hkey => ?_⟩
    · simp only [OrderedMap.getElem?_insert_eq] at hkey
      split_ifs at hkey with hspent
      · cases hkey
        exact ⟨mem_insert_self, hspent⟩
      · obtain ⟨hmem, hout⟩ := h.1 outpoint key hkey
        exact ⟨mem_insert.mpr (.inr hmem), hout⟩
    · rcases mem_insert.mp hkey with heq | hmem
      · obtain rfl := compare_eq_iff_eq.mp heq
        exact mem_insert_self
      · exact mem_insert.mpr (.inr (h.2 key hmem))

theorem Indexed.foldl (h : Indexed store) (new : List StoredEvent) : Indexed (new.foldl MemoryStore.addEvent store) := by
  induction new generalizing store with
  | nil => exact h
  | cons stored new ih => exact ih (h.addEvent stored)

theorem Keyed.applyCommit (h : Keyed store) (commit : ShardCommit) (new : List StoredEvent) :
    Keyed (store.applyCommit commit new) := by
  intro key stored hlookup
  rw [lookup_applyCommit, Option.or_eq_some_iff] at hlookup
  rcases hlookup with hfound | ⟨-, hlookup⟩
  · simpa using List.find?_some hfound
  · exact h key stored hlookup

theorem Wf.entries_applyCommit (h : Wf store) (hvalid : Valid ((store.stored ++ commit.events).map entry)) (x : Entry) :
    x ∈ (store.stored ++ commit.events).map entry ↔
      x ∈ (store.applyCommit commit (store.newEvents commit)).stored.map entry := by
  have hkeyed := h.keyed.applyCommit commit (store.newEvents commit)
  constructor
  · intro hx
    obtain ⟨stored, hmem, rfl⟩ := List.mem_map.mp hx
    -- Whatever stands under its key afterwards is the same entry.
    cases hlookup : (store.applyCommit commit (store.newEvents commit)).lookup (eventKey stored.event) with
    | none =>
      exfalso
      rw [lookup_applyCommit, Option.or_eq_none_iff, List.find?_eq_none] at hlookup
      obtain ⟨hnew, hold⟩ := hlookup
      rcases List.mem_append.mp hmem with hmem | hmem
      · rw [h.keyed.mem_stored.mp hmem] at hold
        simp at hold
      · refine hnew stored (List.mem_reverse.mpr (List.mem_filter.mpr ⟨hmem, by rw [hold]; rfl⟩)) ?_
        simp
    | some found =>
      have hkey := hkeyed _ _ hlookup
      have hfound : found ∈ store.stored ++ commit.events := by
        rw [lookup_applyCommit, Option.or_eq_some_iff] at hlookup
        rcases hlookup with hnew | ⟨-, hold⟩
        · exact List.mem_append_right _ (List.mem_of_mem_filter (List.mem_reverse.mp (List.mem_of_find?_eq_some hnew)))
        · exact List.mem_append_left _ (h.keyed.mem_stored.mpr (by rw [hkey, hold]))
      rw [← entry_eq_of_eventKey_eq hvalid hfound hmem hkey]
      exact List.mem_map_of_mem (hkeyed.mem_stored.mpr (by rw [hkey, hlookup]))
  · intro hx
    obtain ⟨stored, hmem, rfl⟩ := List.mem_map.mp hx
    have hlookup := hkeyed.mem_stored.mp hmem
    rw [lookup_applyCommit, Option.or_eq_some_iff] at hlookup
    refine List.mem_map_of_mem ?_
    rcases hlookup with hnew | ⟨-, hold⟩
    · exact List.mem_append_right _ (List.mem_of_mem_filter (List.mem_reverse.mp (List.mem_of_find?_eq_some hnew)))
    · exact List.mem_append_left _ (h.keyed.mem_stored.mpr hold)

theorem Wf.commitShard (h : Wf store) (hok : store.commitShard commit = .ok after) : Wf after := by
  obtain ⟨new, hcheck, rfl⟩ := commitShard_eq_ok.mp hok
  obtain ⟨-, hvalid, -, -, rfl⟩ := h.checkCommit_iff.mp hcheck
  exact ⟨h.keyed.applyCommit commit _, hvalid.congr (h.entries_applyCommit hvalid), h.indexed.foldl _⟩

variable {key : SpendKey}

theorem Wf.spendKey_eq (h : Wf store) {key' : SpendKey} (hkey : key ∈ store.spends) (hkey' : key' ∈ store.spends)
    (hout : SpendKey.outpoint key = SpendKey.outpoint key') : key = key' := by
  obtain ⟨stored, hstored⟩ := OrderedMap.mem_iff_exists.mp hkey
  obtain ⟨stored', hstored'⟩ := OrderedMap.mem_iff_exists.mp hkey'
  have hk := h.keyed (.inr key) stored hstored
  have hk' := h.keyed (.inr key') stored' hstored'
  have hmem : stored ∈ store.stored := h.keyed.mem_stored.mpr (by rw [hk]; exact hstored)
  have hmem' : stored' ∈ store.stored := h.keyed.mem_stored.mpr (by rw [hk']; exact hstored')
  cases hevent : stored.event with
  | receive receive => simp [hevent, eventKey] at hk
  | spend spend =>
    cases hevent' : stored'.event with
    | receive receive => simp [hevent', eventKey] at hk'
    | spend spend' =>
      rw [hevent] at hk
      rw [hevent'] at hk'
      obtain rfl := Sum.inr.inj hk
      obtain rfl := Sum.inr.inj hk'
      exact spendKey_eq_of_outpoint_eq h.valid hmem hmem' hevent hevent' hout

theorem lookup_rollbackAbove (store : MemoryStore) (accepted : Anchor) (key : Outpoint ⊕ SpendKey) :
    (store.rollbackAbove accepted).lookup key =
      (store.lookup key).filter fun stored => stored.event.height.toNat ≤ accepted.height := by
  cases key with
  | inl outpoint => exact getElem?_filter'
  | inr key => exact getElem?_filter'

theorem spentBy_rollbackAbove {accepted : Anchor} {outpoint : Outpoint} :
    (store.rollbackAbove accepted).spentBy[outpoint]? = some key ↔
      store.spentBy[outpoint]? = some key ∧
        ∀ key stored, store.spends[key]? = some stored → accepted.height < stored.event.height.toNat →
          SpendKey.outpoint key ≠ outpoint := by
  simp only [MemoryStore.rollbackAbove,
    OrderedMap.getElem?_foldl_erase (fun spend : SpendKey × StoredEvent => SpendKey.outpoint spend.1)]
  simp only [List.mem_filter, decide_eq_true_eq, Prod.forall, Std.ExtTreeMap.mem_toList_iff_getElem?_eq_some, and_imp]
  exact and_comm

theorem Wf.rollbackAbove (h : Wf store) (accepted : Anchor) : Wf (store.rollbackAbove accepted) := by
  have hlookup : ∀ key stored, (store.rollbackAbove accepted).lookup key = some stored ↔
      store.lookup key = some stored ∧ stored.event.height.toNat ≤ accepted.height := by
    intro key stored
    rw [lookup_rollbackAbove, Option.filter_eq_some_iff, decide_eq_true_eq]
  have hkeyed : Keyed (store.rollbackAbove accepted) := fun key stored hkey => h.keyed key stored ((hlookup _ _).mp hkey).1
  have hspends : ∀ key : SpendKey, key ∈ (store.rollbackAbove accepted).spends ↔
      ∃ stored, store.spends[key]? = some stored ∧ stored.event.height.toNat ≤ accepted.height := by
    intro key
    rw [OrderedMap.mem_iff_exists]
    exact exists_congr fun stored => hlookup (.inr key) stored
  refine ⟨hkeyed, h.valid.cut accepted.height fun x => ?_, fun outpoint key hkey => ?_, fun key hkey => ?_⟩
  · simp only [entry_mem_map, hkeyed.mem_stored, hlookup, h.keyed.mem_stored]
    constructor
    · rintro ⟨stored, ⟨hstored, hle⟩, hscript, hevent⟩
      exact ⟨⟨stored, hstored, hscript, hevent⟩, hevent ▸ hle⟩
    · rintro ⟨⟨stored, hstored, hscript, hevent⟩, hle⟩
      exact ⟨stored, ⟨hstored, hevent ▸ hle⟩, hscript, hevent⟩
  · obtain ⟨hkey, hkept⟩ := spentBy_rollbackAbove.mp hkey
    obtain ⟨hmem, hout⟩ := h.indexed.1 outpoint key hkey
    obtain ⟨stored, hstored⟩ := OrderedMap.mem_iff_exists.mp hmem
    refine ⟨(hspends key).mpr ⟨stored, hstored, ?_⟩, hout⟩
    by_contra habove
    exact hkept key stored hstored (not_le.mp habove) hout
  · obtain ⟨stored, hstored, hle⟩ := (hspends key).mp hkey
    have hmem := OrderedMap.mem_of_getElem? hstored
    obtain ⟨named, hnamed⟩ :=
      OrderedMap.mem_iff_exists.mp (h.indexed.2 key hmem)
    refine OrderedMap.mem_of_getElem? (spentBy_rollbackAbove.mpr ⟨hnamed, fun key' stored' hstored' habove hout => ?_⟩)
    -- One output has one spend, so a removed one would be this one.
    obtain rfl := h.spendKey_eq (OrderedMap.mem_of_getElem? hstored') hmem hout
    rw [hstored] at hstored'
    cases hstored'
    exact absurd hle habove.not_ge

theorem addScripts_frame (store : MemoryStore) (entries : List ScriptEntry) :
    ∃ scripts, (store.addScripts entries).1 = { store with scripts } := by
  induction entries generalizing store with
  | nil => exact ⟨store.scripts, rfl⟩
  | cons entry entries ih =>
    obtain ⟨scripts, hscripts⟩ := ih (store.addScript entry)
    exact ⟨scripts, hscripts⟩

theorem Wf.call (h : Wf store) (next : Call) : Wf (store.call next) := by
  cases next with
  | addScripts entries =>
    obtain ⟨scripts, hscripts⟩ := store.addScripts_frame entries
    rw [MemoryStore.call, hscripts]
    exact ⟨h.keyed, h.valid, h.indexed⟩
  | commitShard commit =>
    rw [MemoryStore.call]
    cases hok : store.commitShard commit with
    | error error => exact h
    | ok after => exact h.commitShard hok
  | commitAnchor anchor settledThrough coveredThrough => exact ⟨h.keyed, h.valid, h.indexed⟩
  | rollbackAbove accepted => exact h.rollbackAbove accepted
  | promoteProvisional shardId revisionDigest => exact ⟨h.keyed, h.valid, h.indexed⟩

theorem Wf.callAll (h : Wf store) (calls : List Call) : Wf (store.callAll calls) := by
  induction calls generalizing store with
  | nil => exact h
  | cons next calls ih => exact ih (h.call next)

end Zakura.Client.MemoryStore
