import Zakura.Client.Lemmas.SqliteRuns

/-! # Events in both stores

The rows of a table are those of the events that the store in memory holds, so both check a commit against the same
history. -/

namespace Zakura.Client.SqliteStore

open List Zakura.Transparent Zakura.Ledger OrderedMap Zakura.Except EventRow
open MemoryStore (eventKey entry entry_eq_of_eventKey_eq spendKey_eq_of_outpoint_eq)

variable {store : SqliteStore} {mem : MemoryStore} {commit : ShardCommit}

def lookup (store : SqliteStore) : Outpoint ⊕ SpendKey → Option EventRow
  | .inl outpoint => store.receives[outpoint]?
  | .inr key => store.spends[key]?

/-- The rows are those of the stored events, which all can be written. -/
structure EventsSim (store : SqliteStore) (mem : MemoryStore) : Prop where
  same : ∀ key, store.lookup key = (mem.lookup key).map of
  encoded : ∀ stored ∈ mem.stored, ∃ raw, stored.event.toBytes = .ok raw

/-! ## Reading -/

theorem EventsSim.eventRows_eq (h : EventsSim store mem) : store.eventRows = mem.stored.map of := by
  have hreceives : store.receives = mem.receives.map fun _ stored => of stored :=
    eq_map_of_getElem? fun outpoint => h.same (.inl outpoint)
  have hspends : store.spends = mem.spends.map fun _ stored => of stored :=
    eq_map_of_getElem? fun key => h.same (.inr key)
  rw [eventRows, hreceives, hspends, vals_map, vals_map, ← map_append]
  rfl

theorem EventsSim.read (h : EventsSim store mem) : store.eventRows.mapM read = .ok mem.stored := by
  rw [h.eventRows_eq, mapM_eq_ok, List.forall₂_map_left_iff, List.forall₂_same]
  intro stored hstored
  obtain ⟨raw, hraw⟩ := h.encoded stored hstored
  exact read_of hraw

theorem EventsSim.events (h : EventsSim store mem) : store.events = .ok mem.events := by
  rw [SqliteStore.events, h.read]
  rfl

theorem EventsSim.history (h : EventsSim store mem) (commit : ShardCommit) :
    store.history commit = .ok ((commit.events ++ mem.stored).map entry) := by
  rw [SqliteStore.history, h.read]
  rfl

theorem mem_eventRows {key : Outpoint ⊕ SpendKey} {row : EventRow} (h : store.lookup key = some row) :
    row ∈ store.eventRows := by
  cases key with
  | inl outpoint => exact mem_append_left _ (mem_vals.mpr ⟨outpoint, h⟩)
  | inr key => exact mem_append_right _ (mem_vals.mpr ⟨key, h⟩)

theorem mem_rowsOf {txid : Txid} {row : EventRow} (h : row ∈ store.rowsOf txid) : row ∈ store.eventRows := by
  simp only [rowsOf, eventRows, mem_append, mem_vals, Std.ExtTreeMap.getElem?_filter',
    Option.filter_eq_some_iff] at h ⊢
  rcases h with ⟨key, hrow, -⟩ | ⟨key, hrow, -⟩
  · exact .inl ⟨key, hrow⟩
  · exact .inr ⟨key, hrow⟩

theorem EventsSim.assertions (h : EventsSim store mem) (commit : ShardCommit) :
    ∃ asserted, store.assertions commit = .ok asserted ∧
      ∀ event ∈ asserted, event ∈ (mem.stored ++ commit.events).map (·.event) := by
  have hdecode : ∀ row ∈ store.eventRows, ∃ stored ∈ mem.stored, decodeEvent row.event = .ok stored.event := by
    intro row hrow
    rw [h.eventRows_eq] at hrow
    obtain ⟨stored, hstored, rfl⟩ := mem_map.mp hrow
    obtain ⟨raw, hraw⟩ := h.encoded stored hstored
    refine ⟨stored, hstored, ?_⟩
    rw [of, toBytes_rawOf hraw]
    exact decodeEvent_of_toBytes hraw
  have hrows : ∀ row ∈ (((commit.events.map fun stored => stored.event.txid).insertionSort (· ≤ ·)).dedup).flatMap
      store.rowsOf, row ∈ store.eventRows := by
    intro row hrow
    obtain ⟨txid, -, hrow⟩ := mem_flatMap.mp hrow
    exact mem_rowsOf hrow
  have hall : ∀ row ∈ (((commit.events.map fun stored => stored.event.txid).insertionSort (· ≤ ·)).dedup).flatMap
      store.rowsOf, ∃ event, decodeEvent row.event = .ok event := by
    intro row hrow
    obtain ⟨stored, -, hread⟩ := hdecode row (hrows row hrow)
    exact ⟨stored.event, hread⟩
  obtain ⟨held, hheld⟩ := mapM_ok_of_forall hall
  refine ⟨commit.events.map (·.event) ++ held, ?_, fun event hevent => ?_⟩
  · rw [SqliteStore.assertions]
    exact bind_eq_ok.mpr ⟨held, hheld, rfl⟩
  · rw [map_append, mem_append]
    rcases mem_append.mp hevent with hevent | hevent
    · exact .inr hevent
    · obtain ⟨row, hrow, hread⟩ := mapM_ok_mem hheld hevent
      obtain ⟨stored, hstored, hsame⟩ := hdecode row (hrows row hrow)
      rw [hread] at hsame
      cases hsame
      exact .inl (mem_map_of_mem hstored)

/-! ## The checks of a commit -/

theorem EventsSim.checkEvent (h : EventsSim store mem) (hkeyed : mem.Keyed)
    (hvalid : Valid ((mem.stored ++ commit.events).map entry)) {stored : StoredEvent} (hmem : stored ∈ commit.events) :
    store.checkEvent stored (rawOf stored.event) = .ok () := by
  have hrow : ∀ row, store.lookup (eventKey stored.event) = some row →
      row.script = stored.script ∧ row.event = rawOf stored.event := by
    intro row hrow
    rw [h.same, Option.map_eq_some_iff] at hrow
    obtain ⟨existing, hexisting, rfl⟩ := hrow
    have hkey := hkeyed _ _ hexisting
    have hold : existing ∈ mem.stored := hkeyed.mem_stored.mpr (by rw [hkey, hexisting])
    have hsame := entry_eq_of_eventKey_eq hvalid (mem_append_left _ hold) (mem_append_right _ hmem) hkey
    obtain ⟨hscript, hevent⟩ := Prod.mk.inj hsame
    exact ⟨hscript, congrArg rawOf hevent⟩
  rw [SqliteStore.checkEvent]
  cases hevent : stored.event with
  | receive receive =>
    rw [hevent] at hrow
    refine if_neg ?_
    cases hlookup : store.receives[receive.outpoint]? with
    | none => simp
    | some row =>
      obtain ⟨hscript, hbytes⟩ := hrow row hlookup
      simp [hscript, hbytes]
  | spend spend =>
    rw [hevent] at hrow
    refine if_neg ?_
    cases hfound : store.spends.toList.find? fun row => SpendKey.outpoint row.1 = spend.spent with
    | none => simp
    | some found =>
      obtain ⟨key, row⟩ := found
      have hspent : SpendKey.outpoint key = spend.spent := by simpa using find?_some hfound
      have hheld : store.lookup (.inr key) = some row :=
        Std.ExtTreeMap.mem_toList_iff_getElem?_eq_some.mp (mem_of_find?_eq_some hfound)
      -- The output's spend in the table stands under this one's key.
      have hkey : key = spendKey spend := by
        rw [h.same, Option.map_eq_some_iff] at hheld
        obtain ⟨existing, hexisting, -⟩ := hheld
        have hplace := hkeyed _ _ hexisting
        have hold : existing ∈ mem.stored := hkeyed.mem_stored.mpr (by rw [hplace, hexisting])
        cases hother : existing.event with
        | receive receive => simp [hother, eventKey] at hplace
        | spend other =>
          rw [hother] at hplace
          obtain rfl := Sum.inr.inj hplace
          exact spendKey_eq_of_outpoint_eq hvalid (mem_append_left _ hold) (mem_append_right _ hmem) hother
            hevent hspent
      subst hkey
      obtain ⟨hscript, hbytes⟩ := hrow row hheld
      simp [hscript, hbytes, spendKey]

theorem RunsSim.checkRun_iff (h : RunsSim store.runCache mem.runs) {run : CachedRun} :
    store.checkRun run = .ok () ↔ ∀ held, mem.runs[run.key]? = some held → held = run := by
  rw [checkRun, cachedRun, h.read, ok_bind]
  cases mem.runs[run.key]? with
  | none => simp
  | some held => by_cases hsame : held = run <;> simp [hsame]

theorem EventsSim.checkCommit_iff (h : EventsSim store mem) (hwf : mem.Wf) (hruns : RunsSim store.runCache mem.runs)
    {encoded : List Bytes × List Bytes × List Bytes} :
    store.checkCommit commit = .ok encoded ↔
      commit.encodeEvents = .ok encoded ∧ Valid ((mem.stored ++ commit.events).map entry) ∧
        store.pendingAfter commit ≤ asI64 store.pendingLimit ∧
        ∀ run ∈ commit.cachedRuns, ∀ held, mem.runs[run.key]? = some held → held = run := by
  have hswap : ∀ x, x ∈ (commit.events ++ mem.stored).map entry ↔ x ∈ (mem.stored ++ commit.events).map entry := by
    intro x
    simp only [map_append, mem_append]
    exact or_comm
  obtain ⟨asserted, hasserted, hknown⟩ := h.assertions commit
  constructor
  · intro hcheck
    obtain ⟨raw, hraw, hcheck⟩ := bind_eq_ok.mp hcheck
    rw [hasserted, ok_bind] at hcheck
    obtain ⟨-, hcheck⟩ := check_bind_eq_ok.mp hcheck
    obtain ⟨-, hcheck⟩ := check_bind_eq_ok.mp hcheck
    rw [h.history, ok_bind] at hcheck
    obtain ⟨hreplay, hcheck⟩ := check_bind_eq_ok.mp hcheck
    obtain ⟨-, hcheck⟩ := check_bind_eq_ok.mp hcheck
    obtain ⟨hroom, hcheck⟩ := ite_error_eq_ok.mp hcheck
    obtain ⟨hchecked, hcheck⟩ := check_bind_eq_ok.mp hcheck
    cases hcheck
    have hvalid := checkBatch_of_replay (eq_mk_of_fst (mapError_eq_ok.mp hreplay))
    refine ⟨hraw, Valid.congr hvalid hswap, not_lt.mp hroom, fun run hrun => ?_⟩
    exact hruns.checkRun_iff.mp (forM_eq_ok.mp hchecked run hrun)
  · rintro ⟨hraw, hvalid, hroom, hheld⟩
    have hevents := (ShardCommit.encodeEvents_eq_ok hraw).1.1
    obtain ⟨hfacts, -⟩ := checkBatch_ok_iff.mp hvalid
    obtain ⟨ledger, hreplay, -⟩ := (hvalid.congr fun x => (hswap x).symm).replay
    refine bind_eq_ok.mpr ⟨encoded, hraw, ?_⟩
    rw [hasserted, ok_bind]
    refine check_bind_eq_ok.mpr ⟨mapError_eq_ok.mpr ?_, ?_⟩
    · refine checkTransactionConsistency_subset hfacts fun event hevent => mem_append_right _ ?_
      simpa [entry] using hknown event hevent
    refine check_bind_eq_ok.mpr ⟨mapError_eq_ok.mpr ?_, ?_⟩
    · exact hvalid.identities fun x hx => by simp only [map_append, mem_append]; exact .inr hx
    rw [h.history, ok_bind]
    refine check_bind_eq_ok.mpr ⟨mapError_eq_ok.mpr (by rw [hreplay]), ?_⟩
    refine check_bind_eq_ok.mpr ⟨forM_eq_ok.mpr ?_, ?_⟩
    · rw [hevents, zip_map_self]
      intro item hitem
      obtain ⟨stored, hstored, rfl⟩ := mem_map.mp hitem
      exact h.checkEvent hwf.keyed hvalid hstored
    refine ite_error_eq_ok.mpr ⟨not_lt.mpr hroom, check_bind_eq_ok.mpr ⟨forM_eq_ok.mpr ?_, rfl⟩⟩
    exact fun run hrun => hruns.checkRun_iff.mpr (hheld run hrun)

/-! ## What a commit writes -/

theorem lookup_insertEvent {stored : StoredEvent}
    (hone : ∀ key ∈ store.spends, ∀ spend, stored.event = .spend spend → SpendKey.outpoint key = spend.spent →
      key = spendKey spend) (key : Outpoint ⊕ SpendKey) :
    (store.insertEvent stored (rawOf stored.event)).lookup key =
      (store.lookup key).or (if eventKey stored.event = key then some (of stored) else none) := by
  rw [insertEvent]
  cases hevent : stored.event with
  | receive receive =>
    have hrow : (⟨stored.script, (TransparentEvent.receive receive).height.toNat, rawOf (.receive receive), stored.shardId,
        stored.revisionDigest⟩ : EventRow) = of stored := by rw [of, hevent]
    dsimp only
    rw [hrow]
    cases key with
    | inr key =>
      have hkey : ¬ eventKey (.receive receive) = .inr key := Sum.inl_ne_inr
      rw [if_neg hkey, Option.or_none]
      split_ifs <;> rfl
    | inl outpoint =>
      have hkey : eventKey (.receive receive) = .inl outpoint ↔ receive.outpoint = outpoint := Sum.inl_injective.eq_iff
      have hinsert := getElem?_insert_of_absent store.receives receive.outpoint outpoint (of stored)
      simp only [hkey]
      rw [lookup, lookup, ← hinsert]
      split_ifs <;> rfl
  | spend spend =>
    have hrow : (⟨stored.script, (TransparentEvent.spend spend).height.toNat, rawOf (.spend spend), stored.shardId,
        stored.revisionDigest⟩ : EventRow) = of stored := by rw [of, hevent]
    -- A row that spends the output stands under the event's own key.
    have hspent : (spendKey spend ∈ store.spends ∨ store.spends.keys.any fun key => SpendKey.outpoint key = spend.spent) ↔
        spendKey spend ∈ store.spends := by
      refine or_iff_left_of_imp fun hany => ?_
      obtain ⟨key, hkey, hout⟩ := any_eq_true.mp hany
      have hmem := Std.ExtTreeMap.mem_keys.mp hkey
      rwa [← hone key hmem spend hevent (by simpa using hout)]
    dsimp only
    rw [hrow]
    simp only [hspent]
    cases key with
    | inl outpoint =>
      have hkey : ¬ eventKey (.spend spend) = .inl outpoint := Sum.inr_ne_inl
      rw [if_neg hkey, Option.or_none]
      split_ifs <;> rfl
    | inr key =>
      have hkey : eventKey (.spend spend) = .inr key ↔ spendKey spend = key := Sum.inr_injective.eq_iff
      have hinsert := getElem?_insert_of_absent store.spends (spendKey spend) key (of stored)
      simp only [hkey]
      rw [lookup, lookup, ← hinsert]
      split_ifs <;> rfl

/-- The first of the listed events with a key stands under it, unless one did. -/
theorem lookup_foldl_insertEvent {all : List StoredEvent} (hvalid : Valid (all.map entry)) {events : List StoredEvent}
    (hsub : ∀ stored ∈ events, stored ∈ all)
    (hkeys : ∀ key ∈ store.spends, ∃ stored ∈ all, eventKey stored.event = .inr key) (key : Outpoint ⊕ SpendKey) :
    (events.foldl (fun store stored => store.insertEvent stored (rawOf stored.event)) store).lookup key =
      (store.lookup key).or ((events.find? fun stored => eventKey stored.event = key).map of) := by
  induction events generalizing store with
  | nil => simp
  | cons stored events ih =>
    have hmem := hsub stored mem_cons_self
    have hone : ∀ key ∈ store.spends, ∀ spend, stored.event = .spend spend → SpendKey.outpoint key = spend.spent →
        key = spendKey spend := by
      intro key hkey spend hevent hout
      obtain ⟨other, hother, hplace⟩ := hkeys key hkey
      cases hoe : other.event with
      | receive receive => simp [hoe, eventKey] at hplace
      | spend spend' =>
        rw [hoe] at hplace
        obtain rfl := Sum.inr.inj hplace
        exact spendKey_eq_of_outpoint_eq hvalid hother hmem hoe hevent hout
    have hnext : ∀ key ∈ (store.insertEvent stored (rawOf stored.event)).spends,
        ∃ stored ∈ all, eventKey stored.event = .inr key := by
      intro key hkey
      rw [Std.ExtTreeMap.mem_iff_isSome_getElem?] at hkey
      have hlookup := lookup_insertEvent hone (.inr key)
      by_cases hown : eventKey stored.event = .inr key
      · exact ⟨stored, hmem, hown⟩
      · rw [if_neg hown, Option.or_none] at hlookup
        refine hkeys key (Std.ExtTreeMap.mem_iff_isSome_getElem?.mpr ?_)
        change ((store.insertEvent stored (rawOf stored.event)).lookup (.inr key)).isSome at hkey
        rwa [hlookup] at hkey
    rw [foldl_cons, ih (fun stored hstored => hsub stored (mem_cons_of_mem _ hstored)) hnext,
      lookup_insertEvent hone, Option.or_assoc]
    by_cases hown : eventKey stored.event = key
    · simp [hown]
    · simp [hown]

theorem insertEvent_frame (store : SqliteStore) (stored : StoredEvent) (encoded : Bytes) :
    ∃ receives spends, store.insertEvent stored encoded = { store with receives, spends } := by
  rw [insertEvent]
  cases stored.event with
  | receive receive =>
    dsimp only
    split_ifs
    · exact ⟨store.receives, store.spends, rfl⟩
    · exact ⟨_, store.spends, rfl⟩
  | spend spend =>
    dsimp only
    split_ifs
    · exact ⟨store.receives, store.spends, rfl⟩
    · exact ⟨store.receives, _, rfl⟩

theorem foldl_insertEvent_frame (events : List StoredEvent) (store : SqliteStore) :
    ∃ receives spends, events.foldl (fun store stored => store.insertEvent stored (rawOf stored.event)) store =
      { store with receives, spends } := by
  induction events generalizing store with
  | nil => exact ⟨store.receives, store.spends, rfl⟩
  | cons stored events ih =>
    obtain ⟨receives, spends, hstep⟩ := store.insertEvent_frame stored (rawOf stored.event)
    obtain ⟨receives', spends', hrest⟩ := ih { store with receives, spends }
    exact ⟨receives', spends', by rw [foldl_cons, hstep, hrest]⟩

/-- The events that a commit lists first and last under a key are the same, unless one is stored already. -/
def EventsKept (mem : MemoryStore) (commit : ShardCommit) : Prop :=
  ∀ key, mem.lookup key = none →
    (commit.events.find? fun stored => eventKey stored.event = key) =
      commit.events.reverse.find? fun stored => eventKey stored.event = key

theorem find?_newEvents {key : Outpoint ⊕ SpendKey} :
    ((mem.newEvents commit).reverse.find? fun stored => eventKey stored.event = key) =
      if mem.lookup key = none then commit.events.reverse.find? fun stored => eventKey stored.event = key else none := by
  rw [MemoryStore.newEvents, ← filter_reverse, find?_filter]
  split_ifs with hnone
  · congr 1
    funext stored
    by_cases hkey : eventKey stored.event = key
    · simp [hkey, hnone]
    · simp [hkey]
  · rw [find?_eq_none]
    intro stored _ hboth
    simp only [decide_eq_true_eq, Option.isNone_iff_eq_none] at hboth
    exact hnone (hboth.2 ▸ hboth.1)

section Written

variable {after : SqliteStore} (h : EventsSim store mem) (hwf : mem.Wf)
  (hvalid : Valid ((mem.stored ++ commit.events).map entry))
  (hafter : ∀ key, after.lookup key =
    (commit.events.foldl (fun store stored => store.insertEvent stored (rawOf stored.event)) store).lookup key)

include h hwf hvalid hafter

theorem EventsSim.lookup_written (key : Outpoint ⊕ SpendKey) :
    after.lookup key =
      ((mem.lookup key).or (commit.events.find? fun stored => eventKey stored.event = key)).map of := by
  rw [hafter, lookup_foldl_insertEvent hvalid fun stored => mem_append_right _, h.same, Option.map_or]
  intro key hkey
  obtain ⟨row, hrow⟩ := mem_iff_exists.mp hkey
  have hlookup : store.lookup (.inr key) = some row := hrow
  rw [h.same, Option.map_eq_some_iff] at hlookup
  obtain ⟨stored, hstored, -⟩ := hlookup
  have hplace := hwf.keyed _ _ hstored
  exact ⟨stored, mem_append_left _ (hwf.keyed.mem_stored.mpr (by rw [hplace, hstored])), hplace⟩

variable (hencoded : ∀ stored ∈ commit.events, ∃ raw, stored.event.toBytes = .ok raw)

include hencoded

theorem EventsSim.update (hkept : EventsKept mem commit) :
    EventsSim after (mem.applyCommit commit (mem.newEvents commit)) := by
  have hkeyed := hwf.keyed.applyCommit commit (mem.newEvents commit)
  refine ⟨fun key => ?_, fun stored hstored => ?_⟩
  · rw [h.lookup_written hwf hvalid hafter, MemoryStore.lookup_applyCommit, find?_newEvents]
    cases hlookup : mem.lookup key with
    | none => rw [if_pos rfl, Option.none_or, Option.or_none, hkept key hlookup]
    | some held => rfl
  · have hlookup := hkeyed.mem_stored.mp hstored
    rw [MemoryStore.lookup_applyCommit, Option.or_eq_some_iff] at hlookup
    rcases hlookup with hnew | ⟨-, hold⟩
    · exact hencoded stored (mem_of_mem_filter (mem_reverse.mp (mem_of_find?_eq_some hnew)))
    · exact h.encoded stored (hwf.keyed.mem_stored.mpr hold)

theorem EventsSim.kept_of_read
    (hread : after.events = .ok (mem.applyCommit commit (mem.newEvents commit)).events) : EventsKept mem commit := by
  intro key hnone
  have hkeyed := hwf.keyed.applyCommit commit (mem.newEvents commit)
  cases hfirst : commit.events.find? fun stored => eventKey stored.event = key with
  | none =>
    rw [eq_comm, find?_eq_none]
    exact fun stored hstored => find?_eq_none.mp hfirst stored (mem_reverse.mp hstored)
  | some first =>
    -- The table reads the first one back, so it has to be the one in memory.
    have hmem := mem_of_find?_eq_some hfirst
    have hkey : eventKey first.event = key := by simpa using find?_some hfirst
    have hrow : after.lookup key = some (of first) := by
      rw [h.lookup_written hwf hvalid hafter, hnone, hfirst]
      rfl
    obtain ⟨listed, hlisted, hsorted⟩ := bind_eq_ok.mp hread
    obtain ⟨found, hfound, hreads⟩ := mapM_ok_of_mem hlisted (mem_eventRows hrow)
    obtain ⟨raw, hraw⟩ := hencoded first hmem
    rw [read_of hraw] at hreads
    cases hreads
    have hheld : first ∈ (mem.applyCommit commit (mem.newEvents commit)).stored := by
      have hevents : first ∈ (mem.applyCommit commit (mem.newEvents commit)).events := by
        rw [← pure_eq_ok.mp hsorted, mem_insertionSort]
        exact hfound
      rwa [MemoryStore.events, mem_insertionSort] at hevents
    have hlookup := hkeyed.mem_stored.mp hheld
    rw [MemoryStore.lookup_applyCommit, find?_newEvents, hkey, if_pos hnone, hnone, Option.or_none] at hlookup
    exact hlookup.symm

end Written

end Zakura.Client.SqliteStore
