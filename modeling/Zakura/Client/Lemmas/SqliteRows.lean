import Zakura.Client.SqliteStore
import Zakura.Transparent.Lemmas.EventCanonical

/-! # Rows read back

What a commit writes to a row is what a read of the row returns. -/

namespace Zakura.Client

open List Zakura.Transparent Zakura.Except

/-! ## Events -/

variable {event : TransparentEvent} {raw : Bytes}

theorem decodeEvent_of_toBytes (h : event.toBytes = .ok raw) : decodeEvent raw = .ok event := by
  have hread := TransparentEvent.fromBytes_ok.mpr h
  have hlength : ¬ (raw.length < eventBytes ∨ maxEventBytes < raw.length) := by
    intro hbad
    rw [TransparentEvent.fromBytes, if_pos hbad] at hread
    cases hread
  rw [decodeEvent, if_neg hlength, hread]
  rfl

theorem length_lt_of_toBytes (h : event.toBytes = .ok raw) : raw.length < 256 ^ 2 := by
  have hread := TransparentEvent.fromBytes_ok.mpr h
  by_contra hlong
  have hbad : raw.length < eventBytes ∨ maxEventBytes < raw.length := by
    right
    simp only [maxEventBytes, eventBytes]
    omega
  rw [TransparentEvent.fromBytes, if_pos hbad] at hread
  cases hread

def frame (raw : Bytes) : Bytes := leBytes 2 raw.length ++ raw

theorem decodeEventsLoop_frame (h : event.toBytes = .ok raw) (limit : Option Nat) (fuel : Nat) (rest : Bytes)
    (events : List TransparentEvent) (hlimit : limit.any (· < events.length + 1) = false) :
    decodeEventsLoop limit (fuel + 1) (frame raw ++ rest) events =
      decodeEventsLoop limit fuel rest (events ++ [event]) := by
  have htwo : (leBytes 2 raw.length).length = 2 := length_leBytes _ _
  have hframe : (frame raw).length = 2 + raw.length := by rw [frame, length_append, htwo]
  have hlength : leNat ((frame raw ++ rest).take 2) = raw.length := by
    rw [frame, append_assoc, take_left' htwo]
    exact leNat_leBytes_of_lt (length_lt_of_toBytes h)
  have hraw : bytesAt (frame raw ++ rest) 2 raw.length = raw := by
    rw [frame, append_assoc, bytesAt_append_right htwo.le, htwo, Nat.sub_self, bytesAt_append_left rfl]
  have hrest : (frame raw ++ rest).drop (2 + raw.length) = rest := drop_left' hframe
  have hstep : ∀ b tail, frame raw ++ rest = b :: tail → decodeEventsLoop limit (fuel + 1) (b :: tail) events =
      decodeEventsLoop limit fuel rest (events ++ [event]) := by
    intro b tail hcons
    rw [decodeEventsLoop]
    rw [← hcons]
    dsimp only
    rw [if_neg (by rw [length_append, hframe]; omega), hlength, if_neg (by rw [length_append, hframe]; omega),
      hraw, decodeEvent_of_toBytes h, ok_bind, hlimit, if_neg Bool.false_ne_true, hrest]
    simp
  cases hcons : frame raw ++ rest with
  | nil =>
    have hlen := congrArg List.length hcons
    rw [length_append, hframe, length_nil] at hlen
    omega
  | cons b tail => exact hstep b tail hcons

variable {events : List TransparentEvent}

theorem decodeEventsLoop_frames {limit : Option Nat} {raws : List Bytes}
    (h : List.Forall₂ (fun event raw => event.toBytes = .ok raw) events raws) {fuel : Nat} {acc : List TransparentEvent}
    (hfuel : (raws.flatMap frame).length ≤ fuel) (hlimit : ∀ n, limit = some n → acc.length + events.length ≤ n) :
    decodeEventsLoop limit fuel (raws.flatMap frame) acc = .ok (acc ++ events) := by
  induction h generalizing fuel acc with
  | nil => cases fuel <;> simp [decodeEventsLoop]
  | @cons event raw events raws hraw _ ih =>
    have hframe : (frame raw).length = 2 + raw.length := by rw [frame, length_append, length_leBytes]
    rw [flatMap_cons, length_append, hframe] at hfuel
    cases fuel with
    | zero => omega
    | succ fuel =>
      have hroom : limit.any (· < acc.length + 1) = false := by
        cases limit with
        | none => rfl
        | some n =>
          have := hlimit n rfl
          rw [length_cons] at this
          simp only [Option.any_some, decide_eq_false_iff_not]
          omega
      rw [flatMap_cons, decodeEventsLoop_frame hraw _ _ _ _ hroom, ih (by omega)]
      · simp
      · intro n hn
        have := hlimit n hn
        rw [length_cons] at this
        rw [length_append, length_singleton]
        omega

theorem decodeEvents_of_encodeEvents {limit : Option Nat} (h : encodeEvents events = .ok raw)
    (hlimit : ∀ n, limit = some n → events.length ≤ n) :
    decodeEvents raw limit = .ok events := by
  obtain ⟨raws, hraws, hframes⟩ := bind_eq_ok.mp h
  cases hframes
  have hbytes : List.Forall₂ (fun event raw => event.toBytes = .ok raw) events raws :=
    (mapM_eq_ok.mp hraws).imp fun event raw hraw => mapError_eq_ok.mp hraw
  have htag : (asciiBytes "EV3" ++ [0]).length = 4 := rfl
  have hdrop : (asciiBytes "EV3" ++ [0] ++ raws.flatMap frame).drop 4 = raws.flatMap frame := drop_left' htag
  have hprefix : (asciiBytes "EV3" ++ [0]).isPrefixOf (asciiBytes "EV3" ++ [0] ++ raws.flatMap frame) = true :=
    isPrefixOf_iff_prefix.mpr (prefix_append _ _)
  change decodeEvents (asciiBytes "EV3" ++ [0] ++ raws.flatMap frame) limit = .ok events
  rw [decodeEvents, if_pos hprefix, hdrop]
  exact decodeEventsLoop_frames hbytes le_rfl (by simpa using hlimit)

/-! ## What a row of each table holds -/

def rawOf (event : TransparentEvent) : Bytes := event.toBytes.toOption.getD []

theorem toBytes_rawOf (h : event.toBytes = .ok raw) : rawOf event = raw := by
  rw [rawOf, h]
  rfl

def rawsOf (events : List TransparentEvent) : Bytes := (encodeEvents events).toOption.getD []

theorem encodeEvents_rawsOf (h : encodeEvents events = .ok raw) : rawsOf events = raw := by
  rw [rawsOf, h]
  rfl

def EventRow.of (stored : StoredEvent) : EventRow :=
  ⟨stored.script, stored.event.height.toNat, rawOf stored.event, stored.shardId, stored.revisionDigest⟩

theorem EventRow.read_of {stored : StoredEvent} (h : stored.event.toBytes = .ok raw) :
    (EventRow.of stored).read = .ok stored := by
  have hevent : decodeEvent (EventRow.of stored).event = .ok stored.event := by
    rw [EventRow.of, toBytes_rawOf h]
    exact decodeEvent_of_toBytes h
  rw [EventRow.read, hevent]
  rfl

def PendingRow.of (item : PendingPages) : PendingRow := SqliteStore.pendingRow item (rawsOf item.carried)

/-- The item is one that a read of its row can return. -/
structure PendingPages.Readable (item : PendingPages) : Prop where
  carried : item.carried.length ≤ inlineEvents
  fragments : ∀ fragment ∈ item.fragments, fragment.length = pageRowBytes

theorem chunksExact_flatten {rows : List Bytes} {width : Nat} (hpos : 0 < width)
    (hwidth : ∀ row ∈ rows, row.length = width) : chunksExact width rows.flatten = rows := by
  rw [chunksExact, length_flatten_of_width hwidth, Nat.mul_div_cancel _ hpos]
  refine ext_getElem? fun i => ?_
  rw [getElem?_map]
  by_cases hi : i < rows.length
  · rw [getElem?_range hi, getElem?_eq_getElem hi, Option.map_some,
      bytesAt_flatten hwidth (getElem?_eq_getElem hi)]
  · rw [getElem?_eq_none (by simpa using hi), getElem?_eq_none (by simpa using hi)]
    rfl

theorem PendingRow.read_of {item : PendingPages} (hraw : encodeEvents item.carried = .ok raw)
    (hcover : ShardCommit.coverValid item = true) (h : item.Readable) (id : Nat) :
    (PendingRow.of item).read id = .ok { item with id := some id } := by
  have hwidth : (PendingRow.of item).fragments.length % pageRowBytes = 0 := by
    rw [PendingRow.of, SqliteStore.pendingRow, length_flatten_of_width h.fragments, Nat.mul_mod_left]
  have hcarried : decodeEvents (PendingRow.of item).carried (some inlineEvents) = .ok item.carried := by
    have hbytes : (PendingRow.of item).carried = raw := encodeEvents_rawsOf hraw
    rw [hbytes]
    refine decodeEvents_of_encodeEvents hraw fun n hn => ?_
    cases hn
    exact h.carried
  have hchunks : chunksExact pageRowBytes (PendingRow.of item).fragments = item.fragments :=
    chunksExact_flatten (by decide) h.fragments
  have hcontext : (PendingRow.of item).targetAnchor.bind (·.dummyQueries) = item.dummyQueries ∧
      (PendingRow.of item).targetAnchor.map (·.anchor) = item.targetAnchor := by
    simp only [PendingRow.of, SqliteStore.pendingRow]
    cases hanchor : item.targetAnchor with
    | some anchor => exact ⟨rfl, rfl⟩
    | none =>
      -- A cover obligation always has a target.
      cases hdummy : item.dummyQueries with
      | none => exact ⟨rfl, rfl⟩
      | some dummy => simp [ShardCommit.coverValid, hdummy, hanchor] at hcover
  rw [PendingRow.read, if_neg (by simpa using hwidth), hcarried, ok_bind, hchunks, hcontext.1, hcontext.2]
  rfl

def RunRow.of (run : CachedRun) : RunRow := ⟨run.shardId, rawsOf run.events, run.older⟩

/-- A run is read back unless its shard id is taken for a negative number. -/
theorem RunRow.read_of_iff {run run' : CachedRun} (hraw : encodeEvents run.events = .ok raw) :
    (RunRow.of run).read run.key = .ok run' ↔ 0 ≤ asI64 run.shardId ∧ run = run' := by
  have hevents : decodeEvents (RunRow.of run).events none = .ok run.events := by
    have hbytes : (RunRow.of run).events = raw := encodeEvents_rawsOf hraw
    rw [hbytes]
    exact decodeEvents_of_encodeEvents hraw (by simp)
  have hread : (RunRow.of run).read run.key =
      if asI64 run.shardId < 0 then .error (.corrupt "a cached run's shard id is negative") else .ok run := by
    rw [RunRow.read, hevents]
    rfl
  rw [hread, ite_error_eq_ok, not_lt, Except.ok.injEq]

theorem zip_map_self {α β : Type} (xs : List α) (f : α → β) : xs.zip (xs.map f) = xs.map fun x => (x, f x) := by
  have hzip : (xs.map id).zip (xs.map f) = xs.map fun x => (id x, f x) := zip_map'
  rwa [map_id] at hzip

theorem ShardCommit.encodeEvents_eq_ok {commit : ShardCommit} {encoded : List Bytes × List Bytes × List Bytes}
    (h : commit.encodeEvents = .ok encoded) :
    (encoded.1 = commit.events.map (fun stored => rawOf stored.event) ∧
      ∀ stored ∈ commit.events, ∃ raw, stored.event.toBytes = .ok raw) ∧
    (encoded.2.1 = commit.pendingUpsert.map (fun item => rawsOf item.carried) ∧
      ∀ item ∈ commit.pendingUpsert, (∃ raw, Client.encodeEvents item.carried = .ok raw) ∧ coverValid item = true) ∧
    (encoded.2.2 = commit.cachedRuns.map (fun run => rawsOf run.events) ∧
      ∀ run ∈ commit.cachedRuns, ∃ raw, Client.encodeEvents run.events = .ok raw) := by
  obtain ⟨events, hevents, h⟩ := bind_eq_ok.mp h
  obtain ⟨pending, hpending, h⟩ := bind_eq_ok.mp h
  obtain ⟨runs, hruns, h⟩ := bind_eq_ok.mp h
  cases h
  refine ⟨⟨?_, fun stored hstored => ?_⟩, ⟨?_, fun item hitem => ?_⟩, ?_, fun run hrun => ?_⟩
  · exact mapM_ok_eq_map (fun stored raw hraw => toBytes_rawOf (mapError_eq_ok.mp hraw)) hevents
  · obtain ⟨raw, -, hraw⟩ := mapM_ok_of_mem hevents hstored
    exact ⟨raw, mapError_eq_ok.mp hraw⟩
  · refine mapM_ok_eq_map (fun item raw hraw => ?_) hpending
    rw [encodePending] at hraw
    split_ifs at hraw
    exact encodeEvents_rawsOf hraw
  · obtain ⟨raw, -, hraw⟩ := mapM_ok_of_mem hpending hitem
    rw [encodePending] at hraw
    split_ifs at hraw with hcover
    exact ⟨⟨raw, hraw⟩, hcover⟩
  · exact mapM_ok_eq_map (fun run raw hraw => encodeEvents_rawsOf hraw) hruns
  · obtain ⟨raw, -, hraw⟩ := mapM_ok_of_mem hruns hrun
    exact ⟨raw, hraw⟩

end Zakura.Client
