import Zakura.Lib.Except
import Zakura.Receiver.Discovery
import Zakura.Recovery.Lemmas.Chain

/-! # What a network step reads

A segment that answers a receiver with its records is read from any of them on, and the step it makes is the one the
wallet expects. -/

namespace Zakura.Receiver

open List Zakura.Except
open Recovery (LookupCursor LookupPage LookupRecord LookupWork StepShard Listing ListedShard)

variable {sha256 : Bytes → FixedBytes 32} {segment : Segment} {startHeight : Nat} {receiver : ReceiverBytes}
  {records : List LookupRecord} {shard : Shard} {floor : Nat}

/-- A segment answers a receiver with its records, in page order. -/
structure Answers (sha256 : Bytes → FixedBytes 32) (segment : Segment) (startHeight : Nat) (receiver : ReceiverBytes)
    (records : List LookupRecord) : Prop where
  miss : records = [] → readEntry sha256 segment receiver = .ok none
  hit : records ≠ [] → ∃ e, readEntry sha256 segment receiver = .ok (some e) ∧ e.count = records.length ∧
    (∀ (k : Nat) (x : LookupRecord), records[k]? = some x →
      readSlot sha256 segment e (e.first + k) = .ok (x.record, x.payload)) ∧
    ∀ x, records.getLast? = some x → startHeight + e.last = x.record.payment.height.toNat
  pages : ∀ (k : Nat) (x : LookupRecord), records[k]? = some x →
    x.record.receiver = receiver ∧ x.record.page = k ∧ x.record.total = records.length
  continues : records.IsChain fun a b => a.record.Continues b.record

/-- The records of a segment that a request needs: all, if the last is at or past the floor. -/
def due (floor : Nat) (records : List LookupRecord) : List LookupRecord :=
  if records.getLast?.any fun x => floor ≤ x.record.payment.height.toNat then records else []

theorem Answers.due_pages (h : Answers sha256 segment startHeight receiver records) (floor k : Nat) (x : LookupRecord)
    (hx : (due floor records)[k]? = some x) :
    x.record.page = k ∧ x.record.total = (due floor records).length := by
  rw [due] at hx ⊢
  split_ifs at hx ⊢
  · exact (h.pages k x hx).2
  · cases hx

def prevAt (records : List LookupRecord) (k : Nat) : Option RawRecord :=
  if k = 0 then none else records[k - 1]?.map (·.record)

variable {k : Nat}

theorem prevAt_succ {x : LookupRecord} (hx : records[k]? = some x) : prevAt records (k + 1) = some x.record := by
  rw [prevAt, if_neg (Nat.succ_ne_zero k), Nat.add_sub_cancel, hx, Option.map_some]

theorem readPages_eq (h : Answers sha256 segment startHeight receiver records) {e : Entry}
    (hslot : ∀ (k : Nat) (x : LookupRecord), records[k]? = some x →
      readSlot sha256 segment e (e.first + k) = .ok (x.record, x.payload))
    (n : Nat) (hk : k + n ≤ records.length) (read : List LookupRecord) :
    readPages sha256 segment e receiver (List.range' k n) (prevAt records k) read =
      .ok (prevAt records (k + n), read ++ (records.drop k).take n) := by
  induction n generalizing k read with
  | zero => rw [range'_zero, readPages, take_zero, append_nil, Nat.add_zero]
  | succ n ih =>
    have hlt : k < records.length := by omega
    obtain ⟨x, hx⟩ : ∃ x, records[k]? = some x := ⟨_, getElem?_eq_getElem hlt⟩
    have hcheck : checkPrevious (prevAt records k) x.record = .ok () := by
      cases k with
      | zero => rfl
      | succ k =>
        have hbefore : records[k]? = some records[k] := getElem?_eq_getElem (by omega)
        have hcontinues := isChain_iff_getElem.mp h.continues k hlt
        obtain ⟨_, rfl⟩ := List.getElem?_eq_some_iff.mp hx
        rw [prevAt_succ hbefore, checkPrevious, checkNext, if_pos hcontinues]
        rfl
    rw [range'_succ, readPages, hslot k x hx]
    change (if x.record.receiver ≠ receiver then _ else _) = _
    rw [if_neg (not_not_intro (h.pages k x hx).1)]
    rw [hcheck, ok_bind, ← prevAt_succ hx, ih (by omega)]
    obtain ⟨_, rfl⟩ := List.getElem?_eq_some_iff.mp hx
    rw [drop_eq_getElem_cons hlt, take_succ_cons, append_assoc, Nat.add_right_comm, Nat.add_assoc]
    rfl

theorem usableEntry_eq (h : Answers sha256 segment shard.startHeight receiver records)
    (hk : k = 0 ∨ k < (due floor records).length) :
    (due floor records = [] ∧ ∃ entry, readEntry sha256 segment receiver = .ok entry ∧
      usableEntry shard floor (prevAt (due floor records) k) entry = .ok none) ∨
    (due floor records = records ∧ records ≠ [] ∧ ∃ e, readEntry sha256 segment receiver = .ok (some e) ∧
      e.count = records.length ∧
      (∀ (k : Nat) (x : LookupRecord), records[k]? = some x →
        readSlot sha256 segment e (e.first + k) = .ok (x.record, x.payload)) ∧
      usableEntry shard floor (prevAt (due floor records) k) (some e) = .ok (some e)) := by
  cases hlast : records.getLast? with
  | none =>
    have hnil := getLast?_eq_none_iff.mp hlast
    have hdue : due floor records = [] := by rw [due, hlast]; rfl
    rw [hdue] at hk
    obtain rfl : k = 0 := hk.resolve_right (Nat.not_lt_zero k)
    exact Or.inl ⟨hdue, none, h.miss hnil, rfl⟩
  | some x =>
    have hne : records ≠ [] := by
      rintro rfl
      cases hlast
    obtain ⟨e, hentry, hcount, hslot, hheight⟩ := h.hit hne
    have hlastHeight := hheight x hlast
    by_cases hfloor : floor ≤ x.record.payment.height.toNat
    · have hdue : due floor records = records := by
        rw [due, hlast, Option.any_some, if_pos (decide_eq_true hfloor)]
      refine Or.inr ⟨hdue, hne, e, hentry, hcount, hslot, ?_⟩
      rw [hdue] at hk ⊢
      cases k with
      | zero =>
        change Except.ok ((some e).filter _) = _
        rw [Option.filter_some, if_pos (decide_eq_true (by omega))]
      | succ k =>
        obtain ⟨y, hy⟩ : ∃ y, records[k]? = some y := ⟨_, getElem?_eq_getElem (by omega)⟩
        obtain ⟨_, hpage, htotal⟩ := h.pages k y hy
        rw [prevAt_succ hy, usableEntry, Option.filter_some, if_pos (decide_eq_true (by omega))]
    · have hdue : due floor records = [] := by
        rw [due, hlast, Option.any_some, if_neg (by simpa using hfloor)]
      rw [hdue] at hk ⊢
      obtain rfl : k = 0 := hk.resolve_right (Nat.not_lt_zero k)
      refine Or.inl ⟨rfl, some e, hentry, ?_⟩
      change Except.ok ((some e).filter _) = _
      rw [Option.filter_some, if_neg (by rw [decide_eq_true_eq]; omega)]

/-! ## The segment a step reads -/

/-- The page of a step that reads from a position in a segment's due records. -/
def readPage (ctx : StepContext) (shard : Nat) (descriptor : Shard) (read : Publication) (records : List LookupRecord)
    (k : Nat) (page : LookupPage) : LookupPage :=
  let tree := read.tables.companion.manifest.tree
  let k' := min (k + ctx.limit) records.length
  { page with
    shards := page.shards ++ [StepContext.visited shard descriptor false]
    segment := some ⟨shard, ctx.segment, read.directoryId, read.companionId, tree.height.toNat, tree.hash, tree.size.toNat⟩
    records := page.records ++ (records.drop k).take ctx.limit
    checkedThrough := if k' < records.length ∨ ctx.segment + 1 < descriptor.segments.length then page.checkedThrough
      else some descriptor.endHeight
    next := if k' < records.length then ctx.cursor shard ctx.segment (prevAt records k')
      else if ctx.segment + 1 < descriptor.segments.length then ctx.cursor shard (ctx.segment + 1) none
      else ctx.cursor (shard + 1) 0 none }

variable {ctx : StepContext} {index : Nat} {read : Publication} {page : LookupPage}

theorem segmentPage_eq {entry : Option Entry} {previous : Option RawRecord}
    (hfinished : (entry.all fun e => previous.any fun r => r.page + 1 = e.count) =
      !decide (min (k + ctx.limit) records.length < records.length))
    (hprevious : min (k + ctx.limit) records.length < records.length →
      previous = prevAt records (min (k + ctx.limit) records.length))
    :
    ctx.segmentPage index shard read page entry previous ((records.drop k).take ctx.limit) =
      readPage ctx index shard read records k page := by
  rw [StepContext.segmentPage, readPage, hfinished, Bool.not_not]
  by_cases hmore : min (k + ctx.limit) records.length < records.length
  · simp only [hmore, decide_true, if_true, true_or, hprevious hmore]
  · by_cases hnext : ctx.segment + 1 < shard.segments.length
    · simp [hmore, hnext]
    · simp [hmore, hnext]

theorem readSegment_eq (h : Answers sha256 read.tables shard.startHeight ctx.receiver records)
    (hk : k = 0 ∨ k < (due ctx.floor records).length) (hlast : ctx.last = prevAt (due ctx.floor records) k)
    (hlimit : 0 < ctx.limit) :
    ctx.readSegment sha256 index shard read page =
      checkedStep (readPage ctx index shard read (due ctx.floor records) k page) ctx.work := by
  rcases usableEntry_eq h hk with ⟨hdue, entry, hentry, husable⟩ | ⟨hdue, hne, e, hentry, hcount, hslot, husable⟩
  · rw [hdue] at husable hlast ⊢
    have hsame : ctx.segmentPage index shard read page none (prevAt [] k)
        ((([] : List LookupRecord).drop k).take ctx.limit) =
        readPage ctx index shard read [] k page := segmentPage_eq (by simp) (by simp)
    rw [drop_nil, take_nil] at hsame
    rw [StepContext.readSegment, hentry]
    change (usableEntry shard ctx.floor ctx.last entry >>= _) = _
    rw [hlast, husable, ok_bind, ← hsame, StepContext.readRecords, hlast]
    rfl
  · rw [hdue] at hk husable hlast ⊢
    have hpos := length_pos_iff.mpr hne
    have hlt : k < records.length := by omega
    have hstart : (ctx.last.map (·.page + 1)).getD 0 = k := by
      rw [hlast]
      cases k with
      | zero => rfl
      | succ k =>
        obtain ⟨y, hy⟩ : ∃ y, records[k]? = some y := ⟨_, getElem?_eq_getElem (by omega)⟩
        rw [prevAt_succ hy, Option.map_some, Option.getD_some, (h.pages k y hy).2.1]
    have hread : ctx.readRecords sha256 read (some e) =
        .ok (prevAt records (min (k + ctx.limit) records.length), (records.drop k).take ctx.limit) := by
      have hend : k + (min (k + ctx.limit) records.length - k) = min (k + ctx.limit) records.length := by omega
      have htake : (records.drop k).take (min (k + ctx.limit) records.length - k) = (records.drop k).take ctx.limit := by
        rw [take_eq_take_iff, length_drop]
        omega
      rw [StepContext.readRecords, hstart, hcount, hlast, readPages_eq h hslot _ (by omega), nil_append, hend, htake]
    have hfinished : ((some e).all fun e => (prevAt records (min (k + ctx.limit) records.length)).any
        fun r => r.page + 1 = e.count) = !decide (min (k + ctx.limit) records.length < records.length) := by
      obtain ⟨m, hm⟩ : ∃ m, min (k + ctx.limit) records.length = m + 1 := ⟨_, (Nat.sub_add_cancel (by omega)).symm⟩
      obtain ⟨y, hy⟩ : ∃ y, records[m]? = some y := ⟨_, getElem?_eq_getElem (by omega)⟩
      rw [hm, prevAt_succ hy, Option.all_some, Option.any_some, (h.pages m y hy).2.1, hcount, ← decide_not,
        decide_eq_decide]
      omega
    rw [StepContext.readSegment, hentry]
    change (usableEntry shard ctx.floor ctx.last (some e) >>= _) = _
    rw [hlast, husable, ok_bind, hread, ok_bind, ← segmentPage_eq hfinished fun _ => rfl]

/-! ## Inventories -/

/-- The checks on a captured inventory that steps rest on. -/
structure Inventory.WellFormed (inventory : Inventory) : Prop where
  nonempty : inventory.shards ≠ []
  ordered : ∀ d ∈ inventory.shards, d.startHeight ≤ d.endHeight
  segments : ∀ d ∈ inventory.shards, d.segments ≠ []
  contiguous : inventory.shards.IsChain fun a b => a.endHeight + 1 = b.startHeight
  ending : ∀ d, inventory.shards.getLast? = some d → d.endHeight = inventory.endHeight

def Inventory.listing (inventory : Inventory) (h : inventory.WellFormed) : Listing where
  id := inventory.inventory
  shards := inventory.shards.map fun d => ⟨d.startHeight, d.endHeight, d.segments.length⟩
  nonempty := by
    rw [ne_eq, map_eq_nil_iff]
    exact h.nonempty
  ordered := by
    intro s hs
    obtain ⟨d, hd, rfl⟩ := mem_map.mp hs
    exact h.ordered d hd
  contiguous := (isChain_map _).mpr h.contiguous

variable {inventory : Inventory} {i : Nat}

theorem Inventory.WellFormed.end_lt_end (h : inventory.WellFormed) {j : Nat} {a b : Shard} (hij : i < j)
    (ha : inventory.shards[i]? = some a) (hb : inventory.shards[j]? = some b) : a.endHeight < b.endHeight := by
  have hlisted : ∀ {i : Nat} {d : Shard}, inventory.shards[i]? = some d →
      (inventory.listing h).shards[i]? = some ⟨d.startHeight, d.endHeight, d.segments.length⟩ := by
    intro i d hd
    rw [Inventory.listing, getElem?_map, hd, Option.map_some]
  exact (inventory.listing h).end_lt_end hij (hlisted ha) (hlisted hb)

theorem Inventory.WellFormed.ends (h : inventory.WellFormed) {d : Shard} (hd : inventory.shards[i]? = some d) :
    d.endHeight ≤ inventory.endHeight ∧ (i + 1 = inventory.shards.length → d.endHeight = inventory.endHeight) := by
  have hlt := (List.getElem?_eq_some_iff.mp hd).1
  have hlast : i + 1 = inventory.shards.length → d.endHeight = inventory.endHeight := by
    intro hi
    refine h.ending d ?_
    rw [getLast?_eq_getElem?, ← hi, Nat.add_sub_cancel, hd]
  refine ⟨?_, hlast⟩
  by_cases hi : i + 1 = inventory.shards.length
  · exact Nat.le_of_eq (hlast hi)
  · obtain ⟨last, hget⟩ : ∃ last, inventory.shards[inventory.shards.length - 1]? = some last :=
      ⟨_, getElem?_eq_getElem (by omega)⟩
    rw [← h.ending last (by rw [getLast?_eq_getElem?, hget])]
    exact Nat.le_of_lt (h.end_lt_end (by omega) hd hget)

theorem firstRequired_spec (shards : List Shard) (height : Nat) :
    (∀ (i : Nat) (d : Shard), i < firstRequired shards height → shards[i]? = some d → d.endHeight < height) ∧
      ∀ d : Shard, shards[firstRequired shards height]? = some d → height ≤ d.endHeight := by
  induction shards with
  | nil => simp
  | cons a shards ih =>
    obtain ⟨hbefore, hfirst⟩ := ih
    by_cases ha : a.endHeight < height
    · have hlength : firstRequired (a :: shards) height = firstRequired shards height + 1 := by
        rw [firstRequired, takeWhile_cons, if_pos (decide_eq_true ha), length_cons, firstRequired]
      rw [hlength]
      refine ⟨fun i d hi hd => ?_, fun d hd => hfirst d (by rwa [getElem?_cons_succ] at hd)⟩
      cases i with
      | zero =>
        obtain rfl := Option.some.inj hd
        exact ha
      | succ i => exact hbefore i d (by omega) (by rwa [getElem?_cons_succ] at hd)
    · have hlength : firstRequired (a :: shards) height = 0 := by
        rw [firstRequired, takeWhile_cons, if_neg (by rw [decide_eq_true_eq]; exact ha), length_nil]
      rw [hlength]
      refine ⟨fun i d hi => absurd hi (Nat.not_lt_zero i), fun d hd => ?_⟩
      obtain rfl := Option.some.inj hd
      exact Nat.le_of_not_lt ha

end Zakura.Receiver
