import Zakura.Receiver.Lemmas.Visits

/-! # Steps that read a whole history

Each step reads the next due records and leaves the rest for the step that resumes from its cursor. -/

namespace Zakura.Receiver

open List

open Recovery (LookupCursor LookupPage LookupRecord LookupWork)
open StepContext (visited)

/-- An honest inventory's answers to one receiver, by shard and segment. -/
structure Serves (sha256 : Bytes → FixedBytes 32) (client : Client) (receiver : ReceiverBytes)
    (records : Nat → Nat → List LookupRecord) : Prop where
  wellFormed : client.inventory.WellFormed
  answers : ∀ (i j : Nat) (d : Shard) (read : Publication), client.inventory.shards[i]? = some d →
    d.segments[j]? = some read → Answers sha256 read.tables d.startHeight receiver (records i j)
  filters : ∀ i j, client.screen i receiver = some false → records i j = []

/-! ## What is left to read -/

section Left

variable (inventory : Inventory) (floor : Nat) (records : Nat → Nat → List LookupRecord)

def segmentsAt (i : Nat) : Nat := (inventory.shards[i]?.map (·.segments.length)).getD 0

def segmentsFrom (i j : Nat) : List LookupRecord :=
  (List.range' j (segmentsAt inventory i - j)).flatMap fun j => due floor (records i j)

def shardsFrom (i : Nat) : List LookupRecord :=
  (List.range' i (inventory.shards.length - i)).flatMap fun i => segmentsFrom inventory floor records i 0

def countFrom (i : Nat) : Nat := ((List.range' i (inventory.shards.length - i)).map (segmentsAt inventory)).sum

def leftAt (i j k : Nat) : List LookupRecord :=
  (segmentsFrom inventory floor records i j).drop k ++ shardsFrom inventory floor records (i + 1)

def weightAt (i j k : Nat) : Nat :=
  (leftAt inventory floor records i j k).length + (segmentsAt inventory i - j) + countFrom inventory (i + 1)

variable {inventory floor records} {i j : Nat}

theorem segmentsAt_eq {d : Shard} (hd : inventory.shards[i]? = some d) : segmentsAt inventory i = d.segments.length := by
  rw [segmentsAt, hd, Option.map_some, Option.getD_some]

theorem segmentsFrom_eq (hj : j < segmentsAt inventory i) :
    segmentsFrom inventory floor records i j =
      due floor (records i j) ++ segmentsFrom inventory floor records i (j + 1) := by
  obtain ⟨n, hn⟩ : ∃ n, segmentsAt inventory i - j = n + 1 := ⟨_, (Nat.sub_add_cancel (by omega)).symm⟩
  have hn' : segmentsAt inventory i - (j + 1) = n := by omega
  rw [segmentsFrom, hn, range'_succ, flatMap_cons, segmentsFrom, hn']

theorem segmentsFrom_of_le (hj : segmentsAt inventory i ≤ j) : segmentsFrom inventory floor records i j = [] := by
  rw [segmentsFrom, Nat.sub_eq_zero_of_le hj, range'_zero, flatMap_nil]

theorem shardsFrom_of_le (hi : inventory.shards.length ≤ i) : shardsFrom inventory floor records i = [] := by
  rw [shardsFrom, Nat.sub_eq_zero_of_le hi, range'_zero, flatMap_nil]

theorem leftAt_zero (i : Nat) : leftAt inventory floor records i 0 0 = shardsFrom inventory floor records i ∧
    weightAt inventory floor records i 0 0 = (shardsFrom inventory floor records i).length + countFrom inventory i := by
  rcases Nat.lt_or_ge i inventory.shards.length with hlt | hge
  · obtain ⟨n, hn⟩ : ∃ n, inventory.shards.length - i = n + 1 := ⟨_, (Nat.sub_add_cancel (by omega)).symm⟩
    have hn' : inventory.shards.length - (i + 1) = n := by omega
    have hleft : leftAt inventory floor records i 0 0 = shardsFrom inventory floor records i := by
      rw [shardsFrom, hn, range'_succ, flatMap_cons, leftAt, drop_zero, shardsFrom, hn']
    have hcount : countFrom inventory i = segmentsAt inventory i + countFrom inventory (i + 1) := by
      rw [countFrom, hn, range'_succ, map_cons, sum_cons, countFrom, hn']
    exact ⟨hleft, by rw [weightAt, hleft, hcount, Nat.sub_zero, Nat.add_assoc]⟩
  · have hzero : segmentsAt inventory i = 0 := by
      rw [segmentsAt, getElem?_eq_none hge]
      rfl
    have hleft : leftAt inventory floor records i 0 0 = shardsFrom inventory floor records i := by
      rw [leftAt, segmentsFrom_of_le (by omega), drop_nil, nil_append, shardsFrom_of_le (by omega),
        shardsFrom_of_le hge]
    have hcount : ∀ j, inventory.shards.length ≤ j → countFrom inventory j = 0 := by
      intro j hj
      rw [countFrom, Nat.sub_eq_zero_of_le hj]
      rfl
    exact ⟨hleft, by rw [weightAt, hleft, hzero, hcount i hge, hcount (i + 1) (by omega)]⟩

theorem leftAt_of_empty (hempty : ∀ j, records i j = []) :
    leftAt inventory floor records i 0 0 = shardsFrom inventory floor records (i + 1) := by
  have hnone : segmentsFrom inventory floor records i 0 = [] := by
    rw [segmentsFrom, flatMap_eq_nil_iff]
    intro j _
    rw [hempty j]
    rfl
  rw [leftAt, hnone, drop_nil, nil_append]

end Left

/-- Where a step leaves its request: what is left to read, and its measure. -/
def LeavesAt (inventory : Inventory) (floor : Nat) (records : Nat → Nat → List LookupRecord) (next : Option LookupCursor)
    (left : List LookupRecord) (weight : Nat) : Prop :=
  match next with
  | none => left = []
  | some c => c.inventory = inventory.inventory ∧ ∃ k, c.shard < inventory.shards.length ∧
      c.segment < segmentsAt inventory c.shard ∧ (k = 0 ∨ k < (due floor (records c.shard c.segment)).length) ∧
      c.last = prevAt (due floor (records c.shard c.segment)) k ∧
      left = leftAt inventory floor records c.shard c.segment k ∧
      weight = weightAt inventory floor records c.shard c.segment k

/-! ## One step -/

section Step

variable {ctx : StepContext} {records : Nat → Nat → List LookupRecord} {shard k : Nat} {d : Shard} {front : LookupPage}

theorem leavesAt_next (hwf : ctx.client.inventory.WellFormed) (shard : Nat) :
    LeavesAt ctx.client.inventory ctx.floor records (ctx.cursor shard 0 none)
      (shardsFrom ctx.client.inventory ctx.floor records shard)
      ((shardsFrom ctx.client.inventory ctx.floor records shard).length + countFrom ctx.client.inventory shard) := by
  rw [cursor_eq]
  split_ifs with hlt
  · have hget : ctx.client.inventory.shards[shard]? = some ctx.client.inventory.shards[shard] :=
      getElem?_eq_getElem hlt
    have hpos := length_pos_iff.mpr (hwf.segments _ (List.mem_of_getElem? hget))
    refine ⟨rfl, 0, hlt, ?_, Or.inl rfl, rfl, (leftAt_zero shard).1.symm, (leftAt_zero shard).2.symm⟩
    rw [segmentsAt_eq hget]
    exact hpos
  · exact shardsFrom_of_le (Nat.le_of_not_lt hlt)

theorem readPage_leaves (hwf : ctx.client.inventory.WellFormed) (hd : ctx.client.inventory.shards[shard]? = some d)
    (hsegment : ctx.segment < d.segments.length) (hlimit : 0 < ctx.limit)
    (hk : k = 0 ∨ k < (due ctx.floor (records shard ctx.segment)).length) (hfront : front.records = [])
    (read : Publication) :
    ∃ left weight, LeavesAt ctx.client.inventory ctx.floor records
        (readPage ctx shard d read (due ctx.floor (records shard ctx.segment)) k front).next left weight ∧
      leftAt ctx.client.inventory ctx.floor records shard ctx.segment k =
        (readPage ctx shard d read (due ctx.floor (records shard ctx.segment)) k front).records ++ left ∧
      weight < weightAt ctx.client.inventory ctx.floor records shard ctx.segment k := by
  have hlt := (List.getElem?_eq_some_iff.mp hd).1
  have hsegments := segmentsAt_eq hd
  have hfrom : segmentsFrom ctx.client.inventory ctx.floor records shard ctx.segment = _ :=
    segmentsFrom_eq (hsegments ▸ hsegment)
  obtain ⟨dues, hdues⟩ : ∃ dues, due ctx.floor (records shard ctx.segment) = dues := ⟨_, rfl⟩
  rw [hdues] at hk hfrom ⊢
  have hleft : leftAt ctx.client.inventory ctx.floor records shard ctx.segment k = dues.drop k ++
      (segmentsFrom ctx.client.inventory ctx.floor records shard (ctx.segment + 1) ++
        shardsFrom ctx.client.inventory ctx.floor records (shard + 1)) := by
    rw [leftAt, hfrom, drop_append_of_le_length (by omega), append_assoc]
  have hrecords : (readPage ctx shard d read dues k front).records = (dues.drop k).take ctx.limit := by
    rw [readPage, hfront, nil_append]
  rw [hrecords]
  by_cases hmore : min (k + ctx.limit) dues.length < dues.length
  · -- The step stops inside the segment.
    have hnext : (readPage ctx shard d read dues k front).next =
        some ⟨ctx.client.inventory.inventory, shard, ctx.segment, prevAt dues (k + ctx.limit)⟩ := by
      have hmin : min (k + ctx.limit) dues.length = k + ctx.limit := by omega
      rw [readPage]
      dsimp only
      rw [if_pos hmore, cursor_eq, if_pos hlt, hmin]
    have hsplit : leftAt ctx.client.inventory ctx.floor records shard ctx.segment k = (dues.drop k).take ctx.limit ++
        leftAt ctx.client.inventory ctx.floor records shard ctx.segment (k + ctx.limit) := by
      rw [hleft, leftAt, hfrom, drop_append_of_le_length (by omega), ← append_assoc, ← append_assoc,
        ← append_assoc, ← drop_drop, take_append_drop]
    refine ⟨_, weightAt ctx.client.inventory ctx.floor records shard ctx.segment (k + ctx.limit), ?_, hsplit, ?_⟩
    · rw [hnext]
      exact ⟨rfl, k + ctx.limit, hlt, hsegments ▸ hsegment, Or.inr (by rw [hdues]; omega), by rw [hdues], rfl, rfl⟩
    · have hlength := congrArg List.length hsplit
      rw [length_append, length_take, length_drop] at hlength
      rw [weightAt, weightAt]
      omega
  · -- The step reads the segment to its end.
    have htake : (dues.drop k).take ctx.limit = dues.drop k := by
      rw [take_eq_self_iff, length_drop]
      omega
    rw [htake]
    by_cases hlast : ctx.segment + 1 < d.segments.length
    · have hnext : (readPage ctx shard d read dues k front).next =
          some ⟨ctx.client.inventory.inventory, shard, ctx.segment + 1, none⟩ := by
        rw [readPage]
        dsimp only
        rw [if_neg hmore, if_pos hlast, cursor_eq, if_pos hlt]
      have hsplit : leftAt ctx.client.inventory ctx.floor records shard ctx.segment k = dues.drop k ++
          leftAt ctx.client.inventory ctx.floor records shard (ctx.segment + 1) 0 := by
        rw [hleft, leftAt, drop_zero]
      refine ⟨_, weightAt ctx.client.inventory ctx.floor records shard (ctx.segment + 1) 0, ?_, hsplit, ?_⟩
      · rw [hnext]
        exact ⟨rfl, 0, hlt, hsegments ▸ hlast, Or.inl rfl, rfl, rfl, rfl⟩
      · have hlength := congrArg List.length hsplit
        rw [length_append] at hlength
        rw [weightAt, weightAt, hsegments]
        omega
    · have hnext : (readPage ctx shard d read dues k front).next = ctx.cursor (shard + 1) 0 none := by
        rw [readPage]
        dsimp only
        rw [if_neg hmore, if_neg hlast]
      have hsplit : leftAt ctx.client.inventory ctx.floor records shard ctx.segment k = dues.drop k ++
          shardsFrom ctx.client.inventory ctx.floor records (shard + 1) := by
        rw [hleft, segmentsFrom_of_le (by omega), nil_append]
      refine ⟨_, (shardsFrom ctx.client.inventory ctx.floor records (shard + 1)).length +
        countFrom ctx.client.inventory (shard + 1), ?_, hsplit, ?_⟩
      · rw [hnext]
        exact leavesAt_next hwf (shard + 1)
      · have hlength := congrArg List.length hsplit
        rw [length_append] at hlength
        rw [weightAt, hsegments]
        omega

theorem Visiting.exclude {first : Nat} (h : Visiting ctx first shard front)
    (hd : ctx.client.inventory.shards[shard]? = some d) (hzero : ctx.segment = 0 ∧ ctx.last = none) :
    Visiting ctx first (shard + 1)
      { front with shards := front.shards ++ [visited shard d true], checkedThrough := some d.endHeight } := by
  refine ⟨h.publication, h.count, ?_, fun i s hs => ?_, h.segment, h.records, ?_, h.next, fun _ => hzero⟩
  · rw [length_append, length_singleton, ← Nat.add_assoc, h.length]
  · have hlength := h.length
    rcases Nat.lt_or_ge i front.shards.length with hlt | hge
    · rw [getElem?_append_left hlt] at hs
      exact h.shards i s hs
    · rw [getElem?_append_right hge, getElem?_singleton] at hs
      split_ifs at hs
      obtain rfl := Option.some.inj hs
      have hi : first + i = shard := by omega
      exact ⟨d, hi ▸ hd, by rw [hi]⟩
  · rw [getLast?_concat]
    rfl

theorem Visiting.valid_end {first : Nat} (h : Visiting ctx first shard front) (hwf : ctx.client.inventory.WellFormed)
    (hstarts : Starts ctx first) (hend : ctx.client.inventory.shards.length ≤ shard) : front.validStep ctx.work = true := by
  have hpos := length_pos_iff.mpr hwf.nonempty
  have hlength := h.length
  cases hlast : front.shards.getLast? with
  | none =>
    -- Nothing was required: the request starts past the last shard.
    have hnil := getLast?_eq_none_iff.mp hlast
    have hchecked := h.checked
    rw [hlast] at hchecked
    refine Recovery.validStep_iff.mpr (Or.inl ⟨hnil, ?_, h.segment, h.records, hchecked, h.next⟩)
    rw [hnil, length_nil] at hlength
    unfold Starts at hstarts
    cases hcursor : ctx.work.cursor.filter (·.inventory = ctx.client.inventory.inventory) with
    | some c =>
      rw [hcursor] at hstarts
      omega
    | none =>
      rw [hcursor] at hstarts
      obtain ⟨last, hget⟩ : ∃ last, ctx.client.inventory.shards[ctx.client.inventory.shards.length - 1]? = some last :=
        ⟨_, getElem?_eq_getElem (by omega)⟩
      have hbefore := (firstRequired_spec ctx.client.inventory.shards ctx.work.fromHeight).1 _ last
        (by rw [← hstarts.1]; omega) hget
      rw [(hwf.ends hget).2 (by omega)] at hbefore
      rw [h.publication]
      exact hbefore
  | some s =>
    have hget := hlast
    rw [getLast?_eq_getElem?] at hget
    have hlt := (List.getElem?_eq_some_iff.mp hget).1
    obtain ⟨d, hd, rfl⟩ := h.shards _ s hget
    have hvisits : Visits ctx first front := by
      refine ⟨h.publication, h.count, fun i s hs => ?_⟩
      obtain ⟨d, hd, heq⟩ := h.shards i s hs
      exact ⟨d, true, hd, heq, fun _ => rfl, fun _ => h.begins fun hnil => by simp [hnil] at hlt⟩
    have hindex := (List.getElem?_eq_some_iff.mp hd).1
    refine hvisits.valid_excluded hwf hstarts hd hlast h.segment h.records (by rw [h.checked, hlast]; rfl) ?_
    rw [h.next, cursor_eq, if_neg (by omega)]

def StepsFrom (ctx : StepContext) (records : Nat → Nat → List LookupRecord) (shard k : Nat)
    (result : Except DirectoryError LookupPage) : Prop :=
  ∃ page left weight, result = .ok page ∧ LeavesAt ctx.client.inventory ctx.floor records page.next left weight ∧
    leftAt ctx.client.inventory ctx.floor records shard ctx.segment k = page.records ++ left ∧
    (page.next ≠ none → weight < weightAt ctx.client.inventory ctx.floor records shard ctx.segment k)

theorem checkedStep_eq {page : LookupPage} {work : LookupWork} (h : page.validStep work = true) :
    checkedStep page work = .ok page := by
  rw [checkedStep, if_pos h]

theorem visitShards_steps {sha256 : Bytes → FixedBytes 32} (hserves : Serves sha256 ctx.client ctx.receiver records)
    {first : Nat} (hstarts : Starts ctx first) (hlimit : 0 < ctx.limit) {shards : List Shard}
    (hshards : ctx.client.inventory.shards.drop shard = shards) (hvisiting : Visiting ctx first shard front)
    (hsegment : shard < ctx.client.inventory.shards.length → ctx.segment < segmentsAt ctx.client.inventory shard)
    (hk : k = 0 ∨ k < (due ctx.floor (records shard ctx.segment)).length)
    (hlast : ctx.last = prevAt (due ctx.floor (records shard ctx.segment)) k) (filtered : Nat) :
    StepsFrom ctx records shard k (ctx.visitShards sha256 shards shard filtered front) := by
  have hwf := hserves.wellFormed
  induction shards generalizing shard front k filtered with
  | nil =>
    have hend := drop_eq_nil_iff.mp hshards
    refine ⟨front, [], 0, checkedStep_eq (hvisiting.valid_end hwf hstarts hend), ?_, ?_, ?_⟩
    · rw [hvisiting.next]
      rfl
    · have hzero : segmentsAt ctx.client.inventory shard = 0 := by
        rw [segmentsAt, getElem?_eq_none hend]
        rfl
      rw [hvisiting.records, leftAt, segmentsFrom_of_le (by omega), drop_nil, shardsFrom_of_le (by omega)]
    · exact fun hne => absurd hvisiting.next hne
  | cons d shards ih =>
    have hd : ctx.client.inventory.shards[shard]? = some d := by
      have hget := congrArg (·[0]?) hshards
      rwa [getElem?_drop, Nat.add_zero, getElem?_cons_zero] at hget
    have hlt := (List.getElem?_eq_some_iff.mp hd).1
    have hrest : ctx.client.inventory.shards.drop (shard + 1) = shards := by
      rw [← tail_drop, hshards, tail_cons]
    have hsegments := segmentsAt_eq hd
    rw [StepContext.visitShards]
    by_cases hexcludes : ctx.excludes shard d
    · obtain ⟨hzero, hnone, _, _, hscreen⟩ := id hexcludes
      have hempty : ∀ j, records shard j = [] := fun j => hserves.filters shard j hscreen
      obtain rfl : k = 0 := by
        rw [hempty ctx.segment] at hk
        exact hk.resolve_right (Nat.not_lt_zero k)
      have hpos := length_pos_iff.mpr (hwf.segments d (List.mem_of_getElem? hd))
      have hleft : leftAt ctx.client.inventory ctx.floor records shard 0 0 = _ := leftAt_of_empty hempty
      have hnext := hvisiting.exclude hd ⟨hzero, hnone⟩
      rw [if_pos hexcludes]
      dsimp only
      rw [StepsFrom, hzero, weightAt, hleft, hsegments]
      split_ifs with hlimited
      · have hvisits : Visits ctx first
            { front with
              shards := front.shards ++ [visited shard d true]
              checkedThrough := some d.endHeight
              next := ctx.cursor (shard + 1) 0 none } :=
          hvisiting.visits hd rfl rfl rfl fun _ => ⟨hzero, hnone⟩
        have hvalid := hvisits.valid_excluded hwf hstarts hd (getLast?_concat ..) hvisiting.segment hvisiting.records
          rfl rfl
        refine ⟨_, _, _, checkedStep_eq hvalid, leavesAt_next hwf (shard + 1), ?_, fun _ => by omega⟩
        rw [hvisiting.records, nil_append]
      · have hstep := ih hrest hnext (fun hlt' => ?_) (Or.inl rfl) hnone (filtered + 1)
        · rw [StepsFrom, hzero, (leftAt_zero (shard + 1)).1, (leftAt_zero (shard + 1)).2] at hstep
          obtain ⟨page, left, weight, hpage, hleaves, hrecords, hweight⟩ := hstep
          exact ⟨page, left, weight, hpage, hleaves, hrecords, fun hne => by have := hweight hne; omega⟩
        · have hget : ctx.client.inventory.shards[shard + 1]? = some ctx.client.inventory.shards[shard + 1] :=
            getElem?_eq_getElem hlt'
          rw [hzero, segmentsAt_eq hget]
          exact length_pos_iff.mpr (hwf.segments _ (List.mem_of_getElem? hget))
    · rw [if_neg hexcludes]
      have hin : ctx.segment < d.segments.length := hsegments ▸ hsegment hlt
      obtain ⟨read, hread⟩ : ∃ read, d.segments[ctx.segment]? = some read := ⟨_, getElem?_eq_getElem hin⟩
      have hanswers := hserves.answers shard ctx.segment d read hd hread
      obtain ⟨left, weight, hleaves, hrecords, hweight⟩ :=
        readPage_leaves hwf hd hin hlimit hk hvisiting.records read
      rw [hread]
      dsimp only
      rw [readSegment_eq hanswers hk hlast hlimit]
      refine ⟨_, left, weight, checkedStep_eq (hvisiting.valid_read hd hwf hstarts hin hlimit (by omega) hlast
        (hanswers.due_pages ctx.floor)), hleaves, hrecords, fun _ => hweight⟩

end Step

/-! ## Whole runs -/

section Run

variable (sha256 : Bytes → FixedBytes 32) (isReceiver : ReceiverBytes → Bool) (client : Client) (limit : Nat)

/-- A request read to its end: each step resumes from the cursor of the one before, and the last has none. -/
inductive LookupRun : LookupWork → List LookupPage → Prop
  | last {work : LookupWork} {page : LookupPage} :
    lookupWith sha256 isReceiver client work limit = .ok page → page.next = none → LookupRun work [page]
  | more {work : LookupWork} {page : LookupPage} {c : LookupCursor} {pages : List LookupPage} :
    lookupWith sha256 isReceiver client work limit = .ok page → page.next = some c →
      LookupRun { work with cursor := some c } pages → LookupRun work (page :: pages)

structure Answerable (work : LookupWork) : Prop where
  revision : client.inventory.historyRevision = work.token.historyRevision
  through : work.through ≤ client.inventory.endHeight
  receiver : isReceiver work.work.receiver = true

variable {sha256 isReceiver client limit} {records : Nat → Nat → List LookupRecord} {work : LookupWork}

def floorOf (work : LookupWork) : Nat := max work.fromHeight work.birthday

variable (hserves : Serves sha256 client work.work.receiver records) (hanswerable : Answerable isReceiver client work)
  (hlimit : 0 < limit)

include hserves hanswerable hlimit

variable (work) in
theorem lookupWith_steps {shard segment k : Nat} {last : Option RawRecord}
    (hposition : startOf client.inventory work = (shard, segment, last))
    (hshard : ∀ c, work.cursor.filter (·.inventory = client.inventory.inventory) = some c →
      shard < client.inventory.shards.length)
    (hsegment : shard < client.inventory.shards.length → segment < segmentsAt client.inventory shard)
    (hk : k = 0 ∨ k < (due (floorOf work) (records shard segment)).length)
    (hlast : last = prevAt (due (floorOf work) (records shard segment)) k) :
    ∃ page left weight, lookupWith sha256 isReceiver client work limit = .ok page ∧
      LeavesAt client.inventory (floorOf work) records page.next left weight ∧
      leftAt client.inventory (floorOf work) records shard segment k = page.records ++ left ∧
      (page.next ≠ none → weight < weightAt client.inventory (floorOf work) records shard segment k) := by
  obtain ⟨ctx, hctx⟩ : ∃ ctx : StepContext,
      ctx = { client, work, limit := min limit Recovery.recoveryPageLimit, segment, last } := ⟨_, rfl⟩
  have hstarts : Starts ctx shard := by
    rw [hctx]
    unfold Starts
    unfold startOf at hposition
    dsimp only
    cases hcursor : work.cursor.filter (·.inventory = client.inventory.inventory) with
    | some c =>
      rw [hcursor] at hposition
      obtain ⟨hc, hposition⟩ := Prod.mk.inj hposition
      obtain ⟨hsegment, hlast⟩ := Prod.mk.inj hposition
      exact ⟨hc, hsegment, hlast, hshard c hcursor⟩
    | none =>
      rw [hcursor] at hposition
      obtain ⟨hfirst, hposition⟩ := Prod.mk.inj hposition
      obtain ⟨hsegment, hlast⟩ := Prod.mk.inj hposition
      exact ⟨hfirst.symm, hsegment.symm, hlast.symm⟩
  have hpositive : 0 < ctx.limit := by
    rw [hctx]
    exact Nat.lt_min.mpr ⟨hlimit, by decide⟩
  have hlookup : lookupWith sha256 isReceiver client work limit =
      ctx.visitShards sha256 (client.inventory.shards.drop shard) shard 0
        ⟨client.inventory.publication, client.inventory.shards.length, [], none, [], none, none⟩ := by
    rw [lookupWith]
    dsimp only
    rw [if_neg (by rw [not_or]; exact ⟨not_not_intro hanswerable.revision, Nat.not_lt.mpr hanswerable.through⟩),
      if_neg (by rw [hanswerable.receiver]; decide), hposition, hctx]
  have hvisiting : Visiting ctx shard shard
      ⟨client.inventory.publication, client.inventory.shards.length, [], none, [], none, none⟩ := by
    rw [hctx]
    exact ⟨rfl, rfl, rfl, fun k s hs => (by cases hs), rfl, rfl, rfl, rfl, fun hne => absurd rfl hne⟩
  rw [hlookup]
  subst hctx
  exact visitShards_steps hserves hstarts hpositive rfl hvisiting hsegment hk hlast 0

theorem exists_lookupRun_from {c : LookupCursor} {left : List LookupRecord} {weight : Nat}
    (hleaves : LeavesAt client.inventory (floorOf work) records (some c) left weight) :
    ∃ pages, LookupRun sha256 isReceiver client limit { work with cursor := some c } pages ∧
      pages.flatMap (·.records) = left := by
  induction weight using Nat.strong_induction_on generalizing c left with
  | _ weight ih =>
    obtain ⟨hinventory, k, hshard, hsegment, hk, hlast, rfl, rfl⟩ := hleaves
    have hfilter : (some c).filter (·.inventory = client.inventory.inventory) = some c := by
      rw [Option.filter_some, if_pos (decide_eq_true hinventory)]
    obtain ⟨page, left, weight, hpage, hnext, hrecords, hweight⟩ :=
      lookupWith_steps { work with cursor := some c } hserves
        ⟨hanswerable.revision, hanswerable.through, hanswerable.receiver⟩ hlimit (by rw [startOf, hfilter])
        (fun c hc => hshard) (fun _ => hsegment) hk hlast
    cases hcursor : page.next with
    | none =>
      rw [hcursor] at hnext
      refine ⟨[page], .last hpage hcursor, ?_⟩
      rw [flatMap_cons, flatMap_nil]
      exact (hrecords.trans (by rw [hnext])).symm
    | some c' =>
      rw [hcursor] at hnext hweight
      obtain ⟨pages, hrun, hpages⟩ := ih weight (hweight (by simp)) hnext
      refine ⟨page :: pages, .more hpage hcursor hrun, ?_⟩
      rw [flatMap_cons, hpages]
      exact hrecords.symm

theorem exists_lookupRun (hfresh : ∀ c, work.cursor = some c → c.inventory ≠ client.inventory.inventory) :
    ∃ pages, LookupRun sha256 isReceiver client limit work pages ∧ pages.flatMap (·.records) =
      shardsFrom client.inventory (floorOf work) records (firstRequired client.inventory.shards work.fromHeight) := by
  have hfilter : work.cursor.filter (·.inventory = client.inventory.inventory) = none := by
    rw [Option.filter_eq_none_iff]
    intro c hc
    simpa using hfresh c hc
  have hstart : startOf client.inventory work = (firstRequired client.inventory.shards work.fromHeight, 0, none) := by
    rw [startOf, hfilter]
  have hsegment : firstRequired client.inventory.shards work.fromHeight < client.inventory.shards.length →
      0 < segmentsAt client.inventory (firstRequired client.inventory.shards work.fromHeight) := by
    intro hlt
    have hget : client.inventory.shards[firstRequired client.inventory.shards work.fromHeight]? = some _ :=
      getElem?_eq_getElem hlt
    rw [segmentsAt_eq hget]
    exact length_pos_iff.mpr (hserves.wellFormed.segments _ (List.mem_of_getElem? hget))
  obtain ⟨page, left, weight, hpage, hnext, hrecords, _⟩ :=
    lookupWith_steps work hserves hanswerable hlimit hstart (fun c hc => by cases hfilter.symm.trans hc) hsegment
      (Or.inl rfl) rfl
  rw [(leftAt_zero _).1] at hrecords
  cases hcursor : page.next with
  | none =>
    rw [hcursor] at hnext
    refine ⟨[page], .last hpage hcursor, ?_⟩
    rw [flatMap_cons, flatMap_nil]
    exact (hrecords.trans (by rw [hnext])).symm
  | some c =>
    rw [hcursor] at hnext
    obtain ⟨pages, hrun, hpages⟩ := exists_lookupRun_from hserves hanswerable hlimit hnext
    refine ⟨page :: pages, .more hpage hcursor hrun, ?_⟩
    rw [flatMap_cons, hpages]
    exact hrecords.symm

end Run

end Zakura.Receiver
