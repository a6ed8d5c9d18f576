import Zakura.Receiver.Lemmas.Discovery

/-! # A step is the one its request can take

The shards a step visits continue each other from where the request stopped, so the wallet accepts the step. -/

namespace Zakura.Receiver

open List

open Recovery (LookupCursor LookupPage LookupRecord LookupWork StepShard Accepted AcceptedEmpty validStep_iff)
open StepContext (visited)

variable {ctx : StepContext} {first shard : Nat} {page front : LookupPage} {d : Shard}

/-- Where a step starts: at its request's cursor, or at the first required shard. -/
def Starts (ctx : StepContext) (first : Nat) : Prop :=
  match ctx.work.cursor.filter (·.inventory = ctx.client.inventory.inventory) with
  | some c => c.shard = first ∧ c.segment = ctx.segment ∧ c.last = ctx.last ∧ first < ctx.client.inventory.shards.length
  | none => first = firstRequired ctx.client.inventory.shards ctx.work.fromHeight ∧ ctx.segment = 0 ∧ ctx.last = none

/-- A page that visited the shards from the first up to another, all excluded. -/
structure Visiting (ctx : StepContext) (first shard : Nat) (page : LookupPage) : Prop where
  publication : page.publication = ctx.client.inventory.publication
  count : page.inventoryShards = ctx.client.inventory.shards.length
  length : first + page.shards.length = shard
  shards : ∀ (k : Nat) (s : StepShard), page.shards[k]? = some s →
    ∃ d, ctx.client.inventory.shards[first + k]? = some d ∧ s = visited (first + k) d true
  segment : page.segment = none
  records : page.records = []
  checked : page.checkedThrough = page.shards.getLast?.map (·.endHeight)
  next : page.next = none
  begins : page.shards ≠ [] → ctx.segment = 0 ∧ ctx.last = none

/-- A page whose visited shards are the inventory's from a first one, all but the last excluded. -/
structure Visits (ctx : StepContext) (first : Nat) (page : LookupPage) : Prop where
  publication : page.publication = ctx.client.inventory.publication
  count : page.inventoryShards = ctx.client.inventory.shards.length
  shards : ∀ (k : Nat) (s : StepShard), page.shards[k]? = some s →
    ∃ d excluded, ctx.client.inventory.shards[first + k]? = some d ∧ s = visited (first + k) d excluded ∧
      (k + 1 < page.shards.length → excluded = true) ∧ (excluded = true → ctx.segment = 0 ∧ ctx.last = none)

theorem cursor_eq (ctx : StepContext) (shard segment : Nat) (last : Option RawRecord) :
    ctx.cursor shard segment last = if shard < ctx.client.inventory.shards.length then
      some ⟨ctx.client.inventory.inventory, shard, segment, last⟩ else none := by
  rw [StepContext.cursor]
  split_ifs with h
  · rw [getElem?_eq_getElem h, Option.map_some]
  · rw [getElem?_eq_none (Nat.le_of_not_lt h), Option.map_none]

theorem Visiting.visits (h : Visiting ctx first shard front) (hd : ctx.client.inventory.shards[shard]? = some d)
    {excluded : Bool} (hpublication : page.publication = front.publication)
    (hcount : page.inventoryShards = front.inventoryShards)
    (hshards : page.shards = front.shards ++ [visited shard d excluded])
    (hbegins : excluded = true → ctx.segment = 0 ∧ ctx.last = none) : Visits ctx first page := by
  refine ⟨hpublication.trans h.publication, hcount.trans h.count, fun k s hs => ?_⟩
  have hlength := h.length
  rw [hshards] at hs ⊢
  rw [length_append, length_singleton]
  rcases Nat.lt_or_ge k front.shards.length with hlt | hge
  · rw [getElem?_append_left hlt] at hs
    obtain ⟨d, hd, rfl⟩ := h.shards k s hs
    exact ⟨d, true, hd, rfl, fun _ => rfl, fun _ => h.begins fun hnil => by simp [hnil] at hlt⟩
  · rw [getElem?_append_right hge, getElem?_singleton] at hs
    split_ifs at hs with hzero
    obtain rfl := Option.some.inj hs
    have hk : first + k = shard := by omega
    exact ⟨d, excluded, hk ▸ hd, by rw [hk], fun hlt => by omega, hbegins⟩

theorem Visits.ordered (h : Visits ctx first page) (hwf : ctx.client.inventory.WellFormed) : page.Ordered first := by
  refine ⟨fun x hx => ?_, fun s hs => ?_, isChain_iff_getElem.mpr fun k hk => ?_⟩
  · obtain ⟨s, i⟩ := x
    obtain ⟨hle, hs⟩ := mk_mem_zipIdx_iff_le_and_getElem?_sub.mp hx
    obtain ⟨d, _, hd, rfl, _⟩ := h.shards _ s hs
    rw [Nat.add_sub_cancel' hle] at hd ⊢
    have hlt := (List.getElem?_eq_some_iff.mp hd).1
    refine ⟨rfl, h.count ▸ hlt, length_pos_iff.mpr (hwf.segments d (List.mem_of_getElem? hd)), ?_⟩
    rw [h.publication]
    exact (hwf.ends hd).1
  · obtain ⟨k, hk⟩ := mem_iff_getElem?.mp hs
    obtain ⟨d, _, hd, rfl, _⟩ := h.shards k s hk
    exact hwf.ordered d (List.mem_of_getElem? hd)
  · obtain ⟨a, _, ha, heq, hexcluded, _⟩ := h.shards k _ (getElem?_eq_getElem (by omega))
    obtain ⟨b, _, hb, heq', _⟩ := h.shards (k + 1) _ (getElem?_eq_getElem hk)
    rw [heq, heq', hexcluded hk]
    refine ⟨?_, rfl⟩
    obtain ⟨hlt, rfl⟩ := List.getElem?_eq_some_iff.mp ha
    obtain ⟨hlt', rfl⟩ := List.getElem?_eq_some_iff.mp hb
    exact isChain_iff_getElem.mp hwf.contiguous (first + k) hlt'

theorem Visits.cursorOf (h : Visits ctx first page) :
    page.cursorOf ctx.work = ctx.work.cursor.filter (·.inventory = ctx.client.inventory.inventory) := by
  rw [LookupPage.cursorOf, h.publication]
  rfl

theorem Visits.first_eq (h : Visits ctx first page) (hwf : ctx.client.inventory.WellFormed) (hstarts : Starts ctx first)
    (hne : page.shards ≠ []) : page.first ctx.work = some first := by
  unfold Starts at hstarts
  rw [LookupPage.first, h.cursorOf]
  cases hcursor : ctx.work.cursor.filter (·.inventory = ctx.client.inventory.inventory) with
  | some c =>
    rw [hcursor] at hstarts
    exact congrArg some hstarts.1
  | none =>
    rw [hcursor] at hstarts
    cases hshards : page.shards with
    | nil => exact absurd hshards hne
    | cons start rest =>
      obtain ⟨d, _, hd, heq, _⟩ := h.shards 0 start (by rw [hshards]; rfl)
      rw [Nat.add_zero] at hd heq
      obtain ⟨hbefore, hfirst⟩ := firstRequired_spec ctx.client.inventory.shards ctx.work.fromHeight
      rw [← hstarts.1] at hbefore hfirst
      have hend := hfirst d hd
      rw [heq]
      dsimp only [visited]
      rw [if_neg]
      rintro (hlow | ⟨hpos, hhigh⟩)
      · omega
      · obtain ⟨before, hget⟩ : ∃ before, ctx.client.inventory.shards[first - 1]? = some before :=
          ⟨_, getElem?_eq_getElem (by have := (List.getElem?_eq_some_iff.mp hd).1; omega)⟩
        have hlow := hbefore (first - 1) before (by omega) hget
        obtain ⟨hlt, rfl⟩ := List.getElem?_eq_some_iff.mp hd
        obtain ⟨_, rfl⟩ := List.getElem?_eq_some_iff.mp hget
        have hnext := isChain_iff_getElem.mp hwf.contiguous (first - 1) (by omega)
        simp only [Nat.sub_add_cancel hpos] at hnext
        omega

theorem Visits.readingAt_eq (h : Visits ctx first page) (hstarts : Starts ctx first) {index : Nat}
    (hindex : index = first ∨ (ctx.segment = 0 ∧ ctx.last = none)) :
    page.readingAt ctx.work index = (ctx.segment, ctx.last) := by
  unfold Starts at hstarts
  rw [LookupPage.readingAt, LookupPage.resumes, h.cursorOf]
  cases hcursor : ctx.work.cursor.filter (·.inventory = ctx.client.inventory.inventory) with
  | none =>
    rw [hcursor] at hstarts
    obtain ⟨_, hsegment, hlast⟩ := hstarts
    rw [hsegment, hlast]
    rfl
  | some c =>
    rw [hcursor] at hstarts
    obtain ⟨hshard, hsegment, hlast, _⟩ := hstarts
    rw [Option.filter_some]
    split_ifs with hsame
    · rw [Option.map_some, Option.getD_some, hsegment, hlast]
    · rcases hindex with heq | ⟨hzero, hnone⟩
      · exact absurd (hshard.trans heq.symm) (by simpa using hsame)
      · rw [hzero, hnone]
        rfl

theorem Visits.valid (h : Visits ctx first page) (hwf : ctx.client.inventory.WellFormed) (hstarts : Starts ctx first)
    {index : Nat} {excluded : Bool} (hd : ctx.client.inventory.shards[index]? = some d)
    (hlast : page.shards.getLast? = some (visited index d excluded))
    (hexpected : page.expected ctx.work (visited index d excluded) = some (page.checkedThrough, page.next))
    (hends : page.next = none → index + 1 = ctx.client.inventory.shards.length) : page.validStep ctx.work = true := by
  have hne : page.shards ≠ [] := by
    intro hnil
    rw [hnil] at hlast
    cases hlast
  refine validStep_iff.mpr (Or.inr ⟨_, first, hlast, h.first_eq hwf hstarts hne, h.ordered hwf,
    fun s hs hexcluded c hc => ?_,
    hexpected, fun hnone => ?_⟩)
  · obtain ⟨k, hk⟩ := mem_iff_getElem?.mp hs
    obtain ⟨_, _, _, rfl, _, hbegins⟩ := h.shards k s hk
    obtain ⟨hzero, hnone⟩ := hbegins hexcluded
    rw [LookupPage.resumes, h.cursorOf, Option.filter_eq_some_iff] at hc
    unfold Starts at hstarts
    rw [hc.1] at hstarts
    exact ⟨hstarts.2.1.trans hzero, hstarts.2.2.1.trans hnone⟩
  · rw [h.publication]
    exact (hwf.ends hd).2 (hends hnone)

/-! ## Steps that end at an excluded shard -/

theorem completes_eq (h : Visits ctx first page) (shard : Nat) (d : Shard) (excluded : Bool) :
    page.completes (visited shard d excluded) = (some d.endHeight, ctx.cursor (shard + 1) 0 none) := by
  rw [LookupPage.completes, cursor_eq, h.count, LookupPage.continueAt, h.publication]
  rfl

theorem cursor_eq_none {segment : Nat} {last : Option RawRecord} (hd : ctx.client.inventory.shards[shard]? = some d)
    (hnone : ctx.cursor (shard + 1) segment last = none) : shard + 1 = ctx.client.inventory.shards.length := by
  have hlt := (List.getElem?_eq_some_iff.mp hd).1
  rw [cursor_eq] at hnone
  split_ifs at hnone
  omega

theorem Visits.valid_excluded (h : Visits ctx first page) (hwf : ctx.client.inventory.WellFormed)
    (hstarts : Starts ctx first)
    (hd : ctx.client.inventory.shards[shard]? = some d) (hlast : page.shards.getLast? = some (visited shard d true))
    (hsegment : page.segment = none) (hrecords : page.records = []) (hchecked : page.checkedThrough = some d.endHeight)
    (hnext : page.next = ctx.cursor (shard + 1) 0 none) : page.validStep ctx.work = true := by
  refine h.valid hwf hstarts hd hlast ?_ fun hnone => cursor_eq_none hd (hnext ▸ hnone)
  refine (if_pos (rfl : (visited shard d true).excluded = true)).trans ?_
  rw [if_neg (by simp [hsegment, hrecords]), completes_eq h, hchecked, hnext]

/-! ## Steps that read a segment -/

theorem Visiting.excludedEnd (h : Visiting ctx first shard front)
    (hshards : page.shards = front.shards ++ [visited shard d false]) : page.excludedEnd = front.checkedThrough := by
  have hall : ∀ s ∈ front.shards, s.excluded = true := by
    intro s hs
    obtain ⟨k, hk⟩ := mem_iff_getElem?.mp hs
    obtain ⟨_, _, rfl⟩ := h.shards k s hk
    rfl
  rw [LookupPage.excludedEnd, hshards, reverse_append, reverse_singleton, singleton_append,
    find?_cons_of_neg Bool.false_ne_true, h.checked, ← head?_reverse]
  cases hreverse : front.shards.reverse with
  | nil => rfl
  | cons s rest =>
    have hs : s ∈ front.shards := mem_reverse.mp (hreverse ▸ mem_cons_self)
    rw [find?_cons_of_pos (hall s hs), head?_cons]

theorem lastRecord_eq (records : List LookupRecord) (limit : Nat) {k : Nat} (hk : k ≤ records.length) :
    (((records.drop k).take limit).getLast?.map (·.record)).or (prevAt records k) =
      prevAt records (min (k + limit) records.length) := by
  by_cases hnone : min (k + limit) records.length = k
  · have hempty : (records.drop k).take limit = [] := by
      rw [take_eq_nil_iff, drop_eq_nil_iff]
      omega
    rw [hempty, hnone]
    rfl
  · obtain ⟨m, hm⟩ : ∃ m, min (k + limit) records.length = m + 1 := ⟨_, (Nat.sub_add_cancel (by omega)).symm⟩
    obtain ⟨x, hx⟩ : ∃ x, records[m]? = some x := ⟨_, getElem?_eq_getElem (by omega)⟩
    have hlast : ((records.drop k).take limit).getLast? = some x := by
      have hindex : k + (min limit (records.length - k) - 1) = m := by omega
      rw [getLast?_eq_getElem?, length_take, length_drop, getElem?_take_of_lt (by omega),
        getElem?_drop, hindex, hx]
    rw [hlast, hm, prevAt_succ hx]
    rfl

section

variable {read : Publication} {records : List LookupRecord} {k : Nat} (h : Visiting ctx first shard front)
  (hd : ctx.client.inventory.shards[shard]? = some d)

include h hd

theorem Visiting.visits_readPage : Visits ctx first (readPage ctx shard d read records k front) :=
  h.visits hd rfl rfl rfl fun hexcluded => absurd hexcluded Bool.false_ne_true

theorem Visiting.expected_readPage (hstarts : Starts ctx first) (hsegment : ctx.segment < d.segments.length)
    (hk : k ≤ records.length) (hlast : ctx.last = prevAt records k) :
    (readPage ctx shard d read records k front).expected ctx.work (visited shard d false) =
      match prevAt records (min (k + ctx.limit) records.length) with
      | some r =>
        if r.page + 1 ≠ r.total then some (front.checkedThrough,
          some ((readPage ctx shard d read records k front).continueAt shard ctx.segment (some r)))
        else some ((readPage ctx shard d read records k front).finishes (visited shard d false) ctx.segment)
      | none => some ((readPage ctx shard d read records k front).finishes (visited shard d false) ctx.segment) := by
  obtain ⟨page, hpage⟩ : ∃ page, readPage ctx shard d read records k front = page := ⟨_, rfl⟩
  have hvisits : Visits ctx first page := hpage ▸ h.visits_readPage hd
  have hindex : shard = first ∨ (ctx.segment = 0 ∧ ctx.last = none) := by
    by_cases hnil : front.shards = []
    · have hlength := h.length
      rw [hnil, length_nil, Nat.add_zero] at hlength
      exact Or.inl hlength.symm
    · exact Or.inr (h.begins hnil)
  have hreading : page.readingAt ctx.work (visited shard d false).index = (ctx.segment, ctx.last) :=
    hvisits.readingAt_eq hstarts hindex
  have hshards : page.shards = front.shards ++ [visited shard d false] := by rw [← hpage]; rfl
  have hrecords : page.records = (records.drop k).take ctx.limit := by
    rw [← hpage, readPage, h.records, nil_append]
  have hafter : (page.records.getLast?.map (·.record)).or ctx.last =
      prevAt records (min (k + ctx.limit) records.length) := by
    rw [hrecords, hlast, lastRecord_eq records ctx.limit hk]
  have hread : ¬ ((page.segment.all fun s => (s.shard, s.segment) ≠ ((visited shard d false).index, ctx.segment)) = true ∨
      (visited shard d false).segments ≤ ctx.segment) := by
    rw [not_or, ← hpage]
    exact ⟨by simp [readPage, visited], Nat.not_le.mpr hsegment⟩
  rw [hpage, LookupPage.expected]
  refine (if_neg (by simp [visited])).trans ?_
  rw [hreading]
  dsimp only
  rw [if_neg hread, hafter, h.excludedEnd hshards]
  rfl

theorem Visiting.finishes_readPage (hend : ¬ min (k + ctx.limit) records.length < records.length) :
    (readPage ctx shard d read records k front).finishes (visited shard d false) ctx.segment =
      ((readPage ctx shard d read records k front).checkedThrough, (readPage ctx shard d read records k front).next) := by
  have hvisits : Visits ctx first (readPage ctx shard d read records k front) := h.visits_readPage hd
  have hshards : (readPage ctx shard d read records k front).shards = front.shards ++ [visited shard d false] := rfl
  rw [LookupPage.finishes, completes_eq hvisits, h.excludedEnd hshards, LookupPage.continueAt, hvisits.publication]
  simp only [readPage, hend, false_or, if_false]
  change (if ctx.segment + 1 < d.segments.length then _ else _) = _
  have hlt := (List.getElem?_eq_some_iff.mp hd).1
  by_cases hnext : ctx.segment + 1 < d.segments.length
  · rw [if_pos hnext, if_pos hnext, if_pos hnext, cursor_eq, if_pos hlt]
    rfl
  · rw [if_neg hnext, if_neg hnext, if_neg hnext]

theorem Visiting.valid_read (hwf : ctx.client.inventory.WellFormed) (hstarts : Starts ctx first)
    (hsegment : ctx.segment < d.segments.length) (hlimit : 0 < ctx.limit) (hk : k ≤ records.length)
    (hlast : ctx.last = prevAt records k)
    (hpages : ∀ (k : Nat) (x : LookupRecord), records[k]? = some x → x.record.page = k ∧ x.record.total = records.length) :
    (readPage ctx shard d read records k front).validStep ctx.work = true := by
  have hlt := (List.getElem?_eq_some_iff.mp hd).1
  have hvisits : Visits ctx first (readPage ctx shard d read records k front) := h.visits_readPage hd
  refine hvisits.valid hwf hstarts hd (getLast?_concat ..) ?_ fun hnone => ?_
  · rw [h.expected_readPage hd hstarts hsegment hk hlast]
    cases hm : min (k + ctx.limit) records.length with
    | zero =>
      exact congrArg some (h.finishes_readPage hd (by omega))
    | succ m =>
      obtain ⟨x, hx⟩ : ∃ x, records[m]? = some x := ⟨_, getElem?_eq_getElem (by omega)⟩
      obtain ⟨hpage, htotal⟩ := hpages m x hx
      rw [prevAt_succ hx]
      dsimp only
      rw [hpage, htotal]
      by_cases hmore : m + 1 < records.length
      · rw [if_pos (Nat.ne_of_lt hmore)]
        simp only [readPage, hm, hmore, true_or, if_true, prevAt_succ hx, cursor_eq, hlt,
          LookupPage.continueAt, h.publication]
        rfl
      · rw [if_neg (by omega)]
        exact congrArg some (h.finishes_readPage hd (by omega))
  · change (if _ then _ else _) = none at hnone
    rw [cursor_eq, cursor_eq, if_pos hlt, if_pos hlt] at hnone
    split_ifs at hnone
    exact cursor_eq_none hd hnone

end

end Zakura.Receiver
