import Zakura.Client.Lemmas.Retry
import Zakura.Client.Lemmas.SqliteRows

/-! # Pending work in both stores

An update of a row keeps what it names, and under an unknown id there is nothing to update. -/

namespace Zakura.Client

open List Zakura.Transparent OrderedMap Zakura.Except PendingRow

/-! ## What a row reads as -/

/-- What a pending item names: a script in a revision of a shard. -/
def PendingPages.work (item : PendingPages) : Nat × Bytes × Bytes := (item.shardId, item.revisionDigest, item.script)

def PendingRow.work (row : PendingRow) : Nat × Bytes × Bytes := (row.shardId, row.revisionDigest, row.script)

def PendingPages.Storable (item : PendingPages) : Prop :=
  ShardCommit.coverValid item = true ∧ ∃ raw, encodeEvents item.carried = .ok raw

def PendingRow.update (row : PendingRow) (item : PendingPages) : PendingRow :=
  { of item with shardId := row.shardId, revisionDigest := row.revisionDigest, script := row.script }

variable {row : PendingRow} {item : PendingPages}

theorem PendingRow.update_of_work_eq (h : row.work = item.work) : row.update item = of item := by
  simp only [work, PendingPages.work, Prod.mk.injEq] at h
  rw [update, h.1, h.2.1, h.2.2]
  rfl

theorem decodeEventsLoop_length {limit fuel : Nat} {bytes : Bytes} {events decoded : List TransparentEvent}
    (h : decodeEventsLoop (some limit) fuel bytes events = .ok decoded) (hle : events.length ≤ limit) :
    decoded.length ≤ limit := by
  induction fuel generalizing bytes events with
  | zero => cases bytes <;> cases h <;> exact hle
  | succ fuel ih =>
    cases bytes with
    | nil =>
      cases h
      exact hle
    | cons b bytes =>
      rw [decodeEventsLoop] at h
      · obtain ⟨-, h⟩ := ite_error_eq_ok.mp h
        obtain ⟨-, h⟩ := ite_error_eq_ok.mp h
        obtain ⟨event, -, h⟩ := bind_eq_ok.mp h
        obtain ⟨hroom, h⟩ := ite_error_eq_ok.mp h
        refine ih h ?_
        simpa using hroom
      · exact cons_ne_nil b bytes

theorem length_of_mem_chunksExact {width : Nat} {bytes chunk : Bytes} (h : chunk ∈ chunksExact width bytes) :
    chunk.length = width := by
  obtain ⟨i, hi, rfl⟩ := mem_map.mp h
  have hfits : (i + 1) * width ≤ bytes.length :=
    (Nat.mul_le_mul_right width (mem_range.mp hi)).trans (Nat.div_mul_le_self _ _)
  rw [bytesAt, length_take, length_drop]
  have hsucc : (i + 1) * width = i * width + width := Nat.succ_mul i width
  omega

variable {id : Nat}

theorem PendingRow.id_of_read (h : row.read id = .ok item) : item.id = some id := by
  rw [read] at h
  obtain ⟨-, h⟩ := ite_error_eq_ok.mp h
  obtain ⟨carried, -, h⟩ := bind_eq_ok.mp h
  rw [← pure_eq_ok.mp h]

theorem PendingRow.read_update_iff {raw : Bytes} (hraw : encodeEvents item.carried = .ok raw)
    (hcover : ShardCommit.coverValid item = true) (id : Nat) :
    (row.update item).read id = .ok { item with id := some id } ↔ item.Readable ∧ row.work = item.work := by
  constructor
  · intro h
    rw [read] at h
    obtain ⟨-, h⟩ := ite_error_eq_ok.mp h
    obtain ⟨carried, hcarried, h⟩ := bind_eq_ok.mp h
    have hitem := pure_eq_ok.mp h
    obtain ⟨-, hshard, hrevision, hscript, -, hsame, hfragments, -⟩ := PendingPages.mk.inj hitem
    subst hsame
    refine ⟨⟨?_, fun fragment hfragment => ?_⟩, ?_⟩
    · rw [decodeEvents] at hcarried
      split_ifs at hcarried
      exact decodeEventsLoop_length hcarried (Nat.zero_le _)
    · rw [← hfragments] at hfragment
      exact length_of_mem_chunksExact hfragment
    · rw [work, PendingPages.work, ← hshard, ← hrevision, ← hscript]
      rfl
  · rintro ⟨hreadable, hwork⟩
    rw [update_of_work_eq hwork, read_of hraw hcover hreadable]

/-! ## Items written by a commit -/

/-- The item a list leaves under an id, where an item without an id takes the next. -/
def lastWritten (id : Nat) : Nat → List PendingPages → Option PendingPages
  | _, [] => none
  | next, item :: items =>
    (lastWritten id (if item.id.isNone then next + 1 else next) items).or
      (if item.id.getD (next + 1) = id then some item else none)

/-- The item of a list that takes an id as a fresh one. -/
def freshItem (id : Nat) : Nat → List PendingPages → Option PendingPages
  | _, [] => none
  | next, item :: items =>
    if item.id.isNone then if next + 1 = id then some item else freshItem id (next + 1) items
    else freshItem id next items

variable {next : Nat} {items : List PendingPages}

theorem lastWritten_of_freshItem {fresh : PendingPages} (h : freshItem id next items = some fresh) :
    ∃ item, lastWritten id next items = some item := by
  induction items generalizing next with
  | nil => cases h
  | cons item items ih =>
    rw [freshItem] at h
    rw [lastWritten]
    cases hid : item.id with
    | none =>
      simp only [hid, Option.isNone_none, if_true, Option.getD_none] at h ⊢
      split_ifs at h with hnext
      · rw [if_pos hnext]
        cases lastWritten id (next + 1) items <;> simp
      · obtain ⟨last, hlast⟩ := ih h
        exact ⟨last, by rw [hlast]; rfl⟩
    | some given =>
      simp only [hid, Option.isNone_some, Bool.false_eq_true, if_false] at h ⊢
      obtain ⟨last, hlast⟩ := ih h
      exact ⟨last, by rw [hlast]; rfl⟩

theorem mem_of_lastWritten {last : PendingPages} (h : lastWritten id next items = some last) : last ∈ items := by
  induction items generalizing next with
  | nil => cases h
  | cons item items ih =>
    rw [lastWritten, Option.or_eq_some_iff] at h
    rcases h with h | ⟨-, h⟩
    · exact mem_cons_of_mem _ (ih h)
    · split_ifs at h
      cases h
      exact mem_cons_self

theorem lt_of_freshItem {fresh : PendingPages} (h : freshItem id next items = some fresh) : next < id := by
  induction items generalizing next with
  | nil => cases h
  | cons item items ih =>
    rw [freshItem] at h
    split_ifs at h with hnone hid
    · exact hid ▸ Nat.lt_succ_self next
    · exact (Nat.lt_succ_self next).trans (ih h)
    · exact ih h

theorem MemoryStore.getElem?_foldl_lastWritten (items : List PendingPages) (pending : OrderedMap Nat PendingPages)
    (next id : Nat) :
    (items.foldl upsertPending (pending, next)).1[id]? =
      ((lastWritten id next items).map fun item => { item with id := some id }).or pending[id]? := by
  induction items generalizing pending next with
  | nil => rfl
  | cons item items ih =>
    rw [foldl_cons, upsertPending, lastWritten]
    cases hid : item.id with
    | none =>
      simp only [Option.isNone_none, if_true, Option.getD_none]
      rw [ih, getElem?_insert_eq]
      cases lastWritten id (next + 1) items with
      | some last => rfl
      | none =>
        split_ifs with hnext
        · subst hnext
          rfl
        · rfl
    | some given =>
      simp only [Option.isNone_some, Bool.false_eq_true, if_false, Option.getD_some]
      rw [ih, getElem?_insert_eq]
      cases lastWritten id next items with
      | some last => rfl
      | none =>
        split_ifs with hgiven
        · subst hgiven
          have hsame : { item with id := some given } = item := by rw [← hid]
          rw [Option.none_or, Option.map_some, hsame]
          rfl
        · rfl

namespace SqliteStore

def upsertAll (items : List PendingPages) (state : OrderedMap Nat PendingRow × Nat) : OrderedMap Nat PendingRow × Nat :=
  items.foldl (fun state item => upsertPending state item (rawsOf item.carried)) state

/-- A row is there if it was, or if an item took its id as a fresh one; it names what it did at first, and the rest of
it comes from the last item written under its id. -/
theorem getElem?_upsertAll (items : List PendingPages) {rows : OrderedMap Nat PendingRow} {next : Nat}
    (hbound : ∀ id ∈ rows, id ≤ next) (id : Nat) :
    (upsertAll items (rows, next)).1[id]? =
      (rows[id]?.or ((freshItem id next items).map of)).map fun origin =>
        ((lastWritten id next items).map origin.update).getD origin := by
  induction items generalizing rows next with
  | nil => cases hrow : rows[id]? <;> simp [upsertAll, freshItem, lastWritten, hrow]
  | cons item items ih =>
    have hnext : rows[next + 1]? = none := Std.ExtTreeMap.getElem?_eq_none fun hmem => absurd (hbound _ hmem) (by simp)
    rw [upsertAll, foldl_cons, ← upsertAll, freshItem, lastWritten]
    cases hid : item.id with
    | none =>
      have hstep : upsertPending (rows, next) item (rawsOf item.carried) =
          (rows.insert (next + 1) (of item), next + 1) := by
        rw [upsertPending, hid]
        rfl
      rw [hstep, ih, getElem?_insert_eq]
      · simp only [Option.isNone_none, if_true, Option.getD_none]
        split_ifs with heq
        · subst heq
          rw [hnext]
          cases lastWritten (next + 1) (next + 1) items <;> rfl
        · rw [Option.or_none]
      · intro k hk
        rcases Std.ExtTreeMap.mem_insert.mp hk with heq | hk
        · exact (compare_eq_iff_eq.mp heq).ge
        · exact (hbound k hk).trans (Nat.le_succ next)
    | some given =>
      simp only [Option.isNone_some, Bool.false_eq_true, if_false, Option.getD_some]
      cases hold : rows[given]? with
      | none =>
        have hstep : upsertPending (rows, next) item (rawsOf item.carried) = (rows, next) := by
          simp only [upsertPending, hid, hold]
        rw [hstep, ih hbound]
        split_ifs with heq
        · subst heq
          rw [hold]
          -- An item that takes the id later is written later.
          cases hfresh : freshItem given next items with
          | none => rfl
          | some fresh =>
            obtain ⟨last, hlast⟩ := lastWritten_of_freshItem hfresh
            rw [hlast]
            rfl
        · rw [Option.or_none]
      | some old =>
        have hstep : upsertPending (rows, next) item (rawsOf item.carried) =
            (rows.insert given (old.update item), next) := by
          simp only [upsertPending, hid, hold]
          rfl
        rw [hstep, ih, getElem?_insert_eq]
        · split_ifs with heq
          · subst heq
            rw [hold]
            cases lastWritten given next items <;> rfl
          · rw [Option.or_none]
        · intro k hk
          rcases Std.ExtTreeMap.mem_insert.mp hk with heq | hk
          · exact hbound k (compare_eq_iff_eq.mp heq ▸ mem_of_getElem? hold)
          · exact hbound k hk

theorem upsertAll_snd (items : List PendingPages) (rows : OrderedMap Nat PendingRow)
    (pending : OrderedMap Nat PendingPages) (next : Nat) :
    (upsertAll items (rows, next)).2 = (items.foldl MemoryStore.upsertPending (pending, next)).2 := by
  induction items generalizing rows pending next with
  | nil => rfl
  | cons item items ih =>
    rw [upsertAll, foldl_cons, foldl_cons, ← upsertAll, MemoryStore.upsertPending, upsertPending]
    cases item.id with
    | none => exact ih _ _ _
    | some given =>
      dsimp only
      cases rows[given]? <;> exact ih _ _ _

/-! ## The table of pending work -/

/-- The rows are those of the items, and each item stands under its own id, one that was given out. -/
structure PendingSim (rows : OrderedMap Nat PendingRow) (pending : OrderedMap Nat PendingPages) (next : Nat) : Prop where
  same : ∀ id : Nat, rows[id]? = pending[id]?.map of
  id_eq : ∀ (id : Nat) (item : PendingPages), pending[id]? = some item → item.id = some id ∧ id ≤ next
  readable : ∀ (id : Nat) (item : PendingPages), pending[id]? = some item → item.Readable ∧ item.Storable

theorem pendingSim_empty (next : Nat) : PendingSim ∅ ∅ next where
  same := by simp
  id_eq := by simp
  readable := by simp

variable {rows : OrderedMap Nat PendingRow} {pending : OrderedMap Nat PendingPages} {next : Nat} {commit : ShardCommit}

theorem PendingSim.read (h : PendingSim rows pending next) :
    rows.toList.mapM (fun row => row.2.read row.1) = .ok pending.vals := by
  rw [eq_map_of_getElem? h.same, Std.ExtTreeMap.toList_map]
  refine mapM_eq_ok.mpr ?_
  rw [vals, List.forall₂_map_left_iff, List.forall₂_map_right_iff, List.forall₂_same]
  rintro ⟨id, item⟩ hmem
  have hitem := Std.ExtTreeMap.mem_toList_iff_getElem?_eq_some.mp hmem
  obtain ⟨hreadable, hcover, raw, hraw⟩ := h.readable id item hitem
  rw [read_of hraw hcover hreadable, ← (h.id_eq id item hitem).1]

variable {id : Nat} {item : PendingPages}

theorem getElem?_of_read (h : rows.toList.mapM (fun row => row.2.read row.1) = .ok pending.vals) (hid : item.id = some id)
    (hitem : pending[id]? = some item) :
    ∃ row, rows[id]? = some row ∧ row.read id = .ok item := by
  obtain ⟨⟨id', row⟩, hrow, hread⟩ := mapM_ok_mem h (mem_vals.mpr ⟨id, hitem⟩)
  have hsame : item.id = some id' := id_of_read hread
  obtain rfl := Option.some.inj (hid.symm.trans hsame)
  exact ⟨row, Std.ExtTreeMap.mem_toList_iff_getElem?_eq_some.mp hrow, hread⟩

/-- The item that first has an id: one that is pending and not completed, or one that takes it as a fresh id. -/
def Origin (pending : OrderedMap Nat PendingPages) (next : Nat) (commit : ShardCommit) (id : Nat) (item : PendingPages) :
    Prop :=
  id ∉ commit.pendingComplete ∧ pending[id]? = some item ∨ freshItem id next commit.pendingUpsert = some item

theorem PendingSim.origin_unique (h : PendingSim rows pending next) {item' : PendingPages}
    (hitem : Origin pending next commit id item) (hitem' : Origin pending next commit id item') : item = item' := by
  have hapart : ∀ stored fresh, pending[id]? = some stored → freshItem id next commit.pendingUpsert = some fresh → False :=
    fun stored fresh hstored hfresh => (h.id_eq id stored hstored).2.not_gt (lt_of_freshItem hfresh)
  rcases hitem with ⟨-, hitem⟩ | hitem <;> rcases hitem' with ⟨-, hitem'⟩ | hitem'
  · exact Option.some.inj (hitem.symm.trans hitem')
  · exact (hapart _ _ hitem hitem').elim
  · exact (hapart _ _ hitem' hitem).elim
  · exact Option.some.inj (hitem.symm.trans hitem')

/-- Each item a commit leaves is one a row can hold, and names what the item did that first had its id. -/
def WritesKept (pending : OrderedMap Nat PendingPages) (next : Nat) (commit : ShardCommit) : Prop :=
  ∀ id item, lastWritten id next commit.pendingUpsert = some item →
    item.Readable ∧ ∃ origin, Origin pending next commit id origin ∧ origin.work = item.work

def updatePending (rows : OrderedMap Nat PendingRow) (next : Nat) (commit : ShardCommit) :
    OrderedMap Nat PendingRow × Nat :=
  upsertAll commit.pendingUpsert (commit.pendingComplete.foldl (fun rows id => rows.erase id) rows, next)

theorem PendingSim.getElem?_updatePending (h : PendingSim rows pending next) {row : PendingRow} :
    (updatePending rows next commit).1[id]? = some row ↔
      ∃ origin, Origin pending next commit id origin ∧
        ((lastWritten id next commit.pendingUpsert).map (of origin).update).getD (of origin) = row := by
  have hleft : ∀ (id : Nat) (row : PendingRow),
      (commit.pendingComplete.foldl (fun rows id => rows.erase id) rows)[id]? = some row ↔
        id ∉ commit.pendingComplete ∧ ∃ origin, pending[id]? = some origin ∧ of origin = row := by
    intro id row
    rw [getElem?_foldl_erase_keys, h.same, Option.map_eq_some_iff]
  have hbound : ∀ id ∈ commit.pendingComplete.foldl (fun rows id => rows.erase id) rows, id ≤ next := by
    intro id hmem
    obtain ⟨row, hrow⟩ := mem_iff_exists.mp hmem
    obtain ⟨-, origin, horigin, -⟩ := (hleft id row).mp hrow
    exact (h.id_eq id origin horigin).2
  rw [updatePending, getElem?_upsertAll _ hbound, Option.map_eq_some_iff]
  constructor
  · rintro ⟨origin, horigin, rfl⟩
    rw [Option.or_eq_some_iff, hleft, Option.map_eq_some_iff] at horigin
    rcases horigin with ⟨hopen, item, hitem, rfl⟩ | ⟨-, item, hitem, rfl⟩
    · exact ⟨item, .inl ⟨hopen, hitem⟩, rfl⟩
    · exact ⟨item, .inr hitem, rfl⟩
  · rintro ⟨origin, horigin, rfl⟩
    refine ⟨of origin, ?_, rfl⟩
    rw [Option.or_eq_some_iff]
    rcases horigin with ⟨hopen, hitem⟩ | hfresh
    · exact .inl ((hleft _ _).mpr ⟨hopen, origin, hitem, rfl⟩)
    · refine .inr ⟨?_, by rw [hfresh]; rfl⟩
      by_contra hsome
      obtain ⟨row, hrow⟩ := Option.ne_none_iff_exists'.mp hsome
      exact (hbound id (mem_of_getElem? hrow)).not_gt (lt_of_freshItem hfresh)

theorem getElem?_updatePending_memory :
    (MemoryStore.updatePending pending next commit).1[id]? = some item ↔
      (∃ last, lastWritten id next commit.pendingUpsert = some last ∧ { last with id := some id } = item) ∨
        lastWritten id next commit.pendingUpsert = none ∧ id ∉ commit.pendingComplete ∧ pending[id]? = some item := by
  rw [MemoryStore.updatePending, MemoryStore.getElem?_foldl_lastWritten, Option.or_eq_some_iff, Option.map_eq_some_iff,
    Option.map_eq_none_iff, getElem?_foldl_erase_keys]

theorem le_foldl_upsertPending_snd (items : List PendingPages) (pending : OrderedMap Nat PendingPages) (next : Nat) :
    next ≤ (items.foldl MemoryStore.upsertPending (pending, next)).2 := by
  induction items generalizing pending next with
  | nil => exact le_rfl
  | cons item items ih =>
    rw [foldl_cons, MemoryStore.upsertPending]
    cases item.id with
    | none => exact (Nat.le_succ next).trans (ih _ _)
    | some given => exact ih _ _

theorem le_of_freshItem {next : Nat} {items : List PendingPages} {fresh : PendingPages}
    (h : freshItem id next items = some fresh) (pending : OrderedMap Nat PendingPages) :
    id ≤ (items.foldl MemoryStore.upsertPending (pending, next)).2 := by
  induction items generalizing pending next with
  | nil => cases h
  | cons item items ih =>
    rw [freshItem] at h
    rw [foldl_cons, MemoryStore.upsertPending]
    cases hid : item.id with
    | none =>
      simp only [hid, Option.isNone_none, if_true] at h
      split_ifs at h with hnext
      · exact hnext ▸ le_foldl_upsertPending_snd _ _ _
      · exact ih h _
    | some given =>
      simp only [hid, Option.isNone_some, Bool.false_eq_true, if_false] at h
      exact ih h _

theorem PendingSim.update (h : PendingSim rows pending next) (hkept : WritesKept pending next commit)
    (hstorable : ∀ item ∈ commit.pendingUpsert, item.Storable) :
    PendingSim (updatePending rows next commit).1 (MemoryStore.updatePending pending next commit).1
      (MemoryStore.updatePending pending next commit).2 := by
  refine ⟨fun id => Option.ext fun row => ?_, fun id item hitem => ?_, fun id item hitem => ?_⟩
  · rw [h.getElem?_updatePending, Option.map_eq_some_iff]
    simp only [getElem?_updatePending_memory]
    cases hlast : lastWritten id next commit.pendingUpsert with
    | none =>
      have hfresh : freshItem id next commit.pendingUpsert = none := by
        by_contra hsome
        obtain ⟨fresh, hfresh⟩ := Option.ne_none_iff_exists'.mp hsome
        obtain ⟨last, hwritten⟩ := lastWritten_of_freshItem hfresh
        rw [hlast] at hwritten
        cases hwritten
      simp [Origin, hfresh]
    | some item =>
      obtain ⟨-, origin, horigin, hwork⟩ := hkept id item hlast
      have hrow : (of origin).update item = of item := update_of_work_eq hwork
      constructor
      · rintro ⟨origin', horigin', rfl⟩
        obtain rfl := h.origin_unique horigin horigin'
        exact ⟨{ item with id := some id }, .inl ⟨item, rfl, rfl⟩, hrow.symm⟩
      · rintro ⟨item', (⟨last, hsome, rfl⟩ | ⟨hnone, -⟩), rfl⟩
        · cases hsome
          exact ⟨origin, horigin, hrow⟩
        · cases hnone
  · rcases getElem?_updatePending_memory.mp hitem with ⟨last, hlast, rfl⟩ | ⟨-, -, hstored⟩
    · obtain ⟨-, origin, horigin, -⟩ := hkept id last hlast
      refine ⟨rfl, ?_⟩
      rcases horigin with ⟨-, hstored⟩ | hfresh
      · exact (h.id_eq id origin hstored).2.trans (le_foldl_upsertPending_snd _ _ _)
      · exact le_of_freshItem hfresh _
    · obtain ⟨hid, hle⟩ := h.id_eq id item hstored
      exact ⟨hid, hle.trans (le_foldl_upsertPending_snd _ _ _)⟩
  · rcases getElem?_updatePending_memory.mp hitem with ⟨last, hlast, rfl⟩ | ⟨-, -, hstored⟩
    · obtain ⟨hreadable, -⟩ := hkept id last hlast
      exact ⟨⟨hreadable.carried, hreadable.fragments⟩, hstorable last (mem_of_lastWritten hlast)⟩
    · exact h.readable id item hstored

theorem PendingSim.kept_of_read (h : PendingSim rows pending next)
    (hstorable : ∀ item ∈ commit.pendingUpsert, item.Storable)
    (hread : (updatePending rows next commit).1.toList.mapM (fun row => row.2.read row.1) =
      .ok (MemoryStore.updatePending pending next commit).1.vals) : WritesKept pending next commit := by
  intro id item hlast
  have hitem : (MemoryStore.updatePending pending next commit).1[id]? = some { item with id := some id } :=
    getElem?_updatePending_memory.mpr (.inl ⟨item, hlast, rfl⟩)
  obtain ⟨row, hrow, hreads⟩ := getElem?_of_read hread rfl hitem
  obtain ⟨origin, horigin, rfl⟩ := h.getElem?_updatePending.mp hrow
  obtain ⟨hcover, raw, hraw⟩ := hstorable item (mem_of_lastWritten hlast)
  rw [hlast, Option.map_some, Option.getD_some, read_update_iff hraw hcover] at hreads
  exact ⟨hreads.1, origin, horigin, hreads.2⟩

end SqliteStore

end Zakura.Client
