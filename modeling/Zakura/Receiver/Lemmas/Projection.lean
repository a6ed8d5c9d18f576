import Mathlib.Data.List.Dedup
import Zakura.Directory.Lemmas.FixedRows
import Zakura.Receiver.Build

/-! # What a projection holds

Every receiver paid by the projected blocks has its own tag, placed in one of the tag's candidate rows. A block
that is refused changes nothing. -/

namespace Zakura.Receiver

open List

open Directory (FixedRows)

variable {sha256 : Bytes → FixedBytes 32}

/-! ## Tagged receivers -/

theorem tagged_perm (sha256 : Bytes → FixedBytes 32) (salt : Hash) (receivers : List ReceiverBytes) :
    (tagged sha256 salt receivers).Perm (receivers.map fun r => (tag sha256 salt r, r)) :=
  perm_insertionSort ..

variable {salt : Hash} {receivers : List ReceiverBytes}

theorem mem_tagged {t : Tag × ReceiverBytes} :
    t ∈ tagged sha256 salt receivers ↔ t.2 ∈ receivers ∧ t.1 = tag sha256 salt t.2 := by
  rw [(tagged_perm sha256 salt receivers).mem_iff, mem_map]
  constructor
  · rintro ⟨r, hr, rfl⟩
    exact ⟨hr, rfl⟩
  · intro ⟨hr, htag⟩
    exact ⟨t.2, hr, Prod.ext htag.symm rfl⟩

theorem tagged_receivers (sha256 : Bytes → FixedBytes 32) (salt : Hash) (receivers : List ReceiverBytes) :
    ((tagged sha256 salt receivers).map Prod.snd).Perm receivers := by
  have h := (tagged_perm sha256 salt receivers).map Prod.snd
  rwa [map_map, show Prod.snd ∘ (fun r => (tag sha256 salt r, r)) = id from rfl, map_id] at h

theorem tagged_tags (sha256 : Bytes → FixedBytes 32) (salt : Hash) (receivers : List ReceiverBytes) :
    ((tagged sha256 salt receivers).map Prod.fst).Perm (receivers.map (tag sha256 salt)) := by
  have h := (tagged_perm sha256 salt receivers).map Prod.fst
  rwa [map_map] at h

theorem tagged_nodup (h : (tagged sha256 salt receivers).IsChain fun a b => a.1 ≠ b.1) :
    ((tagged sha256 salt receivers).map Prod.fst).Nodup := by
  have hsorted : (tagged sha256 salt receivers).Pairwise fun a b => toLex a ≤ toLex b :=
    pairwise_insertionSort ..
  generalize tagged sha256 salt receivers = ts at h hsorted
  suffices hstrict : ts.Pairwise fun a b => a.1 < b.1 from
    pairwise_map.mpr (hstrict.imp fun hlt => ne_of_lt hlt)
  induction ts with
  | nil => exact List.Pairwise.nil
  | cons t ts ih =>
    obtain ⟨hfirst, hrest⟩ := pairwise_cons.mp hsorted
    have htail := ih (List.IsChain.of_cons h) hrest
    refine pairwise_cons.mpr ⟨fun u hu => ?_, htail⟩
    cases ts with
    | nil => simp at hu
    | cons next ts =>
      have hnext : t.1 < next.1 := by
        rcases Prod.Lex.toLex_le_toLex.mp (hfirst next mem_cons_self) with hlt | ⟨heq, _⟩
        · exact hlt
        · exact absurd heq (isChain_cons_cons.mp h).1
      rcases mem_cons.mp hu with rfl | hu
      · exact hnext
      · exact lt_trans hnext ((pairwise_cons.mp htail).1 u hu)

namespace Projection

structure Holds (sha256 : Bytes → FixedBytes 32) (p : Projection) (paid : List ReceiverBytes) : Prop where
  rows : p.rows = directoryRows
  entries : p.entries = rowEntries
  sound : p.placed.Sound directoryRows
  salts : p.placed.salts = bucketSalts sha256 p.salt
  capacity : p.placed.capacity = rowEntries * entryBytes
  shape : p.placed.shape = p.order.map fun t =>
    (Directory.candidates sha256 (bucketSalts sha256 p.salt) t.val directoryRows, entryBytes)
  nodup : p.order.Nodup
  order : (p.tags.toList.map Prod.snd).Perm p.order
  tag : ∀ (r : ReceiverBytes) t, p.tags[r]? = some t → t = tag sha256 p.salt r
  receivers : ∀ r : ReceiverBytes, r ∈ p.tags ↔ r ∈ paid

theorem holds_withRows (sha256 : Bytes → FixedBytes 32) (salt : Hash) :
    Holds sha256 (withRows sha256 salt directoryRows rowEntries) [] where
  rows := rfl
  entries := rfl
  sound := FixedRows.new_sound _ _ (by decide)
  salts := rfl
  capacity := rfl
  shape := rfl
  nodup := nodup_nil
  order := by
    have hnil : (∅ : OrderedMap ReceiverBytes Tag).toList = [] := by simp
    simp [withRows, hnil]
  tag := by simp [withRows]
  receivers := by simp [withRows]

theorem getElem?_enter {ts : List (Tag × ReceiverBytes)} {tags : OrderedMap ReceiverBytes Tag}
    (hnodup : (ts.map Prod.snd).Nodup) (hnew : ∀ t ∈ ts, t.2 ∉ tags) :
    ((ts.foldl (fun tags t => tags.insert t.2 t.1) tags).toList.map Prod.snd).Perm
        (tags.toList.map Prod.snd ++ ts.map Prod.fst) ∧
      ∀ (r : ReceiverBytes) t, (ts.foldl (fun tags t => tags.insert t.2 t.1) tags)[r]? = some t ↔
        tags[r]? = some t ∨ (t, r) ∈ ts := by
  induction ts generalizing tags with
  | nil => simp
  | cons first ts ih =>
    rw [map_cons, nodup_cons] at hnodup
    obtain ⟨hfirst, hrest⟩ := forall_mem_cons.mp hnew
    have hnone : tags[first.2]? = none := Std.ExtTreeMap.getElem?_eq_none hfirst
    have hnew' : ∀ t ∈ ts, t.2 ∉ tags.insert first.2 first.1 := by
      intro t ht hmem
      rcases Std.ExtTreeMap.mem_insert.mp hmem with heq | hmem
      · exact hnodup.1 (mem_map.mpr ⟨t, ht, (compare_eq_iff_eq.mp heq).symm⟩)
      · exact hrest t ht hmem
    obtain ⟨hperm, hget⟩ := ih hnodup.2 hnew'
    refine ⟨?_, fun r t => ?_⟩
    · rw [foldl_cons, map_cons]
      refine hperm.trans (((OrderedMap.toList_perm_of_insert hnone first.1).map Prod.snd).append_right _ |>.trans ?_)
      rw [map_cons, cons_append]
      exact perm_middle.symm
    · rw [foldl_cons, hget, OrderedMap.getElem?_insert_eq, mem_cons, Prod.ext_iff]
      by_cases heq : first.2 = r
      · subst heq
        simp [hnone, eq_comm]
      · have hne : r ≠ first.2 := fun h => heq h.symm
        simp [heq, hne]

variable {p : Projection} {paid : List ReceiverBytes}

variable {q : Projection} {receivers : List ReceiverBytes}

theorem Holds.insert {result : Bool} (h : Holds sha256 p paid) (hreceivers : receivers.Nodup)
    (hnew : ∀ r ∈ receivers, r ∉ p.tags) (htags : ((tagged sha256 p.salt receivers).map Prod.fst).Nodup)
    (hfree : ∀ t ∈ tagged sha256 p.salt receivers, t.1 ∉ p.order)
    (hinsert : p.insert sha256 (tagged sha256 p.salt receivers) = (result, q)) :
    (result = true → Holds sha256 q (paid ++ receivers)) ∧ (result = false → q = p) := by
  unfold Projection.insert at hinsert
  cases hplaced : p.placed.insert sha256 ((tagged sha256 p.salt receivers).map fun t => (t.1.val, entryBytes)) with
  | mk outcome placed =>
    -- The directory holds far fewer bytes than entries can be numbered.
    have hnumbers (count : Nat) : p.placed.Numbered directoryRows count := by
      refine .inl ?_
      rw [h.capacity]
      decide
    obtain ⟨hok, herror⟩ := FixedRows.insert_spec (by decide : 0 < directoryRows) (by decide) h.sound (hnumbers _) hplaced
    rw [hplaced] at hinsert
    cases outcome with
    | error i =>
      obtain ⟨rfl, rfl⟩ := Prod.mk.inj hinsert
      refine ⟨fun hres => (by cases hres), fun _ => ?_⟩
      rw [herror (by simp)]
    | ok _ =>
      obtain ⟨rfl, rfl⟩ := Prod.mk.inj hinsert
      obtain ⟨⟨hsound, hsalts, hcapacity, hshape⟩, -⟩ := hok rfl
      have hsnd := tagged_receivers sha256 p.salt receivers
      obtain ⟨hperm, hget⟩ := getElem?_enter (hsnd.nodup_iff.mpr hreceivers)
        fun t ht => hnew t.2 (mem_tagged.mp ht).1
      refine ⟨fun _ => ⟨h.rows, h.entries, hsound, hsalts.trans h.salts, hcapacity.trans h.capacity, ?_, ?_, ?_, ?_, ?_⟩,
        fun hres => (by cases hres)⟩
      · rw [hshape, h.shape, h.salts, map_append, map_map, map_map]
        rfl
      · refine nodup_append.mpr ⟨h.nodup, htags, fun a ha b hb heq => ?_⟩
        obtain ⟨t, ht, rfl⟩ := mem_map.mp hb
        exact hfree t ht (heq ▸ ha)
      · exact hperm.trans (h.order.append_right _)
      · intro r t hr
        rcases (hget r t).mp hr with hr | hr
        · exact h.tag r t hr
        · exact (mem_tagged.mp hr).2
      · intro r
        rw [OrderedMap.mem_iff_exists, mem_append, ← h.receivers]
        constructor
        · intro ⟨t, ht⟩
          rcases (hget r t).mp ht with ht | ht
          · exact Or.inl (OrderedMap.mem_of_getElem? ht)
          · exact Or.inr (mem_tagged.mp ht).1
        · intro hr
          rcases hr with hr | hr
          · obtain ⟨t, ht⟩ := OrderedMap.mem_iff_exists.mp hr
            exact ⟨t, (hget r t).mpr (Or.inl ht)⟩
          · exact ⟨Receiver.tag sha256 p.salt r, (hget r _).mpr (Or.inr (mem_tagged.mpr ⟨hr, rfl⟩))⟩

variable {paid' : List ReceiverBytes}

theorem Holds.congr (h : Holds sha256 p paid) (hsame : ∀ r, r ∈ paid ↔ r ∈ paid') : Holds sha256 p paid' :=
  { h with receivers := fun r => (h.receivers r).trans (hsame r) }

variable {block : Hash}

theorem retryFrom_holds {next : Projection} {all : List ReceiverBytes} {retries : List Nat} {retry : Nat}
    (hrows : p.rows = directoryRows) (hentries : p.entries = rowEntries)
    (h : p.retryFrom sha256 all block retries = some (retry, next)) : Holds sha256 next all := by
  induction retries with
  | nil => cases h
  | cons r retries ih =>
    rw [retryFrom] at h
    split_ifs at h with hdistinct
    · rw [hrows, hentries] at h
      split at h
      next _ q hq =>
        obtain ⟨rfl, rfl⟩ : r = retry ∧ q = next := by simpa using h
        have htags := (tagged_tags sha256 (retrySalt sha256 p.salt r block) all).nodup_iff.mpr hdistinct
        exact ((holds_withRows sha256 (retrySalt sha256 p.salt r block)).insert (List.Nodup.of_map _ hdistinct)
          (by simp [withRows]) htags (by simp [withRows]) hq).1 rfl
      next => exact ih h
    · exact ih h

theorem mem_newReceivers {r : ReceiverBytes} : r ∈ p.newReceivers paid ↔ r ∈ paid ∧ r ∉ p.tags := by
  rw [newReceivers, (perm_insertionSort _ _).mem_iff, mem_dedup, mem_filter, decide_eq_true_iff]

theorem nodup_newReceivers (p : Projection) (paid : List ReceiverBytes) : (p.newReceivers paid).Nodup :=
  (perm_insertionSort _ _).nodup_iff.mpr (nodup_dedup _)

/-- A block's receivers count as a set. -/
theorem newReceivers_congr (p : Projection) (h : ∀ r, r ∈ paid ↔ r ∈ paid') :
    p.newReceivers paid = p.newReceivers paid' := by
  have hperm : (p.newReceivers paid).Perm (p.newReceivers paid') :=
    (perm_ext_iff_of_nodup (nodup_newReceivers p paid) (nodup_newReceivers p paid')).mpr fun r => by
      rw [mem_newReceivers, mem_newReceivers, h]
  exact hperm.eq_of_pairwise (fun a b _ _ => le_antisymm) (pairwise_insertionSort ..) (pairwise_insertionSort ..)

theorem Holds.project {result : Except SealBefore Nat} (h : Holds sha256 p paid)
    (hproject : p.project sha256 receivers block = (result, q)) :
    (∀ retry, result = .ok retry → Holds sha256 q (paid ++ receivers)) ∧ (∀ e, result = .error e → q = p) := by
  have hadded : ∀ r, r ∈ paid ++ p.newReceivers receivers ↔ r ∈ paid ++ receivers := by
    intro r
    rw [mem_append, mem_append, mem_newReceivers, h.receivers]
    tauto
  unfold Projection.project at hproject
  dsimp only at hproject
  -- The attempt under the committed salt adds the receivers, or leaves the projection as it was.
  obtain ⟨inserted, attempted, hattempt⟩ : ∃ inserted attempted,
      (if (tagged sha256 p.salt (p.newReceivers receivers)).IsChain
      (fun a b => a.1 ≠ b.1) ∧ ∀ t ∈ tagged sha256 p.salt (p.newReceivers receivers), t.1 ∉ p.order then
      p.insert sha256 (tagged sha256 p.salt (p.newReceivers receivers)) else (false, p)) = (inserted, attempted) :=
    ⟨_, _, rfl⟩
  have hspec : (inserted = true → Holds sha256 attempted (paid ++ p.newReceivers receivers)) ∧
      (inserted = false → attempted = p) := by
    split_ifs at hattempt with hdistinct
    · exact h.insert (nodup_newReceivers p receivers) (fun r hr => (mem_newReceivers.mp hr).2)
        (tagged_nodup hdistinct.1) hdistinct.2 hattempt
    · obtain ⟨rfl, rfl⟩ := Prod.mk.inj hattempt
      exact ⟨fun hres => (by cases hres), fun _ => rfl⟩
  rw [hattempt] at hproject
  cases inserted with
  | true =>
    obtain ⟨rfl, rfl⟩ := Prod.mk.inj hproject
    exact ⟨fun _ _ => (hspec.1 rfl).congr hadded, fun _ herror => (by cases herror)⟩
  | false =>
    rw [if_neg (by simp)] at hproject
    split at hproject
    next retry next hretry =>
      obtain ⟨rfl, rfl⟩ := Prod.mk.inj hproject
      refine ⟨fun _ _ => (retryFrom_holds h.rows h.entries hretry).congr fun r => ?_, fun _ herror => (by cases herror)⟩
      rw [← hadded, mem_append, mem_append, Std.ExtTreeMap.mem_keys, h.receivers]
    next =>
      obtain ⟨rfl, rfl⟩ := Prod.mk.inj hproject
      exact ⟨fun _ hres => (by cases hres), fun _ _ => hspec.2 rfl⟩

/-- The projections that projecting blocks into a new segment reaches, with the receivers the accepted blocks
pay. -/
inductive Reached (sha256 : Bytes → FixedBytes 32) : Projection → List ReceiverBytes → Prop
  | new (salt : Hash) : Reached sha256 (new sha256 salt) []
  | project {p q : Projection} {paid receivers : List ReceiverBytes} {block : Hash} {retry : Nat} :
    Reached sha256 p paid → p.project sha256 receivers block = (.ok retry, q) → Reached sha256 q (paid ++ receivers)
  | refuse {p q : Projection} {paid receivers : List ReceiverBytes} {block : Hash} {e : SealBefore} :
    Reached sha256 p paid → p.project sha256 receivers block = (.error e, q) → Reached sha256 q paid

theorem Reached.holds (h : Reached sha256 p paid) : Holds sha256 p paid := by
  induction h with
  | new salt => exact holds_withRows sha256 salt
  | project _ hproject ih => exact (ih.project hproject).1 _ rfl
  | refuse _ hproject ih =>
    rw [(ih.project hproject).2 _ rfl]
    exact ih

/-! ## Where the tags are -/

theorem Holds.row (h : Holds sha256 p paid) {i : Nat} {t : Tag} (hi : p.order[i]? = some t) :
    ∃ row, p.placed.assignment[i]? = some row ∧ row < directoryRows ∧
      (row = (Directory.candidates sha256 (bucketSalts sha256 p.salt) t.val directoryRows).1 ∨
        row = (Directory.candidates sha256 (bucketSalts sha256 p.salt) t.val directoryRows).2) := by
  have hshape : p.placed.shape[i]? =
      some (Directory.candidates sha256 (bucketSalts sha256 p.salt) t.val directoryRows, entryBytes) := by
    rw [h.shape, getElem?_map, hi, Option.map_some]
  rw [FixedRows.shape, getElem?_map] at hshape
  obtain ⟨e, he, hinfo⟩ := Option.map_eq_some_iff.mp hshape
  obtain ⟨hcandidates, _⟩ := Prod.mk.inj hinfo
  have hmem := List.mem_of_getElem? he
  refine ⟨e.row, ?_, (h.sound.wellPlaced e hmem).row_lt, ?_⟩
  · rw [FixedRows.assignment, getElem?_map, he, Option.map_some]
  · rw [← hcandidates]
    exact (h.sound.wellPlaced e hmem).placed

theorem Holds.length_assignment (h : Holds sha256 p paid) : p.placed.assignment.length = p.order.length := by
  have hlength := congrArg List.length h.shape
  rw [FixedRows.shape, length_map, length_map] at hlength
  rw [FixedRows.assignment, length_map, hlength]

variable {row : Nat}

theorem Holds.assigned_lt (h : Holds sha256 p paid) (hrow : row ∈ p.placed.assignment) : row < directoryRows := by
  obtain ⟨i, hi⟩ := mem_iff_getElem?.mp hrow
  have hlt := (List.getElem?_eq_some_iff.mp hi).1
  rw [h.length_assignment] at hlt
  obtain ⟨found, hfound, hbound, -⟩ := h.row (getElem?_eq_getElem hlt)
  cases hi.symm.trans hfound
  exact hbound

theorem Holds.count_le (h : Holds sha256 p paid) (hrow : row < directoryRows) :
    p.placed.assignment.count row ≤ rowEntries := by
  have hsize : ∀ e ∈ p.placed.entries, e.size = entryBytes := by
    intro e he
    have hmem : (e.candidates, e.size) ∈ p.placed.shape := mem_map.mpr ⟨e, he, rfl⟩
    rw [h.shape] at hmem
    obtain ⟨t, _, heq⟩ := mem_map.mp hmem
    exact (Prod.mk.inj heq).2.symm
  have hcount := h.sound.count_le hsize hrow
  rw [h.capacity] at hcount
  exact Nat.le_of_mul_le_mul_right hcount (by decide)

end Projection

end Zakura.Receiver
