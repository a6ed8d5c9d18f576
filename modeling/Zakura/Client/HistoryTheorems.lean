import Mathlib.Data.List.Chain
import Zakura.Client.History
import Zakura.Transparent.Lemmas.RowsCanonical

/-! # What a history that was read is, whatever the servers answered -/

namespace Zakura.Client

open List Zakura.Transparent Zakura.Except

/-! ## Fragments -/

variable {sha256 : Bytes → FixedBytes 32} {walker : Walker} {script : Bytes} {child : UInt8} {wanted : Tag}
  {ordinal : UInt32} {count : Option UInt32} {found result : Option PageEntry}

theorem scanEntries_forall {p : PageEntry → Prop} {entries : List PageEntry} (hfound : ∀ entry ∈ found, p entry)
    (hentries : ∀ entry ∈ entries, p entry)
    (h : walker.scanEntries child wanted ordinal count entries found = .ok result) : ∀ entry ∈ result, p entry := by
  induction entries generalizing found with
  | nil =>
    cases h
    exact hfound
  | cons candidate entries ih =>
    obtain ⟨hcandidate, hentries⟩ := forall_mem_cons.mp hentries
    simp only [Walker.scanEntries] at h
    split_ifs at h
    · exact ih hfound hentries h
    · exact ih (by simpa using hcandidate) hentries h

theorem scanRows_link {rows : Reply} (hfound : ∀ entry ∈ found, entry.link.isWellFormed = true)
    (h : walker.scanRows child wanted ordinal count rows found = .ok result) :
    ∀ entry ∈ result, entry.link.isWellFormed = true := by
  induction rows generalizing found with
  | nil =>
    cases h
    exact hfound
  | cons raw rows ih =>
    simp only [Walker.scanRows, bind_eq_ok, mapError_eq_ok] at h
    obtain ⟨entries, hdecode, next, hscan, hrows⟩ := h
    refine ih (scanEntries_forall hfound (fun entry hentry => ?_) hscan) hrows
    have hcarries := ((decodePageRow_canonical hdecode).1.accepted entry hentry).2.2
    exact (Bool.and_eq_true_iff.mp hcarries).1

theorem fragment_link {answers : Reply} {entry : PageEntry}
    (h : walker.fragment sha256 script child answers ordinal count = .ok entry) : entry.link.isWellFormed = true := by
  simp only [Walker.fragment, bind_eq_ok] at h
  obtain ⟨found, hscan, h⟩ := h
  cases found with
  | none => cases h
  | some found =>
    cases h
    exact scanRows_link (by simp) hscan entry rfl

/-! ## Runs -/

abbrev Increasing (events : List TransparentEvent) : Prop := events.IsChain fun a b => a.sortKey < b.sortKey

theorem increasing_of_increases {events : List TransparentEvent} (h : increases events = true) : Increasing events := by
  induction events with
  | nil => exact .nil
  | cons a events ih =>
    cases events with
    | nil => exact .singleton a
    | cons b events =>
      obtain ⟨hab, hrest⟩ := Bool.and_eq_true_iff.mp h
      exact .cons_cons (of_decide_eq_true hab) (ih hrest)

variable {replies : RowRequest → Reply} {cursor : RunCursor} {carried run : List TransparentEvent} {link : RunLink}

theorem checkRun_ok {page : PageChild} (h : checkRun page run carried = .ok ()) :
    run ≠ [] ∧ carried.length = inlineEvents ∧ Increasing (run ++ carried) ∧
      ∀ event ∈ (run ++ carried).drop inlineEvents,
        page.startHeight ≤ event.height.toNat ∧ event.height.toNat ≤ page.endHeight := by
  simp only [checkRun, ite_error_eq_ok] at h
  obtain ⟨hchecked, hincreases, h⟩ := h
  rw [not_or, not_not, List.isEmpty_iff] at hchecked
  refine ⟨hchecked.1, hchecked.2, increasing_of_increases (by simpa using hincreases), fun event hevent => ?_⟩
  split at h
  · cases h
  · rename_i hnone
    simpa using find?_eq_none.mp hnone _ (mem_map_of_mem hevent)

theorem checkHead_ok {head : PageEntry} (h : checkHead head cursor = .ok ()) :
    (∀ expected ∈ cursor.olderRuns, head.link.olderRuns = expected) ∧
      ∀ previous ∈ head.link.previous, previous.1 < cursor.child := by
  unfold checkHead at h
  cases holder : cursor.olderRuns <;> cases hprevious : head.link.previous <;>
    simp only [holder, hprevious] at h <;> split_ifs at h <;> simp_all

/-- What the checks of one run establish. -/
theorem readRun_spec (h : readRun sha256 walker replies script cursor carried = .ok (run, link)) :
    link.isWellFormed = true ∧ (∀ expected ∈ cursor.olderRuns, link.olderRuns = expected) ∧
      (∀ previous ∈ link.previous, previous.1 < cursor.child) ∧
      ∃ page, walker.child cursor.child = .ok page ∧ checkRun page run carried = .ok () := by
  simp only [readRun, bind_eq_ok, pure_eq_ok, Prod.mk.injEq] at h
  obtain ⟨_, -, head, hfragment, _, -, ⟨⟩, hlink, _, -, rest, -, page, hpage, ⟨⟩, hrun, rfl, rfl⟩ := h
  simp only [Walker.checkLink, check_bind_eq_ok] at hlink
  obtain ⟨hcount, hprevious⟩ := checkHead_ok hlink.1
  exact ⟨fragment_link hfragment, hcount, hprevious, page, hpage, hrun⟩

/-- The page shard falls at every link, so fuel past its number is enough, and more of it changes nothing. -/
theorem readChain_ends (cursor : RunCursor) (carried : List TransparentEvent) :
    ∃ result, ∀ fuel, cursor.child.toNat < fuel →
      readChain sha256 walker replies script fuel cursor carried = some result := by
  induction hchild : cursor.child.toNat using Nat.strong_induction_on generalizing cursor carried with
  | _ child ih =>
  subst hchild
  cases hrun : readRun sha256 walker replies script cursor carried with
  | error error =>
    refine ⟨.error error, fun fuel hfuel => ?_⟩
    obtain ⟨fuel, rfl⟩ := Nat.exists_eq_succ_of_ne_zero (Nat.ne_zero_of_lt hfuel)
    rw [readChain, hrun]
  | ok result =>
    obtain ⟨run, link⟩ := result
    cases hprevious : link.previous with
    | none =>
      refine ⟨.ok [run], fun fuel hfuel => ?_⟩
      obtain ⟨fuel, rfl⟩ := Nat.exists_eq_succ_of_ne_zero (Nat.ne_zero_of_lt hfuel)
      rw [readChain, hrun]
      dsimp only
      rw [hprevious]
    | some previous =>
      have hlt : previous.1.toNat < cursor.child.toNat := (readRun_spec hrun).2.2.1 previous hprevious
      obtain ⟨older, holder⟩ := ih _ hlt ⟨previous.1, previous.2, some (link.olderRuns - 1)⟩
        ((run ++ carried).take inlineEvents) rfl
      refine ⟨older.map (run :: ·), fun fuel hfuel => ?_⟩
      obtain ⟨fuel, rfl⟩ := Nat.exists_eq_succ_of_ne_zero (Nat.ne_zero_of_lt hfuel)
      rw [readChain, hrun]
      dsimp only
      rw [hprevious]
      dsimp only
      rw [holder fuel (Nat.lt_of_lt_of_le hlt (Nat.le_of_lt_succ hfuel)), Option.map_some]

/-- The events of runs, newest first, before the history after them. -/
def joined (after : List TransparentEvent) (runs : List (UInt8 × List TransparentEvent)) : List TransparentEvent :=
  (runs.map Prod.snd).reverse.flatten ++ after

variable {after : List TransparentEvent} {runs : List (UInt8 × List TransparentEvent)}

theorem joined_cons (child : UInt8) : joined after ((child, run) :: runs) = joined (run ++ after) runs := by
  simp [joined]

/-- What is known of runs, newest first, each with its page shard, that were read before the history `after`. -/
structure ReadSoundly (walker : Walker) (after : List TransparentEvent) (runs : List (UInt8 × List TransparentEvent)) :
    Prop where
  increasing : Increasing (joined after runs)
  descending : (runs.map Prod.fst).IsChain (· > ·)
  /-- The event two places after one of a run is from the time its page shard was open. -/
  pushed : ∀ newer child run older, runs = newer ++ (child, run) :: older → run ≠ [] ∧
    ∃ page, walker.child child = .ok page ∧ ∀ i < run.length, ∃ pusher,
      (joined after runs)[(joined [] older).length + i + inlineEvents]? = some pusher ∧
        page.startHeight ≤ pusher.height.toNat ∧ pusher.height.toNat ≤ page.endHeight

theorem ReadSoundly.cons {page : PageChild} (hcarried : carried <+: after)
    (hpage : walker.child cursor.child = .ok page) (hrun : checkRun page run carried = .ok ())
    (hlt : ∀ older ∈ runs.head?, older.1 < cursor.child) (h : ReadSoundly walker (run ++ after) runs) :
    ReadSoundly walker after ((cursor.child, run) :: runs) := by
  obtain ⟨hne, hlength, -, hpushers⟩ := checkRun_ok hrun
  refine ⟨joined_cons cursor.child ▸ h.increasing, isChain_cons.mpr ⟨by simpa using hlt, h.descending⟩, ?_⟩
  intro newer child run' older hsplit
  rw [joined_cons]
  cases newer with
  | nil =>
    obtain ⟨⟨rfl, rfl⟩, rfl⟩ := by simpa using hsplit
    refine ⟨hne, page, hpage, fun i hi => ?_⟩
    obtain ⟨rest, rfl⟩ := hcarried
    have hlt : i + inlineEvents < (run ++ carried).length := by
      rw [length_append, hlength]
      omega
    refine ⟨(run ++ carried)[i + inlineEvents], ?_, hpushers _ (mem_drop_iff_getElem.mpr ⟨i, by omega, ?_⟩)⟩
    · rw [joined, joined, append_nil, ← append_assoc run, getElem?_append_right (by omega), Nat.add_assoc,
        Nat.add_sub_cancel_left, getElem?_append_left hlt, getElem?_eq_getElem hlt]
    · simp [Nat.add_comm]
  | cons first newer => exact h.pushed newer child run' older (cons.inj hsplit).2

theorem olderRuns_eq_zero_iff (h : link.isWellFormed = true) : link.olderRuns = 0 ↔ link.previous = none := by
  unfold RunLink.isWellFormed at h
  unfold RunLink.previous
  split_ifs at h ⊢ <;> simp_all

theorem toNat_sub_one_add_one {n : UInt8} (h : n ≠ 0) : (n - 1).toNat + 1 = n.toNat := by
  have hpos : 0 < n.toNat := Nat.pos_of_ne_zero (UInt8.toNat_inj.not.mpr h)
  rw [UInt8.toNat_sub_of_le n 1 (UInt8.le_iff_toNat_le.mpr hpos)]
  exact Nat.sub_add_cancel hpos

theorem readChain_sound {fuel : Nat} {events : List (List TransparentEvent)}
    (hafter : Increasing after ∨ carried = after) (hcarried : carried <+: after)
    (h : readChain sha256 walker replies script fuel cursor carried = some (.ok events)) :
    ∃ runs newest link, readRun sha256 walker replies script cursor carried = .ok (newest, link) ∧
      events = runs.map Prod.snd ∧ runs.head? = some (cursor.child, newest) ∧
      runs.length = link.olderRuns.toNat + 1 ∧ ReadSoundly walker after runs := by
  induction fuel generalizing cursor carried after events with
  | zero => cases h
  | succ fuel ih =>
    rw [readChain] at h
    cases hread : readRun sha256 walker replies script cursor carried with
    | error error =>
      rw [hread] at h
      cases h
    | ok result =>
      obtain ⟨run, link⟩ := result
      rw [hread] at h
      dsimp only at h
      obtain ⟨hwf, -, hprevious, page, hpage, hrun⟩ := readRun_spec hread
      obtain ⟨-, hlength, hincreasing, -⟩ := checkRun_ok hrun
      have hjoined : Increasing (run ++ after) := by
        rcases hafter with hafter | rfl
        · obtain ⟨rest, rfl⟩ := hcarried
          rw [← append_assoc]
          exact hincreasing.append_overlap hafter (ne_nil_of_length_pos (by rw [hlength]; decide))
        · exact hincreasing
      cases hlink : link.previous with
      | none =>
        rw [hlink] at h
        cases h
        have hsingle : ReadSoundly walker (run ++ after) [] := ⟨hjoined, .nil, by simp⟩
        refine ⟨[(cursor.child, run)], run, link, rfl, rfl, rfl, ?_, hsingle.cons hcarried hpage hrun (by simp)⟩
        rw [(olderRuns_eq_zero_iff hwf).mpr hlink]
        rfl
      | some previous =>
        rw [hlink] at h
        dsimp only at h
        obtain ⟨older, holder, h⟩ := Option.map_eq_some_iff.mp h
        obtain ⟨older, rfl, rfl⟩ := map_eq_ok.mp h
        have hnewer : (run ++ carried).take inlineEvents <+: run ++ after := by
          refine IsPrefix.trans ?_ ((prefix_append_right_inj run).mpr hcarried)
          exact take_prefix _ _
        obtain ⟨runs, newest, next, hnext, rfl, hhead, hlength, hsound⟩ := ih (.inl hjoined) hnewer holder
        have hpromised := (readRun_spec hnext).2.1 _ rfl
        refine ⟨(cursor.child, run) :: runs, run, link, rfl, rfl, rfl, ?_,
          hsound.cons hcarried hpage hrun fun first hfirst => ?_⟩
        · have hne : link.olderRuns ≠ 0 := (olderRuns_eq_zero_iff hwf).not.mpr (by rw [hlink]; simp)
          rw [length_cons, hlength, hpromised, toNat_sub_one_add_one hne]
        · rw [hhead] at hfirst
          cases hfirst
          exact hprevious previous hlink

/-- Against any replies the walk along a chain of runs ends, within as many runs as the number of its first page shard
allows, and so does the reading of a history. A history that was read is in order, has as many runs as its newest one
says, and each event of them was pushed out while the page shard of its run was open. -/
theorem read_history_sound :
    (∀ cursor carried, ∃ result, ∀ fuel, cursor.child.toNat < fuel →
      readChain sha256 walker replies script fuel cursor carried = some result) ∧
    (∀ found, (readHistory sha256 walker replies script found).isSome) ∧
    ∀ found child row history, found.head = some (child, row) →
      readHistory sha256 walker replies script found = some (.ok history) →
      ∃ runs newest link,
        readRun sha256 walker replies script ⟨child, row, none⟩ found.inline = .ok (newest, link) ∧
        runs.head? = some (child, newest) ∧ runs.length = link.olderRuns.toNat + 1 ∧
        history = joined found.inline runs ∧ ReadSoundly walker found.inline runs := by
  refine ⟨readChain_ends, fun found => ?_, fun found child row history hhead h => ?_⟩
  · cases hhead : found.head with
    | none =>
      rw [readHistory, hhead]
      rfl
    | some head =>
      obtain ⟨result, hresult⟩ : ∃ result, ∀ fuel, head.1.toNat < fuel →
          readChain sha256 walker replies script fuel ⟨head.1, head.2, none⟩ found.inline = some result :=
        readChain_ends ⟨head.1, head.2, none⟩ found.inline
      rw [readHistory, hhead]
      dsimp only
      rw [hresult _ (Nat.lt_succ_self _)]
      rfl
  · rw [readHistory, hhead] at h
    obtain ⟨result, hchain, h⟩ := Option.map_eq_some_iff.mp h
    obtain ⟨events, rfl, rfl⟩ := map_eq_ok.mp h
    obtain ⟨runs, newest, link, hread, rfl, hnewest, hlength, hsound⟩ :=
      readChain_sound (.inr rfl) (prefix_refl _) hchain
    exact ⟨runs, newest, link, hread, hnewest, hlength, rfl, hsound⟩

/-- A payment at the given height. -/
def paymentAt (height : UInt32) : TransparentEvent :=
  .receive { metadata := none, height, txid := .zero, transactionIndex := 0, outputIndex := 0, value := 7,
             coinbase := true }

/-- The script of four payments: the two newest are inline, the two older ones were paged by them, one into each of the
two page shards. -/
def fourPayments : DirectoryEntry where
  script := []
  tag := .zero 14
  eventCount := 4
  inline := [paymentAt 7, paymentAt 8]
  headChild := 1
  headRow := 1

def pageOpen (index startHeight endHeight : Nat) : PageChild where
  index
  startHeight
  endHeight
  terminalBlockHash := .zero 32
  tagSaltCounter := 0
  sealed := true
  pageSegments := [⟨8192, 4096, .zero 32⟩]
  occupancy := ⟨1, 1, 1, 1⟩

def twoPageWalker : Walker where
  entry :=
    { shardId := 1, geometry := "decoupled-2k-8k", startHeight := 5, endHeight := 9, parentBlockHash := .zero 32,
      terminalBlockHash := .zero 32, filterHash := .zero 32, directorySegments := 1, manifestDigest := [],
      sealed := true }
  manifest :=
    { shardId := 1, startHeight := 5, endHeight := 9, parentBlockHash := .zero 32, terminalBlockHash := .zero 32,
      tagSaltCounter := 0, parentManifestDigest := [], sealed := true,
      pageChildren := [pageOpen 0 5 7, pageOpen 1 8 9] }
  geometry := decoupled2k8k
  identities := []
  salts := []
  targetAnchor := ⟨9, .zero 32⟩

def pageRowOf (event : TransparentEvent) (link : RunLink) : Bytes :=
  (encodePageRow [⟨.zero 14, 0, 1, [event], event.height, event.height, link⟩]).toOption.getD []

/-- Honest replies: the newer page shard links to the older one. -/
def twoPageReplies (request : RowRequest) : Reply :=
  if request.child = 1 then [pageRowOf (paymentAt 6) ⟨0, 1, 1⟩] else [pageRowOf (paymentAt 5) {}]

theorem read_history_sound_four_payments :
    readHistory (fun _ => .zero 32) twoPageWalker twoPageReplies [] fourPayments =
        some (.ok [paymentAt 5, paymentAt 6, paymentAt 7, paymentAt 8]) ∧
      ∃ runs newest link,
        readRun (fun _ => .zero 32) twoPageWalker twoPageReplies [] ⟨1, 0, none⟩ fourPayments.inline =
          .ok (newest, link) ∧
        runs.head? = some (1, newest) ∧ runs.length = link.olderRuns.toNat + 1 ∧
        [paymentAt 5, paymentAt 6, paymentAt 7, paymentAt 8] = joined fourPayments.inline runs ∧
        ReadSoundly twoPageWalker fourPayments.inline runs := by
  have hread : readHistory (fun _ => .zero 32) twoPageWalker twoPageReplies [] fourPayments =
      some (.ok [paymentAt 5, paymentAt 6, paymentAt 7, paymentAt 8]) := by
    decide +kernel
  exact ⟨hread, read_history_sound.2.2 fourPayments 1 0 _ rfl hread⟩

end Zakura.Client
