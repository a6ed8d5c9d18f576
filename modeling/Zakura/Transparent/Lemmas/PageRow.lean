import Zakura.Transparent.PageRow
import Zakura.Transparent.Lemmas.Compact

/-! # What the page-row decoder reads back

A row that the encoder wrote for well-formed entries is decoded to those entries. -/

namespace Zakura.Transparent

open List Zakura.Except Reader

/-- What the decoder requires of an entry beyond what the encoder checks: a sensible ordinal, events in
order and the heights they have. -/
structure PageEntry.WellFormed (entry : PageEntry) : Prop where
  ordinal_lt : entry.ordinal < entry.fragmentCount
  inOrder : inOrder entry.events = true
  minHeight : entry.minHeight = lowestHeight entry.events
  maxHeight : entry.maxHeight = highestHeight entry.events

variable {entry : PageEntry}

theorem PageEntry.new_ok {tag : Tag} {ordinal fragmentCount : UInt32} {events : List TransparentEvent}
    (h : PageEntry.new tag ordinal fragmentCount events = .ok entry) :
    events ≠ [] ∧ events.length ≤ eventsPerPage ∧ Compact.encodedLen events ≤ fragmentPayload ∧
      ordinal < fragmentCount ∧
      entry = { tag, ordinal, fragmentCount, events, minHeight := lowestHeight events,
                maxHeight := highestHeight events, link := {} } := by
  unfold PageEntry.new at h
  split_ifs at h with hempty hlarge hordinal
  simp only [not_or, not_lt, UInt32.not_le] at hlarge hordinal
  refine ⟨?_, hlarge.1, hlarge.2, hordinal.2, by simpa [eq_comm] using h⟩
  rintro rfl
  exact hempty rfl

theorem PageEntry.withLink_ok {linked : PageEntry} {link : RunLink} (h : entry.withLink link = .ok linked) :
    PageEntry.carries entry.ordinal link = true ∧ linked = { entry with link } := by
  unfold PageEntry.withLink at h
  simp only at h
  split_ifs at h with hcarries
  exact ⟨hcarries, by simpa [eq_comm] using h⟩

theorem repeatsTag_eq_false {tags : List Tag} : repeatsTag tags = false ↔ tags.Nodup := by
  induction tags with
  | nil => simp [repeatsTag]
  | cons tag tags ih => simp [repeatsTag, ih, nodup_cons]

variable {entries : List PageEntry}

/-- The encoder's first loop accepts entries of one to eighty-six events with links they may carry. -/
theorem countPageEntries_ok {used total : Nat} :
    countPageEntries entries used = .ok total ↔
      (∀ entry ∈ entries, entry.events ≠ [] ∧ entry.events.length ≤ eventsPerPage ∧
        PageEntry.carries entry.ordinal entry.link = true) ∧
      total = used + (entries.map PageEntry.encodedLen).sum := by
  induction entries generalizing used with
  | nil =>
    rw [countPageEntries]
    simp [eq_comm (a := used)]
  | cons entry entries ih =>
    unfold countPageEntries
    by_cases hcount : entry.events.isEmpty = true ∨ eventsPerPage < entry.events.length
    · rw [if_pos hcount]
      simp only [reduceCtorEq, mem_cons, forall_eq_or_imp, false_iff]
      rintro ⟨⟨⟨hne, hle, -⟩, -⟩, -⟩
      rcases hcount with hcount | hcount
      · exact hne (List.isEmpty_iff.mp hcount)
      · omega
    · rw [if_neg hcount]
      simp only [List.isEmpty_iff, not_or, not_lt] at hcount
      cases hcarries : PageEntry.carries entry.ordinal entry.link with
      | false => simp [hcarries]
      | true =>
        simp only [if_true, ih, mem_cons, forall_eq_or_imp, hcarries, hcount, and_true, true_and,
          map_cons, sum_cons, ne_eq, not_false_eq_true, Nat.add_assoc]

namespace PageEntry

theorem length_header (entry : PageEntry) : entry.header.length = pageEntryHeaderBytes := by
  simp [header, pageEntryHeaderBytes]

def encoding (entry : PageEntry) : Bytes := entry.header ++ Compact.encodingFrom none entry.events

theorem bytes_ok {entry : PageEntry} {bytes : Bytes} :
    entry.bytes = .ok bytes ↔ (∀ event ∈ entry.events, event.Encodable) ∧ bytes = entry.encoding := by
  unfold PageEntry.bytes encoding
  simp only [bind_eq_ok, pure_eq_ok, Compact.encode_ok]
  constructor
  · rintro ⟨events, ⟨hevents, rfl⟩, rfl⟩
    exact ⟨hevents, rfl⟩
  · rintro ⟨hevents, rfl⟩
    exact ⟨_, ⟨hevents, rfl⟩, rfl⟩

theorem length_encoding (entry : PageEntry) : entry.encoding.length = entry.encodedLen := by
  rw [encoding, length_append, length_header, Compact.length_encodingFrom]
  rfl

end PageEntry

theorem readPageHeader_header (hcount : entry.events.length ≤ eventsPerPage) (input : Bytes) :
    readPageHeader.run (entry.header ++ input) =
      .ok ((entry.tag, entry.ordinal, entry.fragmentCount, UInt32.ofNat entry.events.length, entry.minHeight,
        entry.maxHeight, entry.link), input) := by
  have hlen : (UInt32.ofNat entry.events.length).toNat = entry.events.length := by
    rw [UInt32.toNat_ofNat', Nat.mod_eq_of_lt]
    unfold eventsPerPage at hcount
    omega
  unfold readPageHeader PageEntry.header
  simp only [run_bind_ok, run_takeBytes_ok, run_word32_ok, run_byte_ok,
    run_pure_ok, append_assoc, cons_append, nil_append]
  refine ⟨_, _, rfl, _, _, rfl, _, _, rfl, UInt32.ofNat entry.events.length, _, ?_, _, _, rfl, _, _, rfl, _, _,
    rfl, _, _, rfl, _, _, rfl, rfl, rfl⟩
  rw [hlen]

/-- One round of the decoder on the bytes of a well-formed entry whose tag is new. -/
theorem decodePageEntry_encoding {seen : List Tag} (hne : entry.events ≠ []) (hcount : entry.events.length ≤ eventsPerPage)
    (hlink : PageEntry.carries entry.ordinal entry.link = true) (hevents : ∀ event ∈ entry.events, event.Encodable)
    (hwf : entry.WellFormed) (hnew : entry.tag ∉ seen) (input : Bytes) :
    (decodePageEntry seen).run (entry.encoding ++ input) = .ok (entry, input) := by
  have hlen : (UInt32.ofNat entry.events.length).toNat = entry.events.length := by
    rw [UInt32.toNat_ofNat', Nat.mod_eq_of_lt]
    unfold eventsPerPage at hcount
    omega
  have hpos : 0 < entry.events.length := length_pos_iff.mpr hne
  unfold decodePageEntry PageEntry.encoding
  rw [append_assoc, run_bind_ok]
  refine ⟨_, _, readPageHeader_header hcount _, ?_⟩
  have hzero : ¬ (UInt32.ofNat entry.events.length = 0 ∨
      eventsPerPage < (UInt32.ofNat entry.events.length).toNat) := by
    rw [← UInt32.toNat_inj, hlen]
    simp only [UInt32.toNat_zero]
    omega
  have hordinal : ¬ (entry.fragmentCount = 0 ∨ entry.fragmentCount ≤ entry.ordinal) := by
    have hlt := hwf.ordinal_lt
    rw [UInt32.lt_iff_toNat_lt] at hlt
    rw [← UInt32.toNat_inj, UInt32.le_iff_toNat_le]
    simp only [UInt32.toNat_zero]
    omega
  dsimp only
  rw [if_neg hzero, if_neg hordinal, if_neg (by rw [hlink]; simp), run_bind_ok, hlen]
  refine ⟨_, _, Compact.decode_encoding hcount hevents input, ?_⟩
  rw [if_neg (by rw [hwf.inOrder]; simp), if_neg (by rw [hwf.minHeight, hwf.maxHeight]; simp),
    if_neg (by simpa using hnew)]
  exact run_pure_ok.mpr ⟨rfl, rfl⟩

theorem not_mem_of_nodup_append {α : Type} {seen rest : List α} {a : α} (h : (seen ++ a :: rest).Nodup) : a ∉ seen :=
  fun hmem => (nodup_append.mp h).2.2 a hmem a mem_cons_self rfl

/-- By induction on the entries, the tags already read going along. -/
theorem decodePageEntries_encoding {seen : List Tag}
    (haccepted : ∀ entry ∈ entries, entry.events ≠ [] ∧ entry.events.length ≤ eventsPerPage ∧
      PageEntry.carries entry.ordinal entry.link = true)
    (hevents : ∀ entry ∈ entries, ∀ event ∈ entry.events, event.Encodable) (hwf : ∀ entry ∈ entries, entry.WellFormed)
    (hnodup : (seen ++ entries.map (·.tag)).Nodup) (input : Bytes) :
    (decodePageEntries entries.length seen).run (entries.flatMap PageEntry.encoding ++ input) =
      .ok (entries, input) := by
  induction entries generalizing seen with
  | nil => exact run_pure_ok.mpr ⟨rfl, rfl⟩
  | cons entry entries ih =>
    obtain ⟨hne, hcount, hlink⟩ := haccepted entry mem_cons_self
    have hnew : entry.tag ∉ seen := not_mem_of_nodup_append hnodup
    rw [flatMap_cons, append_assoc, length_cons, decodePageEntries, run_bind_ok]
    refine ⟨entry, _, decodePageEntry_encoding hne hcount hlink (hevents entry mem_cons_self)
      (hwf entry mem_cons_self) hnew _, ?_⟩
    rw [run_bind_ok]
    refine ⟨entries, input, ?_, run_pure_ok.mpr ⟨rfl, rfl⟩⟩
    refine ih (fun e he => haccepted e (mem_cons_of_mem _ he))
      (fun e he => hevents e (mem_cons_of_mem _ he)) (fun e he => hwf e (mem_cons_of_mem _ he)) ?_
    rw [append_assoc]
    exact hnodup

structure PageRowOf (entries : List PageEntry) (row : Bytes) : Prop where
  count : entries.length ≤ maxEntriesPerRow
  accepted : ∀ entry ∈ entries, entry.events ≠ [] ∧ entry.events.length ≤ eventsPerPage ∧
    PageEntry.carries entry.ordinal entry.link = true
  encodable : ∀ entry ∈ entries, ∀ event ∈ entry.events, event.Encodable
  fits : pageRowHeaderBytes + (entries.map PageEntry.encodedLen).sum ≤ pageRowBytes
  nodup : (entries.map (·.tag)).Nodup
  eq : row = leBytes 4 entries.length ++ (entries.flatMap PageEntry.encoding ++
    List.replicate (pageRowBytes - (pageRowHeaderBytes + (entries.map PageEntry.encodedLen).sum)) 0)

theorem length_flatMap_encoding (entries : List PageEntry) :
    (entries.flatMap PageEntry.encoding).length = (entries.map PageEntry.encodedLen).sum := by
  rw [length_flatMap]
  congr 1
  exact map_congr_left fun entry _ => entry.length_encoding

theorem mapM_bytes_ok {body : List Bytes} (h : entries.mapM PageEntry.bytes = .ok body) :
    (∀ entry ∈ entries, ∀ event ∈ entry.events, event.Encodable) ∧ body = entries.map PageEntry.encoding := by
  rw [mapM_eq_ok] at h
  induction h with
  | nil => simp
  | cons hentry _ ih =>
    obtain ⟨hevents, rfl⟩ := PageEntry.bytes_ok.mp hentry
    exact ⟨by simpa using ⟨hevents, ih.1⟩, by rw [ih.2, map_cons]⟩

variable {row : Bytes}

theorem encodePageRow_ok (h : encodePageRow entries = .ok row) : PageRowOf entries row := by
  unfold encodePageRow at h
  by_cases hcount : maxEntriesPerRow < entries.length
  · rw [if_pos hcount] at h
    cases h
  rw [if_neg hcount] at h
  simp only [bind_eq_ok] at h
  obtain ⟨used, hused, h⟩ := h
  obtain ⟨haccepted, rfl⟩ := countPageEntries_ok.mp hused
  split_ifs at h with hfits htags
  simp only [bind_eq_ok, pure_eq_ok] at h
  obtain ⟨body, hbody, rfl⟩ := h
  obtain ⟨hevents, rfl⟩ := mapM_bytes_ok hbody
  refine ⟨by omega, haccepted, hevents, by omega, ?_, ?_⟩
  · exact repeatsTag_eq_false.mp (by simpa using htags)
  · rw [← flatMap_def, append_assoc, length_append, length_leBytes, length_flatMap_encoding]
    rfl

theorem PageRowOf.length (h : PageRowOf entries row) : row.length = pageRowBytes := by
  have hfits := h.fits
  rw [h.eq]
  simp only [length_append, length_leBytes, length_flatMap_encoding, length_replicate]
  unfold pageRowHeaderBytes at hfits ⊢
  omega

theorem decodePageRow_of (h : PageRowOf entries row) (hwf : ∀ entry ∈ entries, entry.WellFormed) :
    decodePageRow row = .ok entries := by
  have hcount := h.count
  have hsmall : maxEntriesPerRow < 256 ^ 4 := by decide
  have hread : leNat (row.take pageRowHeaderBytes) = entries.length := by
    rw [h.eq, pageRowHeaderBytes, take_left' (length_leBytes 4 _), leNat_leBytes_of_lt (by omega)]
  have hdrop : row.drop pageRowHeaderBytes = entries.flatMap PageEntry.encoding ++
      List.replicate (pageRowBytes - (pageRowHeaderBytes + (entries.map PageEntry.encodedLen).sum)) 0 := by
    conv_lhs => rw [h.eq]
    exact drop_left' (length_leBytes 4 _)
  unfold decodePageRow
  simp only [h.length, ne_eq, not_true_eq_false, if_false, hread, hdrop]
  cases hentries : entries with
  | nil =>
    -- An unused row is all zero, its count included.
    have hzero : row.any (· != 0) = false := by
      rw [h.eq, hentries]
      simp [leBytes]
    simp [hzero]
  | cons entry rest =>
    rw [if_neg (by simp), if_neg (by rw [← hentries]; omega), ← hentries,
      decodePageEntries_encoding h.accepted h.encodable hwf (by simpa using h.nodup)]
    simp

end Zakura.Transparent
