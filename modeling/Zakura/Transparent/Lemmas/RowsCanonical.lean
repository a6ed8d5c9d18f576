import Zakura.Transparent.Lemmas.CompactCanonical
import Zakura.Transparent.Lemmas.Records

/-! # What the row decoders accept

A page row or a directory row is accepted only if it is the row of the entries it is decoded to. -/

namespace Zakura.Transparent

open List Zakura.Except Reader

/-! ## Page rows -/

variable {seen : List Tag}

theorem nodup_append_tag {tag : Tag} (hseen : seen.Nodup) (hnew : tag ∉ seen) : (seen ++ [tag]).Nodup :=
  nodup_append.mpr ⟨hseen, nodup_singleton _,
    fun a ha b hb hab => hnew (by rwa [← mem_singleton.mp hb, ← hab])⟩

structure PageEntry.Stored (entry : PageEntry) : Prop where
  accepted : entry.events ≠ [] ∧ entry.events.length ≤ eventsPerPage ∧
    PageEntry.carries entry.ordinal entry.link = true
  encodable : ∀ event ∈ entry.events, event.Encodable
  wellFormed : entry.WellFormed

inductive PageEntry.Constructed : PageEntry → Prop
  | new {tag ordinal fragmentCount events entry} :
    PageEntry.new tag ordinal fragmentCount events = .ok entry → Constructed entry
  | withLink {entry link linked} : Constructed entry → entry.withLink link = .ok linked → Constructed linked

/-- The constructors establish what the decoder checks, the order of the events apart. -/
theorem PageEntry.Constructed.wellFormed {entry : PageEntry} (h : entry.Constructed)
    (horder : Transparent.inOrder entry.events = true) : entry.WellFormed := by
  induction h with
  | new hnew =>
    obtain ⟨-, -, -, hordinal, rfl⟩ := PageEntry.new_ok hnew
    exact ⟨hordinal, horder, rfl, rfl⟩
  | withLink _ hlink ih =>
    obtain ⟨-, rfl⟩ := PageEntry.withLink_ok hlink
    obtain ⟨hordinal, hin, hmin, hmax⟩ := ih horder
    exact ⟨hordinal, hin, hmin, hmax⟩

variable {input rest : Bytes}

theorem readPageHeader_ok {tag : Tag} {ordinal fragmentCount eventCount minHeight maxHeight : UInt32} {link : RunLink}
    (h : readPageHeader.run input = .ok ((tag, ordinal, fragmentCount, eventCount, minHeight, maxHeight, link), rest)) :
    input = tag.val ++ leBytes 4 ordinal.toNat ++ leBytes 4 fragmentCount.toNat ++ leBytes 4 eventCount.toNat ++
      leBytes 4 minHeight.toNat ++ leBytes 4 maxHeight.toNat ++ [link.prevChild] ++ leBytes 4 link.prevRow.toNat ++
      [link.olderRuns] ++ rest := by
  simp only [readPageHeader, run_bind_ok, run_takeBytes_ok, run_word32_ok, run_byte_ok,
    run_pure_ok, Prod.mk.injEq] at h
  obtain ⟨_, _, rfl, _, _, rfl, _, _, rfl, _, _, rfl, _, _, rfl, _, _, rfl, _, _, rfl, _, _, rfl, _, _, rfl,
    ⟨rfl, rfl, rfl, rfl, rfl, rfl, rfl⟩, rfl⟩ := h
  simp only [append_assoc, cons_append, nil_append]

theorem run_decodePageEntry_ok {entry : PageEntry} :
    (decodePageEntry seen).run input = .ok (entry, rest) ↔
      entry.Stored ∧ entry.tag ∉ seen ∧ input = entry.encoding ++ rest := by
  constructor
  · intro h
    unfold decodePageEntry at h
    rw [run_bind_ok] at h
    obtain ⟨⟨tag, ordinal, fragmentCount, eventCount, minHeight, maxHeight, link⟩, mid, hheader, h⟩ := h
    simp only [run_ite_fail_ok, run_bind_ok, run_pure_ok] at h
    obtain ⟨hcount, hfragment, hlink, events, mid', hevents, horder, hheights, hseen, rfl, rfl⟩ := h
    obtain ⟨hlength, hle, hall, rfl⟩ := Compact.run_decode_ok.mp hevents
    simp only [not_or, not_not, UInt32.not_le] at hcount hfragment hheights
    refine ⟨⟨⟨?_, hlength.trans_le hle, by simpa using hlink⟩, hall, ?_⟩, by simpa using hseen, ?_⟩
    · intro (hnil : events = [])
      rw [hnil, length_nil] at hlength
      exact hcount.1 (UInt32.toNat_inj.mp hlength.symm)
    · exact ⟨hfragment.2, by simpa using horder, hheights.1.symm, hheights.2.symm⟩
    · rw [readPageHeader_ok hheader, PageEntry.encoding, PageEntry.header, hlength]
      simp only [append_assoc]
  · rintro ⟨⟨⟨hne, hcount, hlink⟩, hall, hwf⟩, hnew, rfl⟩
    exact decodePageEntry_encoding hne hcount hlink hall hwf hnew rest

variable {entries : List PageEntry}

/-- By induction on the count, the tags already read going along. -/
theorem decodePageEntries_canonical {count : Nat} (hseen : seen.Nodup)
    (h : (decodePageEntries count seen).run input = .ok (entries, rest)) :
    entries.length = count ∧ (∀ entry ∈ entries, entry.Stored) ∧ (seen ++ entries.map (·.tag)).Nodup ∧
      input = entries.flatMap PageEntry.encoding ++ rest := by
  induction count generalizing seen entries input with
  | zero =>
    obtain ⟨rfl, rfl⟩ := run_pure_ok.mp h
    exact ⟨rfl, by simp, by simpa using hseen, rfl⟩
  | succ count ih =>
    simp only [decodePageEntries, run_bind_ok, run_pure_ok] at h
    obtain ⟨entry, mid, hentry, entries, _, hentries, rfl, rfl⟩ := h
    obtain ⟨hstored, hnew, rfl⟩ := run_decodePageEntry_ok.mp hentry
    obtain ⟨hlength, hall, hnodup, rfl⟩ := ih (nodup_append_tag hseen hnew) hentries
    refine ⟨by rw [length_cons, hlength], by simpa using ⟨hstored, hall⟩, ?_, ?_⟩
    · simpa using hnodup
    · rw [flatMap_cons, append_assoc]

variable {row : Bytes}

theorem encodePageRow_of (h : PageRowOf entries row) : encodePageRow entries = .ok row := by
  have hbodies : entries.mapM PageEntry.bytes = .ok (entries.map PageEntry.encoding) := by
    rw [mapM_eq_ok, List.forall₂_map_right_iff, List.forall₂_same]
    exact fun entry hentry => PageEntry.bytes_ok.mpr ⟨h.encodable entry hentry, rfl⟩
  have hcount := h.count
  have hfits := h.fits
  unfold encodePageRow
  rw [if_neg (by omega)]
  simp only [bind_eq_ok]
  refine ⟨_, countPageEntries_ok.mpr ⟨h.accepted, rfl⟩, ?_⟩
  rw [if_neg (by omega), repeatsTag_eq_false.mpr h.nodup, if_neg (by simp)]
  simp only [bind_eq_ok, pure_eq_ok]
  refine ⟨_, hbodies, ?_⟩
  rw [h.eq, ← flatMap_def, append_assoc, length_append, length_leBytes, length_flatMap_encoding]
  rfl

theorem eq_replicate_of_any_ne (h : ¬ rest.any (· != 0) = true) : rest = List.replicate rest.length 0 := by
  refine eq_replicate_iff.mpr ⟨rfl, fun b hb => ?_⟩
  by_contra hne
  exact h (any_eq_true.mpr ⟨b, hb, by simpa using hne⟩)

/-- The decoder accepts exactly the rows of entries that may stand in one. -/
theorem decodePageRow_canonical (h : decodePageRow row = .ok entries) :
    PageRowOf entries row ∧ ∀ entry ∈ entries, entry.WellFormed := by
  unfold decodePageRow at h
  dsimp only at h
  split_ifs at h with hlength hzero hdirty hcount
  · -- An unused row is all zero.
    obtain rfl := Except.ok.inj h
    rw [not_not] at hlength
    refine ⟨⟨by decide, by simp, by simp, by decide, by simp, ?_⟩, by simp⟩
    rw [eq_replicate_of_any_ne hdirty, hlength]
    rfl
  · rw [not_not] at hlength
    split at h
    · cases h
    rename_i entries' rest hrun
    split_ifs at h with hdirty
    obtain rfl := Except.ok.inj h
    obtain ⟨hentries, hall, hnodup, hdrop⟩ := decodePageEntries_canonical nodup_nil hrun
    have hhead : leBytes 4 entries'.length = row.take pageRowHeaderBytes := by
      rw [hentries]
      refine leBytes_leNat_of_length ?_
      rw [length_take, hlength]
      rfl
    have hrest := eq_replicate_of_any_ne hdirty
    have hsum : rest.length + (pageRowHeaderBytes + (entries'.map PageEntry.encodedLen).sum) = pageRowBytes := by
      have hlen := congrArg List.length hdrop
      rw [length_append, length_flatMap_encoding, length_drop, hlength] at hlen
      have hle : pageRowHeaderBytes ≤ pageRowBytes := by decide
      omega
    refine ⟨⟨by omega, fun e he => (hall e he).accepted, fun e he => (hall e he).encodable, by omega,
      by simpa using hnodup, ?_⟩, fun e he => (hall e he).wellFormed⟩
    rw [hhead, ← hsum, Nat.add_sub_cancel, ← hrest, ← hdrop, take_append_drop]

/-! ## Directory rows -/

namespace DirectoryEntry

theorem encode_of_accepted {entry : DirectoryEntry} (h : entry.Accepted) : entry.encode = .ok entry.encoding := by
  have hscript := h.script
  have hinline := h.inline_le
  have hchild := h.child_lt
  unfold DirectoryEntry.encode
  rw [if_neg (by omega), if_neg, if_neg, if_neg (by rw [h.inOrder]; simp)]
  · simp only [bind_eq_ok, pure_eq_ok, Compact.encode_ok]
    refine ⟨_, ⟨h.encodable, rfl⟩, ?_⟩
    simp only [encoding, append_assoc]
  · rintro (hle | ⟨hrow, hne⟩)
    · omega
    · exact hne (h.child_zero hrow)
  · rintro (hempty | hlt | ⟨hrow, hne⟩)
    · exact h.inline_ne (List.isEmpty_iff.mp hempty)
    · omega
    · exact hne (h.inline_full hrow)

set_option maxRecDepth 4096 in
theorem flagsChild_eq {flags : UInt8} (hreserved : flags &&& reservedFlags = 0) :
    (flags &&& childMask) ||| (if flags &&& flagOneInline ≠ 0 then flagOneInline else 0) = flags ∧
      (flags &&& childMask).toNat < maxPageChildren := by
  revert flags
  refine @(forall_byte ?_)
  decide

/-- What the decoder accepts as an entry under a child count. -/
structure Stored (children : Nat) (entry : DirectoryEntry) : Prop where
  accepted : entry.Accepted
  onWire : entry.onWire = entry
  child : entry.headRow ≠ 0 → entry.headChild.toNat < children

theorem decode_canonical {children : Nat} {entry : DirectoryEntry} {input rest : Bytes}
    (h : (decode children).run input = .ok (entry, rest)) :
    entry.Stored children ∧ input = entry.encoding ++ rest := by
  unfold decode at h
  simp only [run_bind_ok, run_remaining_ok, run_ite_fail_ok, run_takeBytes_ok,
    run_byte_ok, run_word32_ok, run_pure_ok] at h
  obtain ⟨_, _, ⟨rfl, rfl⟩, -, tag, _, rfl, flags, _, rfl, headRow, _, rfl, hreserved, hnone, hone, hchild, inline, _,
    hinline, horder, rfl, rfl⟩ := h
  obtain ⟨hlength, -, hall, rfl⟩ := Compact.run_decode_ok.mp hinline
  rw [not_not] at hreserved
  simp only [not_and, not_not, not_le] at hnone hone hchild
  obtain ⟨hflags, hlt⟩ := flagsChild_eq hreserved
  have hpos : 0 < inline.length := by
    rw [hlength]
    split_ifs <;> decide
  have hcount : inline.length = 1 ↔ flags &&& flagOneInline ≠ 0 := by
    rw [hlength]
    split_ifs with hflag
    · exact iff_of_true rfl hflag
    · exact iff_of_false (by decide) hflag
  refine ⟨⟨⟨Nat.zero_le _, length_pos_iff.mp hpos, ?_, ?_, hlt, hnone, by simpa using horder, hall⟩, ?_, hchild⟩, ?_⟩
  · change inline.length ≤ inlineEvents
    rw [hlength]
    split_ifs <;> decide
  · intro hrow
    change inline.length = inlineEvents
    rw [hlength, if_neg (not_not.mpr (hone hrow))]
  · rw [DirectoryEntry.onWire, hlength]
  · simp only [encoding, flagsChild, hcount, hflags, append_assoc, cons_append, nil_append]

end DirectoryEntry

theorem encodeDirectoryEntries_of {entries : List DirectoryEntry} (haccepted : ∀ entry ∈ entries, entry.Accepted)
    (hnodup : (seen ++ entries.map (·.tag)).Nodup) :
    encodeDirectoryEntries entries seen = .ok (entries.flatMap DirectoryEntry.encoding) := by
  induction entries generalizing seen with
  | nil => rfl
  | cons entry entries ih =>
    rw [map_cons] at hnodup
    have hnew : entry.tag ∉ seen := not_mem_of_nodup_append hnodup
    rw [encodeDirectoryEntries, if_neg (by simpa using hnew),
      DirectoryEntry.encode_of_accepted (haccepted entry mem_cons_self), ok_bind,
      ih (fun e he => haccepted e (mem_cons_of_mem _ he)) (by simpa using hnodup), ok_bind,
      flatMap_cons]
    rfl

theorem decodeDirectoryEntries_canonical {children count : Nat} {entries : List DirectoryEntry} (hseen : seen.Nodup)
    (h : (decodeDirectoryEntries children count seen).run input = .ok (entries, rest)) :
    entries.length = count ∧ (∀ entry ∈ entries, entry.Stored children) ∧ (seen ++ entries.map (·.tag)).Nodup ∧
      input = entries.flatMap DirectoryEntry.encoding ++ rest := by
  induction count generalizing seen entries input with
  | zero =>
    obtain ⟨rfl, rfl⟩ := run_pure_ok.mp h
    exact ⟨rfl, by simp, by simpa using hseen, rfl⟩
  | succ count ih =>
    simp only [decodeDirectoryEntries, run_bind_ok, run_ite_fail_ok, run_pure_ok] at h
    obtain ⟨entry, mid, hentry, hnew, entries, _, hentries, rfl, rfl⟩ := h
    obtain ⟨hstored, rfl⟩ := DirectoryEntry.decode_canonical hentry
    obtain ⟨hlength, hall, hnodup, rfl⟩ := ih (nodup_append_tag hseen (by simpa using hnew)) hentries
    refine ⟨by rw [length_cons, hlength], by simpa using ⟨hstored, hall⟩, ?_, ?_⟩
    · simpa using hnodup
    · rw [flatMap_cons, append_assoc]

/-- An accepted directory row is the row of the entries it is decoded to. -/
theorem encodeDirectoryRow_decode {children : Nat} {entries : List DirectoryEntry}
    (h : decodeDirectoryRow row children = .ok entries) : encodeDirectoryRow entries = .ok row := by
  unfold decodeDirectoryRow at h
  dsimp only at h
  split_ifs at h with hlength hcount
  rw [not_not] at hlength
  split at h
  · cases h
  rename_i entries' rest hrun
  split_ifs at h with hdirty
  obtain rfl := Except.ok.inj h
  obtain ⟨hentries, hall, hnodup, hdrop⟩ := decodeDirectoryEntries_canonical nodup_nil hrun
  have hhead : leBytes 4 entries'.length = row.take directoryRowHeaderBytes := by
    rw [hentries]
    refine leBytes_leNat_of_length ?_
    rw [length_take, hlength]
    rfl
  have hrow : leBytes 4 entries'.length ++ entries'.flatMap DirectoryEntry.encoding ++ rest = row := by
    rw [hhead, append_assoc, ← hdrop, take_append_drop]
  have hsum := congrArg List.length hrow
  rw [length_append, hlength] at hsum
  have hbody := encodeDirectoryEntries_of (fun e he => (hall e he).accepted) hnodup
  unfold encodeDirectoryRow
  rw [if_neg (by omega), hbody, ok_bind]
  dsimp only
  rw [if_neg (by omega), ← hsum, Nat.add_sub_cancel_left, ← eq_replicate_of_any_ne hdirty, hrow]
  rfl

end Zakura.Transparent
