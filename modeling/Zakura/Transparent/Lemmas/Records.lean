import Zakura.Transparent.Records
import Zakura.Transparent.Lemmas.PageRow

/-! # What the directory-row decoder reads back

A row that the encoder wrote is decoded to the entries it holds, without what is not on the wire. -/

namespace Zakura.Transparent

open List Zakura.Except Reader

namespace DirectoryEntry

def onWire (entry : DirectoryEntry) : DirectoryEntry :=
  { entry with script := [], eventCount := entry.inline.length }

def encoding (entry : DirectoryEntry) : Bytes :=
  entry.tag.val ++ ([entry.flagsChild] ++ (leBytes 4 entry.headRow.toNat ++
    Compact.encodingFrom none entry.inline))

structure Accepted (entry : DirectoryEntry) : Prop where
  script : entry.script.length ≤ maxScriptBytes
  inline_ne : entry.inline ≠ []
  inline_le : entry.inline.length ≤ inlineEvents
  inline_full : entry.headRow ≠ 0 → entry.inline.length = inlineEvents
  child_lt : entry.headChild.toNat < maxPageChildren
  child_zero : entry.headRow = 0 → entry.headChild = 0
  inOrder : inOrder entry.inline = true
  encodable : ∀ event ∈ entry.inline, event.Encodable

variable {entry : DirectoryEntry}

theorem encode_ok {bytes : Bytes} (h : entry.encode = .ok bytes) : entry.Accepted ∧ bytes = entry.encoding := by
  unfold DirectoryEntry.encode at h
  split_ifs at h with hscript hinline hchild horder
  simp only [bind_eq_ok, pure_eq_ok, Compact.encode_ok] at h
  obtain ⟨events, ⟨hevents, rfl⟩, rfl⟩ := h
  simp only [not_or, not_and, not_not, List.isEmpty_iff, not_lt, not_le] at hinline hchild
  refine ⟨⟨by omega, hinline.1, hinline.2.1, hinline.2.2, hchild.1, hchild.2, by simpa using horder, hevents⟩, ?_⟩
  simp only [encoding, append_assoc]

theorem flagsChild_bits : ∀ child < 32, ∀ one : Bool,
    (UInt8.ofNat child ||| if one then flagOneInline else 0) &&& childMask = UInt8.ofNat child ∧
      (UInt8.ofNat child ||| if one then flagOneInline else 0) &&& reservedFlags = 0 ∧
      ((UInt8.ofNat child ||| if one then flagOneInline else 0) &&& flagOneInline ≠ 0 ↔ one = true) := by
  decide

theorem decode_encoding {children : Nat} (h : entry.Accepted)
    (hchild : entry.headRow ≠ 0 → entry.headChild.toNat < children)
    (input : Bytes) :
    (decode children).run (entry.encoding ++ input) = .ok (entry.onWire, input) := by
  obtain ⟨hmask, hreserved, hone⟩ := flagsChild_bits entry.headChild.toNat h.child_lt
    (decide (entry.inline.length = 1))
  simp only [UInt8.ofNat_toNat, decide_eq_true_eq] at hmask hreserved hone
  change entry.flagsChild &&& childMask = entry.headChild at hmask
  change entry.flagsChild &&& reservedFlags = 0 at hreserved
  change entry.flagsChild &&& flagOneInline ≠ 0 ↔ _ at hone
  have hpos : 0 < entry.inline.length := length_pos_iff.mpr h.inline_ne
  have hle := h.inline_le
  have hcount : (if entry.flagsChild &&& flagOneInline ≠ 0 then 1 else inlineEvents) =
      entry.inline.length := by
    unfold inlineEvents at hle ⊢
    split_ifs with hflag
    · exact (hone.mp hflag).symm
    · have := mt hone.mpr hflag
      omega
  unfold decode
  rw [run_bind_ok]
  refine ⟨_, _, run_remaining_ok.mpr ⟨rfl, rfl⟩, ?_⟩
  rw [if_neg (by simp [encoding, directoryEntryHeaderBytes]; omega), encoding]
  simp only [append_assoc]
  rw [run_bind_ok]
  refine ⟨_, _, run_takeBytes_ok.mpr rfl, ?_⟩
  rw [run_bind_ok]
  refine ⟨_, _, run_byte_ok.mpr rfl, ?_⟩
  rw [run_bind_ok]
  refine ⟨_, _, run_word32_ok.mpr rfl, ?_⟩
  rw [if_neg (by simp [hreserved]), hmask, if_neg (by simpa using h.child_zero), if_neg, if_neg, hcount,
    run_bind_ok]
  · refine ⟨_, _, Compact.decode_encoding ?_ h.encodable input, ?_⟩
    · unfold inlineEvents at hle
      unfold eventsPerPage
      omega
    · rw [if_neg (by rw [h.inOrder]; simp)]
      exact run_pure_ok.mpr ⟨rfl, rfl⟩
  · rintro ⟨hrow, hle⟩
    have := hchild hrow
    omega
  · rintro ⟨hrow, hflag⟩
    have hfull := h.inline_full hrow
    have := hone.mp hflag
    unfold inlineEvents at hfull
    omega

end DirectoryEntry

variable {entries : List DirectoryEntry} {seen : List Tag}

theorem encodeDirectoryEntries_ok {bytes : Bytes} (h : encodeDirectoryEntries entries seen = .ok bytes) :
    (∀ entry ∈ entries, entry.Accepted) ∧ (∀ entry ∈ entries, entry.tag ∉ seen) ∧
      (entries.map (·.tag)).Nodup ∧ bytes = entries.flatMap DirectoryEntry.encoding := by
  induction entries generalizing seen bytes with
  | nil =>
    simp only [encodeDirectoryEntries, Except.ok.injEq] at h
    simp [← h]
  | cons entry entries ih =>
    unfold encodeDirectoryEntries at h
    split_ifs at h with hseen
    simp only [bind_eq_ok, pure_eq_ok] at h
    obtain ⟨front, hfront, rest, hrest, rfl⟩ := h
    obtain ⟨haccepted, rfl⟩ := DirectoryEntry.encode_ok hfront
    obtain ⟨hall, hnew, hnodup, rfl⟩ := ih hrest
    simp only [mem_append, mem_singleton, not_or] at hnew
    refine ⟨?_, ?_, ?_, rfl⟩
    · simpa using ⟨haccepted, hall⟩
    · simpa using ⟨by simpa using hseen, fun e he => (hnew e he).1⟩
    · rw [map_cons, nodup_cons]
      refine ⟨?_, hnodup⟩
      intro hmem
      obtain ⟨e, he, htag⟩ := mem_map.mp hmem
      exact (hnew e he).2 htag

variable {children : Nat}

/-- By induction on the entries, the tags already read going along. -/
theorem decodeDirectoryEntries_encoding (haccepted : ∀ entry ∈ entries, entry.Accepted)
    (hchild : ∀ entry ∈ entries, entry.headRow ≠ 0 → entry.headChild.toNat < children)
    (hnodup : (seen ++ entries.map (·.tag)).Nodup) (input : Bytes) :
    (decodeDirectoryEntries children entries.length seen).run
        (entries.flatMap DirectoryEntry.encoding ++ input) = .ok (entries.map DirectoryEntry.onWire, input) := by
  induction entries generalizing seen with
  | nil => exact run_pure_ok.mpr ⟨rfl, rfl⟩
  | cons entry entries ih =>
    have hnew : entry.tag ∉ seen := not_mem_of_nodup_append hnodup
    rw [flatMap_cons, append_assoc, length_cons, decodeDirectoryEntries, run_bind_ok]
    refine ⟨_, _, DirectoryEntry.decode_encoding (haccepted entry mem_cons_self)
      (hchild entry mem_cons_self) _, ?_⟩
    rw [if_neg (by simpa [DirectoryEntry.onWire] using hnew), run_bind_ok]
    refine ⟨entries.map DirectoryEntry.onWire, input, ?_, run_pure_ok.mpr ⟨rfl, rfl⟩⟩
    refine ih (fun e he => haccepted e (mem_cons_of_mem _ he))
      (fun e he => hchild e (mem_cons_of_mem _ he)) ?_
    rw [append_assoc]
    exact hnodup

theorem decodeDirectoryRow_encode {row : Bytes} (h : encodeDirectoryRow entries = .ok row)
    (hchild : ∀ entry ∈ entries, entry.headRow ≠ 0 → entry.headChild.toNat < children) :
    decodeDirectoryRow row children = .ok (entries.map DirectoryEntry.onWire) := by
  unfold encodeDirectoryRow at h
  by_cases hcount : directorySlots < entries.length
  · rw [if_pos hcount] at h
    cases h
  rw [if_neg hcount] at h
  simp only [bind_eq_ok] at h
  obtain ⟨body, hbody, h⟩ := h
  split_ifs at h with hcapacity
  simp only [pure_eq_ok] at h
  obtain ⟨haccepted, -, hnodup, rfl⟩ := encodeDirectoryEntries_ok hbody
  have hsmall : directorySlots < 256 ^ 4 := by decide
  have hlength : row.length = directoryRowBytes := by
    rw [← h, length_append, length_replicate]
    omega
  have hread : leNat (row.take directoryRowHeaderBytes) = entries.length := by
    rw [← h, append_assoc, directoryRowHeaderBytes, take_left' (length_leBytes 4 _),
      leNat_leBytes_of_lt (by omega)]
  unfold decodeDirectoryRow
  simp only [hlength, ne_eq, not_true_eq_false, if_false, hread, if_neg hcount]
  rw [← h, append_assoc, directoryRowHeaderBytes, drop_left' (length_leBytes 4 _),
    decodeDirectoryEntries_encoding haccepted hchild (by simpa using hnodup)]
  simp

end Zakura.Transparent
