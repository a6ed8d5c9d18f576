import Zakura.Transparent.Lemmas.Sliced

/-! # The transparent codecs are exact

What an encoder writes is decoded to what it was written for, and what a decoder accepts is what the encoder
writes for it. No decoder panics. -/

namespace Zakura.Transparent

open List

/-- Self-contained events. -/
theorem event_exact :
    (∀ event bytes, TransparentEvent.toBytes event = .ok bytes → TransparentEvent.fromBytes bytes = .ok event) ∧
    (∀ bytes event, TransparentEvent.fromBytes bytes = .ok event → event.toBytes = .ok bytes) ∧
    (∀ event start tail, TransparentEvent.toBytes event = .ok (start ++ tail) → tail ≠ [] →
      ((∃ result, TransparentEvent.fromBytes start = .ok result) ↔
        event.metadata ≠ none ∧ start = event.legacyBytes)) ∧
    ∀ bytes, Sliced.fromBytes bytes = Checked.done (TransparentEvent.fromBytes bytes) := by
  refine ⟨?_, ?_, ?_, Sliced.fromBytes_eq⟩
  · intro event bytes h
    exact TransparentEvent.fromBytes_ok.mpr h
  · intro bytes event h
    exact TransparentEvent.fromBytes_ok.mp h
  · intro event start tail h htail
    exact TransparentEvent.fromBytes_strictPrefix h htail

/-- Compact events: a decoder at the start of its input returns the events and how much it consumed. -/
theorem compact_exact :
    (∀ events bytes, events.length ≤ eventsPerPage → Compact.encode events = .ok bytes →
      bytes.length = Compact.encodedLen events ∧
      ∀ more, (Compact.decode events.length).runAt (bytes ++ more) 0 = .ok (events, Compact.encodedLen events)) ∧
    ∀ bytes count events used, (Compact.decode count).runAt bytes 0 = .ok (events, used) →
      used ≤ bytes.length ∧ Compact.encode events = .ok (bytes.take used) := by
  refine ⟨?_, ?_⟩
  · intro events bytes hcount hencode
    obtain ⟨hall, rfl⟩ := Compact.encode_ok.mp hencode
    have hlength := Compact.length_encodingFrom none events
    refine ⟨hlength, fun more => ?_⟩
    rw [Reader.runAt, drop_zero, Compact.decode_encoding hcount hall]
    change Except.ok (events, (_ ++ more).length - more.length) = _
    rw [length_append, Nat.add_sub_cancel, hlength]
    rfl
  · intro bytes count events used h
    obtain ⟨hrun, -, hused⟩ := Reader.runAt_ok (Sliced.decodeCompact_leavesSuffix count) (Nat.zero_le _) h
    obtain ⟨-, -, hall, hbytes⟩ := Compact.run_decode_ok.mp hrun
    rw [drop_zero] at hbytes
    refine ⟨hused, Compact.encode_ok.mpr ⟨hall, ?_⟩⟩
    have hsplit : bytes.take used ++ bytes.drop used = Compact.encodingFrom none events ++ bytes.drop used := by
      rw [take_append_drop, ← hbytes]
    exact append_cancel_right hsplit

/-- Page rows. -/
theorem pageRow_exact :
    (∀ entries row, (∀ entry ∈ entries, PageEntry.Constructed entry ∧ inOrder entry.events = true) →
      encodePageRow entries = .ok row → decodePageRow row = .ok entries) ∧
    (∀ row entries, decodePageRow row = .ok entries → encodePageRow entries = .ok row) ∧
    ∀ row, Sliced.decodePageRow row = Checked.done (decodePageRow row) := by
  refine ⟨?_, ?_, Sliced.decodePageRow_eq⟩
  · intro entries row hentries h
    exact decodePageRow_of (encodePageRow_ok h) fun e he => (hentries e he).1.wellFormed (hentries e he).2
  · intro row entries h
    exact encodePageRow_of (decodePageRow_canonical h).1

/-- Directory rows, under a count of page shards. -/
theorem directoryRow_exact :
    (∀ children entries row, encodeDirectoryRow entries = .ok row →
      (∀ entry ∈ entries, ∀ child headRow, DirectoryEntry.head entry = some (child, headRow) → child.toNat < children) →
      ∃ decoded, decodeDirectoryRow row children = .ok decoded ∧
        List.Forall₂ (fun d e => d.tag = e.tag ∧ d.inline = e.inline ∧ d.head = e.head) decoded entries) ∧
    (∀ row children entries, children ≤ 32 → decodeDirectoryRow row children = .ok entries →
      encodeDirectoryRow entries = .ok row) ∧
    ∀ row children, Sliced.decodeDirectoryRow row children = Checked.done (decodeDirectoryRow row children) := by
  refine ⟨?_, ?_, Sliced.decodeDirectoryRow_eq⟩
  · intro children entries row h hchild
    refine ⟨_, decodeDirectoryRow_encode h fun e he hrow => ?_, ?_⟩
    · exact hchild e he e.headChild (e.headRow - 1) (if_neg hrow)
    · rw [forall₂_map_left_iff, forall₂_same]
      exact fun e _ => ⟨rfl, rfl, rfl⟩
  · intro row children entries _ h
    exact encodeDirectoryRow_decode h

end Zakura.Transparent
