import Zakura.Client.History
import Zakura.Lib.Except

/-! # The search for a directory entry

All sightings of a tag that the search accepts stand under one row number. -/

namespace Zakura.Client

open List Zakura.Transparent Zakura.Except

/-- The sightings of a tag in rows, each with its row number. -/
def sightings (children : Nat) (wanted : Tag) (rows : List (Nat × Bytes)) : List (Nat × DirectoryEntry) :=
  rows.flatMap fun row =>
    (((decodeDirectoryRow row.2 children).toOption.getD []).filter fun entry => entry.tag = wanted).map fun entry =>
      (row.1, entry)

/-- What is found is one of the sightings, and all of them have its row number. -/
def OneRow (seen : List (Nat × DirectoryEntry)) : Option (Nat × DirectoryEntry) → Prop
  | none => seen = []
  | some found => found ∈ seen ∧ ∀ sighting ∈ seen, sighting.1 = found.1

variable {shardId row : Nat} {wanted : Tag} {seen : List (Nat × DirectoryEntry)}
  {found result : Option (Nat × DirectoryEntry)}

theorem scanDirectory_oneRow {entries : List DirectoryEntry} (h : OneRow seen found)
    (hscan : scanDirectory shardId row wanted entries found = .ok result) :
    OneRow (seen ++ (entries.filter fun entry => entry.tag = wanted).map fun entry => (row, entry)) result := by
  induction entries generalizing seen found with
  | nil =>
    cases hscan
    simpa using h
  | cons entry entries ih =>
    rw [scanDirectory.eq_def] at hscan
    dsimp only at hscan
    by_cases htag : entry.tag = wanted
    · rw [if_neg (not_not.mpr htag)] at hscan
      have hsplit : seen ++ ((entry :: entries).filter fun entry => entry.tag = wanted).map (fun entry => (row, entry)) =
          (seen ++ [(row, entry)]) ++ (entries.filter fun entry => entry.tag = wanted).map fun entry => (row, entry) := by
        rw [filter_cons_of_pos (by simpa using htag), map_cons, append_assoc]
        rfl
      rw [hsplit]
      cases found with
      | none =>
        refine ih ?_ hscan
        have hnil : seen = [] := h
        subst hnil
        exact ⟨mem_singleton_self _, fun sighting hsighting => congrArg Prod.fst (mem_singleton.mp hsighting)⟩
      | some first =>
        obtain ⟨seenRow, held⟩ := first
        dsimp only at hscan
        split_ifs at hscan with hrow
        have hboth : OneRow (seen ++ [(row, entry)]) (some (seenRow, held)) := by
          refine ⟨mem_append_left _ h.1, fun sighting hsighting => ?_⟩
          rcases mem_append.mp hsighting with hold | hnew
          · exact h.2 sighting hold
          · rw [mem_singleton.mp hnew]
            exact hrow.symm
        exact ih hboth hscan
    · rw [if_pos htag] at hscan
      rw [filter_cons_of_neg (by simpa using htag)]
      exact ih h hscan

variable {children : Nat}

theorem scanReplies_oneRow {rows : List (Nat × Bytes)} (h : OneRow seen found)
    (hscan : scanReplies shardId children wanted rows found = .ok result) :
    OneRow (seen ++ sightings children wanted rows) result := by
  induction rows generalizing seen found with
  | nil =>
    cases hscan
    simpa [sightings] using h
  | cons first rows ih =>
    obtain ⟨row, raw⟩ := first
    obtain ⟨decoded, hdecoded, hscan⟩ := bind_eq_ok.mp hscan
    obtain ⟨next, hnext, hscan⟩ := bind_eq_ok.mp hscan
    have hrest := ih (scanDirectory_oneRow h hnext) hscan
    rw [append_assoc] at hrest
    rwa [sightings, flatMap_cons, mapError_eq_ok.mp hdecoded]

def Sighted (children : Nat) (wanted : Tag) (replies : List (Nat × Reply)) (row : Nat) (entry : DirectoryEntry) : Prop :=
  ∃ reply ∈ replies, reply.1 = row ∧ ∃ raw ∈ reply.2, ∃ decoded, decodeDirectoryRow raw children = .ok decoded ∧
    entry ∈ decoded ∧ entry.tag = wanted

variable {replies : List (Nat × Reply)}

theorem mem_sightings {entry : DirectoryEntry} :
    (row, entry) ∈ sightings children wanted (replies.flatMap fun reply => reply.2.map fun raw => (reply.1, raw)) ↔
      Sighted children wanted replies row entry := by
  have hdecoded : ∀ raw, entry ∈ (decodeDirectoryRow raw children).toOption.getD [] ↔
      ∃ decoded, decodeDirectoryRow raw children = .ok decoded ∧ entry ∈ decoded := by
    intro raw
    cases decodeDirectoryRow raw children <;> simp [Except.toOption]
  simp only [sightings, mem_flatMap, mem_map, mem_filter, decide_eq_true_eq, Prod.mk.injEq]
  constructor
  · rintro ⟨_, ⟨reply, hreply, raw, hraw, rfl⟩, held, ⟨hmem, htag⟩, rfl, rfl⟩
    obtain ⟨decoded, hok, hmem⟩ := (hdecoded raw).mp hmem
    exact ⟨reply, hreply, rfl, raw, hraw, decoded, hok, hmem, htag⟩
  · rintro ⟨reply, hreply, rfl, raw, hraw, decoded, hok, hmem, htag⟩
    exact ⟨_, ⟨reply, hreply, raw, hraw, rfl⟩, entry, ⟨(hdecoded raw).mpr ⟨decoded, hok, hmem⟩, htag⟩, rfl, rfl⟩

theorem entryIn_eq_some {entry : ShardMapEntry} {manifest : ShardManifest} {geometry : Geometry} {found : DirectoryEntry}
    (h : entryIn entry manifest geometry wanted replies = .ok (some found)) :
    ∃ row, Sighted manifest.pageChildren.length wanted replies row found ∧
      ∀ other held, Sighted manifest.pageChildren.length wanted replies other held → other = row := by
  obtain ⟨result, hscan, h⟩ := bind_eq_ok.mp h
  have hnone : OneRow [] none := rfl
  have hseen := scanReplies_oneRow hnone hscan
  cases result with
  | none => cases h
  | some first =>
    obtain ⟨row, held⟩ := first
    obtain ⟨-, h⟩ := check_bind_eq_ok.mp h
    cases pure_eq_ok.mp h
    rw [nil_append] at hseen
    refine ⟨row, mem_sightings.mp hseen.1, fun other held' hsighted => ?_⟩
    exact hseen.2 (other, held') (mem_sightings.mpr hsighted)

end Zakura.Client
