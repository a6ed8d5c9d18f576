import Zakura.Catalog.Lemmas.Pass
import Zakura.Catalog.Lemmas.Recut

/-! # What the catalog guarantees -/

namespace Zakura.Catalog

open List

/-- Over every sequence of passes, acknowledgments and resets, two revisions exported for one source that share a lineage
or an identity are the same revision. -/
theorem exports_never_contradict (tools : Tools) (tables : Tables) (exported : List RecoveryRevision)
    (h : Reaches tools tables exported) (a b : RecoveryRevision) (ha : a ∈ exported) (hb : b ∈ exported)
    (hsource : a.source = b.source) (hshared : a.lineage = b.lineage ∨ a.revision = b.revision) : a = b :=
  h.sound.agrees a ha b hb hsource hshared

/-- A hash that repeats the byte before the last: in a revision's identity, the digest's last letter. -/
def letterTools : Tools where
  sha256 bytes := ⟨List.replicate 32 (bytes.dropLast.getLastD 0), length_replicate⟩
  hexDecode _ := some (List.replicate 32 0)
  sealJson _ := []

/-- The unsealed shard from the height zero on, in the revision of a lineage. -/
def openEntry (digest : String) (letter : UInt8) (lineage endHeight : UInt64) : Published :=
  ⟨0, 0, endHeight, digest, "",
    ⟨List.replicate 32 0, List.replicate 32 letter, lineage, false, ⟨endHeight.toUInt32, .zero 32⟩⟩⟩

/-- The shard is exported and replaced by its second revision, which is exported too; the first is acknowledged and
pruned, and the next pass exports the second again. -/
theorem exports_never_contradict_revised :
    let first := openEntry "a" 97 1 4
    let second := openEntry "b" 98 2 9
    let exported := [first.revision, second.revision, second.revision]
    ∃ tables, Reaches letterTools tables exported ∧ tables.rows.map CatalogRow.lineage = [2] ∧
      ∀ a ∈ exported, ∀ b ∈ exported, a.lineage = b.lineage → a = b := by
  intro first second exported
  let set : SetIdentity := ⟨"", "", "", "", 0, 0, [("", ⟨0, 0, 0⟩)]⟩
  have hfirst : Published.new letterTools (.zero 32) set ⟨0, "", 0, 4, "", "a", 0, false⟩ = .ok first := rfl
  have hsecond : Published.new letterTools (.zero 32) set ⟨0, "", 0, 9, "", "b", 1, false⟩ = .ok second := rfl
  let opened : Tables := ⟨[{ CatalogPass.rowOf first with exported := true }], [first.revision]⟩
  let revised : Tables := ⟨[{ CatalogPass.rowOf second with exported := true }], [first.revision, second.revision]⟩
  have hclassify : [CatalogPass.Call.classify first].foldlM CatalogPass.call (.begin {} [first] []) =
      .ok { rows := [CatalogPass.rowOf first] } := rfl
  have hopened : Reaches letterTools opened ([] ++ [first.revision]) := .pass .empty
    (forall_mem_singleton.mpr ⟨_, _, _, hfirst⟩) hclassify rfl
    (forall_mem_singleton.mpr ⟨first, mem_singleton_self _, rfl⟩)
  have hsettle : [CatalogPass.Call.classify second, .settle [second] fun _ => some 2].foldlM CatalogPass.call
      (.begin opened [second] []) =
      .ok ⟨⟨[{ CatalogPass.rowOf first with exported := true, current := false }, CatalogPass.rowOf second],
        [first.revision]⟩, none, false⟩ := rfl
  have hreplaced : Reaches letterTools _ ([first.revision] ++ [second.revision]) := .pass hopened
    (forall_mem_singleton.mpr ⟨_, _, _, hsecond⟩) hsettle rfl
    (forall_mem_singleton.mpr ⟨second, mem_singleton_self _, rfl⟩)
  have hpruned : Reaches letterTools revised ([first.revision] ++ [second.revision]) :=
    hreplaced.acknowledge [first.revision]
  have hagain : [CatalogPass.Call.classify second].foldlM CatalogPass.call (.begin revised [second] []) =
      .ok ⟨revised, none, false⟩ := rfl
  have hexported : Reaches letterTools revised ([first.revision, second.revision] ++ [second.revision]) := .pass hpruned
    (forall_mem_singleton.mpr ⟨_, _, _, hsecond⟩) hagain rfl
    (forall_mem_singleton.mpr ⟨second, mem_singleton_self _, rfl⟩)
  refine ⟨revised, hexported, rfl, fun a ha b hb hlineage => ?_⟩
  have hsource : ∀ c ∈ exported, c.source = List.replicate 32 0 := by decide
  exact exports_never_contradict letterTools _ _ hexported a b ha hb ((hsource a ha).trans (hsource b hb).symm)
    (.inl hlineage)

/-- The search through indexes answers as the scan by pairs, with the cause that it finds first. -/
theorem declaration_conflict_pairwise (published declarations : List Published) :
    declarationConflict published declarations = pairwiseConflict published declarations := by
  induction declarations with
  | nil => rfl
  | cons declared declarations ih => rw [declarationConflict_cons, pairwiseConflict, ih]

end Zakura.Catalog
