import Zakura.Catalog.Pass

/-! # The pairwise scan of re-cut declarations -/

namespace Zakura.Catalog

open List

/-- How a published revision stands to a declared one of its source. -/
def publishedConflict (ours theirs : RecoveryRevision) : Option WithdrawnCause :=
  if theirs.source ≠ ours.source then none
  else if theirs.lineage = ours.lineage then some .equivocation
  else if theirs.lineage < ours.lineage then some .regression
  else none

/-- A declaration of the same source and lineage that differs. -/
def differsFrom (ours theirs : RecoveryRevision) : Prop :=
  theirs.source = ours.source ∧ theirs.lineage = ours.lineage ∧ theirs ≠ ours

instance (ours theirs : RecoveryRevision) : Decidable (differsFrom ours theirs) :=
  inferInstanceAs (Decidable (_ ∧ _ ∧ _))

/-- The scan by pairs: each declaration against what is published, in order, and then against the later declarations. -/
def pairwiseConflict (published : List Published) : List Published → Option WithdrawnCause
  | [] => none
  | declared :: later =>
    match published.findSome? fun entry => publishedConflict declared.revision entry.revision with
    | some cause => some cause
    | none =>
      if ∃ other ∈ later, differsFrom declared.revision other.revision then some .equivocation
      else pairwiseConflict published later

/-- The published revisions of the declared one's source, searched by lineage. -/
theorem find?_lineage (published : List Published) (ours : RecoveryRevision) :
    (((published.filter fun entry => entry.revision.source = ours.source).map fun entry => entry.revision.lineage).find?
      (· ≤ ours.lineage)).map (fun theirs => if theirs = ours.lineage then WithdrawnCause.equivocation else .regression) =
        published.findSome? fun entry => publishedConflict ours entry.revision := by
  induction published with
  | nil => rfl
  | cons entry published ih =>
    rw [findSome?_cons, publishedConflict]
    by_cases hsource : entry.revision.source = ours.source
    · rw [filter_cons_of_pos (by simpa using hsource), map_cons, if_neg (not_not_intro hsource)]
      by_cases hle : entry.revision.lineage ≤ ours.lineage
      · rw [find?_cons_of_pos (by simpa using hle), Option.map_some]
        by_cases heq : entry.revision.lineage = ours.lineage
        · rw [if_pos heq, if_pos heq]
        · rw [if_neg heq, if_neg heq, if_pos (UInt64.lt_of_le_of_ne hle heq)]
      · have hne : entry.revision.lineage ≠ ours.lineage := fun heq => hle (heq ▸ UInt64.le_refl _)
        rw [find?_cons_of_neg (by simpa using hle), if_neg hne, if_neg fun hlt => hle (UInt64.le_of_lt hlt), ih]
    · rw [filter_cons_of_neg (by simpa using hsource), if_pos hsource, ih]

def indexKey (revision : RecoveryRevision) : Bytes × UInt64 := (revision.source, revision.lineage)

theorem differsFrom_iff {ours theirs : RecoveryRevision} :
    differsFrom ours theirs ↔ indexKey theirs = indexKey ours ∧ theirs ≠ ours := by
  rw [differsFrom, indexKey, indexKey, Prod.mk.injEq, and_assoc]

/-- What the index says of a source and lineage: the one revision declared under it, or nothing once there are two. -/
def Indexes (declarations : List Published) (key : Bytes × UInt64) : Option (Option RecoveryRevision) → Prop
  | none => ∀ declared ∈ declarations, indexKey declared.revision ≠ key
  | some (some theirs) => (∃ declared ∈ declarations, declared.revision = theirs ∧ indexKey theirs = key) ∧
      ∀ declared ∈ declarations, indexKey declared.revision = key → declared.revision = theirs
  | some none => ∃ a ∈ declarations, ∃ b ∈ declarations, indexKey a.revision = key ∧ indexKey b.revision = key ∧
      a.revision ≠ b.revision

variable {declared : Published} {declarations : List Published} {found : Option (Option RecoveryRevision)}

theorem Indexes.cons_of_ne {key : Bytes × UInt64} (h : Indexes declarations key found)
    (hne : indexKey declared.revision ≠ key) : Indexes (declared :: declarations) key found := by
  match found with
  | none => exact forall_mem_cons.mpr ⟨hne, h⟩
  | some (some theirs) =>
    obtain ⟨⟨other, hother, hrest⟩, hall⟩ := h
    exact ⟨⟨other, mem_cons_of_mem _ hother, hrest⟩, forall_mem_cons.mpr ⟨fun heq => absurd heq hne, hall⟩⟩
  | some none =>
    obtain ⟨a, ha, b, hb, hrest⟩ := h
    exact ⟨a, mem_cons_of_mem _ ha, b, mem_cons_of_mem _ hb, hrest⟩

/-- A later declaration differs exactly when the index names another revision, or two. -/
theorem Indexes.differs_iff {ours : RecoveryRevision} (h : Indexes declarations (indexKey ours) found) :
    (∃ other ∈ declarations, differsFrom ours other.revision) ↔ ∃ theirs, found = some theirs ∧ theirs ≠ some ours := by
  simp only [differsFrom_iff]
  match found with
  | none =>
    refine iff_of_false (fun ⟨other, hother, hkey, _⟩ => h other hother hkey) fun ⟨_, hnone, _⟩ => ?_
    cases hnone
  | some (some theirs) =>
    obtain ⟨⟨first, hfirst, rfl, hkey⟩, hall⟩ := h
    constructor
    · rintro ⟨other, hother, hkey', hne⟩
      exact ⟨_, rfl, fun heq => hne ((hall other hother hkey').trans (Option.some_inj.mp heq))⟩
    · rintro ⟨theirs, hfound, hne⟩
      cases hfound
      exact ⟨first, hfirst, hkey, fun heq => hne (congrArg some heq)⟩
  | some none =>
    obtain ⟨a, ha, b, hb, hkey, hkey', hne⟩ := h
    refine iff_of_true ?_ ⟨none, rfl, fun hnone => by cases hnone⟩
    by_cases hours : a.revision = ours
    · exact ⟨b, hb, hkey', fun heq => hne (hours.trans heq.symm)⟩
    · exact ⟨a, ha, hkey, hours⟩

/-- By induction from the last declaration on. -/
theorem indexes_differsLater (declarations : List Published) (key : Bytes × UInt64) :
    Indexes declarations key ((differsLater declarations).2.lookup key) := by
  induction declarations generalizing key with
  | nil => exact forall_mem_nil _
  | cons declared declarations ih =>
    have hours := ih (indexKey declared.revision)
    rw [differsLater]
    -- An entry put in front is found under its own key only.
    have hfront : ∀ value, Indexes (declared :: declarations) (indexKey declared.revision) (some value) →
        Indexes (declared :: declarations) key
          (((indexKey declared.revision, value) :: (differsLater declarations).2).lookup key) := by
      intro value hvalue
      rw [lookup_cons]
      by_cases hkey : key = indexKey declared.revision
      · rw [hkey, beq_self_eq_true]
        exact hvalue
      · rw [beq_eq_false_iff_ne.mpr hkey]
        exact (ih key).cons_of_ne (Ne.symm hkey)
    cases hfound : (differsLater declarations).2.lookup (indexKey declared.revision) with
    | none =>
      rw [hfound] at hours
      rw [indexKey] at hfound
      simp only [hfound]
      refine hfront _ ⟨⟨declared, mem_cons_self, rfl, rfl⟩, forall_mem_cons.mpr ⟨fun _ => rfl, ?_⟩⟩
      exact fun other hother hkey => absurd hkey (hours other hother)
    | some theirs =>
      rw [hfound] at hours
      rw [indexKey] at hfound
      simp only [hfound]
      split_ifs with hsame
      · subst hsame
        by_cases hkey : key = indexKey declared.revision
        · rw [hkey, indexKey, hfound]
          exact ⟨⟨declared, mem_cons_self, rfl, rfl⟩, forall_mem_cons.mpr ⟨fun _ => rfl, hours.2⟩⟩
        · exact (ih key).cons_of_ne (Ne.symm hkey)
      · obtain ⟨other, hother, hdiffers⟩ := hours.differs_iff.mpr ⟨theirs, rfl, hsame⟩
        obtain ⟨hkey, hne⟩ := differsFrom_iff.mp hdiffers
        exact hfront _ ⟨declared, mem_cons_self, other, mem_cons_of_mem _ hother, rfl, hkey, Ne.symm hne⟩

/-- The mark of a declaration says whether a later one differs from it. -/
theorem differsLater_cons (declared : Published) (declarations : List Published) :
    (differsLater (declared :: declarations)).1 =
      decide (∃ other ∈ declarations, differsFrom declared.revision other.revision) :: (differsLater declarations).1 := by
  have hiff := (indexes_differsLater declarations (indexKey declared.revision)).differs_iff
  rw [differsLater]
  cases hfound : (differsLater declarations).2.lookup (indexKey declared.revision) with
  | none =>
    rw [hfound] at hiff
    rw [indexKey] at hfound
    simp [hfound, hiff]
  | some theirs =>
    rw [hfound] at hiff
    rw [indexKey] at hfound
    by_cases hsame : theirs = some declared.revision <;> simp [hfound, hiff, hsame]

theorem declarationConflict_cons (published : List Published) (declared : Published) (declarations : List Published) :
    declarationConflict published (declared :: declarations) =
      match published.findSome? fun entry => publishedConflict declared.revision entry.revision with
      | some cause => some cause
      | none =>
        if ∃ other ∈ declarations, differsFrom declared.revision other.revision then some .equivocation
        else declarationConflict published declarations := by
  rw [declarationConflict, differsLater_cons, zip_cons_cons, findSome?_cons, ← find?_lineage]
  dsimp only
  cases ((published.filter fun entry => entry.revision.source = declared.revision.source).map fun entry =>
      entry.revision.lineage).find? (fun theirs => theirs ≤ declared.revision.lineage) with
  | some theirs => rfl
  | none =>
    by_cases hdiffers : ∃ other ∈ declarations, differsFrom declared.revision other.revision
    · simp only [hdiffers, decide_true, if_true, Option.map_none]
    · simp only [hdiffers, decide_false, if_false, Option.map_none, Bool.false_eq_true]
      rfl

end Zakura.Catalog
