import Mathlib.Data.List.Pairwise
import Zakura.Catalog.Pass
import Zakura.Lib.Except

/-! # What a pass keeps of the catalog -/

namespace Zakura.Catalog

open List Zakura.Except

variable {tools : Tools}

/-! ## Revisions -/

/-- Two revisions of one source with one lineage or one identity are the same. -/
def RecoveryRevision.Agrees (a b : RecoveryRevision) : Prop :=
  a.source = b.source → a.lineage = b.lineage ∨ a.revision = b.revision → a = b

theorem RecoveryRevision.Agrees.symm {a b : RecoveryRevision} (h : a.Agrees b) : b.Agrees a :=
  fun hsource hshared => (h hsource.symm (hshared.imp Eq.symm Eq.symm)).symm

theorem agrees_of_not_contradicts {row revision : RecoveryRevision} (h : ¬ row.Contradicts revision) :
    row.Agrees revision := by
  intro hsource hshared
  obtain ⟨hlineage, hidentity, hsealed, hheight, hhash⟩ := not_not.mp fun hdiffers => h ⟨hsource, hshared, hdiffers⟩
  exact RecoveryRevision.ext hsource hidentity hlineage hsealed (PublicationAnchor.ext hheight hhash)

/-- The entry's identity is that of its digest and sealing. -/
def Published.Named (tools : Tools) (entry : Published) : Prop :=
  entry.revision.revision = (revisionIdentity tools entry.digest entry.revision.sealed).val

theorem named_of_new {binding : FixedBytes 32} {set : SetIdentity} {shape : Filter.SupersededShard} {entry : Published}
    (h : Published.new tools binding set shape = .ok entry) : entry.Named tools := by
  obtain ⟨source, -, h⟩ := bind_eq_ok.mp h
  obtain ⟨height, -, h⟩ := bind_eq_ok.mp h
  obtain ⟨hash, -, h⟩ := bind_eq_ok.mp h
  cases h
  rfl

/-! ## Rows -/

theorem CatalogRow.Clashes.symm {a b : CatalogRow} (h : a.Clashes b) : b.Clashes a :=
  ⟨h.1.symm, h.2.imp (fun hkey => ⟨hkey.1.symm, hkey.2.symm⟩) (Or.imp Eq.symm Eq.symm)⟩

/-- What the table's constraints and the inserted entries guarantee of its rows. -/
structure RowsSound (tools : Tools) (rows : List CatalogRow) : Prop where
  unique : rows.Pairwise fun a b => ¬ a.Clashes b
  storable : ∀ row ∈ rows, row.Storable
  named : ∀ row ∈ rows, row.revision = (revisionIdentity tools row.digest row.sealed).val

namespace RowsSound

variable {rows : List CatalogRow}

theorem eq_of_clashes (h : RowsSound tools rows) {a b : CatalogRow} (ha : a ∈ rows) (hb : b ∈ rows) (hab : a.Clashes b) :
    a = b := by
  by_contra hne
  have hsymm : Std.Symm fun a b : CatalogRow => ¬ a.Clashes b := ⟨fun _ _ hab hba => hab hba.symm⟩
  exact h.unique.forall ha hb hne hab

theorem filter (h : RowsSound tools rows) (keep : CatalogRow → Bool) : RowsSound tools (rows.filter keep) where
  unique := h.unique.filter keep
  storable row hrow := h.storable row (mem_of_mem_filter hrow)
  named row hrow := h.named row (mem_of_mem_filter hrow)

/-- The marks of the rows take no part in the constraints. -/
theorem mark (h : RowsSound tools rows) (exported current : CatalogRow → Bool) :
    RowsSound tools (rows.map fun row => { row with exported := exported row, current := current row }) where
  unique := pairwise_map.mpr h.unique
  storable := forall_mem_map.mpr h.storable
  named := forall_mem_map.mpr h.named

theorem append (h : RowsSound tools rows) {entry : Published} (hnamed : entry.Named tools)
    (hstorable : (CatalogPass.rowOf entry).Storable) (hclear : ∀ row ∈ rows, ¬ row.Clashes (CatalogPass.rowOf entry)) :
    RowsSound tools (rows ++ [CatalogPass.rowOf entry]) where
  unique := pairwise_append.mpr ⟨h.unique, pairwise_singleton .., fun row hrow _ hlast =>
    mem_singleton.mp hlast ▸ hclear row hrow⟩
  storable := forall_mem_append.mpr ⟨h.storable, forall_mem_singleton.mpr hstorable⟩
  named := forall_mem_append.mpr ⟨h.named, forall_mem_singleton.mpr hnamed⟩

end RowsSound

/-! ## Calls -/

namespace CatalogPass

variable {pass pass' : CatalogPass} {entry : Published}

theorem withdraw_unready (pass : CatalogPass) (cause : WithdrawnCause) : (pass.withdraw cause).state ≠ .ready := by
  simp [withdraw, state]

theorem defer_unready (pass : CatalogPass) : pass.defer.state ≠ .ready := by
  cases hwithdrawn : pass.withdrawn <;> simp [defer, state, hwithdrawn]

/-- What a pass that may only become unready keeps. -/
structure Keeps (pass pass' : CatalogPass) : Prop where
  rows : pass'.rows = pass.rows
  exports : pass'.exports = pass.exports
  unready : pass.state ≠ .ready → pass'.state ≠ .ready

theorem Keeps.refl (pass : CatalogPass) : Keeps pass pass := ⟨rfl, rfl, id⟩

theorem Keeps.trans {last : CatalogPass} (h : Keeps pass pass') (h' : Keeps pass' last) : Keeps pass last :=
  ⟨h'.rows.trans h.rows, h'.exports.trans h.exports, h'.unready ∘ h.unready⟩

theorem keeps_withdraw (pass : CatalogPass) (cause : WithdrawnCause) : Keeps pass (pass.withdraw cause) :=
  ⟨rfl, rfl, fun _ => withdraw_unready pass cause⟩

theorem keeps_defer (pass : CatalogPass) : Keeps pass pass.defer := ⟨rfl, rfl, fun _ => defer_unready pass⟩

theorem keeps_settleRow (published : List Published) (committed : Bytes → Option UInt64)
    (settled : CatalogPass × List RecoveryRevision) (row : CatalogRow) :
    Keeps settled.1 (settleRow published committed settled row).1 := by
  rw [settleRow]
  cases published.reverse.find? fun entry => entry.revision.source = row.source with
  | some entry =>
    dsimp only
    split_ifs
    · exact keeps_defer _
    · exact keeps_withdraw ..
    · exact Keeps.refl _
    · exact keeps_defer _
  | none =>
    dsimp only
    cases published.find? fun entry => entry.startHeight ≤ row.startHeight ∧ row.startHeight ≤ entry.endHeight with
    | none => exact keeps_defer _
    | some entry =>
      dsimp only
      split_ifs
      · exact keeps_defer _
      · exact keeps_withdraw ..

theorem keeps_settleRows (published : List Published) (committed : Bytes → Option UInt64) (rows : List CatalogRow)
    (settled : CatalogPass × List RecoveryRevision) :
    Keeps settled.1 (rows.foldl (settleRow published committed) settled).1 := by
  induction rows generalizing settled with
  | nil => exact Keeps.refl settled.1
  | cons row rows ih => exact (keeps_settleRow published committed settled row).trans (ih _)

theorem keeps_settle (pass : CatalogPass) (published : List Published) (committed : Bytes → Option UInt64) :
    Keeps pass (pass.settle published committed).1 :=
  keeps_settleRows published committed _ (pass, [])

/-- The catalog records the entry exactly, and no exported revision contradicts it. -/
structure Backed (pass : CatalogPass) (entry : Published) : Prop where
  row : ∃ row ∈ pass.rows, row.Names entry
  clear : ∀ exported ∈ pass.exports, exported.Agrees entry.revision

theorem recorded_cases (pass : CatalogPass) (entry : Published) :
    (pass.recorded entry = (.matching, pass) ∧ pass.Backed entry) ∨
      pass.recorded entry = (.contradicts, pass.withdraw .equivocation) ∨
      (pass.recorded entry = (.unrecorded, pass) ∧ ∀ exported ∈ pass.exports, exported.Agrees entry.revision) := by
  rw [recorded]
  by_cases hcontradicted : ∃ row ∈ pass.exports, row.Contradicts entry.revision
  · rw [if_pos hcontradicted]
    exact .inr (.inl rfl)
  · rw [if_neg hcontradicted]
    have hclear : ∀ exported ∈ pass.exports, exported.Agrees entry.revision :=
      fun exported hexported => agrees_of_not_contradicts fun h => hcontradicted ⟨exported, hexported, h⟩
    cases hfound : pass.rows.find? fun row =>
        row.source = entry.revision.source ∧ row.digest = entry.digest ∧ row.sealed = entry.revision.sealed with
    | some row =>
      dsimp only
      split_ifs with hnames
      · exact .inl ⟨rfl, ⟨row, mem_of_find?_eq_some hfound, hnames⟩, hclear⟩
      · exact .inr (.inl rfl)
    | none =>
      dsimp only
      split_ifs
      · exact .inr (.inl rfl)
      · exact .inr (.inr ⟨rfl, hclear⟩)

/-- What a call does to the pass, and what it establishes of the entry it names. -/
structure Continues (pass pass' : CatalogPass) (entries : List Published) : Prop where
  exports : pass'.exports = pass.exports
  rows : pass'.rows = pass.rows ∨ ∃ entry ∈ entries, (rowOf entry).Storable ∧
    (∀ row ∈ pass.rows, ¬ row.Clashes (rowOf entry)) ∧ pass'.rows = pass.rows ++ [rowOf entry]
  unready : pass.state ≠ .ready → pass'.state ≠ .ready
  backed : ∀ entry ∈ entries, pass'.state ≠ .ready ∨ pass'.Backed entry

theorem Keeps.continues (h : Keeps pass pass') : Continues pass pass' [] := ⟨h.exports, .inl h.rows, h.unready, by simp⟩

theorem Keeps.continues_unready (h : Keeps pass pass') (hunready : pass'.state ≠ .ready) (entries : List Published) :
    Continues pass pass' entries :=
  ⟨h.exports, .inl h.rows, h.unready, fun _ _ => .inl hunready⟩

theorem continues_matching (h : pass.Backed entry) : Continues pass pass [entry] :=
  ⟨rfl, .inl rfl, id, forall_mem_singleton.mpr (.inr h)⟩

theorem continues_insert (hclear : ∀ exported ∈ pass.exports, exported.Agrees entry.revision)
    (h : pass.insert entry = .ok pass') : Continues pass pass' [entry] := by
  rw [insert] at h
  split_ifs at h with hfits
  cases h
  have hnames : (rowOf entry).Names entry := ⟨rfl, rfl, rfl, rfl, rfl, rfl⟩
  exact ⟨rfl, .inr ⟨entry, mem_singleton_self entry, hfits.1, hfits.2, rfl⟩, id,
    forall_mem_singleton.mpr (.inr ⟨⟨rowOf entry, mem_append_right _ (mem_singleton_self _), hnames⟩, hclear⟩)⟩

/-- The shared end of `classify` and `admit_declared`: what is left to do with an unrecorded revision is `rest`. -/
theorem recorded_continues {result : Bool} {rest : CatalogPass → Except RecoveryError (Bool × CatalogPass)}
    (hrest : (∀ exported ∈ pass.exports, exported.Agrees entry.revision) → rest pass = .ok (result, pass') →
      Continues pass pass' [entry])
    (h : (match pass.recorded entry with
      | (.matching, pass) => Except.ok (true, pass)
      | (.contradicts, pass) => Except.ok (false, pass)
      | (.unrecorded, pass) => rest pass) = .ok (result, pass')) : Continues pass pass' [entry] := by
  obtain ⟨hrecorded, hbacked⟩ | hrecorded | ⟨hrecorded, hclear⟩ := recorded_cases pass entry
  · rw [hrecorded] at h
    cases h
    exact continues_matching hbacked
  · rw [hrecorded] at h
    cases h
    exact (keeps_withdraw ..).continues_unready (withdraw_unready _ _) _
  · rw [hrecorded] at h
    exact hrest hclear h

theorem classify_continues {result : Bool} (h : pass.classify entry = .ok (result, pass')) :
    Continues pass pass' [entry] := by
  refine recorded_continues (fun hclear hrest => ?_) h
  split_ifs at hrest
  · cases hrest
    exact (keeps_withdraw ..).continues_unready (withdraw_unready _ _) _
  · cases hrest
    exact (keeps_defer _).continues_unready (defer_unready _) _
  · obtain ⟨inserted, hinsert, heq⟩ := map_eq_ok.mp hrest
    cases heq
    exact continues_insert hclear hinsert

theorem admitDeclared_continues {result : Bool} (h : pass.admitDeclared entry = .ok (result, pass')) :
    Continues pass pass' [entry] := by
  simp only [admitDeclared] at h
  split_ifs at h
  · cases h
    exact (keeps_withdraw ..).continues_unready (withdraw_unready _ _) _
  · refine recorded_continues (fun hclear hrest => ?_) h
    obtain ⟨inserted, hinsert, heq⟩ := map_eq_ok.mp hrest
    cases heq
    exact continues_insert hclear hinsert

theorem call_continues {next : Call} (h : pass.call next = .ok pass') : Continues pass pass' next.entry?.toList := by
  cases next with
  | checkDeclarations published declarations =>
    cases h
    rw [checkDeclarations]
    cases declarationConflict published declarations with
    | none => exact (Keeps.refl pass).continues
    | some cause => exact (keeps_withdraw pass cause).continues
  | classify entry =>
    obtain ⟨⟨classified, last⟩, hcall, rfl⟩ := map_eq_ok.mp h
    exact classify_continues hcall
  | admitDeclared entry =>
    obtain ⟨⟨admitted, last⟩, hcall, rfl⟩ := map_eq_ok.mp h
    exact admitDeclared_continues hcall
  | defer =>
    cases h
    exact (keeps_defer pass).continues
  | settle published committed =>
    cases h
    exact (keeps_settle pass published committed).continues

/-! ## Passes -/

theorem Continues.keeps_backed {entries : List Published} (h : Continues pass pass' entries) (hbacked : pass.Backed entry) :
    pass'.Backed entry := by
  obtain ⟨row, hrow, hnames⟩ := hbacked.row
  refine ⟨⟨row, ?_, hnames⟩, h.exports ▸ hbacked.clear⟩
  rcases h.rows with hsame | ⟨_, _, _, _, hmore⟩
  · rwa [hsame]
  · rw [hmore]
    exact mem_append_left _ hrow

theorem Continues.rowsSound {entries : List Published} (h : Continues pass pass' entries)
    (hnamed : ∀ entry ∈ entries, entry.Named tools) (hrows : RowsSound tools pass.rows) : RowsSound tools pass'.rows := by
  rcases h.rows with hsame | ⟨entry, hentry, hstorable, hclear, hmore⟩
  · rwa [hsame]
  · rw [hmore]
    exact hrows.append (hnamed entry hentry) hstorable hclear

/-- By induction on the calls, the entries named so far going along. -/
theorem calls_sound {calls : List Call} {seen : List Published}
    (hnamed : ∀ entry ∈ calls.filterMap Call.entry?, entry.Named tools) (hrows : RowsSound tools pass.rows)
    (hseen : ∀ entry ∈ seen, pass.state ≠ .ready ∨ pass.Backed entry) (h : calls.foldlM call pass = .ok pass') :
    RowsSound tools pass'.rows ∧ pass'.exports = pass.exports ∧
      ∀ entry ∈ seen ++ calls.filterMap Call.entry?, pass'.state ≠ .ready ∨ pass'.Backed entry := by
  induction calls generalizing pass seen with
  | nil =>
    cases h
    exact ⟨hrows, rfl, by simpa using hseen⟩
  | cons next calls ih =>
    rw [foldlM_cons] at h
    obtain ⟨between, hcall, h⟩ := bind_eq_ok.mp h
    have hnext := call_continues hcall
    have hsplit : (next :: calls).filterMap Call.entry? = next.entry?.toList ++ calls.filterMap Call.entry? := by
      cases hentry : next.entry? <;> simp [hentry]
    rw [hsplit, forall_mem_append] at hnamed
    have hseen' : ∀ entry ∈ seen ++ next.entry?.toList, between.state ≠ .ready ∨ between.Backed entry :=
      forall_mem_append.mpr ⟨fun entry hentry => (hseen entry hentry).imp hnext.unready hnext.keeps_backed, hnext.backed⟩
    obtain ⟨hsound, hexports, hbacked⟩ := ih hnamed.2 (hnext.rowsSound hnamed.1 hrows) hseen' h
    rw [hsplit, ← append_assoc]
    exact ⟨hsound, hexports.trans hnext.exports, hbacked⟩

/-- Entries that one pass records agree: their rows would clash otherwise. -/
theorem Backed.agrees {a b : Published} (hrows : RowsSound tools pass.rows) (ha : pass.Backed a) (hb : pass.Backed b)
    (hanamed : a.Named tools) (hbnamed : b.Named tools) : a.revision.Agrees b.revision := by
  intro hsource hshared
  obtain ⟨row, hrow, hrsource, hrdigest, hrsealed, hrlineage, hrheight, hrhash⟩ := ha.row
  obtain ⟨row', hrow', hrsource', hrdigest', hrsealed', hrlineage', hrheight', hrhash'⟩ := hb.row
  have hrevision : row.revision = a.revision.revision := by rw [hrows.named row hrow, hrdigest, hrsealed, hanamed]
  have hrevision' : row'.revision = b.revision.revision := by rw [hrows.named row' hrow', hrdigest', hrsealed', hbnamed]
  have hclash : row.Clashes row' := by
    refine ⟨by rw [hrsource, hsource, hrsource'], .inr (hshared.imp (fun hlineage => ?_) fun hidentity => ?_)⟩
    · rw [hrlineage, hlineage, hrlineage']
    · rw [hrevision, hidentity, hrevision']
  obtain rfl := hrows.eq_of_clashes hrow hrow' hclash
  exact RecoveryRevision.ext hsource (hrevision.symm.trans hrevision') (hrlineage.symm.trans hrlineage')
    (hrsealed.symm.trans hrsealed') (PublicationAnchor.ext (hrheight.symm.trans hrheight') (hrhash.symm.trans hrhash'))

/-- A revision that passes the checks of `pir_bridge_exports`. -/
def Recordable (revision : RecoveryRevision) : Prop :=
  revision.source.length = 32 ∧ revision.revision.length = 32 ∧ revision.lineage ≠ 0

theorem Backed.recordable (hrows : RowsSound tools pass.rows) (h : pass.Backed entry) (hnamed : entry.Named tools) :
    Recordable entry.revision := by
  obtain ⟨row, hrow, hsource, -, -, hlineage, -, -⟩ := h.row
  obtain ⟨hlength, -, hpos, -⟩ := hrows.storable row hrow
  exact ⟨hsource ▸ hlength, hnamed ▸ (revisionIdentity tools entry.digest entry.revision.sealed).property, hlineage ▸ hpos⟩

end CatalogPass

open CatalogPass (Recordable)

theorem recordExport_spec {exports : List RecoveryRevision} {revision : RecoveryRevision}
    (hagrees : ∀ row ∈ exports, row.Agrees revision) (hrecordable : Recordable revision) :
    (∀ row ∈ recordExport exports revision, row ∈ exports ∨ row = revision) ∧
      (∀ row ∈ exports, row ∈ recordExport exports revision) ∧ revision ∈ recordExport exports revision := by
  rw [recordExport]
  split_ifs with hfits
  · refine ⟨fun row hrow => ?_, fun _ => mem_append_left _, mem_append_right _ (mem_singleton_self _)⟩
    exact (mem_append.mp hrow).imp_right mem_singleton.mp
  · refine ⟨fun _ => .inl, fun _ => id, ?_⟩
    -- The insert is ignored, so a row of the same key stands there: the revision itself.
    have hheld : ¬ ∀ row ∈ exports, ¬ (row.source = revision.source ∧
        (row.lineage = revision.lineage ∨ row.revision = revision.revision)) :=
      fun hnone => hfits ⟨hrecordable.1, hrecordable.2.1, hrecordable.2.2, hnone⟩
    push Not at hheld
    obtain ⟨row, hrow, hsource, hshared⟩ := hheld
    exact hagrees row hrow hsource hshared ▸ hrow

theorem mem_recordExports {revisions exports : List RecoveryRevision}
    (hagrees : ∀ row ∈ exports, ∀ revision ∈ revisions, row.Agrees revision)
    (hself : ∀ a ∈ revisions, ∀ b ∈ revisions, a.Agrees b) (hrecordable : ∀ revision ∈ revisions, Recordable revision) :
    ∀ row ∈ exports ++ revisions, row ∈ revisions.foldl recordExport exports := by
  induction revisions generalizing exports with
  | nil => simp
  | cons revision revisions ih =>
    obtain ⟨honly, hkept, hadded⟩ :=
      recordExport_spec (fun row hrow => hagrees row hrow revision mem_cons_self) (hrecordable _ mem_cons_self)
    have hrest : ∀ row ∈ recordExport exports revision ++ revisions, _ := ih
      (fun row hrow later hlater => by
        rcases honly row hrow with hold | rfl
        · exact hagrees row hold later (mem_cons_of_mem _ hlater)
        · exact hself row mem_cons_self later (mem_cons_of_mem _ hlater))
      (fun a ha b hb => hself a (mem_cons_of_mem _ ha) b (mem_cons_of_mem _ hb))
      fun later hlater => hrecordable later (mem_cons_of_mem _ hlater)
    intro row hrow
    rw [foldl_cons]
    refine hrest row ?_
    rcases mem_append.mp hrow with hold | hnew
    · exact mem_append_left _ (hkept row hold)
    · rcases mem_cons.mp hnew with rfl | hlater
      · exact mem_append_left _ hadded
      · exact mem_append_right _ hlater

/-! ## Runs -/

/-- What holds of the tables and the revisions exported so far. -/
structure Sound (tools : Tools) (tables : Tables) (exported : List RecoveryRevision) : Prop where
  rows : RowsSound tools tables.rows
  recorded : ∀ revision ∈ exported, revision ∈ tables.exports
  agrees : ∀ a ∈ exported, ∀ b ∈ exported, a.Agrees b

theorem begin_rowsSound {tables : Tables} (h : RowsSound tools tables.rows) (published declared : List Published) :
    RowsSound tools (CatalogPass.begin tables published declared).rows :=
  h.mark CatalogRow.exported _

theorem Sound.exportAll {tables : Tables} {exported revisions : List RecoveryRevision} {pass : CatalogPass}
    {entries : List Published} (h : Sound tools tables exported) (hrows : RowsSound tools pass.rows)
    (hexports : pass.exports = tables.exports) (hnamed : ∀ entry ∈ entries, entry.Named tools)
    (hbacked : ∀ entry ∈ entries, pass.Backed entry)
    (hrevisions : ∀ revision ∈ revisions, ∃ entry ∈ entries, entry.revision = revision) :
    Sound tools (pass.exportAll revisions).finish (exported ++ revisions) := by
  have hheld : ∀ row ∈ pass.exports, ∀ revision ∈ revisions, row.Agrees revision := by
    intro row hrow revision hrevision
    obtain ⟨entry, hentry, rfl⟩ := hrevisions revision hrevision
    exact (hbacked entry hentry).clear row hrow
  have hself : ∀ a ∈ revisions, ∀ b ∈ revisions, a.Agrees b := by
    intro a ha b hb
    obtain ⟨entry, hentry, rfl⟩ := hrevisions a ha
    obtain ⟨entry', hentry', rfl⟩ := hrevisions b hb
    exact CatalogPass.Backed.agrees hrows (hbacked entry hentry) (hbacked entry' hentry') (hnamed entry hentry)
      (hnamed entry' hentry')
  have hrecordable : ∀ revision ∈ revisions, Recordable revision := by
    intro revision hrevision
    obtain ⟨entry, hentry, rfl⟩ := hrevisions revision hrevision
    exact (hbacked entry hentry).recordable hrows (hnamed entry hentry)
  have hmem := mem_recordExports hheld hself hrecordable
  have hold : ∀ revision ∈ exported, revision ∈ pass.exports := fun revision hrevision =>
    hexports ▸ h.recorded revision hrevision
  refine ⟨(hrows.mark _ CatalogRow.current).filter _, fun revision hrevision => hmem revision ?_, ?_⟩
  · rcases mem_append.mp hrevision with hrevision | hrevision
    · exact mem_append_left _ (hold revision hrevision)
    · exact mem_append_right _ hrevision
  · intro a ha b hb
    rcases mem_append.mp ha with ha | ha <;> rcases mem_append.mp hb with hb | hb
    · exact h.agrees a ha b hb
    · exact hheld a (hold a ha) b hb
    · exact (hheld b (hold b hb) a ha).symm
    · exact hself a ha b hb

theorem Reaches.sound {tables : Tables} {exported : List RecoveryRevision} (h : Reaches tools tables exported) :
    Sound tools tables exported := by
  induction h with
  | empty => exact ⟨⟨List.Pairwise.nil, by simp, by simp⟩, by simp, by simp⟩
  | pass _ hderived hcalls hready hrevisions ih =>
    have hnamed := fun entry hentry => let ⟨_, _, _, hnew⟩ := hderived entry hentry; named_of_new hnew
    obtain ⟨hrows, hexports, hbacked⟩ :=
      CatalogPass.calls_sound hnamed (begin_rowsSound ih.rows ..) (forall_mem_nil _) hcalls
    exact ih.exportAll hrows hexports hnamed
      (fun entry hentry => (hbacked entry hentry).resolve_left (not_not_intro hready))
      hrevisions
  | unready _ hderived hcalls hstate ih =>
    have hnamed := fun entry hentry => let ⟨_, _, _, hnew⟩ := hderived entry hentry; named_of_new hnew
    obtain ⟨hrows, hexports, -⟩ := CatalogPass.calls_sound hnamed (begin_rowsSound ih.rows ..) (forall_mem_nil _) hcalls
    exact ⟨hrows.filter _, fun revision hrevision => hexports ▸ ih.recorded revision hrevision, ih.agrees⟩
  | acknowledge _ replaced ih => exact ⟨(ih.rows.mark _ CatalogRow.current).filter _, ih.recorded, ih.agrees⟩
  | reset _ named ih => exact ⟨ih.rows.mark _ CatalogRow.current, ih.recorded, ih.agrees⟩

end Zakura.Catalog
