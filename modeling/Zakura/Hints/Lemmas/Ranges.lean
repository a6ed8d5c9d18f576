import Zakura.Hints.Lemmas.Build

/-! # The layout of a range

A range is laid out as its header and, for each nonempty block, the gap to its height and its set. Writing gives the
layout of entries in ascending order, and parsing reads nothing else. -/

namespace Zakura.Hints

open Zakura.Except Reader
open Zakura.Filter (SipHash Encodes)
open Zakura.Receiver (Error Hash ReceiverBytes)

namespace Range

/-- Heights strictly ascend from `next` up to `last`. -/
def Ascending (last : Nat) : Nat → List (UInt32 × Bytes) → Prop
  | _, [] => True
  | next, (height, _) :: sets => next ≤ height.toNat ∧ height.toNat ≤ last ∧ Ascending last (height.toNat + 1) sets

def rawBytes : Nat → List (UInt32 × Bytes) → Bytes
  | _, [] => []
  | next, (height, set) :: sets =>
    compactSizeBytes (height.toNat - next) ++ (set ++ rawBytes (height.toNat + 1) sets)

def headerBytes (range : Range) (entries : Nat) : Bytes :=
  Blocks.rangeMagic ++ (leBytes 8 range.revision.toNat ++ (leBytes 4 range.fromHeight.toNat ++
    (leBytes 4 range.count.toNat ++ (range.parent.val ++ (range.ending.val ++ leBytes 4 entries)))))

def raw (range : Range) : List (UInt32 × Bytes) := range.sets.map fun set => (set.height, set.bytes)

def layout (range : Range) : Bytes :=
  range.headerBytes range.sets.length ++ rawBytes range.fromHeight.toNat range.raw

structure Bounded (range : Range) : Prop where
  from_pos : range.fromHeight ≠ 0
  count_pos : range.count ≠ 0
  count_le : range.count.toNat ≤ Blocks.maxRangeBlocks
  last_lt : range.fromHeight.toNat + (range.count.toNat - 1) < 2 ^ 32

/-! ## Validation -/

variable {range : Range} {last : Nat}

theorem lastHeight_ok :
    lastHeight range.fromHeight range.count = .ok last ↔ range.Bounded ∧ last = range.endBlock.height := by
  unfold lastHeight
  by_cases hcapacity : range.fromHeight = 0 ∨ range.count = 0 ∨ Blocks.maxRangeBlocks < range.count.toNat
  · rw [if_pos hcapacity]
    refine ⟨fun h => (nomatch h), fun ⟨hbounded, _⟩ => ?_⟩
    obtain hzero | hzero | hlarge := hcapacity
    · exact absurd hzero hbounded.from_pos
    · exact absurd hzero hbounded.count_pos
    · exact absurd hbounded.count_le (not_le.mpr hlarge)
  · rw [if_neg hcapacity]
    simp only [not_or, not_lt] at hcapacity
    by_cases hlast : 2 ^ 32 ≤ range.fromHeight.toNat + (range.count.toNat - 1)
    · rw [if_pos hlast]
      exact ⟨fun h => (nomatch h), fun ⟨hbounded, _⟩ => absurd hbounded.last_lt (not_lt.mpr hlast)⟩
    · rw [if_neg hlast]
      refine ⟨fun h => ⟨⟨hcapacity.1, hcapacity.2.1, hcapacity.2.2, not_le.mp hlast⟩, ?_⟩, fun ⟨_, h⟩ => ?_⟩
      · exact (Except.ok.inj h).symm
      · rw [h]
        rfl

theorem checkSets_ok {first : Nat} {previous : Option Nat} {sets : List HeightSet} (hprevious : ∀ p ∈ previous, first ≤ p) :
    checkSets first last previous sets = .ok () ↔
      Ascending last (previous.elim first (· + 1)) (sets.map fun set => (set.height, set.bytes)) := by
  induction sets generalizing previous with
  | nil => exact ⟨fun _ => trivial, fun _ => rfl⟩
  | cons set sets ih =>
    have hnext : ∀ p ∈ some set.height.toNat, first ≤ p ↔ first ≤ set.height.toNat := by simp
    rw [checkSets]
    by_cases hout : set.height.toNat < first ∨ last < set.height.toNat ∨ previous.any (set.height.toNat ≤ ·)
    · rw [if_pos hout]
      refine ⟨fun h => (nomatch h), fun ⟨hge, hle, _⟩ => ?_⟩
      cases previous with
      | none =>
        simp only [Option.elim_none] at hge
        simp at hout
        omega
      | some p =>
        have hp := hprevious p rfl
        simp only [Option.elim_some] at hge
        simp at hout
        omega
    · rw [if_neg hout]
      simp only [not_or, not_lt] at hout
      rw [ih (by simp; omega)]
      refine ⟨fun h => ⟨?_, hout.2.1, h⟩, fun h => h.2.2⟩
      cases previous with
      | none => exact hout.1
      | some p =>
        have hp := hout.2.2
        simp at hp
        exact hp

theorem validate_ok :
    range.validate = .ok () ↔
      range.Bounded ∧ Ascending range.endBlock.height range.fromHeight.toNat range.raw := by
  rw [validate, bind_eq_ok]
  constructor
  · rintro ⟨last, hlast, hsets⟩
    obtain ⟨hbounded, rfl⟩ := lastHeight_ok.mp hlast
    exact ⟨hbounded, (checkSets_ok (by simp)).mp hsets⟩
  · rintro ⟨hbounded, hsets⟩
    exact ⟨_, lastHeight_ok.mpr ⟨hbounded, rfl⟩, (checkSets_ok (by simp)).mpr hsets⟩

/-! ## Writing -/

variable {next : Nat} {sets : List (UInt32 × Bytes)}

theorem writeSets_capped (hlast : last < 2 ^ 32) (h : Ascending last next sets) (entries : Nat) (out : Bytes) :
    writeSets last (min next (2 ^ 32 - 1)) entries out sets = writeSets last next entries out sets := by
  cases sets with
  | nil => rfl
  | cons entry sets =>
    have hle := h.1.trans h.2.1
    rw [Nat.min_eq_left (by omega)]

variable {entries : Nat}

theorem writeSets_ok (hlast : last < 2 ^ 32) {out : Bytes} (h : Ascending last next sets)
    (hout : out.length ≤ Blocks.maxRangeBytes) {result : Nat × Bytes} :
    writeSets last next entries out sets = .ok result ↔
      (out ++ rawBytes next sets).length ≤ Blocks.maxRangeBytes ∧
        result = (entries + sets.length, out ++ rawBytes next sets) := by
  induction sets generalizing next entries out with
  | nil =>
    rw [rawBytes, List.append_nil, writeSets]
    exact ⟨fun h => ⟨hout, (Except.ok.inj h).symm⟩, fun h => by rw [h.2]; rfl⟩
  | cons entry sets ih =>
    obtain ⟨height, set⟩ := entry
    obtain ⟨hge, hle, hrest⟩ := h
    have happend : out ++ rawBytes next ((height, set) :: sets) =
        out ++ compactSizeBytes (height.toNat - next) ++ set ++ rawBytes (height.toNat + 1) sets := by
      simp only [rawBytes, List.append_assoc]
    rw [writeSets, if_neg (by omega), happend]
    dsimp only
    by_cases hfits : Blocks.maxRangeBytes < (out ++ compactSizeBytes (height.toNat - next) ++ set).length
    · rw [if_pos hfits]
      refine ⟨fun h => (nomatch h), fun ⟨hlength, _⟩ => ?_⟩
      rw [List.length_append] at hlength
      omega
    · rw [if_neg hfits, writeSets_capped hlast hrest, ih hrest (not_lt.mp hfits), List.length_cons, Nat.add_assoc,
        Nat.add_comm 1]

theorem length_headerBytes (range : Range) (entries : Nat) : (range.headerBytes entries).length = Blocks.rangeHeader := by
  simp only [headerBytes, List.length_append, FixedBytes.length_val, length_leBytes]
  rfl

theorem headerBytes_eq (range : Range) : ∃ front : Bytes, front.length = Blocks.rangeHeader - 4 ∧
    ∀ entries, range.headerBytes entries = front ++ leBytes 4 entries := by
  refine ⟨Blocks.rangeMagic ++ (leBytes 8 range.revision.toNat ++ (leBytes 4 range.fromHeight.toNat ++
    (leBytes 4 range.count.toNat ++ (range.parent.val ++ range.ending.val)))), ?_, fun entries => ?_⟩
  · simp only [List.length_append, FixedBytes.length_val, length_leBytes]
    rfl
  · simp only [headerBytes, List.append_assoc]

variable {bytes : Bytes}

theorem write_ok (hbounded : range.Bounded) (h : Ascending range.endBlock.height range.fromHeight.toNat sets) :
    write range.revision range.fromHeight range.count range.parent range.ending sets = .ok bytes ↔
      bytes = range.headerBytes sets.length ++ rawBytes range.fromHeight.toNat sets ∧
        bytes.length ≤ Blocks.maxRangeBytes := by
  have hheader : Blocks.rangeMagic ++ leBytes 8 range.revision.toNat ++ leBytes 4 range.fromHeight.toNat ++
      leBytes 4 range.count.toNat ++ range.parent.val ++ range.ending.val ++ leBytes 4 0 = range.headerBytes 0 := by
    simp only [headerBytes, List.append_assoc]
  have hlength := range.length_headerBytes
  have hpatch : ∀ more, (range.headerBytes 0 ++ more).take (Blocks.rangeHeader - 4) ++ leBytes 4 sets.length ++
      (range.headerBytes 0 ++ more).drop Blocks.rangeHeader = range.headerBytes sets.length ++ more := by
    intro more
    obtain ⟨front, hfront, hsplit⟩ := range.headerBytes_eq
    have happend : front ++ leBytes 4 0 ++ more = front ++ (leBytes 4 0 ++ more) := List.append_assoc ..
    rw [List.drop_left' (hlength 0), hsplit, hsplit, happend, List.take_left' hfront]
  rw [write, lastHeight_ok.mpr ⟨hbounded, rfl⟩, ok_bind]
  dsimp only
  rw [hheader, bind_eq_ok]
  constructor
  · rintro ⟨⟨entries, out⟩, hsets, hout⟩
    obtain ⟨hfits, heq⟩ := (writeSets_ok hbounded.last_lt h (by rw [hlength]; decide)).mp hsets
    obtain ⟨rfl, rfl⟩ := Prod.mk.inj heq
    rw [Nat.zero_add, pure_eq_ok] at hout
    dsimp only at hout
    rw [hpatch] at hout
    refine ⟨hout.symm, ?_⟩
    rw [← hout, List.length_append, hlength, ← hlength 0, ← List.length_append]
    exact hfits
  · rintro ⟨rfl, hfits⟩
    refine ⟨_, (writeSets_ok hbounded.last_lt h (by rw [hlength]; decide)).mpr ⟨?_, rfl⟩, ?_⟩
    · rwa [List.length_append, hlength, ← hlength sets.length, ← List.length_append]
    · rw [Nat.zero_add, pure_eq_ok]
      exact hpatch _

theorem encode_ok (h : range.validate = .ok ()) :
    range.encode = .ok bytes ↔ bytes = range.layout ∧ bytes.length ≤ Blocks.maxRangeBytes := by
  obtain ⟨hbounded, hsets⟩ := validate_ok.mp h
  refine (write_ok hbounded hsets).trans ?_
  rw [layout, raw, List.length_map]

/-! ## Parsing -/

def SetsEncoded (sets : List (UInt32 × Bytes)) : Prop :=
  ∀ entry ∈ sets, ∃ values, Encodes Blocks.p Blocks.m Blocks.maxReceivers values entry.2

theorem run_parseHeader_ok {input rest : Bytes} :
    parseHeader.run input = .ok ((range, entries), rest) ↔
      input = range.headerBytes entries ++ rest ∧ entries < 2 ^ 32 ∧ range.sets = [] := by
  simp only [parseHeader, run_bind_ok, run_takeBytes_ok, run_failIf_ok, Reader.run_leNumber_ok,
    run_word32_ok, run_word64_ok, run_pure_ok, not_not]
  constructor
  · rintro ⟨tag, _, rfl, _, _, ⟨htag, rfl⟩, revision, _, rfl, first, _, rfl, count, _, rfl, parent, _,
      rfl, ending, _, rfl, entries', _, ⟨hentries, rfl⟩, heq, rfl⟩
    obtain ⟨rfl, rfl⟩ := Prod.mk.inj heq
    refine ⟨?_, hentries, rfl⟩
    simp only [headerBytes, htag, List.append_assoc]
  · rintro ⟨rfl, hentries, hsets⟩
    obtain ⟨revision, first, count, parent, ending, sets⟩ := range
    dsimp only at hsets
    subst hsets
    exact ⟨⟨Blocks.rangeMagic, rfl⟩, _, by simp only [headerBytes, List.append_assoc], (), _, ⟨rfl, rfl⟩, revision, _, rfl,
      first, _, rfl, count, _, rfl, parent, _, rfl, ending, _, rfl, entries, _, ⟨hentries, rfl⟩, rfl, rfl⟩

theorem split_set_ok {set tail : Bytes} (hbytes : bytes.length ≤ Blocks.maxRangeBytes) :
    Gcs.split bytes Blocks.p Blocks.m Blocks.maxReceivers = .done (.ok (set, tail)) ↔
      bytes = set ++ tail ∧ ∃ values, Encodes Blocks.p Blocks.m Blocks.maxReceivers values set := by
  refine Gcs.split_ok (by decide) (by decide) (by decide) ?_
  simp only [Blocks.maxRangeBytes, Blocks.p] at *
  omega

theorem parseSets_ok {rest tail : Bytes} (hrest : rest.length ≤ Blocks.maxRangeBytes) :
    parseSets entries next rest = .done (.ok (sets, tail)) ↔
      sets.length = entries ∧ Ascending (2 ^ 32 - 1) next sets ∧ SetsEncoded sets ∧
        rest = rawBytes next sets ++ tail := by
  induction entries generalizing next rest sets with
  | zero =>
    rw [parseSets]
    constructor
    · intro h
      obtain ⟨rfl, rfl⟩ := Prod.mk.inj (Except.ok.inj (Option.some_inj.mp h))
      exact ⟨rfl, trivial, by simp [SetsEncoded], rfl⟩
    · rintro ⟨hnil, -, -, rfl⟩
      rw [List.length_eq_zero_iff.mp hnil]
      rfl
  | succ entries ih =>
    rw [parseSets, Checked.bind_eq_ok]
    simp only [Checked.done_inj, Prod.exists, Reader.run_compactSize_ok]
    constructor
    · rintro ⟨gap, after, ⟨hgap, rfl⟩, h⟩
      simp only [Checked.ite_fails_eq_ok, Checked.bind_eq_ok] at h
      obtain ⟨hheight, ⟨set, after'⟩, hsplit, ⟨more, tail'⟩, hmore, h⟩ := h
      obtain ⟨rfl, rfl⟩ := Prod.mk.inj (Except.ok.inj (Option.some_inj.mp h))
      rw [List.length_append] at hrest
      obtain ⟨rfl, hset⟩ := (split_set_ok (by omega)).mp hsplit
      rw [List.length_append] at hrest
      dsimp only at hmore
      obtain ⟨hlength, hascending, hencoded, rfl⟩ := (ih (by omega)).mp hmore
      have hword : (UInt32.ofNat (next + gap)).toNat = next + gap := UInt32.toNat_ofNat_of_lt' (not_le.mp hheight)
      refine ⟨by rw [List.length_cons, hlength], ⟨by omega, by omega, by rwa [hword]⟩, ?_, ?_⟩
      · intro entry hentry
        cases hentry with
        | head => exact hset
        | tail _ hentry => exact hencoded entry hentry
      · rw [rawBytes, hword, Nat.add_sub_cancel_left, List.append_assoc, List.append_assoc]
    · rintro ⟨hlength, hascending, hencoded, rfl⟩
      cases sets with
      | nil => cases hlength
      | cons entry more =>
        obtain ⟨height, set⟩ := entry
        obtain ⟨hge, hle, hmore⟩ := hascending
        rw [rawBytes, List.append_assoc, List.append_assoc] at hrest ⊢
        rw [List.length_append] at hrest
        have hsplit : Gcs.split (set ++ (rawBytes (height.toNat + 1) more ++ tail)) Blocks.p Blocks.m
            Blocks.maxReceivers = _ :=
          (split_set_ok (by omega)).mpr ⟨rfl, hencoded (height, set) List.mem_cons_self⟩
        rw [List.length_append] at hrest
        have hparse := (ih (by omega)).mpr ⟨Nat.succ.inj hlength, hmore,
          fun entry hentry => hencoded entry (List.mem_cons_of_mem _ hentry), rfl⟩
        refine ⟨height.toNat - next, _, ⟨by omega, rfl⟩, ?_⟩
        rw [Nat.add_sub_of_le hge, if_neg (by omega), hsplit, Checked.done_ok, pure_bind]
        dsimp only
        rw [hparse, Checked.done_ok, pure_bind, UInt32.ofNat_toNat]
        rfl

theorem length_rawBytes (h : SetsEncoded sets) (next : Nat) :
    2 * sets.length ≤ (rawBytes next sets).length := by
  induction sets generalizing next with
  | nil => exact le_rfl
  | cons entry sets ih =>
    obtain ⟨height, set⟩ := entry
    obtain ⟨values, hset⟩ := h _ List.mem_cons_self
    obtain ⟨body, pad, hbytes, -⟩ := hset.code
    have hgap := compactSizeBytes_length_pos (height.toNat - next)
    have hcount := compactSizeBytes_length_pos values.length
    have hrest := ih (fun entry hentry => h entry (List.mem_cons_of_mem _ hentry)) (height.toNat + 1)
    have hlength := congrArg List.length hbytes
    dsimp only at hlength
    rw [List.length_append] at hlength
    rw [rawBytes, List.length_append, List.length_append, List.length_cons]
    omega

theorem parse_ok :
    parse bytes = .done (.ok (range, sets)) ↔
      range.sets = [] ∧ bytes = range.headerBytes sets.length ++ rawBytes range.fromHeight.toNat sets ∧
        bytes.length ≤ Blocks.maxRangeBytes ∧ sets.length ≤ range.count.toNat ∧
        Ascending (2 ^ 32 - 1) range.fromHeight.toNat sets ∧ SetsEncoded sets := by
  rw [parse, Checked.ite_fails_eq_ok, Checked.bind_eq_ok, not_lt]
  simp only [Checked.done_inj, Prod.exists, run_parseHeader_ok, Checked.ite_fails_eq_ok, Checked.bind_eq_ok]
  constructor
  · rintro ⟨hsize, header, entries, rest, ⟨rfl, -, hsets⟩, hbound, raw, tail, hparse, htail, heq⟩
    obtain ⟨rfl, rfl⟩ := Prod.mk.inj (Except.ok.inj (Option.some_inj.mp heq))
    rw [List.length_append] at hsize
    obtain ⟨rfl, hascending, hencoded, rfl⟩ := (parseSets_ok (by omega)).mp hparse
    rw [not_not.mp htail, List.append_nil] at *
    exact ⟨hsets, rfl, by rw [List.length_append]; exact hsize, by omega, hascending, hencoded⟩
  · rintro ⟨hsets, rfl, hsize, hcount, hascending, hencoded⟩
    have hlength := length_rawBytes hencoded range.fromHeight.toNat
    have hword := range.count.toNat_lt
    rw [List.length_append] at hsize
    refine ⟨by rw [List.length_append]; exact hsize, range, sets.length, _, ⟨rfl, by omega, hsets⟩,
      by omega, sets, [], ?_, ?_, rfl⟩
    · exact (parseSets_ok (by omega)).mpr ⟨rfl, hascending, hencoded, (List.append_nil _).symm⟩
    · exact not_not.mpr rfl

end Range

/-! ## Decoding -/

theorem encodes_unique {p m max max' : Nat} {values values' : List Nat} {set : Bytes} (hp : p ≤ 64) (hm : m < 2 ^ 32)
    (h : Encodes p m max values set) (h' : Encodes p m max' values' set) (hmax : max < 2 ^ 32) (hmax' : max' < 2 ^ 32) :
    values = values' := by
  have hcount := h.count_le
  have hcount' := h'.count_le
  have hdecode := Filter.decodeWith_spec hp hm (encodes_mono h (by omega))
  have hdecode' := Filter.decodeWith_spec hp hm (encodes_mono h' (by omega))
  exact (Filter.mk.inj (Except.ok.inj (hdecode.symm.trans hdecode'))).2.1

namespace Range

theorem decodeSet_ok {entry : UInt32 × Bytes} {set : HeightSet}
    (hencoded : ∃ values, Encodes Blocks.p Blocks.m Blocks.maxReceivers values entry.2) :
    decodeSet entry = .ok set ↔ (set.height, set.bytes) = entry ∧ set.Valid := by
  obtain ⟨values, hvalues⟩ := hencoded
  have hcount := hvalues.count_le
  have hmax : Blocks.maxReceivers = 65536 := rfl
  have hdecode := Filter.decodeWith_spec (by decide) (by decide) (encodes_mono hvalues (by omega))
  rw [decodeSet, hdecode, ok_bind]
  constructor
  · intro h
    split at h
    · cases h
    · rename_i hempty
      obtain rfl := Except.ok.inj h
      exact ⟨rfl, hvalues, fun hnil => hempty (List.isEmpty_iff.mpr hnil), rfl⟩
  · rintro ⟨rfl, hvalid⟩
    obtain ⟨height, bytes, decoded, m⟩ := set
    obtain rfl : decoded = values :=
      encodes_unique (by decide) (by decide) hvalid.encoded hvalues (by decide) (by decide)
    obtain rfl : m = Blocks.m := hvalid.parameter
    rw [if_neg]
    · rfl
    · exact fun hempty => hvalid.nonempty (List.isEmpty_iff.mp hempty)

theorem mapM_decodeSet_ok {entries : List (UInt32 × Bytes)} {sets : List HeightSet} (hencoded : SetsEncoded entries) :
    entries.mapM decodeSet = .ok sets ↔
      sets.map (fun set => (set.height, set.bytes)) = entries ∧ ∀ set ∈ sets, set.Valid := by
  rw [mapM_eq_ok]
  constructor
  · intro h
    induction h with
    | nil => exact ⟨rfl, by simp⟩
    | cons hset _ ih =>
      obtain ⟨hentries, hvalid⟩ := ih fun entry hentry => hencoded entry (List.mem_cons_of_mem _ hentry)
      obtain ⟨hentry, hfirst⟩ := (decodeSet_ok (hencoded _ List.mem_cons_self)).mp hset
      rw [List.map_cons, hentry, hentries]
      exact ⟨rfl, List.forall_mem_cons.mpr ⟨hfirst, hvalid⟩⟩
  · rintro ⟨rfl, hvalid⟩
    rw [List.forall₂_map_left_iff, List.forall₂_same]
    intro set hset
    exact (decodeSet_ok (hencoded _ (List.mem_map.mpr ⟨set, hset, rfl⟩))).mpr ⟨rfl, hvalid set hset⟩

variable {range : Range}

theorem setsEncoded_raw (h : ∀ set ∈ range.sets, set.Valid) : SetsEncoded range.raw := by
  intro entry hentry
  obtain ⟨set, hset, rfl⟩ := List.mem_map.mp hentry
  exact ⟨_, (h set hset).encoded⟩

variable {last next : Nat} {sets : List (UInt32 × Bytes)}

theorem Ascending.mono {last' : Nat} (hle : last ≤ last') (h : Ascending last next sets) : Ascending last' next sets := by
  induction sets generalizing next with
  | nil => trivial
  | cons entry sets ih => exact ⟨h.1, h.2.1.trans hle, ih h.2.2⟩

theorem Ascending.length_le (h : Ascending last next sets) (hnext : next ≤ last + 1) : next + sets.length ≤ last + 1 := by
  induction sets generalizing next with
  | nil => exact hnext
  | cons entry sets ih =>
    have hge := h.1
    have hle := h.2.1
    have hrest := ih h.2.2 (by omega)
    rw [List.length_cons]
    omega

theorem Ascending.le_last (h : Ascending last next sets) {entry : UInt32 × Bytes} (hentry : entry ∈ sets) :
    entry.1.toNat ≤ last := by
  induction sets generalizing next with
  | nil => cases hentry
  | cons first sets ih =>
    cases hentry with
    | head => exact h.2.1
    | tail _ hentry => exact ih h.2.2 hentry

/-- The header of a range, as a range without sets. -/
def header (range : Range) : Range := { range with sets := [] }

theorem parse_layout (hvalidate : range.validate = .ok ()) (hvalid : ∀ set ∈ range.sets, set.Valid)
    (hsize : range.layout.length ≤ Blocks.maxRangeBytes) :
    parse range.layout = .done (.ok (range.header, range.raw)) := by
  obtain ⟨hbounded, hascending⟩ := validate_ok.mp hvalidate
  have hlast := hbounded.last_lt
  have hcount : 0 < range.count.toNat := UInt32.pos_iff_ne_zero.mpr hbounded.count_pos
  have hlength := hascending.length_le (by rw [endBlock]; dsimp only; omega)
  rw [endBlock] at hlength hascending
  dsimp only at hlength hascending
  refine parse_ok.mpr ⟨rfl, ?_, hsize, by dsimp only [header]; omega, hascending.mono (by omega), setsEncoded_raw hvalid⟩
  rw [layout, raw, List.length_map]
  rfl

/-- The decoder accepts exactly the layouts of valid ranges within the size limit. -/
theorem decode_ok {bytes : Bytes} :
    decode bytes = .done (.ok range) ↔ range.validate = .ok () ∧ (∀ set ∈ range.sets, set.Valid) ∧
      bytes = range.layout ∧ bytes.length ≤ Blocks.maxRangeBytes := by
  rw [decode, Checked.bind_eq_ok]
  simp only [Prod.exists, Checked.done_inj, bind_eq_ok, pure_eq_ok]
  constructor
  · rintro ⟨header, entries, hparse, sets, hsets, _, hvalidate, rfl⟩
    obtain ⟨hnone, hbytes, hsize, -, -, hencoded⟩ := parse_ok.mp hparse
    obtain ⟨rfl, hvalid⟩ := (mapM_decodeSet_ok hencoded).mp hsets
    refine ⟨hvalidate, hvalid, ?_, hsize⟩
    rw [hbytes, List.length_map]
    rfl
  · rintro ⟨hvalidate, hvalid, rfl, hsize⟩
    exact ⟨range.header, range.raw, parse_layout hvalidate hvalid hsize, range.sets,
      (mapM_decodeSet_ok (setsEncoded_raw hvalid)).mpr ⟨rfl, hvalid⟩, (), hvalidate, rfl⟩

theorem rawSets_of_decode {bytes : Bytes} (h : decode bytes = .done (.ok range)) :
    rawSets bytes = .done (.ok range.raw) := by
  obtain ⟨hvalidate, hvalid, rfl, hsize⟩ := decode_ok.mp h
  obtain ⟨hbounded, hascending⟩ := validate_ok.mp hvalidate
  have hheader : range.header.validate = .ok () :=
    validate_ok.mpr ⟨⟨hbounded.from_pos, hbounded.count_pos, hbounded.count_le, hbounded.last_lt⟩, trivial⟩
  rw [rawSets, parse_layout hvalidate hvalid hsize, Checked.done_ok, pure_bind]
  dsimp only
  rw [hheader, ok_bind]
  cases hlast : range.raw.getLast? with
  | none => rfl
  | some entry =>
    have hle := hascending.le_last (List.mem_of_getLast? hlast)
    exact congrArg Checked.done (if_neg fun hlarge => absurd (of_decide_eq_true hlarge) (not_lt.mpr hle))

/-! ## Splicing -/

def concat (revision : UInt64) (first second : Range) : Range :=
  ⟨revision, first.fromHeight, first.count + second.count, first.parent, second.ending, first.sets ++ second.sets⟩

theorem Ascending.append {last' next' : Nat} {sets' : List (UInt32 × Bytes)} (h : Ascending last next sets)
    (h' : Ascending last' next' sets') (hnext : next ≤ next') (hlast : last < next') (hle : last ≤ last') :
    Ascending last' next (sets ++ sets') := by
  induction sets generalizing next with
  | nil =>
    cases sets' with
    | nil => trivial
    | cons entry sets' => exact ⟨hnext.trans h'.1, h'.2⟩
  | cons entry sets ih =>
    have hentry := h.2.1
    exact ⟨h.1, hentry.trans hle, ih h.2.2 (by omega)⟩

theorem concat_validate (revision : UInt64) {first second : Range} (hfirst : first.validate = .ok ())
    (hsecond : second.validate = .ok ()) (hfollows : second.follows first = true)
    (hcount : first.count.toNat + second.count.toNat ≤ Blocks.maxRangeBlocks) :
    (concat revision first second).validate = .ok () := by
  obtain ⟨hbounded, hascending⟩ := validate_ok.mp hfirst
  obtain ⟨hbounded', hascending'⟩ := validate_ok.mp hsecond
  have hpos : 0 < first.count.toNat := UInt32.pos_iff_ne_zero.mpr hbounded.count_pos
  have hpos' : 0 < second.count.toNat := UInt32.pos_iff_ne_zero.mpr hbounded'.count_pos
  have hlast := hbounded'.last_lt
  have hmax : Blocks.maxRangeBlocks = 1048576 := rfl
  have hnext : first.fromHeight.toNat + (first.count.toNat - 1) + 1 = second.fromHeight.toNat :=
    (of_decide_eq_true hfollows).1
  have hsum : (first.count + second.count).toNat = first.count.toNat + second.count.toNat := by
    rw [UInt32.toNat_add, Nat.mod_eq_of_lt (by omega)]
  refine validate_ok.mpr ⟨⟨hbounded.from_pos, ?_, ?_, ?_⟩, ?_⟩
  · exact UInt32.pos_iff_ne_zero.mp (by rw [UInt32.lt_iff_toNat_lt, concat, hsum, UInt32.toNat_zero]; omega)
  · rw [concat, hsum]
    exact hcount
  · rw [concat, hsum]
    dsimp only
    omega
  · simp only [concat, raw, endBlock, hsum, List.map_append] at *
    exact (hascending.append hascending' (by omega) (by omega) (by omega)).mono (by omega)

end Range

end Zakura.Hints
