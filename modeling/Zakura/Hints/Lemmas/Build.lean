import Zakura.Hints.Lemmas.Matching
import Zakura.Lib.Lists
import Mathlib.Data.List.Dedup

/-! # Building filters

A built filter is the encoding of the values its receivers hash to, so its own decoder accepts it. -/

namespace Zakura.Hints

open List

open Zakura.Filter (SipHash GcsFilterWriter Encodes deltaBits length_golombBits hashToRange_lt finish_spec)
open Zakura.Receiver (Error Hash ReceiverBytes)

/-! ## Distinct receivers -/

theorem length_le_foldl_insert (receivers distinct : List ReceiverBytes) :
    distinct.length ≤ (receivers.foldl (fun d r => d.insert r) distinct).length := by
  induction receivers generalizing distinct with
  | nil => exact le_rfl
  | cons r receivers ih => exact (length_le_length_insert).trans (ih (distinct.insert r))

variable {max : Nat} {receivers distinct : List ReceiverBytes}

theorem collectDistinct_eq (h : (receivers.foldl (fun d r => d.insert r) distinct).length ≤ max) :
    collectDistinct max distinct receivers = .ok (receivers.foldl (fun d r => d.insert r) distinct) := by
  induction receivers generalizing distinct with
  | nil => rfl
  | cons r receivers ih =>
    have hle := length_le_foldl_insert receivers (distinct.insert r)
    rw [foldl_cons] at h
    rw [collectDistinct, if_neg (by omega), ih h, foldl_cons]

theorem nodup_foldl_insert (h : distinct.Nodup) : (receivers.foldl (fun d r => d.insert r) distinct).Nodup := by
  induction receivers generalizing distinct with
  | nil => exact h
  | cons r receivers ih => exact ih (h.insert)

theorem mem_foldl_insert {r : ReceiverBytes} :
    r ∈ receivers.foldl (fun d r => d.insert r) distinct ↔ r ∈ distinct ∨ r ∈ receivers := by
  induction receivers generalizing distinct with
  | nil => simp
  | cons r' receivers ih =>
    rw [foldl_cons, ih, mem_insert_iff, mem_cons]
    tauto

theorem collectDistinct_ok {result : List ReceiverBytes} (hdistinct : distinct.length ≤ max)
    (h : collectDistinct max distinct receivers = .ok result) :
    result = receivers.foldl (fun d r => d.insert r) distinct ∧ result.length ≤ max := by
  induction receivers generalizing distinct with
  | nil =>
    obtain rfl := Except.ok.inj h
    exact ⟨rfl, hdistinct⟩
  | cons r receivers ih =>
    rw [collectDistinct] at h
    split at h
    · cases h
    · rename_i hle
      exact ih (not_lt.mp hle) h

theorem length_foldl_insert (receivers : List ReceiverBytes) :
    (receivers.foldl (fun d r => d.insert r) []).length = receivers.dedup.length := by
  have hnodup : (receivers.foldl (fun d r => d.insert r) []).Nodup := nodup_foldl_insert .nil
  refine ((perm_ext_iff_of_nodup hnodup (nodup_dedup _)).mpr fun r => ?_).length_eq
  rw [mem_foldl_insert, mem_dedup]
  simp

theorem collectDistinct_spec (h : receivers.dedup.length ≤ max) :
    ∃ distinct, collectDistinct max [] receivers = .ok distinct ∧ distinct.Nodup ∧ distinct.length ≤ max ∧
      ∀ r, r ∈ distinct ↔ r ∈ receivers := by
  rw [← length_foldl_insert] at h
  refine ⟨_, collectDistinct_eq h, nodup_foldl_insert .nil, h, fun r => ?_⟩
  rw [mem_foldl_insert]
  simp

/-! ## Encoded sets -/

variable {p : Nat} {values : List Nat}

variable {m : Nat} {set : Bytes}

theorem encodes_mono {max' : Nat} (h : Encodes p m max values set) (hle : values.length ≤ max') :
    Encodes p m max' values set :=
  ⟨hle, h.sorted, h.below, h.code⟩

structure IsHashed (sip : SipHash) (keys : UInt64 × UInt64) (m : Nat) (receivers : List ReceiverBytes)
    (values : List Nat) : Prop where
  length_eq : values.length = receivers.length
  mem_iff : ∀ v, v ∈ values ↔ ∃ r ∈ receivers, v = Gcs.value sip keys receivers.length m r

namespace Filter

variable {p m : Nat}

theorem writeSet_spec {ε : Type} (sip : SipHash) (keys : UInt64 × UInt64) {receivers : List ReceiverBytes}
    (hnodup : receivers.Nodup) (hm : 1 ≤ m) (hp : p ≤ 63) (hrange : receivers.length * m < 2 ^ 64) :
    ∃ set values, (writeSet sip keys receivers p m : Checked ε Bytes) = pure set ∧
      Encodes p m receivers.length values set ∧ IsHashed sip keys m receivers values := by
  obtain ⟨w, hw⟩ : ∃ w, w = (receivers.map (·.val)).foldl GcsFilterWriter.addElement (.new keys.1 keys.2 m p) :=
    ⟨_, rfl⟩
  obtain ⟨hk0, hk1, hwm, hwp⟩ :=
    GcsFilterWriter.addElements_params (receivers.map (·.val)) (.new keys.1 keys.2 m p)
  have helements : w.elements = (receivers.map (·.val)).reverse := by
    rw [hw, GcsFilterWriter.elements_addElements (hnodup.map Subtype.val_injective)]
    · exact append_nil _
    · intro script hscript
      obtain ⟨r, -, rfl⟩ := mem_map.mp hscript
      refine ⟨fun hnil => ?_, not_mem_nil⟩
      have hlength := FixedBytes.length_val r
      rw [hnil] at hlength
      cases hlength
  have hcount : w.elements.length = receivers.length := by
    rw [helements, length_reverse, length_map]
  rw [← hw] at hk0 hk1 hwm hwp
  simp only [GcsFilterWriter.new] at hk0 hk1 hwm hwp
  obtain ⟨hlength, hsorted, hvalues⟩ := w.mapped_spec sip
  have hmem : ∀ v, v ∈ w.mapped sip ↔ ∃ r ∈ receivers, v = Gcs.value sip keys receivers.length m r := by
    intro v
    rw [hvalues, helements, length_reverse, length_map, hk0, hk1, hwm]
    simp only [mem_reverse, mem_map, exists_exists_and_eq_and, Gcs.value]
  obtain ⟨body, wrote, pad, hfinish, hpad, hbody⟩ :=
    finish_spec sip (by omega : 1 ≤ w.m) (by omega) (by rw [hcount, hwm]; exact hrange)
  rw [hcount] at hlength
  refine ⟨compactSizeBytes w.elements.length ++ body, w.mapped sip, ?_, ⟨hlength.le, hsorted, ?_, body, pad, ?_, hpad, ?_⟩,
    hlength, hmem⟩
  · rw [writeSet, ← foldl_map, ← hw, hfinish]
    rfl
  · intro v hv
    obtain ⟨r, hr, rfl⟩ := (hmem v).mp hv
    rw [hlength]
    exact hashToRange_lt _ _ _ (Nat.mul_pos (length_pos_of_mem hr) hm) _
  · rw [hcount, hlength]
  · rw [← hwp]
    exact hbody

theorem decodeWith_spec (hp : p ≤ 64) (hm : m < 2 ^ 32) {values : List Nat} {set : Bytes}
    (hset : Encodes p m (2 ^ 32 - 1) values set) : decodeWith set p m = .ok ⟨set, values, m⟩ := by
  have hrange : values.length * m < 2 ^ 32 * 2 ^ 32 := Nat.mul_lt_mul'' (by have := hset.count_le; omega) hm
  rw [decodeWith, Gcs.visit_spec _ hp hset hrange (by decide), Except.ok_bind, Gcs.visitAll_push]
  rfl

end Filter

/-! ## Sizes -/

theorem length_deltaBits_le {bound : Nat} {last : Nat} (hsorted : (last :: values).Pairwise (· ≤ ·))
    (hbelow : ∀ v ∈ values, v ≤ bound) (hlast : last ≤ bound) :
    (deltaBits p last values).length ≤ values.length * (p + 1) + (bound - last) / 2 ^ p := by
  induction values generalizing last with
  | nil => simp [deltaBits]
  | cons v values ih =>
    obtain ⟨hfirst, hrest⟩ := pairwise_cons.mp hsorted
    have hle : last ≤ v := hfirst v mem_cons_self
    have hv := hbelow v mem_cons_self
    have htail := ih hrest (fun w hw => hbelow w (mem_cons_of_mem v hw)) hv
    have hdiv : (v - last) / 2 ^ p + (bound - v) / 2 ^ p ≤ (bound - last) / 2 ^ p := by
      have hsum : (v - last) / 2 ^ p + (bound - v) / 2 ^ p ≤ (v - last + (bound - v)) / 2 ^ p :=
        Nat.div_add_div_le_add_div
      rwa [show v - last + (bound - v) = bound - last by omega] at hsum
    rw [deltaBits, length_append, length_golombBits, length_cons, Nat.succ_mul]
    omega

theorem length_set_le (h : Encodes p m max values set) :
    8 * set.length ≤ 8 * 9 + (values.length * (p + 1) + values.length * m / 2 ^ p) + 7 := by
  obtain ⟨-, hsorted, hbelow, body, pad, rfl, hpad, hbody⟩ := h
  have hzero : (0 :: values).Pairwise (· ≤ ·) := pairwise_cons.mpr ⟨fun v _ => Nat.zero_le v, hsorted⟩
  have hbits := length_deltaBits_le (p := p) hzero (fun v hv => (hbelow v hv).le) (Nat.zero_le _)
  have hheader := compactSizeBytes_length_le values.length
  have hlength := congrArg List.length hbody
  rw [length_bytesBits, length_append, length_replicate] at hlength
  rw [Nat.sub_zero] at hbits
  rw [length_append]
  omega

/-! ## Height sets -/

variable {height : UInt32}

/-- A block that pays receivers within the limit has a set, which its decoder accepts. -/
theorem HeightSet.build_spec (sha : Sha256) (sip : SipHash) (genesis : Hash) (hheight : height ≠ 0) (hpaid : receivers ≠ [])
    (hlimit : receivers.dedup.length ≤ Blocks.maxReceivers) :
    ∃ distinct set values, (∀ r, r ∈ distinct ↔ r ∈ receivers) ∧
      HeightSet.build sha sip genesis height receivers =
        .done (.ok (some ⟨height, set, values, Blocks.m⟩)) ∧
      Encodes Blocks.p Blocks.m Blocks.maxReceivers values set ∧
      IsHashed sip (Gcs.keys sha (heightSalt sha genesis height)) Blocks.m distinct values := by
  obtain ⟨distinct, hcollect, hnodup, hlength, hmem⟩ := collectDistinct_spec hlimit
  have hmax : Blocks.maxReceivers = 65536 := rfl
  have hm : Blocks.m = 1569792 := rfl
  obtain ⟨set, values, hwrite, hset, hhashed⟩ := Filter.writeSet_spec sip
    (Gcs.keys sha (heightSalt sha genesis height)) hnodup (by decide : 1 ≤ Blocks.m) (by decide : Blocks.p ≤ 63)
    (by rw [hm]; omega)
  have hcount := hhashed.length_eq
  have hdecode := Filter.decodeWith_spec (by decide) (by decide) (encodes_mono hset (by omega))
  refine ⟨distinct, set, values, hmem, ?_, encodes_mono hset (by omega), hhashed⟩
  have hne : distinct ≠ [] := by
    obtain ⟨r, hr⟩ := exists_mem_of_ne_nil _ hpaid
    exact ne_nil_of_mem ((hmem r).mpr hr)
  rw [HeightSet.build, hcollect, Checked.done_ok, pure_bind, if_neg (by tauto), Filter.buildWith, hwrite, pure_bind,
    hdecode]
  rfl

/-- A height set whose filter is the encoding of its values. -/
structure HeightSet.Valid (set : HeightSet) : Prop where
  encoded : Encodes Blocks.p Blocks.m Blocks.maxReceivers set.filter.values set.bytes
  nonempty : set.filter.values ≠ []
  parameter : set.filter.m = Blocks.m

theorem HeightSet.valid_of_build {sha : Sha256} {sip : SipHash} {genesis : Hash} {set : HeightSet}
    (h : HeightSet.build sha sip genesis height receivers = .done (.ok (some set))) : set.Valid := by
  have hbuild := h
  rw [HeightSet.build, Checked.bind_eq_ok] at hbuild
  obtain ⟨distinct, hcollect, hbuild⟩ := hbuild
  obtain ⟨hdistinct, hlength⟩ := collectDistinct_ok (Nat.zero_le _) (Checked.done_inj.mp hcollect)
  split at hbuild
  · cases hbuild
  · rename_i hne
    rw [not_or] at hne
    have hpaid : receivers ≠ [] := by
      rintro rfl
      exact hne.1 hdistinct
    rw [hdistinct, length_foldl_insert] at hlength
    obtain ⟨distinct, bytes, values, hmem, hspec, hset, hhashed⟩ :=
      HeightSet.build_spec sha sip genesis hne.2 hpaid hlength
    rw [h, Checked.done_inj] at hspec
    obtain rfl := Option.some_inj.mp (Except.ok.inj hspec)
    refine ⟨hset, ?_, rfl⟩
    obtain ⟨r, hr⟩ := exists_mem_of_ne_nil _ hpaid
    exact ne_nil_of_mem ((hhashed.mem_iff _).mpr ⟨r, (hmem r).mpr hr, rfl⟩)

/-! ## Shard filters -/

namespace ShardFilter

theorem length_magic : Shards.magic.length = 8 := by decide

theorem length_frame (genesis : Hash) (revision : UInt64) (coverage : Coverage) (set : Bytes) :
    (frame genesis revision coverage set).length = Shards.header + set.length := by
  simp only [frame, length_append, length_magic, FixedBytes.length_val, length_leBytes, Shards.header]

theorem drop_frame (genesis : Hash) (revision : UInt64) (coverage : Coverage) (set : Bytes) :
    (frame genesis revision coverage set).drop Shards.header = set := by
  rw [frame, drop_left']
  simp only [length_append, length_magic, FixedBytes.length_val, length_leBytes, Shards.header]

theorem bytesAt_frame (genesis : Hash) (revision : UInt64) (coverage : Coverage) (set : Bytes) :
    bytesAt (frame genesis revision coverage set) 0 8 = Shards.magic ∧
      bytesAt (frame genesis revision coverage set) 8 32 = genesis.val ∧
      bytesAt (frame genesis revision coverage set) 40 8 = leBytes 8 revision.toNat ∧
      bytesAt (frame genesis revision coverage set) 48 4 = leBytes 4 coverage.startHeight.toNat ∧
      bytesAt (frame genesis revision coverage set) 52 4 = leBytes 4 coverage.endHeight.toNat ∧
      bytesAt (frame genesis revision coverage set) 56 32 = coverage.endHash.val ∧
      bytesAt (frame genesis revision coverage set) 88 4 = leBytes 4 set.length := by
  simp [frame, length_magic]

variable {values : List Nat}

variable {coverage : Coverage} {set : Bytes}

theorem decode_frame (genesis : Hash) (revision : UInt64) (hcoverage : coverage.startHeight ≤ coverage.endHeight)
    (hsize : Shards.header + set.length ≤ Shards.maxFilterBytes)
    (hset : Encodes Shards.p Shards.m Shards.maxReceivers values set) :
    decode (frame genesis revision coverage set) =
      .ok ⟨genesis, revision, coverage, values.length, frame genesis revision coverage set⟩ := by
  obtain ⟨hmagic, hgenesis, hrevision, hstart, hend, hhash, hlen⟩ := bytesAt_frame genesis revision coverage set
  have hmax : Shards.maxFilterBytes = 25165824 := rfl
  have hcount := hset.count_le
  have hlimit : Shards.maxReceivers = 8388608 := rfl
  have hm : Shards.m = 1569792 := rfl
  have hlength : leNat (leBytes 4 set.length) = set.length := leNat_leBytes_of_lt (by omega)
  have hwide : leNat (leBytes 8 revision.toNat) = revision.toNat := leNat_leBytes_of_lt revision.toNat_lt
  have hword : ∀ w : UInt32, leNat (leBytes 4 w.toNat) = w.toNat := fun w => leNat_leBytes_of_lt w.toNat_lt
  have hvisit := Gcs.visit_spec (fun (_ : Unit) _ => ((), false)) (by decide) hset (by rw [hm]; omega) (by decide) ()
  rw [decode, if_neg (by rw [length_frame]; omega), if_neg (by rw [length_frame, hmagic]; simp),
    show Shards.header - 4 = 88 from rfl, hlen, hlength, if_neg (by rw [length_frame]; simp), hstart, hend, hword, hword,
    fixedAt_eq hhash, UInt32.ofNat_toNat, UInt32.ofNat_toNat]
  dsimp only
  rw [if_neg (UInt32.not_lt.mpr hcoverage), drop_frame, hvisit, Except.ok_bind, hrevision, hwide, fixedAt_eq hgenesis,
    UInt64.ofNat_toNat]
  rfl

theorem frame_fits (hset : Encodes Shards.p Shards.m Shards.maxReceivers values set) :
    Shards.header + set.length ≤ Shards.maxFilterBytes := by
  have hlength := length_set_le hset
  have hcount := hset.count_le
  simp only [Shards.p, Shards.m, Shards.maxReceivers, Shards.header, Shards.maxFilterBytes] at *
  omega

variable {receivers : List ReceiverBytes}

/-- Receivers within the limit have a filter, which its decoder accepts. -/
theorem build_spec (sha : Sha256) (sip : SipHash) (genesis : Hash) (revision : UInt64)
    (hcoverage : coverage.startHeight ≤ coverage.endHeight) (hlimit : receivers.dedup.length ≤ Shards.maxReceivers) :
    ∃ distinct set values, (∀ r, r ∈ distinct ↔ r ∈ receivers) ∧
      build sha sip genesis revision coverage receivers =
        .done (.ok ⟨genesis, revision, coverage, values.length, frame genesis revision coverage set⟩) ∧
      decode (frame genesis revision coverage set) =
        .ok ⟨genesis, revision, coverage, values.length, frame genesis revision coverage set⟩ ∧
      Encodes Shards.p Shards.m Shards.maxReceivers values set ∧
      IsHashed sip (Gcs.keys sha (shardSalt sha genesis coverage)) Shards.m distinct values := by
  obtain ⟨distinct, hcollect, hnodup, hlength, hmem⟩ := collectDistinct_spec hlimit
  have hmax : Shards.maxReceivers = 8388608 := rfl
  have hm : Shards.m = 1569792 := rfl
  obtain ⟨set, values, hwrite, hset, hhashed⟩ := Filter.writeSet_spec sip
    (Gcs.keys sha (shardSalt sha genesis coverage)) hnodup (by decide : 1 ≤ Shards.m) (by decide : Shards.p ≤ 63)
    (by rw [hm]; omega)
  have hset : Encodes Shards.p Shards.m Shards.maxReceivers values set :=
    encodes_mono hset (by rw [hhashed.length_eq]; exact hlength)
  have hfits := frame_fits hset
  have hdecode := decode_frame genesis revision hcoverage hfits hset
  refine ⟨distinct, set, values, hmem, ?_, hdecode, hset, hhashed⟩
  rw [build, if_neg (UInt32.not_lt.mpr hcoverage), hcollect, Checked.done_ok, pure_bind]
  dsimp only
  rw [hwrite, pure_bind, if_neg (by rw [length_frame]; omega), hdecode]

/-! ## Matching a shard filter -/

theorem wanted_sorted (sip : SipHash) (keys : UInt64 × UInt64) (count : Nat) (receivers : List ReceiverBytes) :
    ((wanted sip keys count receivers).map (·.1)).Pairwise (· ≤ ·) := by
  rw [pairwise_map]
  refine (pairwise_insertionSort _ _).imp ?_
  intro a b hab
  rw [Prod.Lex.toLex_le_toLex] at hab
  omega

theorem mem_wanted {sip : SipHash} {keys : UInt64 × UInt64} {count v i : Nat} :
    (v, i) ∈ wanted sip keys count receivers ↔
      ∃ r, receivers[i]? = some r ∧ v = Gcs.value sip keys count Shards.m r := by
  rw [wanted, mem_insertionSort, mem_map]
  constructor
  · rintro ⟨⟨r, index⟩, hmem, heq⟩
    obtain ⟨rfl, rfl⟩ := Prod.mk.inj heq
    exact ⟨r, mk_mem_zipIdx_iff_getElem?.mp hmem, rfl⟩
  · rintro ⟨r, hr, rfl⟩
    exact ⟨(r, i), mk_mem_zipIdx_iff_getElem?.mpr hr, rfl⟩

theorem matchReceivers_eq {ε : Type} (sha : Sha256) (sip : SipHash) {filter : ShardFilter}
    (hset : Encodes Shards.p Shards.m Shards.maxReceivers values (filter.bytes.drop Shards.header))
    (receivers : List ReceiverBytes) :
    (filter.matchReceivers sha sip receivers : Checked ε (List Bool)) = pure (receivers.map fun receiver =>
      decide (Gcs.value sip (Gcs.keys sha (shardSalt sha filter.genesis filter.coverage)) filter.count Shards.m receiver
        ∈ values)) := by
  have hcount := hset.count_le
  have hlimit : Shards.maxReceivers = 8388608 := rfl
  have hm : Shards.m = 1569792 := rfl
  obtain ⟨keys, hkeys⟩ : ∃ keys, keys = Gcs.keys sha (shardSalt sha filter.genesis filter.coverage) := ⟨_, rfl⟩
  have hsorted := wanted_sorted sip keys filter.count receivers
  rw [matchReceivers, matchesVisiting, ← hkeys]
  dsimp only
  cases hlast : (wanted sip keys filter.count receivers).getLast? with
  | none =>
    -- Nothing is wanted, so there are no receivers.
    have hnil := getLast?_eq_none_iff.mp hlast
    cases receivers with
    | nil => rfl
    | cons r receivers =>
      have hmem : (Gcs.value sip keys filter.count Shards.m r, 0) ∈ wanted sip keys filter.count (r :: receivers) :=
        mem_wanted.mpr ⟨r, rfl, rfl⟩
      rw [hnil] at hmem
      cases hmem
  | some entry =>
    obtain ⟨last, index⟩ := entry
    have hbound : ∀ entry ∈ wanted sip keys filter.count receivers, entry.1 ≤ last := by
      intro entry hentry
      obtain ⟨front, hfront⟩ := getLast?_eq_some_iff.mp hlast
      rw [hfront, map_append, pairwise_append] at hsorted
      rw [hfront, mem_append] at hentry
      cases hentry with
      | inl hentry => exact hsorted.2.2 _ (mem_map.mpr ⟨_, hentry, rfl⟩) _ mem_cons_self
      | inr hentry => rw [mem_singleton.mp hentry]
    obtain ⟨start, hstart⟩ : ∃ start : Matcher,
        start = ⟨0, wanted sip keys filter.count receivers, List.replicate receivers.length false⟩ := ⟨_, rfl⟩
    have hvisit := Gcs.visit_spec (Matcher.each last) (by decide) hset (by rw [hm]; omega) (by decide) start
    obtain ⟨hlength, hmarked⟩ := visitAll_each (s := start) hset.sorted (by rw [hstart]; exact hsorted)
      (by rw [hstart]; exact hbound)
    have hfound : start.found = List.replicate receivers.length false := by rw [hstart]
    have hnext : start.next = wanted sip keys filter.count receivers := by rw [hstart]
    rw [hfound, length_replicate] at hlength hmarked
    rw [hnext] at hmarked
    simp only [← hstart, hvisit, Except.toOption, Checked.expect, Option.elim, pure_bind]
    congr 1
    refine eq_map_decide hlength fun i r hr => ?_
    obtain ⟨hi, -⟩ := List.getElem?_eq_some_iff.mp hr
    rw [hmarked i hi]
    simp only [mem_wanted, hr, getElem?_replicate, hi, if_true, Option.some.injEq, Bool.false_eq_true, false_or]
    constructor
    · rintro ⟨v, hv, r', rfl, rfl⟩
      exact hv
    · intro hv
      exact ⟨_, hv, r, rfl, rfl⟩

end ShardFilter

end Zakura.Hints
