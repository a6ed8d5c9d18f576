import Zakura.Display.Split
import Zakura.Lib.Except
import Zakura.Lib.Tiles

/-! # What the checks of entries establish -/

namespace Zakura.Display

open List Zakura.Except

variable {sealParams : DisplaySealParams} {shard previous : DisplayMapEntry} {shards : List DisplayMapEntry}

abbrev TilesHeights : Nat → List DisplayMapEntry → Nat → Prop :=
  Tiles (·.startHeight.toNat) (·.endHeight.toNat)

def Covers (shard : DisplayMapEntry) (height : Nat) : Prop :=
  shard.startHeight.toNat ≤ height ∧ height ≤ shard.endHeight.toNat

def Numbered (first : Nat) (shards : List DisplayMapEntry) : Prop :=
  ∀ index shard, shards[index]? = some shard → shard.shardId.toNat = first + index

theorem Numbered.slice {first : Nat} (h : Numbered first shards) (start count : Nat) :
    Numbered (first + start) ((shards.drop start).take count) := by
  intro index shard hshard
  have hget : shards[start + index]? = some shard := by
    rw [getElem?_take] at hshard
    split at hshard
    · rwa [getElem?_drop] at hshard
    · cases hshard
  rw [h _ _ hget, Nat.add_assoc]

theorem numbered_cons {first : Nat} :
    Numbered first (shard :: shards) ↔ shard.shardId.toNat = first ∧ Numbered (first + 1) shards := by
  constructor
  · intro h
    refine ⟨h 0 shard rfl, fun index e he => ?_⟩
    rw [h (index + 1) e he]
    omega
  · rintro ⟨hfirst, hrest⟩ index e he
    cases index with
    | zero =>
      obtain rfl := Option.some_inj.mp he
      exact hfirst
    | succ index =>
      rw [hrest index e he]
      omega

/-! ## Entries -/

theorem checkEntryStructure_le (h : checkEntryStructure sealParams shard = .ok ()) :
    shard.startHeight.toNat ≤ shard.endHeight.toNat := by
  unfold checkEntryStructure at h
  dsimp only at h
  rw [ite_error_eq_ok] at h
  exact UInt64.le_iff_toNat_le.mp (UInt64.not_lt.mp h.1)

theorem checkEntry_structure (h : checkEntry sealParams shard = .ok ()) :
    checkEntryStructure sealParams shard = .ok () :=
  (check_bind_eq_ok.mp h).1

theorem checkChain_next (h : checkChain previous shard = .ok ()) :
    previous.endHeight.toNat + 1 = shard.startHeight.toNat := by
  unfold checkChain at h
  dsimp only at h
  rw [ite_error_eq_ok, not_or, not_not] at h
  exact h.1.1

theorem tiles_of_chained (hchain : shards.IsChain fun a b => checkChain a b = .ok ())
    (hentries : ∀ e ∈ shards, checkEntryStructure sealParams e = .ok ()) {start stop : Nat}
    (hfirst : (shards.head?.map (·.startHeight.toNat)) = some start)
    (hlast : (shards.getLast?.map fun e => e.endHeight.toNat + 1) = some stop) : TilesHeights start shards stop :=
  tiles_of_isChain (hchain.imp fun _ _ => checkChain_next) (fun e he => checkEntryStructure_le (hentries e he)) hfirst
    hlast

/-! ## Searching by height -/

theorem findByHeight_eq_some {start stop : Nat} (h : TilesHeights start shards stop) {height : Nat} :
    findByHeight shards height = some shard ↔ shard ∈ shards ∧ Covers shard height :=
  h.search_eq_some

theorem findByHeight_eq_none {start stop : Nat} (h : TilesHeights start shards stop) {height : Nat}
    (hout : height < start ∨ stop ≤ height) : findByHeight shards height = none := by
  refine Option.eq_none_iff_forall_not_mem.mpr fun e he => ?_
  obtain ⟨hmem, hlo, hhi⟩ := (findByHeight_eq_some h).mp he
  have := h.bounds hmem
  omega

/-! ## Loops over the shards -/

theorem checkChains_ok :
    DisplayMap.checkChains shards = .ok () ↔ shards.IsChain fun a b => checkChain a b = .ok () := by
  fun_induction DisplayMap.checkChains shards with
  | case1 previous shard shards ih => rw [check_bind_eq_ok, ih, isChain_cons_cons]
  | case2 shards hshort =>
    refine ⟨fun _ => ?_, fun _ => rfl⟩
    match shards, hshort with
    | [], _ => exact List.IsChain.nil
    | [e], _ => exact List.IsChain.singleton e
    | a :: b :: rest, hshort => exact absurd rfl (hshort a b rest)

theorem checkPositions_ok {map : DisplayMap} {index : Nat} (h : map.checkPositions index shards = .ok ()) :
    Numbered (map.firstShardId.toNat + index) shards ∧ (∀ e ∈ shards, checkEntry map.sealParams e = .ok ()) ∧
      ∀ i e, shards[i]? = some e → e.sealed = false → index + i + 1 = map.shards.length := by
  induction shards generalizing index with
  | nil =>
    exact ⟨fun i e he => (nomatch he), fun e he => absurd he not_mem_nil, fun i e he => (nomatch he)⟩
  | cons shard shards ih =>
    unfold DisplayMap.checkPositions at h
    rw [ite_error_eq_ok, check_bind_eq_ok, ite_error_eq_ok, not_not] at h
    obtain ⟨hid, hentry, hlast, hrest⟩ := h
    obtain ⟨hnumbered, hentries, hunsealed⟩ := ih hrest
    refine ⟨numbered_cons.mpr ⟨hid.symm, hnumbered⟩, forall_mem_cons.mpr ⟨hentry, hentries⟩, ?_⟩
    intro i e he hopen
    cases i with
    | zero =>
      obtain rfl := Option.some_inj.mp he
      by_contra hne
      exact hlast ⟨by simp [hopen], hne⟩
    | succ i =>
      have := hunsealed i e he hopen
      omega

theorem checkListed_ok {map : DisplayRecentMap} {index id : Nat} {previous : Option DisplayMapEntry} :
    map.checkListed index id previous shards = .ok () ↔
      Numbered id shards ∧ (∀ e ∈ shards, e.sealed = true ∧ checkEntryStructure map.sealParams e = .ok ()) ∧
        (previous.toList ++ shards).IsChain fun a b => checkChain a b = .ok () := by
  induction shards generalizing id previous with
  | nil =>
    refine ⟨fun _ => ⟨fun i e he => (nomatch he), fun e he => absurd he not_mem_nil, ?_⟩, fun _ => rfl⟩
    cases previous with
    | none => exact List.IsChain.nil
    | some e => exact List.IsChain.singleton e
  | cons shard shards ih =>
    have hlink : ((previous.forM fun e => checkChain e shard) = Except.ok () ∧
        (shard :: shards).IsChain fun a b => checkChain a b = .ok ()) ↔
        (previous.toList ++ shard :: shards).IsChain fun a b => checkChain a b = .ok () := by
      cases previous with
      | none => exact and_iff_right rfl
      | some e =>
        rw [Option.toList_some, singleton_append, isChain_cons_cons]
        rfl
    have hids : ¬ (shard.shardId.toNat ≠ id ∨ ¬ shard.sealed = true) ↔
        shard.shardId.toNat = id ∧ shard.sealed = true := by
      rw [not_or, not_not, not_not]
    unfold DisplayRecentMap.checkListed
    rw [ite_error_eq_ok, check_bind_eq_ok, check_bind_eq_ok, ih, hids, numbered_cons,
      forall_mem_cons, ← hlink]
    exact ⟨fun ⟨⟨hid, hsealed⟩, hentry, hprev, hnum, hall, hchain⟩ =>
        ⟨⟨hid, hnum⟩, ⟨⟨hsealed, hentry⟩, hall⟩, hprev, hchain⟩,
      fun ⟨⟨hid, hnum⟩, ⟨⟨hsealed, hentry⟩, hall⟩, hprev, hchain⟩ =>
        ⟨⟨hid, hsealed⟩, hentry, hprev, hnum, hall, hchain⟩⟩

/-! ## Digests -/

theorem isDigest_hexEncode (digest : FixedBytes 32) : isDigest (hexEncode digest.val) = true := by
  have hdigit : ∀ n < 16, (Nat.digitChar n).isDigit || 'a' ≤ Nat.digitChar n && Nat.digitChar n ≤ 'f' := by decide
  have hlength (bytes : Bytes) :
      (bytes.flatMap fun b => [Nat.digitChar (b.toNat / 16), Nat.digitChar (b.toNat % 16)]).length =
        2 * bytes.length := by
    induction bytes with
    | nil => rfl
    | cons b bytes ih =>
      rw [flatMap_cons, length_append, ih, length_cons]
      exact Nat.add_comm 2 (2 * bytes.length)
  unfold isDigest hexEncode
  rw [decide_eq_true_eq, String.toList_ofList, hlength, digest.property, all_eq_true]
  refine ⟨rfl, fun c hc => ?_⟩
  obtain ⟨b, -, hb⟩ := mem_flatMap.mp hc
  have hbyte := b.toNat_lt
  obtain rfl | hb := mem_cons.mp hb
  · exact hdigit _ (by omega)
  · obtain rfl := mem_singleton.mp hb
    exact hdigit _ (Nat.mod_lt _ (by decide))

end Zakura.Display
