import Zakura.ShardInventory.Lemmas.Capture
import Zakura.ShardInventory.Lemmas.Identity

/-! # What a captured inventory is -/

namespace Zakura.ShardInventory

open List Zakura.Except
open Zakura.Receiver (Hash)

variable {P : Type}

/-- The inventory is the head's: its list is contiguous, complete, and the only one the head's identity commits to. -/
structure Published (π : Protocol P) (head : Head) (inventory : Inventory P) : Prop where
  head_eq : inventory.head = head
  contiguous : Contiguous π head inventory.shards
  complete : inventory.shards.length = head.shards.toNat
  committed : ∀ shards, head.identity π shards = .ok head.inventory ↔ shards = inventory.shards

/-- Where the head's identity commits to no two lists, what a capture ends with is the head's inventory exactly when
some list of as many shards as the head says has its identity. An inventory is rebuilt from its own chunks. -/
theorem capture_published_iff (π : Protocol P) :
    (∀ head budget calls start inventory,
      (∀ shards shards', head.identity π shards = .ok head.inventory → head.identity π shards' = .ok head.inventory →
        shards = shards') →
      Capture.new head budget = .ok start → (start.callAll π calls).finish π = .ok inventory →
      (Published π head inventory ↔
        ∃ shards : List (Shard P), shards.length = head.shards.toNat ∧ head.identity π shards = .ok head.inventory)) ∧
    (∀ genesis historyRevision shards inventory, Inventory.build π genesis historyRevision shards = .ok inventory →
      inventory.Valid π) ∧
    ∀ inventory chunks, inventory.Valid π → inventory.chunks π = .ok chunks →
      Inventory.fromChunks π inventory.head chunks = .ok inventory := by
  refine ⟨fun head budget calls start inventory hbinding hnew hfinish => ?_, fun _ _ _ _ => valid_of_build,
    fun _ _ hvalid hchunks => fromChunks_chunks hvalid hchunks⟩
  obtain ⟨hhead, hlinked, -⟩ := (capturing_new hnew).2.2.callAll calls
  obtain ⟨-, hend, hidentity, rfl⟩ := finish_eq_ok.mp hfinish
  rw [hhead] at hend hidentity ⊢
  constructor
  · intro h
    exact ⟨_, h.complete, hidentity⟩
  · rintro ⟨shards, hlength, hshards⟩
    obtain rfl := hbinding _ _ hshards hidentity
    exact ⟨rfl, hlinked.contiguous hend, hlength, fun other => ⟨fun h => hbinding _ _ h hidentity, fun h => h ▸ hidentity⟩⟩

/-- The client's own capture stops at the first failed push, so what it ends with is whole, whatever the server and the
saved descriptors answered. -/
theorem fetch_complete (π : Protocol P) {head : Head} {budget fuel : Nat} {start after : Capture P} {get : Nat → Bytes}
    {cache : Option (DescriptorCache P)} {inventory : Inventory P} (hnew : Capture.new head budget = .ok start)
    (hfetch : fetch π get cache fuel start = .ok after) (hfinish : after.finish π = .ok inventory) :
    inventory.head = head ∧ Contiguous π head inventory.shards ∧ inventory.shards.length = head.shards.toNat ∧
      head.identity π inventory.shards = .ok head.inventory := by
  obtain ⟨-, rfl, hcapturing⟩ := capturing_new hnew
  obtain ⟨⟨rfl, hlinked, hle⟩, hwhole⟩ := fetch_whole hcapturing (.inl (dvd_zero _)) hfetch
  obtain ⟨hnext, hend, hidentity, rfl⟩ := finish_eq_ok.mp hfinish
  exact ⟨rfl, hlinked.contiguous hend, hwhole.complete hle hnext, hidentity⟩

/-! ## A head that counts one shard too many -/

/-- The block 1, with one segment. -/
def loneShard : Shard Unit where
  index := 0
  sealed := true
  startHeight := 1
  startParent := .zero 32
  startPosition := 0
  endHeight := 1
  endHash := .zero 32
  endPosition := 0
  segments := [()]
  filter := none

/-- The digests of `loneShard` and of the inventory under the hash of `loneProtocol`. -/
def loneDigest : Hash := ⟨List.replicate 32 1, length_replicate⟩

def headDigest : Hash := ⟨List.replicate 32 2, length_replicate⟩

/-- A head that ends with the block 1 and counts the given number of shards. -/
def loneHead (shards : UInt32) : Head where
  protocol := protocolName
  genesis := .zero 32
  historyRevision := 0
  inventory := headDigest
  shards
  startHeight := 1
  startPosition := 0
  endHeight := 1
  endHash := .zero 32
  endPosition := 0

/-- A hash with which the head commits to `loneShard` alone. -/
def loneProtocol (shards : UInt32) : Protocol Unit where
  validate _ := .ok ()
  coverage _ := loneShard.coverage (loneHead shards)
  treeSize _ := 0
  directoryId _ := .ok (.zero 32)
  companionId _ := .ok (.zero 32)
  sha256 bytes :=
    if bytes = loneShard.preimage [(.zero 32, .zero 32)] then loneDigest
    else if bytes = (loneHead shards).preimage ++ loneDigest.val then headDigest
    else .zero 32
  parse _ := none
  size _ := 0

variable {count : UInt32}

theorem sha256_eq_loneDigest {bytes : Bytes} (h : (loneProtocol count).sha256 bytes = loneDigest) :
    bytes = loneShard.preimage [(.zero 32, .zero 32)] := by
  by_contra hne
  change (if _ then _ else if _ then _ else _) = loneDigest at h
  rw [if_neg hne] at h
  split_ifs at h
  · exact absurd h (by decide)
  · exact absurd h (by decide)

theorem sha256_eq_headDigest {bytes : Bytes} (h : (loneProtocol count).sha256 bytes = headDigest) :
    bytes = (loneHead count).preimage ++ loneDigest.val := by
  by_contra hne
  change (if _ then _ else if _ then _ else _) = headDigest at h
  rw [if_neg hne] at h
  split_ifs at h
  · exact absurd h (by decide)
  · exact absurd h (by decide)

theorem digest_eq_loneDigest {shard : Shard Unit} (h : shard.digest (loneProtocol count) = .ok loneDigest) :
    shard = loneShard := by
  obtain ⟨ids, hids, h⟩ := bind_eq_ok.mp h
  obtain ⟨rfl, hshard⟩ := Shard.preimage_inj (sha256_eq_loneDigest (pure_eq_ok.mp h))
  have hlength : shard.segments.length = 1 := (mapM_eq_ok.mp hids).length_eq
  obtain ⟨segment, hsegment⟩ := length_eq_one_iff.mp hlength
  rw [hshard, hsegment]
  rfl

theorem loneHead_commits {shards : List (Shard Unit)}
    (h : (loneHead count).identity (loneProtocol count) shards = .ok (loneHead count).inventory) :
    shards = [loneShard] := by
  obtain ⟨digests, hdigests, h⟩ := bind_eq_ok.mp h
  have hbytes := append_cancel_left (sha256_eq_headDigest (pure_eq_ok.mp h))
  have hpairs := mapM_eq_ok.mp hdigests
  have hlength := congrArg List.length hbytes
  cases hpairs with
  | nil => simp at hlength
  | @cons shard digest shards digests hshard hrest =>
    cases hrest with
    | nil =>
      rw [flatMap_singleton] at hbytes
      obtain rfl : digest = loneDigest := Subtype.ext hbytes
      rw [digest_eq_loneDigest hshard]
    | cons => simp at hlength

/-- What the captures of the shard come to, under a head that counts two shards and under one that counts right. -/
theorem lone_computes :
    (Capture.callAll (loneProtocol 2) ⟨loneHead 2, [], 0, usizeMax⟩ [.pushCached [loneShard, loneShard]]).finish
        (loneProtocol 2) = .ok ⟨loneHead 2, [loneShard]⟩ ∧
      (Capture.callAll (loneProtocol 1) ⟨loneHead 1, [], 0, usizeMax⟩ [.pushCached [loneShard]]).finish
        (loneProtocol 1) = .ok ⟨loneHead 1, [loneShard]⟩ ∧
      (loneHead 1).identity (loneProtocol 1) [loneShard] = .ok (loneHead 1).inventory := by
  decide +kernel

/-- The second shard of the only chunk is refused, the first stays, and no chunk is asked for again. -/
theorem capture_incomplete :
    (∀ shards shards', (loneHead 2).identity (loneProtocol 2) shards = .ok (loneHead 2).inventory →
      (loneHead 2).identity (loneProtocol 2) shards' = .ok (loneHead 2).inventory → shards = shards') ∧
    ∃ start inventory, Capture.new (loneHead 2) usizeMax = .ok start ∧
      (start.callAll (loneProtocol 2) [.pushCached [loneShard, loneShard]]).finish (loneProtocol 2) = .ok inventory ∧
      inventory.shards.length ≠ (loneHead 2).shards.toNat := by
  refine ⟨fun shards shards' h h' => by rw [loneHead_commits h, loneHead_commits h'],
    ⟨loneHead 2, [], 0, usizeMax⟩, ⟨loneHead 2, [loneShard]⟩, by decide, lone_computes.1, by decide⟩

/-- A head that counts right. -/
theorem capture_published_lone : ∃ start inventory, Capture.new (loneHead 1) usizeMax = .ok start ∧
    (start.callAll (loneProtocol 1) [.pushCached [loneShard]]).finish (loneProtocol 1) = .ok inventory ∧
    Published (loneProtocol 1) (loneHead 1) inventory := by
  obtain ⟨_, hfinish, hidentity⟩ := lone_computes
  refine ⟨_, _, rfl, hfinish, ((capture_published_iff (loneProtocol 1)).1 _ _ _ _ _ ?_ rfl hfinish).mpr ?_⟩
  · intro shards shards' h h'
    rw [loneHead_commits h, loneHead_commits h']
  · exact ⟨[loneShard], rfl, hidentity⟩

/-! ## A fetch of two chunks -/

/-- The block after the first `index` ones, with one segment. -/
def blockShard (index : UInt32) : Shard UInt32 :=
  { loneShard with index, startHeight := index + 1, endHeight := index + 1, segments := [index] }

/-- The head of a chunk of sixteen shards and another of one. -/
def longHead : Head := { loneHead 17 with endHeight := 17, inventory := .zero 32 }

/-- The server answers with the second chunk. -/
def longProtocol : Protocol UInt32 where
  validate _ := .ok ()
  coverage index := (blockShard index).coverage longHead
  treeSize _ := 0
  directoryId _ := .ok (.zero 32)
  companionId _ := .ok (.zero 32)
  sha256 _ := .zero 32
  parse _ := some ⟨.zero 32, 1, [blockShard 16]⟩
  size _ := 0

/-- The first chunk is saved and the second fetched. -/
theorem fetch_complete_two_chunks :
    Contiguous longProtocol longHead ((List.range 17).map fun i => blockShard (UInt32.ofNat i)) :=
  (@fetch_complete UInt32 longProtocol longHead 0 3 _ _ (fun _ => [])
    (some ⟨(List.range 16).map fun i => blockShard (UInt32.ofNat i)⟩)
    ⟨longHead, (List.range 17).map fun i => blockShard (UInt32.ofNat i)⟩ rfl rfl rfl).2.1

end Zakura.ShardInventory
