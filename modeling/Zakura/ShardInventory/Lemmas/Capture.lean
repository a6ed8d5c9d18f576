import Zakura.Lib.Except
import Zakura.ShardInventory.Capture

/-! # What a capture collects

The collected shards stay a contiguous list from the head's start, whatever is pushed. -/

namespace Zakura.ShardInventory

open List Zakura.Except Inventory
open Zakura.Receiver (Hash)

variable {P : Type} {π : Protocol P} {head : Head}

def Linked (π : Protocol P) (head : Head) (shards : List (Shard P)) : Prop :=
  checkShards π head none 0 shards = .ok ()

variable {i : Nat}

theorem checkShards_append {previous : Option (Shard P)} {front back : List (Shard P)} :
    checkShards π head previous i (front ++ back) = .ok () ↔
      checkShards π head previous i front = .ok () ∧
        checkShards π head (front.getLast?.or previous) (i + front.length) back = .ok () := by
  induction front generalizing previous i with
  | nil => simp [checkShards]
  | cons shard front ih =>
    have hlast : (shard :: front).getLast?.or previous = front.getLast?.or (some shard) := by
      cases front with
      | nil => rfl
      | cons next front => simp [getLast?_cons]
    rw [cons_append, checkShards, checkShards, check_bind_eq_ok,
      check_bind_eq_ok, ih, hlast, length_cons, and_assoc, Nat.add_assoc, Nat.add_comm 1]

variable {shards : List (Shard P)} {shard : Shard P}

theorem Linked.concat_iff :
    Linked π head (shards ++ [shard]) ↔
      Linked π head shards ∧ checkNext π head shards.getLast? shards.length shard = .ok () := by
  rw [Linked, checkShards_append, Option.or_none, Nat.zero_add, checkShards, check_bind_eq_ok]
  exact and_congr_right fun _ => and_iff_left rfl

/-! ## Pushing -/

theorem pushShards_spec (h : Linked π head shards) (new : List (Shard P)) :
    ∃ added, added <+: new ∧ (Capture.pushShards π head shards new).1 = shards ++ added ∧
      Linked π head (shards ++ added) ∧
      ((Capture.pushShards π head shards new).2 = .ok () → added = new) := by
  induction new generalizing shards with
  | nil => exact ⟨[], prefix_rfl, (append_nil _).symm, by rwa [append_nil], fun _ => rfl⟩
  | cons shard new ih =>
    rw [Capture.pushShards]
    cases hnext : checkNext π head shards.getLast? shards.length shard with
    | error error =>
      refine ⟨[], nil_prefix, (append_nil _).symm, by rwa [append_nil], fun hok => ?_⟩
      cases hok
    | ok checked =>
      obtain ⟨added, hadded, hshards, hlinked, hall⟩ := ih (Linked.concat_iff.mpr ⟨h, hnext⟩)
      rw [append_assoc, singleton_append] at hshards hlinked
      exact ⟨shard :: added, cons_prefix_cons.mpr ⟨rfl, hadded⟩, hshards, hlinked, fun hok => by rw [hall hok]⟩

/-- What holds of a capture all along: its head is the one it started with and its shards are linked, at most as many
as the head says. -/
structure Capturing (π : Protocol P) (head : Head) (capture : Capture P) : Prop where
  head_eq : capture.head = head
  linked : Linked π head capture.shards
  length_le : capture.shards.length ≤ head.shards.toNat

variable {capture : Capture P}

theorem Capturing.pushChunk (h : Capturing π head capture) (chunk : Chunk P) (bytes : Nat) :
    Capturing π head (capture.pushChunk π chunk bytes).1 := by
  obtain ⟨rfl, hlinked, hle⟩ := h
  rw [Capture.pushChunk]
  cases capture.nextChunk with
  | none => exact ⟨rfl, hlinked, hle⟩
  | some index =>
    dsimp only
    split_ifs with hbudget hchunk
    · exact ⟨rfl, hlinked, hle⟩
    · exact ⟨rfl, hlinked, hle⟩
    · obtain ⟨added, hadded, hshards, hnew, -⟩ := pushShards_spec hlinked chunk.shards
      have hexpected := hadded.length_le
      refine ⟨rfl, ?_, ?_⟩
      · dsimp only
        rwa [hshards]
      · dsimp only
        rw [hshards, length_append]
        omega

theorem Capturing.call (h : Capturing π head capture) (next : Capture.Call P) :
    Capturing π head (capture.call π next) := by
  cases next with
  | push bytes =>
    rw [Capture.call, Capture.push]
    split_ifs
    · exact h
    · cases π.parse bytes with
      | none => exact h
      | some chunk => exact h.pushChunk chunk bytes.length
  | pushCached shards =>
    rw [Capture.call, Capture.pushCached]
    cases capture.nextChunk with
    | none => exact h
    | some index => exact h.pushChunk _ _

theorem Capturing.callAll (h : Capturing π head capture) (calls : List (Capture.Call P)) :
    Capturing π head (capture.callAll π calls) := by
  induction calls generalizing capture with
  | nil => exact h
  | cons next calls ih => exact ih (h.call next)

theorem capturing_new {budget : Nat} (h : Capture.new head budget = .ok capture) :
    head.validate head.genesis = .ok () ∧ capture = ⟨head, [], 0, budget⟩ ∧ Capturing π head capture := by
  obtain ⟨hvalid, h⟩ := check_bind_eq_ok.mp h
  cases pure_eq_ok.mp h
  exact ⟨hvalid, rfl, rfl, rfl, Nat.zero_le _⟩

variable {inventory : Inventory P}

theorem finish_eq_ok :
    capture.finish π = .ok inventory ↔ capture.nextChunk = none ∧ checkEnd capture.head capture.shards = .ok () ∧
      capture.head.identity π capture.shards = .ok capture.head.inventory ∧ ⟨capture.head, capture.shards⟩ = inventory := by
  rw [Capture.finish, ite_error_eq_ok, Bool.not_eq_true, Option.isSome_eq_false_iff, Option.isNone_iff_eq_none,
    check_bind_eq_ok, bind_eq_ok]
  refine and_congr_right fun _ => and_congr_right fun _ => ⟨?_, ?_⟩
  · rintro ⟨identity, hidentity, h⟩
    rw [ite_error_eq_ok, not_not, pure_eq_ok] at h
    obtain ⟨rfl, h⟩ := h
    exact ⟨hidentity, h⟩
  · rintro ⟨hidentity, h⟩
    refine ⟨_, hidentity, ?_⟩
    rw [if_neg (not_not.mpr rfl), h]
    rfl

/-! ## Captures without a failed push -/

def Whole (capture : Capture P) : Prop :=
  chunkShards ∣ capture.shards.length ∨ capture.shards.length = capture.head.shards.toNat

theorem pushChunk_whole (h : Capturing π head capture) (hwhole : Whole capture) {chunk : Chunk P} {bytes : Nat}
    (hok : (capture.pushChunk π chunk bytes).2 = .ok ()) : Whole (capture.pushChunk π chunk bytes).1 := by
  obtain ⟨rfl, hlinked, hle⟩ := h
  rw [Capture.pushChunk] at hok ⊢
  cases hnext : capture.nextChunk with
  | none =>
    rw [hnext] at hok
    cases hok
  | some index =>
    rw [hnext] at hok
    dsimp only at hok ⊢
    split_ifs at hok ⊢ with hbudget hchunk
    obtain ⟨added, -, hshards, -, hall⟩ := pushShards_spec hlinked chunk.shards
    obtain rfl := hall hok
    rw [Whole] at hwhole ⊢
    dsimp only
    rw [hshards, length_append]
    rw [show chunkShards = 16 from rfl] at hwhole hchunk ⊢
    omega

theorem Whole.complete (h : Whole capture) (hle : capture.shards.length ≤ capture.head.shards.toNat)
    (hnext : capture.nextChunk = none) : capture.shards.length = capture.head.shards.toNat := by
  rw [Capture.nextChunk, ite_eq_right_iff] at hnext
  rw [Whole] at h
  have hlast : ¬ (capture.shards.length + chunkShards - 1) / chunkShards < capture.head.chunks :=
    fun hlt => Option.some_ne_none _ (hnext hlt)
  rw [Head.chunks] at hlast
  rw [show chunkShards = 16 from rfl] at h hlast
  omega

theorem fetch_whole {get : Nat → Bytes} {cache : Option (DescriptorCache P)} {fuel : Nat} {after : Capture P}
    (h : Capturing π head capture) (hwhole : Whole capture) (hfetch : fetch π get cache fuel capture = .ok after) :
    Capturing π head after ∧ Whole after := by
  induction fuel generalizing capture with
  | zero =>
    cases hfetch
    exact ⟨h, hwhole⟩
  | succ fuel ih =>
    rw [fetch] at hfetch
    cases hnext : capture.nextChunk with
    | none =>
      rw [hnext] at hfetch
      cases hfetch
      exact ⟨h, hwhole⟩
    | some index =>
      rw [hnext] at hfetch
      dsimp only at hfetch
      obtain ⟨hok, hfetch⟩ := check_bind_eq_ok.mp hfetch
      split at hok
      · rename_i shards hcached
        rw [hcached] at hfetch
        refine ih (h.call (.pushCached shards)) ?_ hfetch
        simp only [Capture.call, Capture.pushCached, hnext] at hok ⊢
        exact pushChunk_whole h hwhole hok
      · rename_i hcached
        rw [hcached] at hfetch
        refine ih (h.call (.push (get index))) ?_ hfetch
        simp only [Capture.call, Capture.push] at hok ⊢
        split_ifs at hok ⊢
        cases hparse : π.parse (get index) with
        | none =>
          rw [hparse] at hok
          cases hok
        | some chunk =>
          rw [hparse] at hok
          exact pushChunk_whole h hwhole hok

/-! ## Contiguous lists -/

theorem checkNext_eq_ok {previous : Option (Shard P)} (h : checkNext π head previous i shard = .ok ()) :
    shard.validate π head = .ok () ∧ shard.index.toNat = i ∧
      (previous = none → shard.startHeight = head.startHeight ∧ shard.startPosition = head.startPosition) ∧
      ∀ before, previous = some before → before.sealed = true ∧ before.endHeight.toNat + 1 = shard.startHeight.toNat ∧
        before.endHash = shard.startParent ∧ before.endPosition = shard.startPosition := by
  obtain ⟨hvalid, h⟩ := check_bind_eq_ok.mp h
  dsimp only at h
  rw [ite_error_eq_ok, not_or, not_not, Bool.not_eq_false] at h
  refine ⟨hvalid, h.1.1, ?_, ?_⟩
  · rintro rfl
    exact of_decide_eq_true h.1.2
  · rintro before rfl
    exact of_decide_eq_true h.1.2

/-- A list from the head's start to its end, each shard continuing the one before it. -/
structure Contiguous (π : Protocol P) (head : Head) (shards : List (Shard P)) : Prop where
  valid : ∀ shard ∈ shards, shard.validate π head = .ok ()
  index : ∀ (i : Nat) shard, shards[i]? = some shard → shard.index.toNat = i
  first : ∀ shard, shards.head? = some shard →
    shard.startHeight = head.startHeight ∧ shard.startPosition = head.startPosition
  next : ∀ (i : Nat) before shard, shards[i]? = some before → shards[i + 1]? = some shard →
    before.sealed = true ∧ before.endHeight.toNat + 1 = shard.startHeight.toNat ∧ before.endHash = shard.startParent ∧
      before.endPosition = shard.startPosition
  last : ∃ shard, shards.getLast? = some shard ∧ shard.endHeight = head.endHeight ∧ shard.endHash = head.endHash ∧
    shard.endPosition = head.endPosition

theorem Linked.checkNext (h : Linked π head shards) (hi : shards[i]? = some shard) :
    ShardInventory.checkNext π head (shards.take i).getLast? i shard = .ok () := by
  obtain ⟨hlt, rfl⟩ := List.getElem?_eq_some_iff.mp hi
  have hsplit : shards = shards.take i ++ shards[i] :: shards.drop (i + 1) := by
    rw [← drop_eq_getElem_cons hlt, take_append_drop]
  rw [Linked, hsplit, checkShards_append, checkShards, check_bind_eq_ok, Option.or_none,
    Nat.zero_add, length_take_of_le hlt.le] at h
  exact h.2.1

theorem Linked.contiguous (h : Linked π head shards) (hend : checkEnd head shards = .ok ()) :
    Contiguous π head shards := by
  refine ⟨fun shard hshard => ?_, fun i shard hi => (checkNext_eq_ok (h.checkNext hi)).2.1, fun shard hshard => ?_,
    fun i before shard hbefore hi => ?_, ?_⟩
  · obtain ⟨i, hi⟩ := mem_iff_getElem?.mp hshard
    exact (checkNext_eq_ok (h.checkNext hi)).1
  · rw [head?_eq_getElem?] at hshard
    exact (checkNext_eq_ok (h.checkNext hshard)).2.2.1 rfl
  · refine (checkNext_eq_ok (h.checkNext hi)).2.2.2 before ?_
    rw [getLast?_take, if_neg (Nat.succ_ne_zero i), Nat.add_sub_cancel, hbefore, Option.some_or]
  · rw [checkEnd] at hend
    cases hlast : shards.getLast? with
    | none =>
      rw [hlast] at hend
      cases hend
    | some last =>
      rw [hlast] at hend
      dsimp only at hend
      rw [ite_error_eq_ok, not_or, not_or, not_not, not_not, not_not] at hend
      exact ⟨last, rfl, hend.1⟩

/-! ## Rebuilding -/

structure Inventory.Valid (π : Protocol P) (inventory : Inventory P) : Prop where
  check : check π inventory.head inventory.shards = .ok ()
  identity : inventory.head.identity π inventory.shards = .ok inventory.head.inventory

theorem check_eq_ok (h : check π head shards = .ok ()) :
    head.validate head.genesis = .ok () ∧ shards.length = head.shards.toNat ∧ Linked π head shards ∧
      checkEnd head shards = .ok () := by
  obtain ⟨hvalid, h⟩ := check_bind_eq_ok.mp h
  rw [ite_error_eq_ok, not_not, check_bind_eq_ok] at h
  exact ⟨hvalid, h.1, h.2.1, h.2.2⟩

theorem pushShards_eq {new : List (Shard P)} (h : Linked π head (shards ++ new)) :
    Capture.pushShards π head shards new = (shards ++ new, .ok ()) := by
  induction new generalizing shards with
  | nil => rw [append_nil, Capture.pushShards]
  | cons shard new ih =>
    have hsplit : shards ++ shard :: new = (shards ++ [shard]) ++ new := by
      rw [append_assoc, singleton_append]
    rw [hsplit] at h ⊢
    have hfirst : Linked π head (shards ++ [shard]) := (checkShards_append.mp h).1
    rw [Capture.pushShards, (Linked.concat_iff.mp hfirst).2]
    exact ih h

def captured (inventory : Inventory P) (count : Nat) : Capture P :=
  ⟨inventory.head, inventory.shards.take (count * chunkShards), 0, usizeMax⟩

theorem nextChunk_captured {count : Nat} (hlength : inventory.shards.length = inventory.head.shards.toNat)
    (hcount : count * chunkShards < inventory.shards.length) : (captured inventory count).nextChunk = some count := by
  have hchunk : chunkShards = 16 := rfl
  rw [Capture.nextChunk, captured]
  dsimp only
  rw [length_take_of_le hcount.le, Head.chunks, ← hlength]
  rw [hchunk] at hcount ⊢
  rw [if_pos (by omega), Option.some_inj]
  omega

theorem pushChunk_captured (h : inventory.Valid π) {count : Nat} (hcount : count * chunkShards < inventory.shards.length) :
    (captured inventory count).pushChunk π (inventory.chunkAt count) 0 = (captured inventory (count + 1), .ok ()) := by
  obtain ⟨hvalid, hlength, hlinked, -⟩ := check_eq_ok h.check
  have hbound : inventory.head.shards.toNat ≤ maxShards := by
    rw [Head.validate, ite_error_eq_ok, ite_error_eq_ok] at hvalid
    omega
  have hchunk : chunkShards = 16 := rfl
  have hmax : maxShards = 2 ^ 17 := rfl
  have hindex : (UInt32.ofNat count).toNat = count := by
    have hsize : UInt32.size = 2 ^ 32 := rfl
    rw [hchunk] at hcount
    exact UInt32.toNat_ofNat_of_lt' (by omega)
  have htaken : (inventory.shards.take (count * chunkShards)).length = count * chunkShards := length_take_of_le hcount.le
  have hshards : inventory.shards.take (count * chunkShards) ++
      (inventory.shards.drop (count * chunkShards)).take chunkShards =
        inventory.shards.take ((count + 1) * chunkShards) := by
    rw [← take_add, Nat.succ_mul]
  have hexpected : ((inventory.shards.drop (count * chunkShards)).take chunkShards).length =
      min (inventory.head.shards.toNat - count * chunkShards) chunkShards := by
    rw [length_take, length_drop, hlength, min_comm]
  have hfirst : Linked π inventory.head (inventory.shards.take ((count + 1) * chunkShards)) := by
    rw [Linked, ← take_append_drop ((count + 1) * chunkShards) inventory.shards, checkShards_append] at hlinked
    exact hlinked.1
  have hpush : Capture.pushShards π inventory.head (inventory.shards.take (count * chunkShards))
      ((inventory.shards.drop (count * chunkShards)).take chunkShards) =
        (inventory.shards.take ((count + 1) * chunkShards), .ok ()) := by
    rw [← hshards]
    exact pushShards_eq (hshards ▸ hfirst)
  rw [Capture.pushChunk, nextChunk_captured hlength hcount]
  simp only [captured, chunkAt, htaken, hindex, hexpected, hpush, ne_eq, not_true_eq_false, or_self, if_false,
    Nat.add_zero, Nat.zero_min, Nat.not_lt_zero]

theorem pushAll_captured (h : inventory.Valid π) (start count : Nat)
    (hcount : start + count ≤ (inventory.shards.length + chunkShards - 1) / chunkShards) :
    pushAll π (captured inventory start) ((List.range' start count).map inventory.chunkAt) =
      .ok (captured inventory (start + count)) := by
  induction count generalizing start with
  | zero => rfl
  | succ count ih =>
    have hlt : start * chunkShards < inventory.shards.length := by
      rw [show chunkShards = 16 from rfl] at hcount ⊢
      omega
    rw [range'_succ, map_cons, pushAll, pushChunk_captured h hlt, ok_bind,
      ih (start + 1) (by omega), Nat.add_assoc, Nat.add_comm 1]

theorem fromChunks_chunks (h : inventory.Valid π) {chunks : List (Chunk P)} (hchunks : inventory.chunks π = .ok chunks) :
    fromChunks π inventory.head chunks = .ok inventory := by
  obtain ⟨hvalid, hlength, -, hend⟩ := check_eq_ok h.check
  have hmap : chunks = (List.range ((inventory.shards.length + chunkShards - 1) / chunkShards)).map inventory.chunkAt := by
    refine mapM_ok_eq_map (fun index chunk hchunk => ?_) hchunks
    rw [ite_error_eq_ok] at hchunk
    exact Except.ok.inj hchunk.2
  have hall : inventory.shards.take ((inventory.shards.length + chunkShards - 1) / chunkShards * chunkShards) =
      inventory.shards := by
    rw [take_of_length_le]
    rw [show chunkShards = 16 from rfl]
    omega
  have hnew : Capture.new inventory.head usizeMax = .ok (captured inventory 0) := by
    rw [Capture.new, hvalid, captured, Nat.zero_mul]
    rfl
  rw [fromChunks, hnew, ok_bind, hmap, range_eq_range', pushAll_captured h 0 _ (by omega),
    ok_bind, finish_eq_ok, captured, Nat.zero_add, hall]
  refine ⟨?_, hend, h.identity, rfl⟩
  rw [Capture.nextChunk, Head.chunks, hlength, if_neg (lt_irrefl _)]

theorem checkShards_inventory (identity : Hash) (previous : Option (Shard P)) (i : Nat) (shards : List (Shard P)) :
    checkShards π { head with inventory := identity } previous i shards =
      checkShards π head previous i shards := by
  induction shards generalizing previous i with
  | nil => rfl
  | cons shard shards ih =>
    rw [checkShards, checkShards, ih]
    rfl

theorem check_inventory (identity : Hash) (shards : List (Shard P)) :
    check π { head with inventory := identity } shards = check π head shards := by
  rw [check, check, checkShards_inventory]
  rfl

theorem valid_of_build {genesis : Hash} {historyRevision : UInt64}
    (h : build π genesis historyRevision shards = .ok inventory) : inventory.Valid π := by
  rw [build] at h
  cases hfirst : shards.head? with
  | none =>
    rw [hfirst] at h
    cases h
  | some first =>
    cases hlast : shards.getLast? with
    | none =>
      rw [hfirst, hlast] at h
      cases h
    | some last =>
      rw [hfirst, hlast] at h
      dsimp only at h
      rw [ite_error_eq_ok, check_bind_eq_ok, bind_eq_ok] at h
      obtain ⟨-, hcheck, identity, hidentity, h⟩ := h
      cases pure_eq_ok.mp h
      exact ⟨(check_inventory identity _).trans hcheck, hidentity⟩

end Zakura.ShardInventory
