import Zakura.Receiver.Lemmas.Codec
import Zakura.Receiver.Paths

/-! # The state of a shard's paths

Every way of appending leaves ends in the state built from them, level by level. -/

namespace Zakura.Receiver

open List Zakura.Except

variable {N : NodeHash}

namespace ShardPaths

def built (shard : Nat) (leaves : List N.Node) : ShardPaths N :=
  ⟨shard, (List.range' 0 (lowerLevels + 1)).map (nodesAt N.combine leaves)⟩

@[simp] theorem leaves_built (shard : Nat) (leaves : List N.Node) : (built shard leaves).leaves = leaves := rfl

theorem treeSize_built (shard : Nat) (leaves : List N.Node) :
    (built shard leaves).treeSize = shard * 2 ^ 16 + leaves.length := by
  rw [treeSize, Nat.shiftLeft_eq]
  rfl

variable {shard level : Nat} {leaves : List N.Node}

theorem levels_built (h : level ≤ lowerLevels) :
    (built shard leaves).levels.getD level [] = nodesAt N.combine leaves level := by
  rw [built, getD_eq_getElem?_getD, getElem?_map, getElem?_range' (by omega), Option.map_some,
    Option.getD_some, Nat.zero_add, Nat.one_mul]

theorem nodesAt_nil (level : Nat) : nodesAt N.combine [] level = [] := by
  rw [← length_eq_zero_iff, length_nodesAt, length_nil, Nat.zero_div]

theorem new_eq_built (shard : Nat) : (new shard : ShardPaths N) = built shard [] := by
  rw [new, built, ShardPaths.mk.injEq]
  refine ⟨rfl, (eq_replicate_iff.mpr ⟨?_, fun nodes hnodes => ?_⟩).symm⟩
  · rw [length_map, length_range']
  · obtain ⟨level, -, rfl⟩ := mem_map.mp hnodes
    exact nodesAt_nil level

theorem addParents_eq {f : N.Node → N.Node → N.Node} {children parents : List N.Node} {fuel : Nat}
    (hparents : parents <+: pairUp f children) (hfuel : children.length ≤ parents.length + fuel) :
    addParents f children fuel parents = pairUp f children := by
  induction fuel generalizing parents with
  | zero =>
    refine hparents.eq_of_length_le ?_
    rw [length_pairUp]
    omega
  | succ fuel ih =>
    rw [addParents]
    by_cases hmore : 2 * (parents.length + 1) ≤ children.length
    · have hleft : 2 * parents.length < children.length := by omega
      have hright : 2 * parents.length + 1 < children.length := by omega
      rw [if_pos hmore, getElem?_eq_getElem hleft, getElem?_eq_getElem hright]
      refine ih ?_ (by rw [length_append, length_singleton]; omega)
      have hnext := getElem?_pairUp f children parents.length
      rw [getElem?_eq_getElem hleft, getElem?_eq_getElem hright] at hnext
      obtain ⟨rest, hrest⟩ := hparents
      rw [← hrest, getElem?_append_right le_rfl, Nat.sub_self] at hnext
      cases rest with
      | nil => cases hnext
      | cons parent rest =>
        cases hnext
        exact ⟨rest, by rw [← hrest, append_assoc, singleton_append]⟩
    · rw [if_neg hmore]
      refine hparents.eq_of_length_le ?_
      rw [length_pairUp]
      omega

theorem addLevels_eq {more : List N.Node} (h : leaves <+: more) (level count : Nat) :
    addLevels level (nodesAt N.combine more level) ((List.range' (level + 1) count).map (nodesAt N.combine leaves)) =
      (List.range' (level + 1) count).map (nodesAt N.combine more) := by
  induction count generalizing level with
  | zero => rfl
  | succ count ih =>
    have hparents : addParents (N.combine level) (nodesAt N.combine more level) (nodesAt N.combine more level).length
        (nodesAt N.combine leaves (level + 1)) = nodesAt N.combine more (level + 1) :=
      addParents_eq (nodesAt_append N.combine h (level + 1)) (Nat.le_add_left _ _)
    rw [range'_succ, map_cons, addLevels, map_cons, hparents, ih]

theorem leafOf_eq_ok {commitment : Hash} {leaf : N.Node} :
    leafOf commitment = .ok leaf ↔ N.ofCommitment commitment = some leaf := by
  rw [leafOf]
  cases N.ofCommitment commitment <;> simp

variable {added : List N.Node} {commitments : List Hash}

theorem extend_built (hadded : commitments.mapM leafOf = .ok added)
    (hfits : leaves.length + commitments.length ≤ shardLeaves) :
    (built shard leaves).extend commitments = .ok (built shard (leaves ++ added)) := by
  rw [extend, leaves_built, if_neg (not_lt.mpr hfits), hadded, ok_bind]
  have hlevels := addLevels_eq (prefix_append leaves added) 0 lowerLevels
  have htail : (built shard leaves).levels.tail = (List.range' 1 lowerLevels).map (nodesAt N.combine leaves) := rfl
  rw [htail]
  refine congrArg Except.ok (congrArg (ShardPaths.mk shard) ?_)
  rw [range'_succ, map_cons]
  exact congrArg (List.cons _) hlevels

theorem extend_built_eq_ok {grown : ShardPaths N} (h : (built shard leaves).extend commitments = .ok grown) :
    ∃ added, commitments.length = added.length ∧ leaves.length + added.length ≤ shardLeaves ∧
      grown = built shard (leaves ++ added) := by
  have hok := h
  rw [extend, leaves_built, ite_error_eq_ok] at h
  obtain ⟨hfits, h⟩ := h
  obtain ⟨added, hadded, -⟩ := bind_eq_ok.mp h
  have hlength := (mapM_eq_ok.mp hadded).length_eq
  rw [extend_built hadded (not_lt.mp hfits)] at hok
  cases hok
  exact ⟨added, hlength, by omega, rfl⟩

/-! ## Batches -/

theorem extendAll_built {batches : List (List Hash)} (hadded : batches.flatten.mapM leafOf = .ok added)
    (hfits : leaves.length + batches.flatten.length ≤ shardLeaves) :
    (built shard leaves).extendAll batches = .ok (built shard (leaves ++ added)) := by
  induction batches generalizing leaves added with
  | nil =>
    rw [flatten_nil, mapM_nil] at hadded
    cases pure_eq_ok.mp hadded
    rw [append_nil]
    rfl
  | cons batch batches ih =>
    rw [flatten_cons, mapM_append] at hadded
    obtain ⟨first, hfirst, hadded⟩ := bind_eq_ok.mp hadded
    obtain ⟨rest, hrest, hadded⟩ := bind_eq_ok.mp hadded
    cases pure_eq_ok.mp hadded
    have hlength : batch.length = first.length := (mapM_eq_ok.mp hfirst).length_eq
    rw [flatten_cons, length_append] at hfits
    rw [extendAll, foldlM_cons, extend_built hfirst (by omega), ok_bind, ← append_assoc]
    exact ih hrest (by rw [length_append]; omega)

/-! ## Payloads -/

/-- The place of a leaf keeps its distance to the even number before it. -/
theorem add_xor_one (m index : Nat) : (2 * m + index) ^^^ 1 = 2 * m + (index ^^^ 1) := by
  rcases Nat.mod_two_eq_zero_or_one index with heven | hodd
  · rw [Nat.xor_one_of_even (Nat.even_iff.mpr heven), Nat.xor_one_of_even (Nat.even_iff.mpr (by omega)), Nat.add_assoc]
  · rw [Nat.xor_one_of_odd (Nat.odd_iff.mpr hodd), Nat.xor_one_of_odd (Nat.odd_iff.mpr (by omega))]
    omega

variable {index : Nat}

theorem supplied_iff {count : Nat} (h : level < 16) :
    supplied (shard * 2 ^ 16 + index) (shard * 2 ^ 16 + count) level = true ↔
      (index >>> level) ^^^ 1 < count / 2 ^ level := by
  have hpow : 2 ^ 16 = 2 * 2 ^ (15 - level) * 2 ^ level := by
    rw [← pow_succ', ← pow_add, show 15 - level + 1 + level = 16 by omega]
  have hshift : (shard * 2 ^ 16 + index) >>> level = 2 * (shard * 2 ^ (15 - level)) + index >>> level := by
    rw [Nat.shiftRight_eq_div_pow, Nat.shiftRight_eq_div_pow, hpow,
      show shard * (2 * 2 ^ (15 - level) * 2 ^ level) = 2 ^ level * (2 * (shard * 2 ^ (15 - level))) by ring,
      Nat.mul_add_div (Nat.two_pow_pos level)]
  rw [supplied, decide_eq_true_eq, hshift, add_xor_one, Nat.shiftLeft_eq, Nat.lt_iff_add_one_le,
    Nat.le_div_iff_mul_le (Nat.two_pow_pos level), hpow]
  have hexpand : (2 * (shard * 2 ^ (15 - level)) + (index >>> level ^^^ 1) + 1) * 2 ^ level =
      shard * (2 * 2 ^ (15 - level) * 2 ^ level) + ((index >>> level ^^^ 1) + 1) * 2 ^ level := by ring
  rw [hexpand, Nat.add_le_add_iff_left]

theorem sibling_built (h : level < lowerLevels) :
    (built shard leaves).sibling index level = (nodesAt N.combine leaves level)[(index >>> level) ^^^ 1]? := by
  rw [sibling, levels_built h.le]

theorem isSome_sibling_built (h : level < lowerLevels) :
    ((built shard leaves).sibling index level).isSome =
      supplied (shard * 2 ^ 16 + index) (built shard leaves).treeSize level := by
  rw [sibling_built h, treeSize_built, Bool.eq_iff_iff, supplied_iff h, ← length_nodesAt N.combine]
  simp

theorem getElem?_siblings {paths : ShardPaths N} (h : level < lowerLevels) :
    (paths.siblings index).val[level]? = some ((paths.sibling index level).map N.toBytes) := by
  rw [siblings, getElem?_map, getElem?_range h, Option.map_some]

end ShardPaths

variable {position : Nat}

/-- Siblings that follow the size rule are encoded. -/
theorem encodePayload_of_supplied {siblings : Siblings} {size : Nat} (hposition : position < size) (hsize : size ≤ treeSize)
    (h : ∀ level sibling, siblings.val[level]? = some sibling → sibling.isSome = supplied position size level) :
    ∃ bytes, encodePayload siblings position size = some bytes := by
  have hencoded : siblings.val.zipIdx.mapM (encodeSibling position size) =
      some (siblings.val.zipIdx.map fun sibling => sibling.1.elim (List.replicate 32 0) Subtype.val) := by
    refine mapM_eq_some.mpr (List.forall₂_map_right_iff.mpr (List.forall₂_same.mpr ?_))
    rintro ⟨sibling, level⟩ hmem
    have hlevel := h level sibling (mem_zipIdx_iff_getElem?.mp hmem)
    rw [encodeSibling, ← hlevel]
    cases sibling <;> rfl
  rw [encodePayload, if_neg (by omega), hencoded]
  exact ⟨_, rfl⟩

namespace ShardPaths

variable {shard index : Nat} {leaves : List N.Node}

/-- A held position has a payload, which decodes to its siblings. -/
theorem payload_built (hshard : shard < 2 ^ 16) (hleaves : leaves.length ≤ shardLeaves) (hindex : index < leaves.length) :
    ∃ bytes, (built shard leaves).payload (shard * 2 ^ 16 + index) = .ok bytes ∧
      decodePayload bytes (shard * 2 ^ 16 + index) (built shard leaves).treeSize =
        some ((built shard leaves).siblings index).val := by
  have hbound : shardLeaves = 2 ^ 16 := rfl
  have htree : Receiver.treeSize = 2 ^ 32 := rfl
  have hsize := treeSize_built shard leaves
  obtain ⟨bytes, hbytes⟩ : ∃ bytes, encodePayload ((built shard leaves).siblings index) (shard * 2 ^ 16 + index)
      (built shard leaves).treeSize = some bytes := by
    refine encodePayload_of_supplied (by omega) (by omega) fun level sibling hlevel => ?_
    have hlt : level < lowerLevels := by
      rw [← ((built shard leaves).siblings index).property]
      exact (List.getElem?_eq_some_iff.mp hlevel).1
    rw [getElem?_siblings hlt] at hlevel
    cases hlevel
    rw [Option.isSome_map, isSome_sibling_built hlt]
  refine ⟨bytes, ?_, (decodePayload_encodePayload hbytes).2⟩
  have hstart : shard <<< lowerLevels = shard * 2 ^ 16 := Nat.shiftLeft_eq shard 16
  have hshardOf : (built shard leaves).shard = shard := rfl
  rw [payload, hshardOf, leaves_built, hstart, if_neg (by omega), Nat.add_sub_cancel_left, hbytes]

theorem sibling_built_append {level : Nat} {more : List N.Node} (h : leaves <+: more) (hlevel : level < lowerLevels)
    {node : N.Node} (hnode : (built shard leaves).sibling index level = some node) :
    (built shard more).sibling index level = some node := by
  rw [sibling_built hlevel] at hnode ⊢
  obtain ⟨rest, hrest⟩ := nodesAt_append N.combine h level
  rw [← hrest, getElem?_append_left (List.getElem?_eq_some_iff.mp hnode).1, hnode]

theorem payload_extend (hshard : shard < 2 ^ 16) (hindex : index < leaves.length) {commitments : List Hash}
    {grown : ShardPaths N} (hgrown : (built shard leaves).extend commitments = .ok grown) :
    ∃ bytes, grown.payload (shard * 2 ^ 16 + index) = .ok bytes ∧
      decodePayload bytes (shard * 2 ^ 16 + index) grown.treeSize = some (grown.siblings index).val ∧
      (∀ (level : Nat) hash, ((built shard leaves).siblings index).val[level]? = some (some hash) →
        (grown.siblings index).val[level]? = some (some hash)) ∧
      (isFinal (shard * 2 ^ 16 + index) (built shard leaves).treeSize = true → grown = built shard leaves) := by
  obtain ⟨added, -, hfits, rfl⟩ := extend_built_eq_ok hgrown
  have hleaves : shardLeaves = 2 ^ 16 := rfl
  have hlength : (leaves ++ added).length = leaves.length + added.length := length_append
  have hgrownIndex : index < (leaves ++ added).length := by omega
  obtain ⟨bytes, hpayload, hdecode⟩ := payload_built hshard (hlength.trans_le hfits) hgrownIndex
  refine ⟨bytes, hpayload, hdecode, fun level hash hlevel => ?_, fun hfinal => ?_⟩
  · have hlt : level < lowerLevels := by
      rw [← ((built shard leaves).siblings index).property]
      exact (List.getElem?_eq_some_iff.mp hlevel).1
    rw [getElem?_siblings hlt, Option.some_inj] at hlevel ⊢
    obtain ⟨node, hnode, rfl⟩ := Option.map_eq_some_iff.mp hlevel
    rw [sibling_built_append (prefix_append leaves added) hlt hnode, Option.map_some]
  · -- The shard is full, so nothing was added.
    rw [isFinal, decide_eq_true_eq, treeSize_built, Nat.shiftLeft_eq, Nat.shiftRight_eq_div_pow,
      show lowerLevels = 16 from rfl] at hfinal
    have hnone : added.length = 0 := by omega
    rw [length_eq_zero_iff.mp hnone, append_nil]

theorem root_built (hfull : leaves.length = shardLeaves) {leaf : N.Node} (hleaf : leaves[index]? = some leaf) :
    ∃ nodes, ((built shard leaves).siblings index).val = nodes.map (some ∘ N.toBytes) ∧
      (built shard leaves).root = some (N.toBytes (climb N.combine 0 index leaf nodes)) := by
  have hindex : index < 2 ^ 16 := (List.getElem?_eq_some_iff.mp hleaf).1.trans_eq hfull
  have hsome : ∀ level, ∃ node, level < lowerLevels →
      (nodesAt N.combine leaves level)[(index >>> level) ^^^ 1]? = some node := by
    intro level
    by_cases hlevel : level < 16
    · have hpow : 2 ^ 16 = 2 ^ (16 - level) * 2 ^ level := by rw [← pow_add, Nat.sub_add_cancel hlevel.le]
      have hplace : index >>> level < 2 ^ (16 - level) := by
        rw [Nat.shiftRight_eq_div_pow, Nat.div_lt_iff_lt_mul (Nat.two_pow_pos level), ← hpow]
        exact hindex
      have hcount : (nodesAt N.combine leaves level).length = 2 ^ (16 - level) := by
        rw [length_nodesAt, hfull, show shardLeaves = 2 ^ 16 from rfl, hpow, Nat.mul_div_cancel _ (Nat.two_pow_pos level)]
      have hlt := Nat.xor_lt_two_pow hplace (Nat.one_lt_two_pow (by omega))
      exact ⟨_, fun _ => getElem?_eq_getElem (hcount ▸ hlt)⟩
    · exact ⟨leaf, fun h => absurd h hlevel⟩
  choose node hnode using hsome
  refine ⟨(List.range lowerLevels).map node, ?_, ?_⟩
  · rw [siblings, map_map]
    refine map_congr_left fun level hlevel => ?_
    have hlt := mem_range.mp hlevel
    rw [sibling_built hlt, hnode level hlt]
    rfl
  · have hsiblings : ∀ up sibling, ((List.range lowerLevels).map node)[up]? = some sibling →
        (nodesAt N.combine leaves (0 + up))[(index / 2 ^ up) ^^^ 1]? = some sibling := by
      intro up sibling hup
      have hlt : up < lowerLevels := by simpa using (List.getElem?_eq_some_iff.mp hup).1
      rw [getElem?_map, getElem?_range hlt, Option.map_some] at hup
      rw [Nat.zero_add, ← Nat.shiftRight_eq_div_pow, hnode up hlt, hup]
    have hleaf' : (nodesAt N.combine leaves 0)[index]? = some leaf := hleaf
    have hroot := getElem?_climb N.combine hleaf' hsiblings
    have htop : index / 2 ^ lowerLevels = 0 := Nat.div_eq_of_lt hindex
    rw [length_map, length_range, Nat.zero_add, htop] at hroot
    rw [root, levels_built le_rfl, head?_eq_getElem?, hroot, Option.map_some]

end ShardPaths

/-! ## Payloads of the whole tree -/

/-- The payload of a position, from the commitments of the whole tree. -/
def payloadAt (N : NodeHash) (commitments : List Hash) (position : Nat) : Except Error Bytes :=
  if commitments.length ≤ position then .error .coverage
  else do
    let paths ← shardAt N commitments (position >>> lowerLevels)
    paths.payload position

variable {commitments : List Hash}

theorem payloadsFrom_eq {shards : OrderedMap Nat (ShardPaths N)}
    (hshards : ∀ shard paths, shards[shard]? = some paths → shardAt N commitments shard = .ok paths)
    (positions : List Nat) :
    payloadsFrom N commitments shards positions = positions.mapM (payloadAt N commitments) := by
  induction positions generalizing shards with
  | nil => rfl
  | cons position positions ih =>
    rw [mapM_cons, payloadsFrom, payloadAt]
    by_cases hcovered : commitments.length ≤ position
    · rw [if_pos hcovered, if_pos hcovered]
      rfl
    rw [if_neg hcovered, if_neg hcovered]
    have hkept : keptShard N commitments shards (position >>> lowerLevels) =
        shardAt N commitments (position >>> lowerLevels) := by
      rw [keptShard]
      cases hfound : shards[position >>> lowerLevels]? with
      | none => rfl
      | some paths => exact (hshards _ _ hfound).symm
    dsimp only
    rw [hkept]
    cases hbuilt : shardAt N commitments (position >>> lowerLevels) with
    | error error => rfl
    | ok paths =>
      rw [ok_bind, ok_bind, ih]
      intro shard other hother
      rw [OrderedMap.getElem?_insert_eq] at hother
      split_ifs at hother with heq
      · cases hother
        rw [← heq, hbuilt]
      · exact hshards _ _ hother

theorem payloads_eq (commitments : List Hash) (positions : List Nat) :
    payloads N commitments positions = positions.mapM (payloadAt N commitments) :=
  payloadsFrom_eq (fun shard paths h => by simp at h) positions

theorem payloadAt_append (hfinal : isFinal position commitments.length = true) (more : List Hash) :
    payloadAt N (commitments ++ more) position = payloadAt N commitments position := by
  have hlevels : lowerLevels = 16 := rfl
  have hleaves : shardLeaves = 2 ^ 16 := rfl
  rw [isFinal, decide_eq_true_eq, Nat.shiftLeft_eq, Nat.shiftRight_eq_div_pow, hlevels] at hfinal
  have hheld : position < commitments.length := by omega
  have hstop : (position >>> 16) <<< 16 + 2 ^ 16 ≤ commitments.length := by
    rw [Nat.shiftLeft_eq, Nat.shiftRight_eq_div_pow]
    omega
  have hshard : shardAt N (commitments ++ more) (position >>> lowerLevels) =
      shardAt N commitments (position >>> lowerLevels) := by
    unfold shardAt
    dsimp only
    rw [hlevels, hleaves, length_append, Nat.min_eq_right (hstop.trans (Nat.le_add_right _ _)),
      Nat.min_eq_right hstop, take_append_of_le_length hstop]
  rw [payloadAt, payloadAt, if_neg (by rw [length_append]; omega), if_neg (by omega), hshard]

theorem payloads_append {whole : List Hash} {positions : List Nat}
    (hfinal : ∀ position ∈ positions, isFinal position whole.length = true) (more : List Hash) :
    payloads N (whole ++ more) positions = payloads N whole positions := by
  rw [payloads_eq, payloads_eq]
  induction positions with
  | nil => rfl
  | cons position positions ih =>
    obtain ⟨hfirst, hrest⟩ := forall_mem_cons.mp hfinal
    rw [mapM_cons, mapM_cons, payloadAt_append hfirst, ih hrest]

end Zakura.Receiver
