import Zakura.Lib.Blake2b
import Zakura.Wire.Lemmas.Txid

/-! # The transaction format and its identifiers -/

namespace Zakura.Wire

/-- The parser accepts exactly the canonical serialisations of the structurally valid transactions, each
followed by the remainder it returns, and its view has that transaction's fields. No strict prefix of a
serialisation is accepted, no two transactions share one, and appended bytes only reach the remainder. -/
theorem parsePrefix_grammar (P : Protocol) :
    (∀ input view rest, TransactionView.parsePrefix P input = .ok (view, rest) ↔
      ∃ tx : Transaction, tx.Valid P ∧ input = tx.encode P ++ rest ∧ view = tx.view P) ∧
    (∀ (tx : Transaction) start tail, tx.Valid P → tx.encode P = start ++ tail → tail ≠ [] →
      ∀ result, TransactionView.parsePrefix P start ≠ .ok result) ∧
    (∀ tx tx' : Transaction, tx.Valid P → tx'.Valid P → tx.encode P = tx'.encode P → tx = tx') ∧
    (∀ input view rest more, TransactionView.parsePrefix P input = .ok (view, rest) →
      TransactionView.parsePrefix P (input ++ more) = .ok (view, rest ++ more)) := by
  have reads := readTransaction_reads P
  refine ⟨fun _ _ _ => parsePrefix_eq_ok, ?_, ?_, ?_⟩
  · intro tx start tail hvalid hsplit htail result hparse
    obtain ⟨view, rest⟩ := result
    obtain ⟨tx', hvalid', rfl, -⟩ := parsePrefix_eq_ok.mp hparse
    exact reads.not_run_strictPrefix hvalid hsplit htail _ (reads.run_encode hvalid' rest)
  · intro tx tx' hvalid hvalid' heq
    exact reads.encode_injective hvalid hvalid' heq
  · intro input view rest more hparse
    obtain ⟨tx, hvalid, rfl, rfl⟩ := parsePrefix_eq_ok.mp hparse
    exact parsePrefix_eq_ok.mpr ⟨tx, hvalid, List.append_assoc .., rfl⟩

/-- The tables as the samples below read them: the groups and the NU5 identifier of the published
protocol. The samples do not reach the other identifiers, which only have to be distinct. -/
def sampleProtocol : Protocol where
  v3VersionGroupId := 0x03C48270
  v4VersionGroupId := 0x892F2085
  v5VersionGroupId := 0x26A7270A
  v6VersionGroupId := 0xFFFFFFFF
  branchValue := fun
    | .sprout => 0 | .overwinter => 0x5BA81B19 | .sapling => 0x76B809BB | .blossom => 0x2BB40E60
    | .heartwood => 0xF5B9230B | .canopy => 0xE9FF75A6 | .nu5 => 0xC2D6D0B4 | .nu6 => 0xC8E71055
    | .nu6_1 => 0x4DEC4DF0 | .nu6_2 => 1 | .nu6_3 => 2 | .nu7 => 3
  branchValue_injective := by
    intro a b h
    revert h
    cases a <;> cases b <;> decide
  orchardProtocolRevision := fun
    | .nu5 | .nu6 | .nu6_1 => some .insecureV1
    | .nu6_2 => some .v2
    | .nu6_3 | .nu7 => some .v3
    | _ => none

/-- A v5 transaction under NU5 with no bundle and nothing but a lock time. -/
def sampleTransaction (lockTime : UInt32) : Transaction :=
  { Transaction.start .v5 with branchId := some .nu5, lockTime, expiryHeight := some 0 }

theorem sampleTransaction_valid (lockTime : UInt32) : (sampleTransaction lockTime).Valid sampleProtocol := by
  constructor <;> simp [sampleTransaction, Transaction.start, TxVersion.validInBranch]

theorem parsePrefix_grammar_sample :
    TransactionView.parsePrefix sampleProtocol ((sampleTransaction 7).encode sampleProtocol ++ [1, 2]) =
      .ok ((sampleTransaction 7).view sampleProtocol, [1, 2]) :=
  ((parsePrefix_grammar sampleProtocol).1 _ _ _).mpr ⟨_, sampleTransaction_valid 7, rfl, rfl⟩

/-- The identifiers of two parsed v5 or v6 transactions agree whenever their effecting data does: script
signatures, proofs, signatures and v6 anchors never change one. Where BLAKE2b has no collision among the
calls, they agree only then. -/
theorem txid_eq_iff_effects_eq (H : Hashes) (P : Protocol) {input input' rest rest' : Bytes}
    {view view' : TransactionView} (hparse : TransactionView.parsePrefix P input = .ok (view, rest))
    (hparse' : TransactionView.parsePrefix P input' = .ok (view', rest'))
    (hv : view.version = .v5 ∨ view.version = .v6) (hv' : view'.version = .v5 ∨ view'.version = .v6) :
    (txid H P view).isSome ∧ (txid H P view').isSome ∧
      (view.effects = view'.effects → txid H P view = txid H P view') ∧
      (CollisionFree H P view.toTransaction view'.toTransaction →
        (txid H P view = txid H P view' ↔ view.effects = view'.effects)) := by
  obtain ⟨tx, hvalid, -, rfl⟩ := parsePrefix_eq_ok.mp hparse
  obtain ⟨tx', hvalid', -, rfl⟩ := parsePrefix_eq_ok.mp hparse'
  have htree := hvalid.hasDigestTree hv
  have htree' := hvalid'.hasDigestTree hv'
  obtain ⟨c, hc, hid⟩ := txid_eq_some (H := H) (P := P) (tx.view P) htree
  obtain ⟨c', hc', hid'⟩ := txid_eq_some (H := H) (P := P) (tx'.view P) htree'
  have hsame : tx.effects = tx'.effects → txid H P (tx.view P) = txid H P (tx'.view P) := by
    intro heffects
    have hcall : txidCall H P tx = txidCall H P tx' := txidCall_congr heffects
    rw [hid, hid', Option.some.inj (hc.symm.trans (hcall.trans hc'))]
  refine ⟨by rw [hid]; rfl, by rw [hid']; rfl, hsame, fun hfree => ⟨fun heq => ?_, hsame⟩⟩
  rw [hid, hid', Option.some.injEq] at heq
  exact effects_inj htree htree' hfree hc hc' (congrArg Subtype.val heq)

/-- BLAKE2b, with a placeholder for the hash that versions 5 and 6 do not use. -/
def sampleHashes : Hashes := ⟨Blake2b.blake2b256, fun _ => .zero 32⟩

set_option maxRecDepth 100000 in
theorem sample_collisionFree :
    CollisionFree sampleHashes sampleProtocol (sampleTransaction 7) (sampleTransaction 8) where
  injective := by
    -- Only the header and the root differ; comparing messages first leaves two pairs of digests to compute.
    have key : ∀ c ∈ txidCalls sampleHashes sampleProtocol (sampleTransaction 7),
        ∀ c' ∈ txidCalls sampleHashes sampleProtocol (sampleTransaction 8),
        c.personal = c'.personal → c.message ≠ c'.message → sampleHashes.digest c ≠ sampleHashes.digest c' := by
      decide +kernel
    exact fun c hc c' hc' hp hd => not_not.mp fun hm => key c hc c' hc' hp hm hd
  separated := by
    intro c hc c' hc' _
    cases hc
    cases hc'
    rfl

theorem txid_eq_iff_effects_eq_sample :
    txid sampleHashes sampleProtocol ((sampleTransaction 7).view sampleProtocol) ≠
      txid sampleHashes sampleProtocol ((sampleTransaction 8).view sampleProtocol) := by
  have hparse : ∀ lockTime, TransactionView.parsePrefix sampleProtocol
      ((sampleTransaction lockTime).encode sampleProtocol ++ []) =
      .ok ((sampleTransaction lockTime).view sampleProtocol, []) :=
    fun lockTime => parsePrefix_eq_ok.mpr ⟨_, sampleTransaction_valid lockTime, rfl, rfl⟩
  intro heq
  have h := ((txid_eq_iff_effects_eq sampleHashes sampleProtocol (hparse 7) (hparse 8) (.inl rfl) (.inl rfl)).2.2.2
    sample_collisionFree).mp heq
  have hlock := congrArg Effects.lockTime h
  exact absurd hlock (by decide)

/-! ## Roots under different branches -/

/-- The sample under NU6 instead of NU5. -/
def nu6Transaction (lockTime : UInt32) : Transaction := { sampleTransaction lockTime with branchId := some .nu6 }

theorem nu6Transaction_valid (lockTime : UInt32) : (nu6Transaction lockTime).Valid sampleProtocol := by
  constructor <;> simp [nu6Transaction, sampleTransaction, Transaction.start, TxVersion.validInBranch]

/-- A hash that pads a short message and sends every longer one, the roots among them, to zero. -/
def paddingHashes : Hashes where
  blake2b _ message := if h : message.length ≤ 32 then ⟨message.rightpad 32 0, by simp [h]⟩ else .zero 32
  sha256 _ := .zero 32

/-- Every call that either identifier makes. -/
def branchCalls : List HashCall :=
  txidCalls paddingHashes sampleProtocol (sampleTransaction 7) ++
    txidCalls paddingHashes sampleProtocol (nu6Transaction 7)

/-- Injectivity of each personalized instance is not enough for the branch: here every instance is injective on
all it is given by the two identifiers, and the two transactions, which differ in nothing but the branch, have
the same identifier. -/
theorem txid_shared_across_branches :
    TransactionView.parsePrefix sampleProtocol ((sampleTransaction 7).encode sampleProtocol) =
        .ok ((sampleTransaction 7).view sampleProtocol, []) ∧
      TransactionView.parsePrefix sampleProtocol ((nu6Transaction 7).encode sampleProtocol) =
        .ok ((nu6Transaction 7).view sampleProtocol, []) ∧
      InjectiveOn paddingHashes branchCalls branchCalls ∧
      (sampleTransaction 7).effects ≠ (nu6Transaction 7).effects ∧
      txid paddingHashes sampleProtocol ((sampleTransaction 7).view sampleProtocol) =
        txid paddingHashes sampleProtocol ((nu6Transaction 7).view sampleProtocol) := by
  refine ⟨parsePrefix_eq_ok.mpr ⟨_, sampleTransaction_valid 7, (List.append_nil _).symm, rfl⟩,
    parsePrefix_eq_ok.mpr ⟨_, nu6Transaction_valid 7, (List.append_nil _).symm, rfl⟩, ?_, ?_, ?_⟩
  · unfold InjectiveOn
    decide +kernel
  · intro heffects
    exact absurd (congrArg Effects.branchId heffects) (by decide)
  · decide +kernel

end Zakura.Wire
