import Zakura.Filter.Validate
import Zakura.Filter.Writer
import Mathlib.Data.Prod.Lex

/-! # Matching wallet scripts against a filter -/

namespace Zakura.Filter

structure FilterKeys where
  k0 : UInt64
  k1 : UInt64

/-- `map_wallet_scripts_keyed`: the nonempty scripts mapped into the filter's range, with their indices. -/
def mapWalletScriptsKeyed (sip : SipHash) (filter : ValidatedFilter) (keys : FilterKeys)
    (walletScripts : List Bytes) : List (Nat × Nat) :=
  let mapped := (walletScripts.zipIdx.filter fun (script, _) => !script.isEmpty).map fun (script, index) =>
    (hashToRange sip keys.k0 keys.k1 filter.range script, index)
  mapped.insertionSort fun a b => toLex a ≤ toLex b

/-- The inner loop of `match_mapped`: the cursor as the values not yet passed. -/
def advanceCursor (value : Nat) : List Nat → List Nat
  | [] => []
  | v :: values => if v < value then advanceCursor value values else v :: values

/-- The merge of `match_mapped`. The cursor stays on an equal value: several scripts may map to it. -/
def mergeMapped : List Nat → List (Nat × Nat) → List Nat
  | _, [] => []
  | cursor, (value, index) :: mapped =>
    let cursor := advanceCursor value cursor
    if cursor.head? = some value then index :: mergeMapped cursor mapped
    else mergeMapped cursor mapped

def matchMapped (filter : ValidatedFilter) (mapped : List (Nat × Nat)) : List Nat :=
  (mergeMapped filter.values mapped).insertionSort (· ≤ ·)

def matchKeyed (sip : SipHash) (filter : ValidatedFilter) (keys : FilterKeys) (walletScripts : List Bytes) :
    List Nat :=
  matchMapped filter (mapWalletScriptsKeyed sip filter keys walletScripts)

end Zakura.Filter
