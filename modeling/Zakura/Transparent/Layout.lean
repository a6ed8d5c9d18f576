import Zakura.Transparent.Records

/-! # Table geometries

The dimensions of a directory shard and the addressing of rows over several segments. -/

namespace Zakura.Transparent

/-- `INSTANCE_BYTES`: the quantum of row width. -/
def instanceBytes : Nat := 4096

structure Geometry where
  name : String
  directoryRows : Nat
  directoryRowBytes : Nat
  pageRows : Nat
  pageRowBytes : Nat
  inlineEvents : Nat
deriving DecidableEq

def decoupled2k8k : Geometry :=
  { name := "decoupled-2k-8k", directoryRows := 2048, directoryRowBytes := instanceBytes, pageRows := 8192,
    pageRowBytes := instanceBytes, inlineEvents := 2 }

/-- `split_row`: the segment of a row and the row within it. -/
def splitRow (row perSegment : Nat) : Nat × Nat := (row / perSegment, row % perSegment)

end Zakura.Transparent
