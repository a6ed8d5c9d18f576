import Zakura.Directory.Choice

/-! # Two-choice placement into fixed rows

Each key takes the emptier of its two candidate rows that has room, or room is made by moving residents to
their other candidate along a shortest path. A batch that fails is undone. Sums of bytes are 64 bits wide and wrap;
rows and entries are numbered in 32 bits. -/

namespace Zakura.Directory

/-- `usize` addition. -/
def addSize (a b : Nat) : Nat := (a + b) % 2 ^ 64

/-- `usize` subtraction. -/
def subSize (a b : Nat) : Nat := (a + (2 ^ 64 - b)) % 2 ^ 64

/-- The cast of a row or an entry's number to `u32`. -/
def asU32 (n : Nat) : Nat := n % 2 ^ 32

structure Entry where
  candidates : Nat × Nat
  size : Nat
  row : Nat
deriving DecidableEq

/-- A relocation move of a batch: `placed` is the number of entries when it was made. -/
structure Move where
  placed : Nat
  entry : Nat
  source : Nat
  position : Nat
deriving DecidableEq

/-- `FixedRows`: each row's entries in the order they arrived, and its used bytes. -/
structure FixedRows where
  salts : FixedBytes 32 × FixedBytes 32
  capacity : Nat
  occupants : List (List Nat)
  used : List Nat
  entries : List Entry
deriving DecidableEq

/-- A row on a relocation path: the bytes it must take, and the resident its parent gives up to it. -/
inductive Node
  | root (row need : Nat)
  | child (row need : Nat) (parent : Node) (moved : Nat)

namespace Node

def row : Node → Nat
  | root row _ => row
  | child row _ _ _ => row

def need : Node → Nat
  | root _ need => need
  | child _ need _ _ => need

/-- The rows from a node up to its root. -/
def rows : Node → List Nat
  | root row _ => [row]
  | child row _ parent _ => row :: parent.rows

def top : Node → Node
  | root row need => root row need
  | child _ _ parent _ => parent.top

end Node

def maxRelocationVisits : Nat := 512

namespace FixedRows

def new (salts : FixedBytes 32 × FixedBytes 32) (rows capacity : Nat) : FixedRows :=
  { salts, capacity, occupants := List.replicate rows [], used := List.replicate rows 0, entries := [] }

def usedIn (s : FixedRows) (row : Nat) : Nat := s.used[row]?.getD 0

def residents (s : FixedRows) (row : Nat) : List Nat := s.occupants[row]?.getD []

def sizeOf (s : FixedRows) (entry : Nat) : Nat := (s.entries[entry]?.map Entry.size).getD 0

/-- `assignment`: each entry's row, in insertion order. -/
def assignment (s : FixedRows) : List Nat := s.entries.map Entry.row

def push (s : FixedRows) (entry : Entry) : FixedRows :=
  { s with
    occupants := s.occupants.modify entry.row (· ++ [asU32 s.entries.length])
    used := s.used.modify entry.row (addSize · entry.size)
    entries := s.entries ++ [entry] }

/-! ## Relocation -/

/-- Moves a resident from one row to the end of another. -/
def move (s : FixedRows) (moved source target : Nat) : FixedRows × Move :=
  let position := (s.residents source).idxOf moved
  let size := s.sizeOf moved
  ({ s with
      occupants := (s.occupants.modify source (·.eraseIdx position)).modify target (· ++ [moved])
      used := (s.used.modify source (subSize · size)).modify target (addSize · size)
      entries := s.entries.modify moved fun entry => { entry with row := target } },
    ⟨asU32 s.entries.length, moved, source, position⟩)

/-- Applies every move on a path, deepest first. -/
def applyPath (s : FixedRows) (moves : List Move) : Node → FixedRows × List Move
  | .root _ _ => (s, moves)
  | .child row _ parent moved =>
    let next := s.move moved parent.row row
    next.1.applyPath (moves ++ [next.2]) parent

def alternate (entry : Entry) (row : Nat) : Option Nat :=
  [entry.candidates.1, entry.candidates.2].find? (· ≠ row)

/-- The children a visited row adds to the frontier, and the rows seen with their need. -/
def expand (s : FixedRows) (node : Node) :
    List Nat → List Node × List (Nat × Nat) → List Node × List (Nat × Nat)
  | [], state => state
  | resident :: residents, (nodes, seen) =>
    match s.entries[resident]? with
    | none => s.expand node residents (nodes, seen)
    | some entry =>
      if s.capacity < addSize (subSize (s.usedIn node.row) entry.size) node.need then s.expand node residents (nodes, seen)
      else match alternate entry node.row with
        | none => s.expand node residents (nodes, seen)
        | some row =>
          -- A path may never revisit a row.
          if row ∈ node.rows ∨ (row, entry.size) ∈ seen then s.expand node residents (nodes, seen)
          else if nodes.length < maxRelocationVisits then
            s.expand node residents (nodes ++ [.child row entry.size node resident], (row, entry.size) :: seen)
          else s.expand node residents (nodes, (row, entry.size) :: seen)

/-- The breadth-first search for a row with room, over a bounded number of visits. -/
def search (s : FixedRows) : Nat → Nat → List Node × List (Nat × Nat) → Option Node
  | 0, _, _ => none
  | visits + 1, cursor, (nodes, seen) =>
    match nodes[cursor]? with
    | none => none
    | some node =>
      if addSize (s.usedIn node.row) node.need ≤ s.capacity then some node
      else s.search visits (cursor + 1) (s.expand node (s.residents node.row) (nodes, seen))

/-- The search starts at the roots, a repeated one once. -/
def searchFrom (s : FixedRows) (roots : Nat × Nat) (incoming : Nat) : Option Node :=
  let nodes := if roots.1 = roots.2 then [Node.root roots.1 incoming]
    else [Node.root roots.1 incoming, Node.root roots.2 incoming]
  s.search maxRelocationVisits 0 (nodes, nodes.map fun node => (node.row, node.need))

/-- `relocate`: the row left with space, every move on the path applied and recorded. -/
def relocate (s : FixedRows) (roots : Nat × Nat) (incoming : Nat) (moves : List Move) :
    Option (Nat × FixedRows × List Move) :=
  (s.searchFrom roots incoming).map fun node => (node.top.row, s.applyPath moves node)

/-! ## Undoing a batch -/

def pop (s : FixedRows) : FixedRows :=
  match s.entries.getLast? with
  | none => s
  | some entry =>
    { s with
      occupants := s.occupants.modify entry.row List.dropLast
      used := s.used.modify entry.row (subSize · entry.size)
      entries := s.entries.dropLast }

def popMany : Nat → FixedRows → FixedRows
  | 0, s => s
  | n + 1, s => popMany n s.pop

/-- `truncate`: removes the entries after the first `len`, newest first. -/
def truncate (s : FixedRows) (len : Nat) : FixedRows := popMany (s.entries.length - len) s

def revert (s : FixedRows) (m : Move) : FixedRows :=
  let target := (s.entries[m.entry]?.map Entry.row).getD 0
  let size := s.sizeOf m.entry
  { s with
    occupants := (s.occupants.modify target List.dropLast).modify m.source (·.insertIdx m.position m.entry)
    used := (s.used.modify target (subSize · size)).modify m.source (addSize · size)
    entries := s.entries.modify m.entry fun entry => { entry with row := m.source } }

/-- `undo`: newest first, each move after the entries placed since it. -/
def undo (s : FixedRows) (first : Nat) (moves : List Move) : FixedRows :=
  (moves.foldr (fun m s => (s.truncate m.placed).revert m) s).truncate first

/-! ## Placement -/

variable (sha256 : Bytes → FixedBytes 32)

/-- The emptier candidate with room, or a row with room made by relocation. -/
def findRow (s : FixedRows) (moves : List Move) (candidates : Nat × Nat) (size : Nat) :
    Option (Nat × FixedRows × List Move) :=
  let direct := if s.usedIn candidates.1 ≤ s.usedIn candidates.2 then [candidates.1, candidates.2]
    else [candidates.2, candidates.1]
  match direct.find? fun row => addSize (s.usedIn row) size ≤ s.capacity with
  | some row => some (row, s, moves)
  | none => s.relocate candidates size moves

def insertLoop (first : Nat) : Nat → List Move → List (Bytes × Nat) → FixedRows → Except Nat Unit × FixedRows
  | _, _, [], s => (.ok (), s)
  | index, moves, (key, size) :: items, s =>
    let drawn := candidates sha256 s.salts key s.used.length
    let candidates := (asU32 drawn.1, asU32 drawn.2)
    match s.findRow moves candidates size with
    | none => (.error index, s.undo first moves)
    | some (row, s, moves) => insertLoop first (index + 1) moves items (s.push { candidates, size, row })

/-- `insert`: places keys with their sizes in order, or names the one that fits nowhere. -/
def insert (s : FixedRows) (items : List (Bytes × Nat)) : Except Nat Unit × FixedRows :=
  match items.findIdx? fun item => item.2 = 0 ∨ s.capacity < item.2 with
  | some i => (.error i, s)
  | none => insertLoop sha256 s.entries.length 0 [] items s

/-- A call of `insert`; nothing if it panics, as a row is drawn out of none. -/
def insertCall (s : FixedRows) (items : List (Bytes × Nat)) : Option (Except Nat Unit × FixedRows) :=
  if s.used.length = 0 ∧ items ≠ [] ∧ ∀ item ∈ items, ¬ (item.2 = 0 ∨ s.capacity < item.2) then none
  else some (s.insert sha256 items)

/-- The rows after a sequence of calls that all return, with the keys of the batches that succeeded. -/
def insertAll : List (List (Bytes × Nat)) → FixedRows → List (Bytes × Nat) → Option (FixedRows × List (Bytes × Nat))
  | [], s, done => some (s, done)
  | batch :: batches, s, done =>
    match s.insertCall sha256 batch with
    | none => none
    | some (.ok (), s) => insertAll batches s (done ++ batch)
    | some (.error _, s) => insertAll batches s done

end FixedRows

/-- `choice_bits`: each key with the index of the candidate its row is. -/
def choiceBits (sha256 : Bytes → FixedBytes 32) (salts : FixedBytes 32 × FixedBytes 32) (keys : List Bytes)
    (assignment : List Nat) (rows : Nat) : List (Bytes × Bool) :=
  List.zipWith (fun key row => (key, row ≠ (candidates sha256 salts key rows).1)) keys assignment

end Zakura.Directory
