import Zakura.Receiver.Build

/-! # Reading a receiver from a segment

A client names a row of a published table and is answered with that row. -/

namespace Zakura.Receiver

variable (sha256 : Bytes → FixedBytes 32)

/-- `read_entry`: one directory query, for the row the segment's choice object names. -/
def readEntry (segment : Segment) (receiver : ReceiverBytes) : Except Error (Option Entry) := do
  let m := segment.directory.manifest
  let t := tag sha256 m.salt receiver
  let choice ← decodeChoice sha256 m segment.directory.choice
  lookupEntry m (rowAt segment.directory.data (chooseRow sha256 m.salt choice t)) t

/-- `read_slot`: one companion query, for the slot's row. -/
def readSlot (segment : Segment) (entry : Entry) (slot : Nat) : Except Error (RawRecord × FixedBytes payloadBytes) :=
  lookupSlot sha256 segment.directory.manifest segment.companion.manifest entry slot
    (rowAt segment.companion.data (slotRow slot))

/-- A receiver's entry, then every slot it names, in order. -/
def readAll (segment : Segment) (receiver : ReceiverBytes) :
    Except Error (Option (List (RawRecord × FixedBytes payloadBytes))) := do
  match ← readEntry sha256 segment receiver with
  | none => .ok none
  | some entry => (entry.slots.mapM (readSlot sha256 segment entry)).map some

end Zakura.Receiver
