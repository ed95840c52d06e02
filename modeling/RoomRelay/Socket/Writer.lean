import RoomRelay.Room.Outbox

/-!
Writing what is on its way to a connection into a socket.

The writer hands over one item after the other. It stops for good after a close and after a write
that fails, and is held up by a write that the socket takes but cannot complete yet. What becomes
of an item is up to the socket, of which nothing is assumed here.
-/

namespace RoomRelay.Socket

/-- What becomes of an item that is handed to a socket. -/
inductive Outcome (σ : Type) where
  | written (socket : σ)
  | held (socket : σ)
  | failed (reason : String)

inductive Writer where
  | idle
  | writing (item : Outbound)
  | stopped
deriving DecidableEq, Repr

/-- The writer once an item has been written. -/
def Writer.after : Outbound → Writer
  | .frame _ => .idle
  | .close _ => .stopped

/-- How far the writer came: the items it took, the socket, its own state, and the item that could
not be written. -/
structure Progress (σ : Type) where
  taken : Nat
  socket : σ
  writer : Writer
  failure : Option (Outbound × String) := none

/-- Writes items in order until the writer stops or is held up. -/
def forward {σ : Type} (write : σ → Outbound → Outcome σ) (socket : σ) :
    List Outbound → Progress σ
  | [] => { taken := 0, socket, writer := .idle }
  | item :: rest =>
    match write socket item with
    | .failed reason =>
      { taken := 1, socket, writer := .stopped, failure := some (item, reason) }
    | .held socket => { taken := 1, socket, writer := .writing item }
    | .written socket =>
      match Writer.after item with
      | .idle =>
        let p := forward write socket rest
        { p with taken := p.taken + 1 }
      | writer => { taken := 1, socket, writer }

end RoomRelay.Socket
