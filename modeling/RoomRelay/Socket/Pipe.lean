import RoomRelay.Room.Outbox

/-!
The stream of bytes towards a client, as the messages that are in it.

The pipe holds a bounded number of bytes that the client has not read. A message that does not fit
goes in as far as there is room, and the rest of it, with everything behind it, waits outside.
-/

namespace RoomRelay.Socket

/-- What the relay writes to a socket. -/
inductive Message where
  | frame (f : Frame)
  | pong (payload : Bytes)
  | close (request : Option Close)
deriving DecidableEq, Repr

def Message.payloadSize : Message → Nat
  | .frame f => f.bytes.length
  | .pong payload => payload.length
  | .close none => 0
  | .close (some c) => 2 + c.reason.utf8ByteSize

/-- The bytes that a message takes on the stream: its payload behind a header that grows with
it. -/
def Message.size (m : Message) : Nat :=
  let n := m.payloadSize
  if n ≤ 125 then 2 + n else if n ≤ 65535 then 4 + n else 10 + n

structure Pipe where
  /-- How many unread bytes there is room for, `none` without a bound. -/
  capacity : Option Nat
  unread : Nat := 0
  /-- The messages that have gone in as a whole. -/
  arrived : List Message := []
  /-- The messages that have not, each with the bytes still to go. -/
  outside : List (Message × Nat) := []
deriving DecidableEq, Repr

namespace Pipe

/-- The messages that go in with `room` bytes left, the bytes that go in, and what stays
outside. -/
def fill (room : Nat) : List (Message × Nat) → List Message × Nat × List (Message × Nat)
  | [] => ([], 0, [])
  | (m, left) :: rest =>
    if left ≤ room then
      let (moved, bytes, outside) := fill (room - left) rest
      (m :: moved, left + bytes, outside)
    else ([], room, (m, left - room) :: rest)

def flush (p : Pipe) : Pipe :=
  let room := match p.capacity with
    | some capacity => capacity - p.unread
    | none => p.outside.foldr (fun waiting total => waiting.2 + total) 0
  let (moved, bytes, outside) := fill room p.outside
  { p with unread := p.unread + bytes, arrived := p.arrived ++ moved, outside }

def push (p : Pipe) (m : Message) : Pipe :=
  { p with outside := p.outside ++ [(m, m.size)] }

/-- The client reads everything that is in the pipe. -/
def readAll (p : Pipe) : List Message × Pipe :=
  (p.arrived, { p with unread := 0, arrived := [] })

def isBlocked (p : Pipe) : Bool :=
  !p.outside.isEmpty

end Pipe

end RoomRelay.Socket
