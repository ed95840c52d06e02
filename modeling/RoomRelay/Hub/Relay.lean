import RoomRelay.Hub.Basic

/-!
Passing an uplink on to the other members of a room.

Only the connection that holds its place in the room may relay. A sender without a room, or one
that was superseded, is asked to close and nothing else happens. The targets are fixed when the
uplink is relayed, also when the frame itself is held back.
-/

namespace RoomRelay

/-- The room of the sender does not exist. -/
def roomGone : Close := ⟨4001, "room not found"⟩

/-- Another connection has taken the place. -/
def superseded : Close := ⟨4000, "superseded by a newer connection"⟩

/-- The members that an uplink is meant for, never the sender itself: all of them, or those among
the named targets, each once and in the order of first mention. -/
def resolve (members : Members) (sender : PeerId) : Option Targets → List Connection
  | none => members.filter (·.peer != sender)
  | some targets =>
    ((targets.ids.filter (· != sender)).eraseDups).filterMap members.find?

namespace Hub

/-- How many milliseconds a frame is held back at most: those of thirty years of 365 days. -/
def longestHold : Nat := 30 * 365 * 24 * 60 * 60 * 1000

/-- When a frame that is relayed now is to be delivered. -/
def nextDue (h : Hub) : Nat :=
  h.now + min h.delay longestHold

def deliver (h : Hub) (d : Delivery) : Hub :=
  h.sendEach d.frame (.frameNotSent d.sender) d.targets

/-- Delivers at once, or holds the frame back if there is a delay. -/
def dispatch (h : Hub) (d : Delivery) : Hub :=
  if h.delay = 0 then h.deliver d else { h with deliveries := h.deliveries ++ [d] }

/-- Relays an uplink of a connection in a room and says to how many members. -/
def relay (h : Hub) (room : RoomId) (sender : Connection) (u : Uplink) :
    Hub × Except RelayError Nat :=
  match (u.relayed sender.peer).encode with
  | .error e => (h, .error (.codec e))
  | .ok frame =>
    match h.registry.members? room with
    | none => (h.close sender roomGone, .error (.roomNotFound room))
    | some members =>
      if members.isHeldBy sender then
        let targets := resolve members sender.peer u.targets
        let h := h.record (.relaying sender.peer room u.action frame.isBinary targets.length)
        (h.dispatch ⟨h.nextDue, sender.peer, targets, frame⟩, .ok targets.length)
      else (h.close sender superseded, .error (.staleSession room sender.peer))

/-- Lets time pass and delivers what has become due, in the order it was relayed. -/
def advance (h : Hub) (milliseconds : Nat) : Hub :=
  let now := h.now + milliseconds
  let (due, later) := h.deliveries.partition (·.due ≤ now)
  due.foldl deliver { h with now, deliveries := later }

end Hub

end RoomRelay
