import RoomRelay.Hub.Event
import RoomRelay.Room.Outbox
import RoomRelay.Room.Registry

/-!
The state that all connections share.

Connections are numbered in the order in which they are made, and a connection's number is the
place of its outbox. Time is a count of milliseconds that only `advance` moves.
-/

namespace RoomRelay

/-- A frame on its way to the connections that were resolved when it was relayed. -/
structure Delivery where
  due : Nat
  sender : PeerId
  targets : List Connection
  frame : Frame
deriving DecidableEq, Repr

structure Hub where
  registry : Registry := {}
  outboxes : Array Outbox := #[]
  /-- How many milliseconds a relayed frame is to be held back. -/
  delay : Nat := 0
  now : Nat := 0
  /-- The deliveries that are held back, in the order they were made. -/
  deliveries : List Delivery := []
  /-- Leaves that were handed to the background. -/
  departures : List (RoomId × Connection) := []
  /-- The log, with the latest event first. -/
  events : List Event := []

namespace Hub

def record (h : Hub) (e : Event) : Hub :=
  { h with events := e :: h.events }

/-- Makes a connection for a peer. -/
def connect (h : Hub) (peer : PeerId) (capacity : Nat) : Hub × Connection :=
  ({ h with outboxes := h.outboxes.push { capacity } }, ⟨h.outboxes.size, peer⟩)

/-- The outbox of a connection; for a connection that was never made, one without a receiver. -/
def outbox (h : Hub) (c : Connection) : Outbox :=
  h.outboxes[c.number]?.getD { capacity := 0, receiver := .dropped }

def setOutbox (h : Hub) (c : Connection) (q : Outbox) : Hub :=
  { h with outboxes := h.outboxes.modify c.number fun _ => q }

@[simp]
theorem registry_setOutbox (h : Hub) (c : Connection) (q : Outbox) :
    (h.setOutbox c q).registry = h.registry := rfl

theorem outbox_setOutbox_self {h : Hub} {c : Connection} (made : c.number < h.outboxes.size)
    (q : Outbox) : (h.setOutbox c q).outbox c = q := by
  simp [outbox, setOutbox, made, Array.getElem_modify]

theorem outbox_setOutbox_of_ne {c d : Connection} (hne : c.number ≠ d.number) (h : Hub)
    (q : Outbox) : (h.setOutbox c q).outbox d = h.outbox d := by
  simp [outbox, setOutbox, Array.getElem?_modify, hne]

/-- Queues a frame for a connection, or says why not and changes nothing. -/
def send (h : Hub) (c : Connection) (f : Frame) : Except RelayError Hub :=
  match (h.outbox c).offer (.frame f) with
  | .ok q => return h.setOutbox c q
  | .error .full => throw (.queueFull c.peer)
  | .error .gone => throw (.peerGone c.peer)

/-- Requests that a connection be closed. -/
def close (h : Hub) (c : Connection) (request : Close) (background : Bool := true) : Hub :=
  h.setOutbox c ((h.outbox c).requestClose background request)

/-- Queues a frame for each connection on its own; a failure is recorded and stops nothing. -/
def sendEach (h : Hub) (f : Frame) (failed : PeerId → RelayError → Event) :
    List Connection → Hub
  | [] => h
  | c :: rest =>
    let h := match h.send c f with
      | .ok h => h
      | .error e => h.record (failed c.peer e)
    h.sendEach f failed rest

end Hub

end RoomRelay
