import RoomRelay.Hub.Relay

/-!
Being a member of a room, from joining to leaving.

A join and a leave each have two steps: the registry changes, and then the members learn of it.
A membership that is dropped before it began to leave hands its leave to the background. One that
is already on its way out does not, whether or not the registry has seen it leave.
-/

namespace RoomRelay

/-- How far a membership has come. -/
inductive Stage where
  | member
  | leaving
  | over
deriving DecidableEq, Repr

structure Membership where
  room : RoomId
  connection : Connection
  stage : Stage := .member
deriving DecidableEq, Repr

namespace Hub

/-- Tells the given members that they are the members of the room. -/
def broadcastPeers (h : Hub) (room : RoomId) (members : List Connection) : Hub :=
  match (Downlink.peerList (members.map (·.peer))).encode with
  | .ok frame => h.sendEach frame (.peerListNotSent room) members
  | .error e => h.record (.peerListUnencodable room e)

/-- The registry's part of a join. -/
def enter (h : Hub) (room : RoomId) (c : Connection) : Hub × Joined :=
  let (registry, joined) := h.registry.join room c
  ({ h with registry }, joined)

/-- What follows a join: the superseded connection is asked to close, the members get the new
list. -/
def announceJoin (h : Hub) (room : RoomId) (c : Connection) (joined : Joined) : Hub :=
  let h := match joined.superseded with
    | some previous => (h.record (.peerReplaced room c.peer)).close previous superseded
    | none => h
  (h.record (.peerJoined room c.peer)).broadcastPeers room joined.members

def join (h : Hub) (room : RoomId) (c : Connection) : Hub × Membership :=
  let (h, joined) := h.enter room c
  (h.announceJoin room c joined, ⟨room, c, .member⟩)

/-- The registry's part of a leave. -/
def exit (h : Hub) (room : RoomId) (c : Connection) : Hub × Departure :=
  let (registry, departure) := h.registry.leave room c
  ({ h with registry }, departure)

/-- What follows a leave: those who remain get the new list. -/
def announceLeave (h : Hub) (room : RoomId) (c : Connection) (departure : Departure) : Hub :=
  let h := match departure with
    | .roomEmpty => h.record (.roomRemoved room)
    | .remaining members => h.broadcastPeers room members
    | .notMember => h.record (.alreadyReplaced room c.peer)
  h.record (.peerLeft room c.peer)

def depart (h : Hub) (room : RoomId) (c : Connection) : Hub :=
  let (h, departure) := h.exit room c
  h.announceLeave room c departure

end Hub

namespace Membership

/-- The owner starts to leave; the registry has not been reached yet. -/
def beginLeave (m : Membership) : Membership :=
  match m.stage with
  | .member => { m with stage := .leaving }
  | _ => m

/-- The registry is reached and the leave takes effect. -/
def completeLeave (m : Membership) (h : Hub) : Hub × Membership :=
  match m.stage with
  | .leaving => (h.depart m.room m.connection, { m with stage := .over })
  | _ => (h, m)

def leave (m : Membership) (h : Hub) : Hub × Membership :=
  m.beginLeave.completeLeave h

/-- The owner lets go of the membership, or is cancelled while it holds it. Without a background
to hand the leave to, nobody leaves. -/
def drop (m : Membership) (h : Hub) (background : Bool := true) : Hub × Membership :=
  match m.stage with
  | .member =>
    let h := if background then { h with departures := h.departures ++ [(m.room, m.connection)] }
      else h
    (h, { m with stage := .over })
  | _ => (h, { m with stage := .over })

end Membership

/-- The background carries out the leaves that were handed to it. -/
def Hub.runDepartures (h : Hub) : Hub :=
  h.departures.foldl (fun h d => h.depart d.1 d.2) { h with departures := [] }

end RoomRelay
