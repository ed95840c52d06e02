import RoomRelay.Hub.Session
import RoomRelay.Http.Path

/-!
Which request gets which answer.

The root path shows how many rooms there are. A path of two segments names a room and a peer and
turns into a session if the connection behind the request can be upgraded. Every answer allows all
origins, and an `OPTIONS` request is answered by that alone.
-/

namespace RoomRelay.Http

structure Request where
  method : String
  target : String
  /-- Whether a valid handshake stands behind the request. -/
  upgradable : Bool := false

structure Response where
  status : Nat
  headers : List (String × String)
  body : String
deriving DecidableEq, Repr

/-- A response, or the switch to a session of this peer in this room. -/
inductive Answer where
  | response (r : Response)
  | upgrade (room : RoomId) (peer : PeerId)
deriving DecidableEq, Repr

/-- Where a request leads. -/
inductive Route where
  | preflight
  | status (withBody : Bool)
  | badSegment (name : String)
  | session (room : RoomId) (peer : PeerId)
  | notFound
deriving DecidableEq, Repr

/-- The route of a path that names a room and a peer. No room has an empty name, but the escapes of
both are read before that is looked at. -/
def sessionRoute (room peer : List Char) : Route :=
  match segmentText? room, segmentText? peer with
  | none, _ => .badSegment "room_id"
  | _, none => .badSegment "peer_id"
  | some room, some peer =>
    if isValidId room && isValidId peer then .session room peer else .notFound

def Request.route (r : Request) : Route :=
  if r.method = "OPTIONS" then .preflight
  else match segments (pathOf r.target.toList) with
    | [[], []] =>
      if r.method = "GET" then .status true
      else if r.method = "HEAD" then .status false
      else .notFound
    | [[], room, peer] =>
      if peer = [] then .notFound else sessionRoute room peer
    | _ => .notFound

def allowOrigin : String × String := ("access-control-allow-origin", "*")

/-- An answer of plain text. -/
def plainText (status : Nat) (body : String) : Response :=
  ⟨status, [("content-type", "text/plain; charset=utf-8"), allowOrigin], body⟩

def preflightResponse : Response :=
  ⟨200, [allowOrigin, ("access-control-allow-methods", "*"), ("access-control-allow-headers", "*")],
    ""⟩

def statusText (rooms : Nat) : String :=
  s!"P2P Live Share WebSocket Signaling Server. {rooms} active room(s)."

/-- Answers a request. Only a failed upgrade leaves a trace, in the log. -/
def respond (h : Hub) (r : Request) : Hub × Answer :=
  match r.route with
  | .preflight => (h, .response preflightResponse)
  | .status withBody =>
    let body := if withBody then statusText h.registry.roomCount else ""
    (h, .response ⟨200, [("content-type", "text/plain"), allowOrigin], body⟩)
  | .badSegment name => (h, .response (plainText 400 s!"Invalid URL: Invalid UTF-8 in `{name}`"))
  | .session room peer =>
    if r.upgradable then (h, .upgrade room peer)
    else (h.record (.upgradeFailed room peer), .response (plainText 500 "Upgrade failed"))
  | .notFound => (h, .response (plainText 404 "Not found"))

end RoomRelay.Http
