import RoomRelay.Hub.Membership

/-!
One client's session: it joins a room, relays what comes in, and leaves when the stream of
inbound items ends.

The stream ends with a close, a failure of the transport, its own end, or a relay that finds the
sender without its place. A frame that cannot be decoded, or relayed for any other reason, is
reported and passed over.
-/

namespace RoomRelay

/-- What a client connection delivers to its session. -/
inductive Inbound where
  | frame (f : Frame)
  | ping (payload : Bytes)
  | pong (payload : Bytes)
  | close (request : Option Close)
  | failure (reason : String)
  | ended
deriving DecidableEq, Repr

structure Session where
  membership : Membership
  running : Bool := true
deriving DecidableEq, Repr

/-- The codes of a close that is nothing to report: a normal one, going away, and the relay's
own. -/
def isExpectedClose (code : UInt16) : Bool :=
  code == 1000 || code == 1001 || code == superseded.code || code == roomGone.code

namespace Session

def room (s : Session) : RoomId := s.membership.room

def connection (s : Session) : Connection := s.membership.connection

def peer (s : Session) : PeerId := s.connection.peer

/-- The session is over and leaves its room. -/
def finish (s : Session) (h : Hub) : Hub × Session :=
  let (h, membership) := s.membership.leave h
  (h, { membership, running := false })

/-- A frame from the client is relayed if it can be decoded. -/
def receiveFrame (s : Session) (h : Hub) (f : Frame) : Hub × Session :=
  match Uplink.decode f.isBinary f.bytes with
  | .error e => (h.record (.undecodable s.peer f.isBinary e), s)
  | .ok u =>
    match h.relay s.room s.connection u with
    | (h, .ok _) => (h, s)
    | (h, .error e) =>
      match e with
      | .roomNotFound _ | .staleSession _ _ => s.finish (h.record (.sessionRefused s.peer e))
      | _ => (h.record (.unprocessed s.peer e), s)

/-- One inbound item. A session that is over takes no notice of it. -/
def receive (s : Session) (h : Hub) (item : Inbound) : Hub × Session :=
  if s.running then
    match item with
    | .frame f => s.receiveFrame h f
    | .ping _ | .pong _ => (h, s)
    | .close (some c) =>
      if isExpectedClose c.code then s.finish h
      else s.finish (h.record (.closedUnexpectedly s.room s.peer c.code c.reason))
    | .close none => s.finish h
    | .failure reason => s.finish (h.record (.transportFailed s.room s.peer reason))
    | .ended => s.finish h
  else (h, s)

/-- The session is cancelled while it waits for the next item. -/
def abort (s : Session) (h : Hub) : Hub × Session :=
  if s.running then
    let (h, membership) := s.membership.drop h
    (h, { membership, running := false })
  else (h, s)

end Session

/-- A connection joins a room and its session begins. -/
def Hub.startSession (h : Hub) (room : RoomId) (c : Connection) : Hub × Session :=
  let (h, membership) := h.join room c
  (h, { membership })

end RoomRelay
