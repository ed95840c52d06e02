import RoomRelay.Message.Codec

/-!
What the relay reports: why a relay fails, and the events of its log.

An event is one constructor with what it is about; its level, its message and its named fields are
functions of it.
-/

namespace RoomRelay

/-- Why an uplink is not relayed, or a frame not queued. -/
inductive RelayError where
  | codec (e : CodecError)
  | roomNotFound (room : RoomId)
  | staleSession (room : RoomId) (peer : PeerId)
  | queueFull (peer : PeerId)
  | peerGone (peer : PeerId)

def RelayError.message : RelayError → String
  | .codec e => s!"failed to encode downlink: {e.message}"
  | .roomNotFound room => s!"room {room} not found"
  | .staleSession room peer => s!"peer {peer} in room {room} was superseded by a newer connection"
  | .queueFull peer => s!"outbound queue of peer {peer} is full"
  | .peerGone peer => s!"peer {peer} is no longer connected"

inductive Level where
  | debug
  | info
  | warn
  | error
deriving DecidableEq, Repr

def Level.name : Level → String
  | .debug => "DEBUG"
  | .info => "INFO"
  | .warn => "WARN"
  | .error => "ERROR"

inductive Event where
  | peerJoined (room : RoomId) (peer : PeerId)
  | peerReplaced (room : RoomId) (peer : PeerId)
  | peerLeft (room : RoomId) (peer : PeerId)
  | roomRemoved (room : RoomId)
  | alreadyReplaced (room : RoomId) (peer : PeerId)
  | peerListUnencodable (room : RoomId) (e : CodecError)
  | peerListNotSent (room : RoomId) (target : PeerId) (e : RelayError)
  | relaying (sender : PeerId) (room : RoomId) (action : String) (binary : Bool) (targets : Nat)
  | frameNotSent (sender target : PeerId) (e : RelayError)
  | undecodable (peer : PeerId) (binary : Bool) (e : CodecError)
  | unprocessed (peer : PeerId) (e : RelayError)
  | sessionRefused (peer : PeerId) (e : RelayError)
  | closedUnexpectedly (room : RoomId) (peer : PeerId) (code : UInt16) (reason : String)
  | transportFailed (room : RoomId) (peer : PeerId) (reason : String)
  | frameNotWritten (peer : PeerId) (reason : String)
  | closeNotWritten (peer : PeerId) (code : UInt16) (reason : String)
  | upgradeFailed (room : RoomId) (peer : PeerId)

namespace Event

def level : Event → Level
  | .peerJoined .. | .peerLeft .. | .roomRemoved .. => .info
  | .alreadyReplaced .. | .relaying .. | .closeNotWritten .. => .debug
  | .peerListUnencodable .. | .sessionRefused .. => .error
  | .peerReplaced .. | .peerListNotSent .. | .frameNotSent .. | .undecodable .. | .unprocessed ..
  | .closedUnexpectedly .. | .transportFailed .. | .frameNotWritten .. | .upgradeFailed .. => .warn

def message : Event → String
  | .peerJoined .. => "Peer joined room"
  | .peerReplaced .. => "Peer id already in room, closing previous connection"
  | .peerLeft .. => "Peer left room"
  | .roomRemoved .. => "Room is now empty and has been removed"
  | .alreadyReplaced .. => "Connection was already superseded, registry untouched"
  | .peerListUnencodable .. => "Failed to encode peer list"
  | .peerListNotSent .. => "Failed to send peer list"
  | .relaying .. => "Relaying message"
  | .frameNotSent .. => "Failed to send message to peer"
  | .undecodable .. => "Failed to decode message"
  | .unprocessed .. => "Failed to process message"
  | .sessionRefused .. => "Closing connection"
  | .closedUnexpectedly .. => "Connection closed unexpectedly"
  | .transportFailed .. => "WebSocket error"
  | .frameNotWritten .. => "Failed to send message to peer"
  | .closeNotWritten .. => "Failed to send close frame"
  | .upgradeFailed .. => "Upgrade failed"

/-- The named fields, in the order of their names. -/
def fields : Event → List (String × String)
  | .peerJoined room peer | .peerReplaced room peer | .peerLeft room peer
  | .alreadyReplaced room peer | .upgradeFailed room peer => [("peer_id", peer), ("room_id", room)]
  | .roomRemoved room => [("room_id", room)]
  | .peerListUnencodable room e => [("error", e.message), ("room_id", room)]
  | .peerListNotSent room target e =>
    [("error", e.message), ("room_id", room), ("target", target)]
  | .relaying sender room action binary targets =>
    [("action", action), ("binary", toString binary), ("from", sender), ("room_id", room),
      ("targets", toString targets)]
  | .frameNotSent sender target e => [("error", e.message), ("from", sender), ("target", target)]
  | .undecodable peer binary e =>
    [("binary", toString binary), ("error", e.message), ("peer_id", peer)]
  | .unprocessed peer e | .sessionRefused peer e => [("error", e.message), ("peer_id", peer)]
  | .closedUnexpectedly room peer code reason =>
    [("code", toString code.toNat), ("peer_id", peer), ("reason", reason), ("room_id", room)]
  | .transportFailed room peer reason =>
    [("error", reason), ("peer_id", peer), ("room_id", room)]
  | .frameNotWritten peer reason => [("error", reason), ("peer_id", peer)]
  | .closeNotWritten peer code reason =>
    [("code", toString code.toNat), ("error", reason), ("peer_id", peer)]

end Event

end RoomRelay
