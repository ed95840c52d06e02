import RoomRelay.Json.Reader

/-!
The messages between a client and the relay.

A client sends an `Uplink`; what the recipients get of it is a `Downlink`, which names the true
sender and no longer says whom it was meant for. The relay itself sends one kind of downlink, the
peer list of a room, under the reserved sender `server`.
-/

namespace RoomRelay

open Json

abbrev RoomId := String

abbrev PeerId := String

/-- The data of a message: a JSON value, or bytes that travel beside the JSON text. -/
inductive Payload where
  | json (v : Value)
  | binary (bytes : Bytes)

/-- Whom an uplink is meant for. -/
inductive Targets where
  | one (id : PeerId)
  | many (ids : List PeerId)
deriving DecidableEq, Repr

/-- A message from a client. Without targets it is meant for the whole room. -/
structure Uplink where
  action : String
  data : Option Payload := none
  targets : Option Targets := none
  metadata : Option Value := none

/-- A message to a client. -/
structure Downlink where
  action : String
  data : Option Payload := none
  sender : PeerId
  metadata : Option Value := none

def Json.Number.ofByte (b : UInt8) : Number :=
  .word b.toNat ⟨by omega, by have := b.toNat_lt; omega⟩

/-- The payload as one JSON value, bytes as their numbers. -/
def Payload.toValue : Payload → Value
  | .json v => v
  | .binary bytes => .array (bytes.map fun b => .number (Number.ofByte b))

/-- The bytes of a binary payload. -/
def Payload.binary? : Payload → Option Bytes
  | .json _ => none
  | .binary bytes => some bytes

def Payload.same : Payload → Payload → Bool
  | .json v, .json w => v.same w
  | .binary bs, .binary cs => bs == cs
  | _, _ => false

/-- The targets in the order they are named. -/
def Targets.ids : Targets → List PeerId
  | .one id => [id]
  | .many ids => ids

/-- A string names one target, an array the targets of its strings, anything else no target. -/
def Targets.ofValue : Value → Targets
  | .string id => .one id
  | .array items => .many (stringItems items)
  | _ => .many []

def Targets.toValue : Targets → Value
  | .one id => .string id
  | .many ids => .array (ids.map .string)

/-- What the recipients get of an uplink. -/
def Uplink.relayed (u : Uplink) (sender : PeerId) : Downlink where
  action := u.action
  data := u.data
  sender := sender
  metadata := u.metadata

/-- The action of a peer list. -/
def peerListAction : String := "__update_peers__"

/-- The sender of what the relay itself sends. -/
def relaySender : PeerId := "server"

/-- The message that tells the members of a room who they are. -/
def Downlink.peerList (ids : List PeerId) : Downlink where
  action := peerListAction
  data := some (.json (.array (ids.map .string)))
  sender := relaySender

def Downlink.isPeerList (d : Downlink) : Bool :=
  d.action == peerListAction && d.sender == relaySender

/-- The peers that a peer list names. -/
def Downlink.peerIds? (d : Downlink) : Option (List PeerId) :=
  if d.isPeerList then
    match d.data with
    | some (.json (.array items)) => allStrings? items
    | _ => none
  else none

def sameOption {α : Type} (same : α → α → Bool) : Option α → Option α → Bool
  | none, none => true
  | some x, some y => same x y
  | _, _ => false

def Downlink.same (d e : Downlink) : Bool :=
  d.action == e.action && sameOption Payload.same d.data e.data && d.sender == e.sender &&
    sameOption Value.same d.metadata e.metadata

end RoomRelay
