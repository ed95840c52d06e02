import RoomRelay.Http.Router
import RoomRelay.Socket.Link

/-!
The relay as a whole: the shared state, and everything that lives on it.

Every operation is followed by `settle`, which lets whatever runs in the background come to rest:
leaves that were handed over, and the writers of all sockets. Memberships, sessions and links are
known by their place in the order in which they were made.
-/

namespace RoomRelay

open Socket Http

structure Server where
  hub : Hub := {}
  memberships : Array Membership := #[]
  sessions : Array Session := #[]
  links : Array Link := #[]

namespace Server

/-- Lets the writer of each link work. -/
def pumpLinks (h : Hub) : List Link → Hub × List Link
  | [] => (h, [])
  | l :: rest =>
    let (h, l) := l.pump h
    let (h, rest) := pumpLinks h rest
    (h, l :: rest)

def settle (s : Server) : Server :=
  let (hub, links) := pumpLinks s.hub.runDepartures s.links.toList
  { s with hub, links := links.toArray }

/-- Replaces the shared state. -/
def onHub (s : Server) (f : Hub → Hub) : Server :=
  { s with hub := f s.hub }.settle

def connect (s : Server) (peer : PeerId) (capacity : Nat) : Server × Connection :=
  let (hub, c) := s.hub.connect peer capacity
  ({ s with hub }, c)

def join (s : Server) (room : RoomId) (c : Connection) : Server × Joined :=
  let (registry, joined) := s.hub.registry.join room c
  (s.onHub fun h => { h with registry }, joined)

def leave (s : Server) (room : RoomId) (c : Connection) : Server × Departure :=
  let (registry, departure) := s.hub.registry.leave room c
  (s.onHub fun h => { h with registry }, departure)

def send (s : Server) (c : Connection) (f : Frame) : Except RelayError Server := do
  let hub ← s.hub.send c f
  return { s with hub }.settle

/-- Sends a frame several times, up to the first failure. -/
def sendTimes (s : Server) (c : Connection) (f : Frame) : Nat → Server × Option RelayError
  | 0 => (s, none)
  | n + 1 =>
    match s.send c f with
    | .ok s => s.sendTimes c f n
    | .error e => (s, some e)

def relay (s : Server) (room : RoomId) (c : Connection) (u : Uplink) :
    Server × Except RelayError Nat :=
  let (hub, result) := s.hub.relay room c u
  ({ s with hub }.settle, result)

/-- Reads at most `n` items of a connection: what is queued, and once more what takes its
place. -/
def read (s : Server) (c : Connection) (n : Nat) : Server × List Outbound :=
  let (first, q) := (s.hub.outbox c).read n
  let (second, q) := q.read (n - first.length)
  (s.onHub (·.setOutbox c q), first ++ second)

def joinAsMember (s : Server) (room : RoomId) (c : Connection) : Server × Nat :=
  let (hub, m) := s.hub.join room c
  ({ s with hub, memberships := s.memberships.push m }.settle, s.memberships.size)

/-- Changes one membership together with the shared state. -/
def onMembership (s : Server) (i : Nat) (f : Membership → Hub → Hub × Membership) : Server :=
  match s.memberships[i]? with
  | some m =>
    let (hub, m) := f m s.hub
    { s with hub, memberships := s.memberships.modify i fun _ => m }.settle
  | none => s

def startSession (s : Server) (room : RoomId) (c : Connection) : Server × Nat :=
  let (hub, session) := s.hub.startSession room c
  ({ s with hub, sessions := s.sessions.push session }.settle, s.sessions.size)

def onSession (s : Server) (i : Nat) (f : Session → Hub → Hub × Session) : Server :=
  match s.sessions[i]? with
  | some session =>
    let (hub, session) := f session s.hub
    { s with hub, sessions := s.sessions.modify i fun _ => session }.settle
  | none => s

/-- A session receives items; the writers keep up with what it relays. -/
def receive (s : Server) (i : Nat) (items : List Inbound) : Server :=
  items.foldl (fun s item => s.onSession i fun session h => session.receive h item) s

def isRunning (s : Server) (i : Nat) : Bool :=
  (s.sessions[i]?.map (·.running)).getD false

/-- Answers a request; a session on an upgraded connection takes the place after the last link. -/
def http (s : Server) (r : Request) (capacity : Nat) : Server × Answer :=
  match respond s.hub r with
  | (hub, .response response) => ({ s with hub }.settle, .response response)
  | (hub, .upgrade room peer) =>
    let (hub, link) := openLink hub room peer capacity
    ({ s with hub, links := s.links.push link }.settle, .upgrade room peer)

def onLink (s : Server) (i : Nat) (f : Link → Hub → Hub × Link) : Server :=
  match s.links[i]? with
  | some link =>
    let (hub, link) := f link s.hub
    { s with hub, links := s.links.modify i fun _ => link }.settle
  | none => s

/-- The client of a link sends items; the writers keep up with them. -/
def clientSend (s : Server) (i : Nat) (items : List Inbound) : Server :=
  items.foldl (fun s item => s.onLink i fun l h => l.clientSend h item) s

def clientRead (s : Server) (i : Nat) : Server × List Received :=
  match s.links[i]? with
  | some link =>
    let (hub, link, received) := link.clientRead s.hub
    ({ s with hub, links := s.links.modify i fun _ => link }.settle, received)
  | none => (s, [])

def vanish (s : Server) (i : Nat) : Server :=
  s.onLink i fun l h => l.vanish h

/-- Stops the writers whose time is up. -/
def expireLinks (h : Hub) : List Link → Hub × List Link
  | [] => (h, [])
  | l :: rest =>
    let (h, l) := l.expire h
    let (h, rest) := expireLinks h rest
    (h, l :: rest)

/-- Lets time pass up to a moment before which nothing is due. -/
def elapse (s : Server) (moment : Nat) : Server :=
  let (hub, links) := expireLinks (s.hub.advance (moment - s.hub.now)) s.links.toList
  { s with hub, links := links.toArray }.settle

/-- The moments up to the given one at which something is due, in their order. -/
def moments (s : Server) (last : Nat) : List Nat :=
  let due := s.hub.deliveries.map (·.due) ++ s.links.toList.filterMap (·.deadline)
  (due.filter fun t => s.hub.now < t && t < last).mergeSort

/-- Lets time pass, with a stop at every moment at which something is due. -/
def advance (s : Server) (milliseconds : Nat) : Server :=
  let last := s.hub.now + milliseconds
  (s.moments last ++ [last]).foldl elapse s

/-- Hands out the log, the oldest event first, and starts a new one. -/
def takeEvents (s : Server) : Server × List Event :=
  ({ s with hub := { s.hub with events := [] } }, s.hub.events.reverse)

end Server

end RoomRelay
