import RoomRelay.Hub.Session
import RoomRelay.Socket.Pipe
import RoomRelay.Socket.Writer

/-!
A client connection over a socket: the session that reads from it, the writer that empties the
connection's outbox into it, and the client at its other end.

The writer takes one item at a time and is held up while the pipe is full. It stops for good after
a close, after a write that fails, and when nothing can be queued for it any more. Once the session
is over the writer has a second left for what is still to be written.
-/

namespace RoomRelay.Socket

/-- How far the closing handshake has come, as the relay sees it. -/
inductive Handshake where
  | active
  | closedHere
  | closedThere
  | closedBoth
  | terminated
deriving DecidableEq, Repr

/-- What the client still takes part in. -/
inductive Client where
  | active
  | closing
  | finished
deriving DecidableEq, Repr

/-- How many milliseconds the writer has left once the session is over. -/
def flushTime : Nat := 1000

structure Link where
  session : Session
  pipe : Pipe
  handshake : Handshake := .active
  writer : Writer := .idle
  client : Client := .active
  /-- Whether the answer to a ping met a full pipe, and the pipe has not been clear since. -/
  pongHeld : Bool := false
  /-- Whether the client's end has vanished. -/
  vanished : Bool := false
  /-- When the writer is stopped, once the session is over. -/
  deadline : Option Nat := none
deriving DecidableEq, Repr

/-- What a client finds on its end: a message, or that the connection is gone. -/
inductive Received where
  | message (m : Message)
  | connectionEnded
deriving DecidableEq, Repr

def brokenPipe : String := "IO error: broken pipe"

def connectionReset : String :=
  "WebSocket protocol error: Connection reset without closing handshake"

def sendAfterClosing : String :=
  "WebSocket protocol error: Sending after closing is not allowed"

def controlTooBig : String :=
  "WebSocket protocol error: Control frame too big (payload must be 125 bytes or less)"

def alreadyClosed : String := "Trying to work with closed connection"

/-- Whether a close code may be sent over a socket. -/
def isAllowedCode (code : UInt16) : Bool :=
  let n := code.toNat
  (1000 ≤ n && n ≤ 1003) || (1007 ≤ n && n ≤ 1013) || (3000 ≤ n && n ≤ 4999)

/-- The close that the relay makes of one with a code that may not be sent. -/
def protocolViolation : Close := ⟨1002, "Protocol violation"⟩

def checkedClose (c : Close) : Close :=
  if isAllowedCode c.code then c else protocolViolation

/-- The bytes that a control frame may carry. -/
def maxControl : Nat := 125

/-- The bytes that a control frame carries. -/
def controlSize : Inbound → Nat
  | .ping payload | .pong payload => payload.length
  | .close (some c) => 2 + c.reason.utf8ByteSize
  | _ => 0

namespace Link

def connection (l : Link) : Connection := l.session.connection

def peer (l : Link) : PeerId := l.session.peer

/-- Neither the session nor the writer uses the socket any more. -/
def isClosed (l : Link) : Bool :=
  !l.session.running && l.writer == .stopped

/-- Nothing will be written any more. -/
def stopWriter (l : Link) (h : Hub) : Hub × Link :=
  (h.setOutbox l.connection (h.outbox l.connection).discard, { l with writer := .stopped })

/-- The writer stops because an item could not be written. -/
def failWrite (l : Link) (h : Hub) (item : Outbound) (reason : String) : Hub × Link :=
  l.stopWriter <| h.record <| match item with
    | .frame _ => .frameNotWritten l.peer reason
    | .close c => .closeNotWritten l.peer c.code reason

def flush (l : Link) : Link :=
  let pipe := l.pipe.flush
  { l with pipe, pongHeld := l.pongHeld && pipe.isBlocked }

/-- What the socket makes of an item. -/
def write (l : Link) (item : Outbound) : Outcome Link :=
  match l.handshake with
  | .terminated => .failed alreadyClosed
  | .active =>
    if l.vanished then .failed brokenPipe
    else
      let l := match item with
        | .frame f => { l with pipe := l.pipe.push (.frame f) }.flush
        | .close c =>
          { l with pipe := l.pipe.push (.close (some c)), handshake := .closedHere }.flush
      if l.pipe.isBlocked then .held l else .written l
  | _ => .failed sendAfterClosing

/-- Moves bytes into the pipe, for as long as somebody uses it. When all are in, the write in
progress is done, and after it a closing handshake that the client began or answered. -/
def resume (l : Link) (h : Hub) : Hub × Link :=
  match l.writer with
  | .writing item =>
    let l := l.flush
    if l.pipe.isBlocked then (h, l)
    else
      let handshake := match l.handshake with
        | .closedThere | .closedBoth => .terminated
        | state => state
      let l := { l with handshake }
      match Writer.after item with
      | .stopped => l.stopWriter h
      | writer => (h, { l with writer })
  | _ => (h, if l.session.running then l.flush else l)

/-- Whether something can still be queued for a connection: it has a place in a room, a frame on
its way, or a running session. -/
def isReachable (l : Link) (h : Hub) : Bool :=
  l.session.running ||
    h.registry.rooms.any (·.2.any (·.same l.connection)) ||
    h.deliveries.any (·.targets.any (·.same l.connection)) ||
    h.departures.any (·.2.same l.connection)

/-- Lets an idle writer work through the outbox. Once nothing can be queued any more it stops. -/
def work (l : Link) (h : Hub) : Hub × Link :=
  let q := h.outbox l.connection
  let p := forward write l q.contents
  let h := h.setOutbox l.connection (q.skip p.taken)
  let l := { p.socket with writer := p.writer }
  match p.failure, p.writer with
  | some (item, reason), _ => l.failWrite h item reason
  | none, .stopped => l.stopWriter h
  | none, .idle => if l.isReachable h then (h, l) else l.stopWriter h
  | none, .writing _ => (h, l)

/-- Lets the writer work until it is held up or has nothing to do. -/
def pump (l : Link) (h : Hub) : Hub × Link :=
  let (h, l) := l.resume h
  match l.writer with
  | .idle => l.work h
  | _ => (h, l)

/-- Sets the writer's deadline when the session has come to its end. -/
def afterSession (l : Link) (h : Hub) : Link :=
  if l.session.running then l else { l with deadline := some (h.now + flushTime) }

/-- Hands an item to the session. -/
def pass (l : Link) (h : Hub) (item : Inbound) : Hub × Link :=
  let (h, session) := l.session.receive h item
  (h, { l with session }.afterSession h)

/-- A close from the client. The relay answers it only while it has a write in progress. -/
def receiveClose (l : Link) (h : Hub) (request : Option Close) : Hub × Link :=
  match l.handshake with
  | .active =>
    let request := request.map checkedClose
    let pipe := match l.writer with
      | .writing _ => l.pipe.push (.close request)
      | _ => l.pipe
    { l with pipe, handshake := .closedThere }.pass h (.close request)
  | .closedHere => { l with handshake := .closedBoth }.pass h (.close request)
  | _ => (h, l)

/-- One item from the client, for as long as the session reads. -/
def receive (l : Link) (h : Hub) (item : Inbound) : Hub × Link :=
  if l.session.running then
    if maxControl < controlSize item then l.pass h (.failure controlTooBig)
    else match item with
    | .close request => l.receiveClose h request
    | .ping payload =>
      if l.handshake = .active then
        (h, { l with pipe := l.pipe.push (.pong payload), pongHeld := true }.flush)
      else (h, l)
    | item => l.pass h item
  else (h, l)

/-- The client sends an item, unless it has closed the connection already. -/
def clientSend (l : Link) (h : Hub) (item : Inbound) : Hub × Link :=
  if l.client = .active then
    let client := match item with
      | .close _ => Client.closing
      | _ => Client.active
    { l with client }.receive h item
  else (h, l)

/-- The messages up to the first close, and that close. -/
def upToClose : List Message → List Message × Option (Option Close)
  | [] => ([], none)
  | .close c :: _ => ([.close c], some c)
  | m :: rest =>
    let (before, close) := upToClose rest
    (m :: before, close)

/-- The client reads what is in the pipe. What waits outside goes in only afterwards. The client
answers a close unless it sent one itself. -/
def clientRead (l : Link) (h : Hub) : Hub × Link × List Received :=
  if l.client = .finished then (h, l, [])
  else
    let (messages, pipe) := l.pipe.readAll
    let l := { l with pipe }
    let (messages, close) := upToClose messages
    let received := messages.map .message
    match close with
    | some request =>
      let answers := l.client == .active
      let l := { l with client := .finished }
      let (h, l) := if answers then l.receive h (.close request) else (h, l)
      (h, l, received)
    | none =>
      if l.isClosed then (h, { l with client := .finished }, received ++ [.connectionEnded])
      else (h, l, received)

/-- The client's end vanishes. A session that has an answer to a ping still to write notices this
first, and it is the writing that fails; any other finds the stream at an end it did not expect. -/
def vanish (l : Link) (h : Hub) : Hub × Link :=
  let l := { l with vanished := true, client := .finished }
  let (h, l) :=
    if !l.session.running then (h, l)
    else if l.pongHeld then l.pass h (.failure brokenPipe)
    else { l with handshake := .terminated }.pass h (.failure connectionReset)
  match l.writer with
  | .writing item => l.failWrite h item brokenPipe
  | _ => (h, l)

/-- Stops the writer when its time is up. -/
def expire (l : Link) (h : Hub) : Hub × Link :=
  match l.deadline with
  | some deadline => if deadline ≤ h.now ∧ l.writer ≠ .stopped then l.stopWriter h else (h, l)
  | none => (h, l)

end Link

/-- A client connects over a socket and its session begins. -/
def openLink (h : Hub) (room : RoomId) (peer : PeerId) (capacity : Nat) : Hub × Link :=
  let (h, c) := h.connect peer defaultCapacity
  let (h, session) := h.startSession room c
  (h, { session, pipe := { capacity := some capacity } })

end RoomRelay.Socket
