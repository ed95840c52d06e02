import RoomRelay.Proofs.Hub.Post

/-!
Runs of the relay. Connections are made and start their sessions, items come in, sessions end or
are aborted, leaves are carried out in the background, frames that were held back are delivered,
and the receiving ends take from their outboxes, in any order.

Nothing here depends on the clock: what is held back may be delivered at any time after, and in
any order. The delay may be set anew at any time, so that whatever comes between fixing the
targets and sending to them is among the runs also where the relay holds nothing back. For the
same reason a join and a leave can be taken apart, with the announcement made later. An owner's
leave that is taken apart has the effects of one that was handed to the background, and gets no
action of its own.
-/

namespace RoomRelay

/-- An announcement that is yet to be made. -/
inductive Notice where
  | joined (room : RoomId) (c : Connection) (answer : Joined)
  | left (room : RoomId) (c : Connection) (answer : Departure)
deriving DecidableEq, Repr

def Notice.announce (h : Hub) : Notice → Hub
  | .joined room c answer => h.announceJoin room c answer
  | .left room c answer => h.announceLeave room c answer

def Notice.post : Notice → Post
  | .joined _ _ answer => listPost answer.members
  | .left _ _ answer => listPost answer.members

theorem Notice.alike_announce (notice : Notice) (h : Hub) : h.Alike (notice.announce h) := by
  cases notice with
  | joined room c answer => exact Hub.alike_announceJoin h room c answer
  | left room c answer => exact Hub.alike_announceLeave h room c answer

theorem Notice.carries_announce (notice : Notice) (h : Hub)
    (nodup : (notice.post.targets.map (·.number)).Nodup) :
    h.Carries (notice.announce h) (some notice.post) := by
  cases notice with
  | joined room c answer => exact Hub.carries_announceJoin h room c nodup
  | left room c answer => exact Hub.carries_announceLeave h room c nodup

/-- The place that a session is about, whether or not it still holds it. -/
def Session.seat (s : Session) : RoomId × Connection := (s.room, s.connection)

structure World where
  hub : Hub := {}
  /-- The sessions, the latest first. -/
  sessions : List Session := []
  notices : List Notice := []

namespace World

/-- What may happen next. The numbers of connections say whose session is meant. -/
inductive Action where
  | start (room : RoomId) (peer : PeerId) (capacity : Nat)
  | enter (room : RoomId) (peer : PeerId) (capacity : Nat)
  | receive (n : Nat) (item : Inbound)
  | abort (n : Nat)
  | runDeparture (n : Nat)
  | depart (n : Nat)
  | announce (k : Nat)
  | deliver (k : Nat)
  | hold (milliseconds : Nat)
  | elapse (milliseconds : Nat)
  | use (n : Nat) (use : Outbox.Use)
deriving DecidableEq, Repr

def onSession (w : World) (n : Nat) (f : Session → Hub → Hub × Session) : World :=
  match w.sessions.find? (·.connection.number == n) with
  | some s =>
    let (hub, changed) := f s w.hub
    { w with hub, sessions := w.sessions.map fun t => if t = s then changed else t }
  | none => w

def step (w : World) : Action → World
  | .start room peer capacity =>
    let (hub, c) := w.hub.connect peer capacity
    let (hub, s) := hub.startSession room c
    { w with hub, sessions := s :: w.sessions }
  | .enter room peer capacity =>
    let (hub, c) := w.hub.connect peer capacity
    let (hub, joined) := hub.enter room c
    { hub
      sessions := { membership := ⟨room, c, .member⟩ } :: w.sessions
      notices := w.notices ++ [.joined room c joined] }
  | .receive n item => w.onSession n fun s h => s.receive h item
  | .abort n => w.onSession n fun s h => s.abort h
  | .runDeparture n => { w with hub := w.hub.runDeparture n }
  | .depart n =>
    match w.hub.departures.find? (·.2.number == n) with
    | some d =>
      let (hub, departure) := { w.hub with departures := w.hub.departures.erase d }.exit d.1 d.2
      { w with hub, notices := w.notices ++ [.left d.1 d.2 departure] }
    | none => w
  | .announce k =>
    match w.notices[k]? with
    | some notice => { w with hub := notice.announce w.hub, notices := w.notices.eraseIdx k }
    | none => w
  | .deliver k =>
    match w.hub.deliveries[k]? with
    | some d =>
      { w with hub := { w.hub with deliveries := w.hub.deliveries.eraseIdx k }.deliver d }
    | none => w
  | .hold milliseconds => { w with hub := { w.hub with delay := milliseconds } }
  | .elapse milliseconds => { w with hub := { w.hub with now := w.hub.now + milliseconds } }
  | .use n use => { w with hub := w.hub.setOutbox ⟨n, ""⟩ ((w.hub.outbox ⟨n, ""⟩).use use) }

def run (actions : List Action) : World :=
  actions.foldl step {}

/-- Which connection ever joined which room. -/
def roster (w : World) : List (RoomId × Connection) :=
  w.sessions.map Session.seat

/-- What has been decided and not been sent yet. -/
def pending (w : World) : List Post :=
  w.hub.deliveries.map Delivery.post ++ w.notices.map Notice.post

end World

/-! ### Steps made of others -/

namespace Hub

theorem send_deliveries (h : Hub) (ds : List Delivery) (c : Connection) (f : Frame) :
    { h with deliveries := ds }.send c f =
      (h.send c f).map fun k => { k with deliveries := ds } := by
  have houtbox : { h with deliveries := ds }.outbox c = h.outbox c := rfl
  unfold send
  rw [houtbox]
  split <;> rfl

theorem sendEach_deliveries (h : Hub) (ds : List Delivery) (f : Frame)
    (failed : PeerId → RelayError → Event) (cs : List Connection) :
    { h with deliveries := ds }.sendEach f failed cs =
      { h.sendEach f failed cs with deliveries := ds } := by
  induction cs generalizing h with
  | nil => rfl
  | cons c rest ih =>
      simp only [sendEach, send_deliveries]
      cases h.send c f with
      | ok k => exact ih k
      | error e => exact ih (h.record (failed c.peer e))

theorem deliver_deliveries (h : Hub) (ds : List Delivery) (d : Delivery) :
    { h with deliveries := ds }.deliver d = { h.deliver d with deliveries := ds } :=
  sendEach_deliveries h ds d.frame _ d.targets

end Hub

namespace World

/-- A start is an entry whose announcement comes right after. -/
theorem step_start (w : World) (room : RoomId) (peer : PeerId) (capacity : Nat) :
    w.step (.start room peer capacity) =
      (w.step (.enter room peer capacity)).step (.announce w.notices.length) := by
  simp only [step, List.getElem?_concat_length, List.eraseIdx_append_of_length_le (Nat.le_refl _),
    Nat.sub_self, List.eraseIdx_cons_zero, List.append_nil]
  rfl

/-- So it is with a leave in the background. -/
theorem step_runDeparture (w : World) (n : Nat) :
    w.step (.runDeparture n) = (w.step (.depart n)).step (.announce w.notices.length) := by
  simp only [step, Hub.runDeparture]
  cases w.hub.departures.find? (·.2.number == n) with
  | none => simp
  | some d =>
      simp only [List.getElem?_concat_length, List.eraseIdx_append_of_length_le (Nat.le_refl _),
        Nat.sub_self, List.eraseIdx_cons_zero, List.append_nil]
      rfl

theorem exists_deliver (due : Delivery → Bool) (kept rest : List Delivery) (w : World)
    (deliveries : w.hub.deliveries = kept ++ rest) :
    let later : Hub := { w.hub with deliveries := kept ++ rest.filter (!due ·) }
    ∃ actions : List Action,
      actions.foldl step w = { w with hub := (rest.filter due).foldl Hub.deliver later } := by
  induction rest generalizing w kept with
  | nil =>
      refine ⟨[], ?_⟩
      rw [List.filter_nil, ← deliveries]
      rfl
  | cons d rest ih =>
      cases hdue : due d with
      | false =>
          obtain ⟨actions, hactions⟩ := ih (kept ++ [d]) w (by simp [deliveries])
          refine ⟨actions, ?_⟩
          rw [hactions]
          simp [hdue]
      | true =>
          have hstep : w.step (.deliver kept.length) =
              { w with hub := { w.hub.deliver d with deliveries := kept ++ rest } } := by
            simp [step, deliveries, Hub.deliver_deliveries, List.eraseIdx_append_of_length_le]
          obtain ⟨actions, hactions⟩ := ih kept (w.step (.deliver kept.length)) (by rw [hstep])
          refine ⟨.deliver kept.length :: actions, ?_⟩
          rw [List.foldl_cons, hactions, hstep]
          simp [hdue, Hub.deliver_deliveries]

/-- Letting time pass is a run: the clock goes on, and what has become due is delivered. -/
theorem exists_advance (w : World) (milliseconds : Nat) :
    ∃ actions : List Action,
      actions.foldl step w = { w with hub := w.hub.advance milliseconds } := by
  let due (d : Delivery) : Bool := d.due ≤ w.hub.now + milliseconds
  let later : Hub :=
    { w.hub with
      now := w.hub.now + milliseconds
      deliveries := w.hub.deliveries.filter (!due ·) }
  have hadvance : w.hub.advance milliseconds =
      (w.hub.deliveries.filter due).foldl Hub.deliver later := by
    rw [Hub.advance, List.partition_eq_filter_filter]
    rfl
  obtain ⟨actions, hactions⟩ :=
    exists_deliver due [] w.hub.deliveries (w.step (.elapse milliseconds)) rfl
  refine ⟨.elapse milliseconds :: actions, ?_⟩
  rw [List.foldl_cons, hactions, hadvance]
  rfl

end World

end RoomRelay
