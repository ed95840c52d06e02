import RoomRelay.Proofs.Hub.Agreement
import RoomRelay.Proofs.Hub.Effect

/-!
Who is asked to close. Frames may come into an outbox at any step, but a request to close comes
for two reasons only: it is announced that somebody has joined in the place of the connection, or
the connection relays without holding its place.
-/

namespace RoomRelay

def Outbound.close? : Outbound → Option Close
  | .frame _ => none
  | .close c => some c

namespace Outbox

/-- What came in asks for a close only if it is one of these. -/
def Asks (p : Close → Prop) (before after : Outbox) : Prop :=
  ∃ items, after.contents = before.contents ++ items ∧ ∀ r ∈ items.filterMap Outbound.close?, p r

namespace Asks

variable {p p' : Close → Prop}

theorem of_contents_eq {q r : Outbox} (same : r.contents = q.contents) : q.Asks p r :=
  ⟨[], by simp [same], by simp⟩

theorem refl (q : Outbox) : q.Asks p q := of_contents_eq rfl

theorem trans {q r s : Outbox} (first : q.Asks p r) (second : r.Asks p s) : q.Asks p s := by
  obtain ⟨items, hitems, hfirst⟩ := first
  obtain ⟨more, hmore, hsecond⟩ := second
  refine ⟨items ++ more, by rw [hmore, hitems, List.append_assoc], ?_⟩
  intro c hc
  rw [List.filterMap_append] at hc
  exact (List.mem_append.mp hc).elim (hfirst c) (hsecond c)

theorem mono {q r : Outbox} (asks : q.Asks p r) (weaker : ∀ c, p c → p' c) : q.Asks p' r := by
  obtain ⟨items, hitems, hp⟩ := asks
  exact ⟨items, hitems, fun c hc => weaker c (hp c hc)⟩

theorem gained {q r : Outbox} (asks : q.Asks p r) :
    ∀ c ∈ (q.gained r).filterMap Outbound.close?, p c := by
  obtain ⟨items, hitems, hp⟩ := asks
  rwa [Outbox.gained, hitems, List.drop_left]

end Asks

/-- The receiving end puts nothing in. -/
theorem gained_use (q : Outbox) (u : Use) : q.gained (q.use u) = [] :=
  List.drop_eq_nil_of_le (use_takes q u).1

theorem asks_post (p : Close → Prop) (q : Outbox) (f : Frame) : q.Asks p (q.post f) := by
  rcases Decidable.em q.Accepts with haccepts | hrefuses
  · have hwaiting := haccepts.2.2
    exact ⟨[.frame f], by simp [post_of_accepts haccepts, contents, hwaiting], by
      simp [Outbound.close?]⟩
  · rw [post_of_not_accepts hrefuses]
    exact Asks.refl q

theorem asks_requestClose (q : Outbox) (background : Bool) (request : Close) :
    q.Asks (· = request) (q.requestClose background request) := by
  unfold requestClose
  split
  · rename_i r hr
    exact ⟨_, contents_offer hr, by simp [Outbound.close?]⟩
  · split
    · exact ⟨[.close request], by simp [contents], by simp [Outbound.close?]⟩
    · exact Asks.refl q
  · exact Asks.refl q

end Outbox

namespace Hub

variable (h : Hub) (c : Connection) (p : Close → Prop)

theorem asks_sendEach (f : Frame) (failed : PeerId → RelayError → Event) (cs : List Connection) :
    (h.outbox c).Asks p ((h.sendEach f failed cs).outbox c) :=
  sendEach_rule (fun q hq => hq.trans (q.asks_post p f)) (Outbox.Asks.refl _) failed cs

theorem asks_broadcastPeers (room : RoomId) (members : List Connection) :
    (h.outbox c).Asks p ((h.broadcastPeers room members).outbox c) := by
  rw [broadcastPeers, encode_peerList]
  exact h.asks_sendEach c p _ _ members

theorem asks_close (d : Connection) (request : Close) :
    (h.outbox c).Asks (fun r => r = request ∧ d.number = c.number)
      ((h.close d request).outbox c) := by
  rcases eq_or_ne d.number c.number with hsame | hne
  · have hclosed : (h.close d request).outbox c = (h.outbox c).requestClose true request := by
      rw [outbox_congr (h.close d request) hsame.symm, outbox_close_self, outbox_congr h hsame]
    rw [hclosed]
    exact (Outbox.asks_requestClose _ true request).mono fun r hr => ⟨hr, hsame⟩
  · rw [outbox_close_of_ne hne]
    exact Outbox.Asks.refl _

/-- The announcement of a join asks the connection to close whose place was taken. -/
theorem asks_announceJoin (room : RoomId) (d : Connection) (joined : Joined) :
    (h.outbox c).Asks
      (fun r => r = superseded ∧ ∃ e, joined.superseded = some e ∧ e.number = c.number)
      ((h.announceJoin room d joined).outbox c) := by
  unfold announceJoin
  cases hprevious : joined.superseded with
  | none => exact asks_broadcastPeers _ c _ room joined.members
  | some e =>
      refine Outbox.Asks.trans ?_ (asks_broadcastPeers _ c _ room joined.members)
      exact (asks_close _ c e superseded).mono fun r hr => ⟨hr.1, e, rfl, hr.2⟩

theorem asks_announceLeave (room : RoomId) (d : Connection) (departure : Departure) :
    (h.outbox c).Asks p ((h.announceLeave room d departure).outbox c) := by
  rw [outbox_announceLeave]
  exact h.asks_broadcastPeers c p room departure.members

theorem asks_depart (room : RoomId) (d : Connection) :
    (h.outbox c).Asks p ((h.depart room d).outbox c) :=
  (h.exit room d).1.asks_announceLeave c p room d (h.exit room d).2

theorem asks_dispatch (d : Delivery) : (h.outbox c).Asks p ((h.dispatch d).outbox c) := by
  unfold dispatch
  split
  · exact h.asks_sendEach c p _ _ d.targets
  · exact Outbox.Asks.refl _

/-- What a sender that does not hold its place is asked when it relays. -/
inductive Refuses (h : Hub) (room : RoomId) (d : Connection) : Close → Prop where
  | gone (missing : h.registry.members? room = none) : Refuses h room d roomGone
  | stale (ms : Members) (found : h.registry.members? room = some ms)
    (not_held : h.registry.isHeldBy room d = false) : Refuses h room d superseded

theorem Refuses.not_held {h : Hub} {room : RoomId} {d : Connection} {r : Close}
    (refuses : h.Refuses room d r) : h.registry.isHeldBy room d = false := by
  cases refuses with
  | gone missing => simp [Registry.isHeldBy, Registry.holder?, missing]
  | stale ms found not_held => exact not_held

theorem asks_relay (room : RoomId) (d : Connection) (u : Uplink) :
    (h.outbox c).Asks (fun r => d.number = c.number ∧ h.Refuses room d r)
      ((h.relay room d u).1.outbox c) := by
  have hclose {request : Close} (refuses : h.Refuses room d request) :
      (h.outbox c).Asks (fun r => d.number = c.number ∧ h.Refuses room d r)
        ((h.close d request).outbox c) :=
    (h.asks_close c d request).mono fun r hr => ⟨hr.2, hr.1 ▸ refuses⟩
  rcases h.relay_cases room d u with
    ⟨e, -, heq⟩ | ⟨frame, -, ⟨hnone, heq⟩ | ⟨ms, hms, hnot, heq⟩ | ⟨ms, -, -, heq⟩⟩
  · rw [heq]
    exact Outbox.Asks.refl _
  · rw [heq]
    exact hclose (.gone hnone)
  · rw [heq]
    exact hclose (.stale ms hms hnot)
  · rw [heq]
    exact asks_dispatch (h.record _) c _ _

theorem contents_connect (peer : PeerId) (capacity : Nat) :
    ((h.connect peer capacity).1.outbox c).contents = (h.outbox c).contents := by
  simp only [connect, outbox, Array.getElem?_push]
  split
  · rename_i hlast
    rw [Array.getElem?_eq_none (Nat.le_of_eq hlast.symm)]
    rfl
  · rfl

end Hub

/-- An item asks the connection of a session to close only if it is a frame and is relayed. -/
theorem Session.asks_receive (s : Session) (h : Hub) (c : Connection) (item : Inbound) :
    (h.outbox c).Asks (fun r => s.connection.number = c.number ∧ (∃ f, item = .frame f) ∧
      h.Refuses s.room s.connection r) ((s.receive h item).1.outbox c) := by
  have hfinish (g : Hub) (p : Close → Prop) : (g.outbox c).Asks p ((s.finish g).1.outbox c) := by
    rcases (s.finish_cases g).2 with hsame | hleaves
    · rw [hsame]
      exact Outbox.Asks.refl _
    · rw [hleaves]
      exact g.asks_depart c p s.room s.connection
  cases item with
  | frame f =>
      let asked (g : Hub) : Prop := (h.outbox c).Asks (fun r => s.connection.number = c.number ∧
        (∃ f', Inbound.frame f = .frame f') ∧ h.Refuses s.room s.connection r) (g.outbox c)
      apply receive_rule (P := asked) (Q := asked)
      · exact fun g e hg => hg
      · exact fun g hg => hg
      · exact fun g hg => hg.trans (g.asks_depart c _ _ _)
      · exact Outbox.Asks.refl _
      · intro u
        exact (h.asks_relay c s.room s.connection u).mono fun r hr => ⟨hr.1, ⟨f, rfl⟩, hr.2⟩
  | ping payload => simp only [receive, ite_self]; exact Outbox.Asks.refl _
  | pong payload => simp only [receive, ite_self]; exact Outbox.Asks.refl _
  | close request =>
      unfold receive
      split
      · cases request with
        | none => exact hfinish h _
        | some close =>
            simp only
            split
            · exact hfinish h _
            · exact hfinish (h.record _) _
      · exact Outbox.Asks.refl _
  | failure reason =>
      unfold receive
      split
      · exact hfinish (h.record _) _
      · exact Outbox.Asks.refl _
  | ended =>
      unfold receive
      split
      · exact hfinish h _
      · exact Outbox.Asks.refl _

namespace World

/-- All that comes into a connection's outbox during a run, in its order. -/
def intake (w : World) (c : Connection) : List Action → List Outbound
  | [] => []
  | a :: rest => (w.hub.outbox c).gained ((w.step a).hub.outbox c) ++ (w.step a).intake c rest

/-- The step asks a connection of this number to close: its place is taken by a connection whose
session starts, or was taken before and that is announced now, or its session gets a frame to relay
without holding the place. -/
inductive Requests (w : World) (n : Nat) : Action → Close → Prop where
  | started (room : RoomId) (peer : PeerId) (capacity : Nat) (e : Connection)
    (holder : w.hub.registry.holder? room peer = some e) (same : e.number = n) :
    Requests w n (.start room peer capacity) superseded
  | announced (k : Nat) (room : RoomId) (d : Connection) (answer : Joined) (e : Connection)
    (notice : w.notices[k]? = some (.joined room d answer))
    (replaced : answer.superseded = some e) (same : e.number = n) :
    Requests w n (.announce k) superseded
  | relayed (f : Frame) (s : Session) (r : Close) (present : s ∈ w.sessions)
    (same : s.connection.number = n) (refuses : w.hub.Refuses s.room s.connection r) :
    Requests w n (.receive n (.frame f)) r

theorem asks_onSession (w : World) (n : Nat) {f : Session → Hub → Hub × Session} (c : Connection)
    {p : Close → Prop}
    (asks : ∀ s ∈ w.sessions, s.connection.number = n →
      (w.hub.outbox c).Asks p ((f s w.hub).1.outbox c)) :
    (w.hub.outbox c).Asks p ((w.onSession n f).hub.outbox c) := by
  unfold onSession
  cases hfind : w.sessions.find? (·.connection.number == n) with
  | none => exact Outbox.Asks.refl _
  | some s =>
      have hnumber := List.find?_some hfind
      exact asks s (List.mem_of_find?_eq_some hfind) (by simpa using hnumber)

theorem asks_announce (w : World) (k : Nat) (c : Connection) :
    (w.hub.outbox c).Asks (w.Requests c.number (.announce k))
      ((w.step (.announce k)).hub.outbox c) := by
  simp only [step]
  cases hnotice : w.notices[k]? with
  | none => exact Outbox.Asks.refl _
  | some notice =>
      cases notice with
      | joined room d answer =>
          refine (w.hub.asks_announceJoin c room d answer).mono ?_
          rintro r ⟨rfl, e, hreplaced, hsame⟩
          exact .announced k room d answer e hnotice hreplaced hsame
      | left room d answer => exact w.hub.asks_announceLeave c _ room d answer

theorem asks_start (w : World) (room : RoomId) (peer : PeerId) (capacity : Nat) (c : Connection) :
    (w.hub.outbox c).Asks (w.Requests c.number (.start room peer capacity))
      ((w.step (.start room peer capacity)).hub.outbox c) := by
  let d : Connection := ⟨w.hub.outboxes.size, peer⟩
  let entered : Hub := ((w.hub.connect peer capacity).1.enter room d).1
  have hconnect : (w.hub.outbox c).Asks (w.Requests c.number (.start room peer capacity))
      (entered.outbox c) := Outbox.Asks.of_contents_eq (w.hub.contents_connect c peer capacity)
  refine hconnect.trans ((entered.asks_announceJoin c room d _).mono ?_)
  rintro r ⟨rfl, e, hreplaced, hsame⟩
  refine .started room peer capacity e ?_ hsame
  rw [← hreplaced]
  exact (Registry.find?_getD_members? w.hub.registry room peer).symm

/-- A step asks nobody else to close, and for no other reason. -/
theorem requests_step (w : World) (a : Action) (c : Connection) :
    ∀ r ∈ ((w.hub.outbox c).gained ((w.step a).hub.outbox c)).filterMap Outbound.close?,
      w.Requests c.number a r := by
  have hasks (asks : (w.hub.outbox c).Asks (w.Requests c.number a) ((w.step a).hub.outbox c)) :=
    asks.gained
  cases a with
  | start room peer capacity => exact hasks (w.asks_start room peer capacity c)
  | enter room peer capacity =>
      exact hasks (Outbox.Asks.of_contents_eq (w.hub.contents_connect c peer capacity))
  | receive n item =>
      apply hasks
      apply w.asks_onSession n c
      rintro s present rfl
      refine (s.asks_receive w.hub c item).mono ?_
      rintro r ⟨hsame, ⟨f, rfl⟩, hrefuses⟩
      rw [hsame]
      exact .relayed f s r present hsame hrefuses
  | abort n =>
      apply hasks
      apply w.asks_onSession n c
      intro s _ _
      apply Outbox.Asks.of_contents_eq
      rw [Hub.outbox, (s.abort_quiet w.hub).2.2.1, Hub.outbox]
  | runDeparture n =>
      apply hasks
      simp only [step, Hub.runDeparture]
      cases w.hub.departures.find? (·.2.number == n) with
      | none => exact Outbox.Asks.refl _
      | some d => exact Hub.asks_depart { w.hub with departures := _ } c _ d.1 d.2
  | depart n =>
      apply hasks
      simp only [step]
      cases w.hub.departures.find? (·.2.number == n) with
      | none => exact Outbox.Asks.refl _
      | some d => exact Outbox.Asks.refl _
  | announce k => exact hasks (w.asks_announce k c)
  | deliver k =>
      apply hasks
      simp only [step]
      cases w.hub.deliveries[k]? with
      | none => exact Outbox.Asks.refl _
      | some d => exact Hub.asks_sendEach { w.hub with deliveries := _ } c _ d.frame _ d.targets
  | hold milliseconds => exact hasks (Outbox.Asks.refl _)
  | elapse milliseconds => exact hasks (Outbox.Asks.refl _)
  | use n u =>
      have hused : (w.step (.use n u)).hub = w.hub.use ⟨n, ""⟩ u := rfl
      rcases eq_or_ne n c.number with hsame | hne
      · rw [hused, Hub.outbox_use_of_same hsame.symm, Outbox.gained_use]
        simp
      · exact hasks (by rw [hused, Hub.outbox_use_of_ne hne]; exact Outbox.Asks.refl _)

end World

end RoomRelay
