import Mathlib.Data.List.Nodup
import RoomRelay.Hub.Membership

/-!
What the operations on the shared state do to the outboxes, and what they leave alone. Sending to
several connections is one attempt for each of them: every outbox gets the frame at its end or
stays as it is, and no attempt depends on another. Nothing that is sent or closed touches the
registry, the clock or what is held back.
-/

namespace RoomRelay

namespace Outbox

/-- There is a receiver, a free place, and nobody waiting for it. -/
def Accepts (q : Outbox) : Prop :=
  q.receiver = .listening ∧ q.queued.length < q.capacity ∧ q.waiting = []

instance (q : Outbox) : Decidable q.Accepts :=
  inferInstanceAs (Decidable (_ ∧ _ ∧ _))

/-- The outbox after one attempt to queue a frame. -/
def post (q : Outbox) (f : Frame) : Outbox :=
  if q.Accepts then { q with queued := q.queued ++ [.frame f] } else q

def refusal (q : Outbox) : Refusal :=
  if q.receiver = .listening then .full else .gone

theorem offer_eq (q : Outbox) (item : Outbound) :
    q.offer item = if q.Accepts then .ok { q with queued := q.queued ++ [item] }
      else .error q.refusal := by
  unfold offer
  split
  · rename_i hlistening
    split
    · rename_i hroom
      have haccepts : q.Accepts := ⟨hlistening, hroom⟩
      rw [if_pos haccepts]
      rfl
    · rename_i hfull
      have hrefuses : ¬ q.Accepts := fun h => hfull h.2
      rw [if_neg hrefuses, refusal, if_pos hlistening]
      rfl
  · rename_i hgone
    have hrefuses : ¬ q.Accepts := fun h => hgone h.1
    rw [if_neg hrefuses, refusal, if_neg hgone]
    rfl

theorem post_of_accepts {q : Outbox} (h : q.Accepts) (f : Frame) :
    q.post f = { q with queued := q.queued ++ [.frame f] } := if_pos h

theorem post_of_not_accepts {q : Outbox} (h : ¬ q.Accepts) (f : Frame) : q.post f = q := if_neg h

theorem not_accepts_of_dropped {q : Outbox} (h : q.receiver = .dropped) : ¬ q.Accepts := by
  simp [Accepts, h]

end Outbox

namespace Hub

/-- Two states that differ in nothing but their outboxes and their log. -/
structure Alike (h k : Hub) : Prop where
  registry : k.registry = h.registry
  deliveries : k.deliveries = h.deliveries
  departures : k.departures = h.departures
  now : k.now = h.now
  delay : k.delay = h.delay
  size : k.outboxes.size = h.outboxes.size

theorem Alike.refl (h : Hub) : h.Alike h := ⟨rfl, rfl, rfl, rfl, rfl, rfl⟩

theorem Alike.trans {h k l : Hub} (first : h.Alike k) (second : k.Alike l) : h.Alike l where
  registry := second.registry.trans first.registry
  deliveries := second.deliveries.trans first.deliveries
  departures := second.departures.trans first.departures
  now := second.now.trans first.now
  delay := second.delay.trans first.delay
  size := second.size.trans first.size

/-! ### One outbox -/

theorem outbox_congr (h : Hub) {c d : Connection} (same : c.number = d.number) :
    h.outbox c = h.outbox d := by
  simp [outbox, same]

theorem made_of_accepts {h : Hub} {c : Connection} (accepts : (h.outbox c).Accepts) :
    c.number < h.outboxes.size := by
  by_contra hmade
  have hdropped : (h.outbox c).receiver = .dropped := by
    simp [outbox, Array.getElem?_eq_none (Nat.le_of_not_lt hmade)]
  exact Outbox.not_accepts_of_dropped hdropped accepts

theorem alike_record (h : Hub) (e : Event) : h.Alike (h.record e) :=
  ⟨rfl, rfl, rfl, rfl, rfl, rfl⟩

@[simp]
theorem outbox_record (h : Hub) (e : Event) (c : Connection) :
    (h.record e).outbox c = h.outbox c := rfl

theorem alike_setOutbox (h : Hub) (c : Connection) (q : Outbox) : h.Alike (h.setOutbox c q) :=
  ⟨rfl, rfl, rfl, rfl, rfl, Array.size_modify⟩

theorem alike_close (h : Hub) (c : Connection) (request : Close) (background : Bool) :
    h.Alike (h.close c request background) := alike_setOutbox h c _

theorem outbox_close_of_ne {c d : Connection} (hne : c.number ≠ d.number) (h : Hub)
    (request : Close) (background : Bool) :
    (h.close c request background).outbox d = h.outbox d :=
  outbox_setOutbox_of_ne hne h _

/-- A connection that was never made has no outbox that a close could enter. -/
theorem outbox_close_self (h : Hub) (c : Connection) (request : Close) (background : Bool) :
    (h.close c request background).outbox c =
      (h.outbox c).requestClose background request := by
  rcases Nat.lt_or_ge c.number h.outboxes.size with hmade | hunmade
  · exact outbox_setOutbox_self hmade _
  · have hnone : h.outboxes[c.number]? = none := Array.getElem?_eq_none hunmade
    have hclosed : (h.close c request background).outboxes[c.number]? = none := by
      simp [close, setOutbox, Array.getElem?_modify, hnone]
    simp [outbox, hnone, hclosed, Outbox.requestClose, Outbox.offer_eq, Outbox.Accepts,
      Outbox.refusal]

/-! ### Sending to one connection and to several -/

/-- Why a connection does not take a frame. -/
def refused (h : Hub) (c : Connection) : RelayError :=
  if (h.outbox c).receiver = .listening then .queueFull c.peer else .peerGone c.peer

theorem send_eq (h : Hub) (c : Connection) (f : Frame) :
    h.send c f = if (h.outbox c).Accepts then .ok (h.setOutbox c ((h.outbox c).post f))
      else .error (h.refused c) := by
  unfold send
  rw [Outbox.offer_eq]
  rcases Decidable.em (h.outbox c).Accepts with haccepts | hrefuses
  · rw [if_pos haccepts, if_pos haccepts, Outbox.post_of_accepts haccepts]
    rfl
  · rw [if_neg hrefuses, if_neg hrefuses, Outbox.refusal, refused]
    cases (h.outbox c).receiver <;> rfl

/-- One attempt to send a frame, which on failure leaves an event. -/
def attempt (h : Hub) (f : Frame) (failed : PeerId → RelayError → Event) (c : Connection) : Hub :=
  match h.send c f with
  | .ok h => h
  | .error e => h.record (failed c.peer e)

section

variable (h : Hub) (f : Frame) (failed : PeerId → RelayError → Event)

theorem attempt_eq (c : Connection) :
    h.attempt f failed c = if (h.outbox c).Accepts then h.setOutbox c ((h.outbox c).post f)
      else h.record (failed c.peer (h.refused c)) := by
  unfold attempt
  rw [send_eq]
  rcases Decidable.em (h.outbox c).Accepts with haccepts | hrefuses
  · rw [if_pos haccepts, if_pos haccepts]
  · rw [if_neg hrefuses, if_neg hrefuses]

theorem alike_attempt (c : Connection) : h.Alike (h.attempt f failed c) := by
  rw [attempt_eq]
  split
  · exact alike_setOutbox h c _
  · exact alike_record h _

theorem outbox_attempt (c d : Connection) :
    (h.attempt f failed c).outbox d =
      if d.number = c.number then (h.outbox d).post f else h.outbox d := by
  rw [attempt_eq]
  split
  · rename_i haccepts
    have hmade := made_of_accepts haccepts
    split
    · rename_i hsame
      rw [outbox_congr _ hsame, outbox_setOutbox_self hmade, outbox_congr h hsame]
    · rename_i hne
      rw [outbox_setOutbox_of_ne (Ne.symm hne)]
  · rename_i hrefuses
    rw [outbox_record]
    split
    · rename_i hsame
      rw [outbox_congr h hsame, Outbox.post_of_not_accepts hrefuses]
    · rfl

theorem events_attempt (c : Connection) :
    (h.attempt f failed c).events =
      if (h.outbox c).Accepts then h.events else failed c.peer (h.refused c) :: h.events := by
  rw [attempt_eq]
  split <;> rfl

theorem alike_sendEach (cs : List Connection) : h.Alike (h.sendEach f failed cs) := by
  induction cs generalizing h with
  | nil => exact Alike.refl h
  | cons c rest ih => exact (alike_attempt h f failed c).trans (ih (h.attempt f failed c))

/-- Each of several connections gets one attempt, the others none. -/
theorem outbox_sendEach {cs : List Connection} (nodup : (cs.map (·.number)).Nodup)
    (d : Connection) :
    (h.sendEach f failed cs).outbox d =
      if d.number ∈ cs.map (·.number) then (h.outbox d).post f else h.outbox d := by
  induction cs generalizing h with
  | nil => simp [sendEach]
  | cons c rest ih =>
      rw [List.map_cons, List.nodup_cons] at nodup
      change ((h.attempt f failed c).sendEach f failed rest).outbox d = _
      rw [ih _ nodup.2, outbox_attempt]
      rcases eq_or_ne d.number c.number with hsame | hne
      · have hrest : d.number ∉ rest.map (·.number) := hsame ▸ nodup.1
        have hcons : d.number ∈ (c :: rest).map (·.number) := by simp [hsame]
        rw [if_neg hrest, if_pos hsame, if_pos hcons]
      · have hcons : d.number ∈ (c :: rest).map (·.number) ↔ d.number ∈ rest.map (·.number) := by
          simp [hne]
        simp only [hcons, hne, if_false]

/-- The events for those that do not take a frame, in their order. -/
def complaints (cs : List Connection) : List Event :=
  (cs.filter fun c => ¬ (h.outbox c).Accepts).map fun c => failed c.peer (h.refused c)

theorem complaints_congr {h k : Hub} {cs : List Connection}
    (same : ∀ c ∈ cs, k.outbox c = h.outbox c) :
    k.complaints failed cs = h.complaints failed cs := by
  unfold complaints
  rw [List.filter_congr (fun c hc => by rw [same c hc])]
  apply List.map_congr_left
  intro c hc
  rw [refused, refused, same c (List.mem_of_mem_filter hc)]

/-- The log gets one event for each connection that did not take the frame. -/
theorem events_sendEach {cs : List Connection} (nodup : (cs.map (·.number)).Nodup) :
    (h.sendEach f failed cs).events = (h.complaints failed cs).reverse ++ h.events := by
  induction cs generalizing h with
  | nil => rfl
  | cons c rest ih =>
      rw [List.map_cons, List.nodup_cons] at nodup
      have hrest : (h.attempt f failed c).complaints failed rest = h.complaints failed rest := by
        apply complaints_congr
        intro d hd
        rw [outbox_attempt, if_neg]
        intro hsame
        exact nodup.1 (hsame ▸ List.mem_map_of_mem hd)
      change ((h.attempt f failed c).sendEach f failed rest).events = _
      rw [ih _ nodup.2, hrest, events_attempt]
      unfold complaints
      rw [List.filter_cons]
      split <;> simp [*]

end

/-! ### The operations of a membership -/

theorem alike_broadcastPeers (h : Hub) (room : RoomId) (members : List Connection) :
    h.Alike (h.broadcastPeers room members) := by
  unfold broadcastPeers
  split
  · exact alike_sendEach h _ _ members
  · exact alike_record h _

theorem alike_announceJoin (h : Hub) (room : RoomId) (c : Connection) (joined : Joined) :
    h.Alike (h.announceJoin room c joined) := by
  unfold announceJoin
  split
  · rename_i previous _
    have hclose : h.Alike ((h.record (.peerReplaced room c.peer)).close previous superseded) :=
      (alike_record h _).trans (alike_close _ previous superseded true)
    exact (hclose.trans (alike_record _ _)).trans (alike_broadcastPeers _ room joined.members)
  · exact (alike_record h _).trans (alike_broadcastPeers _ room joined.members)

theorem alike_announceLeave (h : Hub) (room : RoomId) (c : Connection) (departure : Departure) :
    h.Alike (h.announceLeave room c departure) := by
  cases departure with
  | notMember => exact (alike_record h _).trans (alike_record _ _)
  | roomEmpty => exact (alike_record h _).trans (alike_record _ _)
  | remaining members => exact (alike_broadcastPeers h room members).trans (alike_record _ _)

/-- Beyond the outboxes a join changes the registry alone. -/
theorem alike_join (h : Hub) (room : RoomId) (c : Connection) :
    Alike { h with registry := (h.registry.join room c).1 } (h.join room c).1 :=
  alike_announceJoin { h with registry := (h.registry.join room c).1 } room c _

/-- So does a leave. -/
theorem alike_depart (h : Hub) (room : RoomId) (c : Connection) :
    Alike { h with registry := (h.registry.leave room c).1 } (h.depart room c) :=
  alike_announceLeave { h with registry := (h.registry.leave room c).1 } room c _

theorem departure_of_find? {h : Hub} {n : Nat} {d : RoomId × Connection}
    (found : h.departures.find? (·.2.number == n) = some d) :
    d ∈ h.departures ∧ d.2.number = n := by
  have hnumber := List.find?_some found
  exact ⟨List.mem_of_find?_eq_some found, by simpa using hnumber⟩

/-- The background carries out the leave that a connection handed to it, if there is one. -/
def runDeparture (h : Hub) (n : Nat) : Hub :=
  match h.departures.find? (·.2.number == n) with
  | some d => { h with departures := h.departures.erase d }.depart d.1 d.2
  | none => h

/-- The background carries out the leave of a connection from a room, if it was handed to it. -/
def carryOut (h : Hub) (room : RoomId) (c : Connection) : Hub :=
  if (room, c) ∈ h.departures then
    { h with departures := h.departures.erase (room, c) }.depart room c
  else h

end Hub

end RoomRelay
