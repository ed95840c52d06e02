import RoomRelay.Proofs.Hub.Closes
import RoomRelay.Proofs.Hub.Provenance
import RoomRelay.Proofs.Message.Relaying

/-!
A connection without a place. It does not get one again, a relay of its session is refused and ends
the session, and it gets no frames but those that had been decided on before.
-/

namespace RoomRelay

/-! ### Relays without a place -/

namespace Hub

/-- A relay of a sender without its place fails. It asks the sender to close, or does nothing if the
message cannot be framed. -/
theorem relay_of_not_held {h : Hub} {room : RoomId} {c : Connection}
    (not_held : h.registry.isHeldBy room c = false) (u : Uplink) :
    ((h.relay room c u).1 = h ∧ u.Oversized c.peer ∧
        ∃ e, (h.relay room c u).2 = .error (.codec e)) ∨
      ∃ request, (h.relay room c u).1 = h.close c request ∧
        ((h.relay room c u).2 = .error (.roomNotFound room) ∨
          (h.relay room c u).2 = .error (.staleSession room c.peer)) := by
  rcases h.relay_cases room c u with
    ⟨e, hencode, heq⟩ | ⟨frame, -, ⟨-, heq⟩ | ⟨ms, -, -, heq⟩ | ⟨ms, -, hheld, heq⟩⟩
  · rw [heq]
    exact Or.inl ⟨rfl, Uplink.oversized_of_encode hencode, e, rfl⟩
  · rw [heq]
    exact Or.inr ⟨roomGone, rfl, Or.inl rfl⟩
  · rw [heq]
    exact Or.inr ⟨superseded, rfl, Or.inr rfl⟩
  · rw [not_held] at hheld
    cases hheld

end Hub

/-- A running session that gets a frame to relay is refused, and is over. Only a frame of more than
64 MiB may hold a message that cannot be framed again, which is refused before anything else. -/
theorem Session.receive_of_not_held {h : Hub} {s : Session}
    (not_held : h.registry.isHeldBy s.room s.connection = false) (running : s.running = true)
    {f : Frame} {u : Uplink} (decodes : Uplink.decode f.isBinary f.bytes = .ok u) :
    ((h.relay s.room s.connection u).2 = .error (.roomNotFound s.room) ∨
        (h.relay s.room s.connection u).2 = .error (.staleSession s.room s.peer)) ∧
        (s.receive h (.frame f)).2.running = false ∨
      u.Oversized s.peer ∧ 2 ^ 26 < f.bytes.length + (textBytes s.peer).length ∧
        ∃ e, (h.relay s.room s.connection u).2 = .error (.codec e) := by
  rcases Hub.relay_of_not_held not_held u with
    ⟨-, hoversized, hanswer⟩ | ⟨request, -, hanswer⟩
  · exact Or.inr ⟨hoversized, hoversized.length_lt decodes, hanswer⟩
  · refine Or.inl ⟨hanswer, ?_⟩
    rcases hrelay : h.relay s.room s.connection u with ⟨g, answer⟩
    rw [hrelay] at hanswer
    rcases hanswer with rfl | rfl
    · simp only [Session.receive, running, Session.receiveFrame, decodes, hrelay]
      rfl
    · simp only [Session.receive, running, Session.receiveFrame, decodes, hrelay]
      rfl

/-- A post is for a connection of this number, among others perhaps. -/
def Post.isFor (p : Post) (n : Nat) : Bool :=
  p.targets.any (·.number == n)

namespace World

def runFrom (w : World) (actions : List Action) : World :=
  actions.foldl step w

/-- The action is that of the connection of this number. -/
def Action.isBy (n : Nat) : Action → Bool
  | .receive m _ | .abort m | .runDeparture m | .depart m | .use m _ => m == n
  | _ => false

/-- The frames that have been decided on for a connection and have not been sent yet. -/
def owed (w : World) (n : Nat) : List Frame :=
  (w.pending.filter (·.isFor n)).map (·.frame)

/-- The session of this number is there and goes on. -/
def running (w : World) (n : Nat) : Bool :=
  (w.sessions.find? (·.connection.number == n)).any (·.running)

/-! ### Without a place -/

/-- The connection of this number has been made and holds no place. -/
structure Displaced (w : World) (n : Nat) : Prop where
  settled : w.Settled
  posts_nodup : ∀ p ∈ w.pending, (p.targets.map (·.number)).Nodup
  made : n < w.hub.outboxes.size
  unseated : ∀ room peer d, w.hub.registry.holder? room peer = some d → d.number ≠ n

section

variable {w v : World} {n : Nat}

theorem Displaced.not_held (displaced : w.Displaced n) (room : RoomId) {c : Connection}
    (number : c.number = n) : w.hub.registry.isHeldBy room c = false := by
  rw [← Bool.not_eq_true, Registry.isHeldBy_iff]
  rintro ⟨d, hd, hsame⟩
  exact displaced.unseated room c.peer d hd (hsame.trans number)

/-- A place is held after a step by whoever held it before, or by a connection made just now. -/
theorem unseated_of_makes {k : World} {a : Action} {made : Option Post} (makes : w.Makes a k made)
    (before : n < w.hub.outboxes.size)
    (unseated : ∀ room peer d, w.hub.registry.holder? room peer = some d → d.number ≠ n) :
    ∀ room peer d, k.hub.registry.holder? room peer = some d → d.number ≠ n := by
  intro room peer d hd
  cases makes with
  | nothing registry roster => exact unseated room peer d (registry ▸ hd)
  | relayed s item u frame ms present own passes registry roster =>
      exact unseated room peer d (registry ▸ hd)
  | joined other c own made registry roster =>
      rw [registry, Registry.holder?_join] at hd
      split at hd
      · cases hd
        exact fun h => Nat.ne_of_lt before (h.symm.trans own.1)
      · exact unseated room peer d hd
  | left other c own registry roster =>
      rw [registry, Registry.holder?_leave] at hd
      split at hd
      · cases hd
      · exact unseated room peer d hd

theorem Displaced.step (displaced : w.Displaced n) (a : Action) : (w.step a).Displaced n := by
  obtain ⟨made, sent, heffect⟩ := w.effect_step a
  have hsettled := displaced.settled.of_makes heffect.size heffect.makes
  refine
    { settled := hsettled
      posts_nodup := ?_
      made := Nat.lt_of_lt_of_le displaced.made heffect.size
      unseated := unseated_of_makes heffect.makes displaced.made displaced.unseated }
  intro p hp
  rcases List.mem_append.mp (heffect.pending.mem_iff.mpr (List.mem_append_right _ hp)) with
    hmade | hpending
  · obtain rfl := Option.mem_toList.mp hmade
    exact (givesPost_of_makes displaced.settled hsettled heffect.makes).1
  · exact displaced.posts_nodup p hpending

theorem Displaced.run (displaced : w.Displaced n) (actions : List Action) :
    (w.runFrom actions).Displaced n := by
  induction actions generalizing w with
  | nil => exact displaced
  | cons a rest ih => exact ih (displaced.step a)

/-! ### What still comes to it -/

/-- Nothing that a step decides on is for the connection. -/
theorem Displaced.not_isFor (displaced : w.Displaced n) {a : Action} {p : Post}
    (gives : w.GivesPost a p) : p.isFor n = false := by
  have hafter := displaced.step a
  rw [Post.isFor, List.any_eq_false]
  intro t ht
  obtain ⟨room, -, hgives⟩ := gives.2 t ht
  have hne : t.number ≠ n := by
    rcases hgives with hrelays | hlists
    · obtain ⟨s, f, u, count, -, -, -, -, -, -, -, -, -, hholds, -, -⟩ := hrelays
      exact displaced.unseated room t.peer t hholds
    · obtain ⟨ids, d, -, -, -, -, -, hholds, -⟩ := hlists
      exact hafter.unseated room t.peer t hholds
  simpa using hne

/-- What a step sends to the connection is taken off what is owed to it. -/
theorem Displaced.owed_step (displaced : w.Displaced n) (a : Action) {c : Connection}
    (number : c.number = n) :
    ((w.hub.outbox c).given ((w.step a).hub.outbox c) ++ (w.step a).owed n).Subperm
      (w.owed n) := by
  obtain ⟨made, sent, heffect⟩ := w.effect_step a
  have hsettled := (displaced.step a).settled
  have howed (l : List Post) (k : World) :
      ((l ++ k.pending).filter (·.isFor n)).map (·.frame) =
        (l.filter (·.isFor n)).map (·.frame) ++ k.owed n := by
    rw [List.filter_append, List.map_append, owed]
  have hperm := (heffect.pending.filter (·.isFor n)).map (·.frame)
  rw [howed, howed] at hperm
  have hmade : made.toList.filter (·.isFor n) = [] := by
    rw [List.filter_eq_nil_iff]
    intro p hp
    obtain rfl := Option.mem_toList.mp hp
    simp [displaced.not_isFor (givesPost_of_makes displaced.settled hsettled heffect.makes)]
  rw [hmade, List.map_nil, List.nil_append] at hperm
  refine List.Subperm.trans ?_ hperm.symm.subperm
  rw [List.subperm_append_right]
  have hnodup : ∀ p ∈ sent, (p.targets.map (·.number)).Nodup := by
    rintro p ⟨⟩
    rcases List.mem_append.mp (heffect.pending.mem_iff.mpr List.mem_cons_self) with hp | hp
    · obtain rfl := Option.mem_toList.mp hp
      exact (givesPost_of_makes displaced.settled hsettled heffect.makes).1
    · exact displaced.posts_nodup p hp
  rcases (heffect.flows hnodup c).2 with hnone | ⟨p, ⟨⟩, hmem, hone⟩
  · rw [hnone]
    exact List.nil_subperm
  · have hfor : p.isFor n = true := by
      obtain ⟨t, ht, hsame⟩ := List.mem_map.mp hmem
      exact List.any_eq_true.mpr ⟨t, ht, by simp [hsame, number]⟩
    have hsent : ((some p).toList.filter (·.isFor n)).map (·.frame) = [p.frame] := by simp [hfor]
    rw [hone, hsent]

theorem given_eq_gained (q r : Outbox) :
    q.given r = (q.gained r).filterMap Outbound.frame? := rfl

/-- Every frame that still comes to the connection is one that was owed to it before. -/
theorem Displaced.owed_run (displaced : w.Displaced n) {c : Connection} (number : c.number = n)
    (actions : List Action) :
    ((w.intake c actions).filterMap Outbound.frame?).Subperm (w.owed n) := by
  induction actions generalizing w with
  | nil => exact List.nil_subperm
  | cons a rest ih =>
      rw [intake, List.filterMap_append, ← given_eq_gained]
      have hrest := (List.subperm_append_left
        ((w.hub.outbox c).given ((w.step a).hub.outbox c))).mpr (ih (displaced.step a))
      exact hrest.trans (displaced.owed_step a number)

end

end World

end RoomRelay
