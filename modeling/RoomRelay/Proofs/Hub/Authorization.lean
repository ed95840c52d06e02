import RoomRelay.Proofs.Hub.Relay
import RoomRelay.Proofs.Message.Relaying

/-!
Who may relay, and what a relay that fails leaves behind. The answer depends on whether the message
can be framed, on the room, and on the connection that holds the sender's place, in this order. A
failure is noticed by nobody but the sender, who is asked to close if it has no place.
-/

namespace RoomRelay

/-- What the sender is told when its relay fails with this error. -/
def RelayError.request? : RelayError → Option Close
  | .roomNotFound _ => some ⟨4001, "room not found"⟩
  | .staleSession _ _ => some ⟨4000, "superseded by a newer connection"⟩
  | _ => none

theorem Uplink.exists_encode_iff {u : Uplink} {sender : PeerId} :
    (∃ frame, (u.relayed sender).encode = .ok frame) ↔ ¬ u.Oversized sender := by
  constructor
  · rintro ⟨frame, hframe⟩ ⟨payload, hpayload, hlong⟩
    have hdata : (u.relayed sender).data = some (.binary payload) := hpayload
    simp only [Downlink.encode, RoomRelay.encode, hdata, pack,
      if_neg (Nat.not_lt_of_le hlong)] at hframe
    cases hframe
  · intro hfits
    cases hencode : (u.relayed sender).encode with
    | error e => exact absurd (oversized_of_encode hencode) hfits
    | ok frame => exact ⟨frame, rfl⟩

namespace Registry

theorem contains_of_members? {r : Registry} {room : RoomId} {ms : Members}
    (hms : r.members? room = some ms) : r.contains room = true := by
  rw [contains, hms, Option.isSome_some]

/-- A place is not held by a connection if nobody holds it or another connection does. -/
theorem isHeldBy_eq_false_iff {r : Registry} {room : RoomId} {c : Connection} :
    r.isHeldBy room c = false ↔ r.holder? room c.peer = none ∨
      ∃ d, r.holder? room c.peer = some d ∧ d.number ≠ c.number := by
  unfold isHeldBy
  cases r.holder? room c.peer <;> simp [Connection.same]

end Registry

namespace Hub

/-- The answer to a relay, by the message, the room and the place of the sender. The errors name the
room and the sender that were asked for. -/
structure Answers (h : Hub) (room : RoomId) (c : Connection) (u : Uplink)
    (answer : Except RelayError Nat) : Prop where
  codec_iff : (∃ e, answer = .error (.codec e)) ↔
    ¬ ∃ frame, (u.relayed c.peer).encode = .ok frame
  roomNotFound_iff : answer = .error (.roomNotFound room) ↔
    (∃ frame, (u.relayed c.peer).encode = .ok frame) ∧ h.registry.contains room = false
  staleSession_iff : answer = .error (.staleSession room c.peer) ↔
    (∃ frame, (u.relayed c.peer).encode = .ok frame) ∧ h.registry.contains room = true ∧
      (h.registry.holder? room c.peer = none ∨
        ∃ d, h.registry.holder? room c.peer = some d ∧ d.number ≠ c.number)
  ok_iff : (∃ count, answer = .ok count) ↔
    (∃ frame, (u.relayed c.peer).encode = .ok frame) ∧
      ∃ d, h.registry.holder? room c.peer = some d ∧ d.number = c.number
  no_other : (∃ count, answer = .ok count) ∨ (∃ e, answer = .error (.codec e)) ∨
    answer = .error (.roomNotFound room) ∨ answer = .error (.staleSession room c.peer)

/-- Nothing has changed but the outbox of one connection, and that by one request to close at most.
-/
structure FailsFor (h k : Hub) (c : Connection) (request : Option Close) : Prop where
  alike : h.Alike k
  events : k.events = h.events
  others : ∀ d : Connection, d.number ≠ c.number → k.outbox d = h.outbox d
  own : k.outbox c = request.elim (h.outbox c) ((h.outbox c).requestClose true)
  asked : ∀ r, request = some r → (h.outbox c).receiver = .listening →
    (k.outbox c).contents = (h.outbox c).contents ++ [.close r]
  untouched : request = none → k = h

theorem failsFor_none (h : Hub) (c : Connection) : h.FailsFor h c none where
  alike := Alike.refl h
  events := rfl
  others _ _ := rfl
  own := rfl
  asked _ hr := by cases hr
  untouched _ := rfl

theorem failsFor_close (h : Hub) (c : Connection) (request : Close) :
    h.FailsFor (h.close c request) c (some request) where
  alike := alike_close h c request true
  events := rfl
  others _ hne := outbox_close_of_ne (Ne.symm hne) h request true
  own := outbox_close_self h c request true
  asked := by
    rintro _ ⟨⟩ hlistening
    rw [outbox_close_self]
    exact Outbox.contents_requestClose _ request hlistening
  untouched hnone := by cases hnone

/-- A relay answers with the first thing that stands against it: the message is too long to be
framed, the room does not exist, or the place of the sender is not its own. If nothing does, it
succeeds. A relay that fails changes nothing but that it asks the sender to close, and not even this
if the message cannot be framed. -/
theorem relay_authorized (h : Hub) (room : RoomId) (c : Connection) (u : Uplink) :
    h.Answers room c u (h.relay room c u).2 ∧
      ((∃ e, (h.relay room c u).2 = .error (.codec e)) ↔ u.Oversized c.peer) ∧
      ∀ e, (h.relay room c u).2 = .error e →
        h.FailsFor (h.relay room c u).1 c e.request? := by
  have hframed : (∃ frame, (u.relayed c.peer).encode = .ok frame) ↔ ¬ u.Oversized c.peer :=
    Uplink.exists_encode_iff
  rcases h.relay_cases room c u with
    ⟨e, hencode, heq⟩ |
      ⟨frame, hencode, ⟨hnone, heq⟩ | ⟨ms, hms, hnot, heq⟩ | ⟨ms, hms, hheld, heq⟩⟩
  · have hoversized := Uplink.oversized_of_encode hencode
    rw [heq]
    refine ⟨⟨?_, ?_, ?_, ?_, Or.inr (Or.inl ⟨e, rfl⟩)⟩, by simp [hoversized], ?_⟩
    · simp [hframed, hoversized]
    · simp [hframed, hoversized]
    · simp [hframed, hoversized]
    · simp [hframed, hoversized]
    · rintro _ ⟨⟩
      exact failsFor_none h c
  · have hfits := hframed.mp ⟨frame, hencode⟩
    have hgone : h.registry.contains room = false := by rw [Registry.contains, hnone]; rfl
    have hempty : h.registry.holder? room c.peer = none := by rw [Registry.holder?, hnone]; rfl
    rw [heq]
    refine ⟨⟨?_, ?_, ?_, ?_, Or.inr (Or.inr (Or.inl rfl))⟩, by simp [hfits], ?_⟩
    · simp [hencode]
    · simp [hencode, hgone]
    · simp [hgone]
    · simp [hempty]
    · rintro _ ⟨⟩
      exact failsFor_close h c roomGone
  · have hfits := hframed.mp ⟨frame, hencode⟩
    have hroom := Registry.contains_of_members? hms
    have hother := Registry.isHeldBy_eq_false_iff.mp hnot
    rw [heq]
    refine ⟨⟨?_, ?_, ?_, ?_, Or.inr (Or.inr (Or.inr rfl))⟩, by simp [hfits], ?_⟩
    · simp [hencode]
    · simp [hroom]
    · simpa [hencode, hroom] using hother
    · rcases hother with hempty | ⟨d, hd, hne⟩
      · simp [hempty]
      · simp [hd, hne]
    · rintro _ ⟨⟩
      exact failsFor_close h c superseded
  · have hfits := hframed.mp ⟨frame, hencode⟩
    have hroom := Registry.contains_of_members? hms
    have hown := Registry.isHeldBy_iff.mp hheld
    rw [heq]
    refine ⟨⟨?_, ?_, ?_, ?_, Or.inl ⟨_, rfl⟩⟩, by simp [hfits], ?_⟩
    · simp [hencode]
    · simp [hroom]
    · obtain ⟨d, hd, hsame⟩ := hown
      simp [hd, hsame]
    · simpa [hencode] using hown
    · rintro _ ⟨⟩

end Hub

end RoomRelay
