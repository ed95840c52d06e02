import RoomRelay.Http.Router
import RoomRelay.Proofs.Hub.Provenance

/-!
Which frames read as peer lists: those by which the relay announces a join or a leave, and those
that a client of the relay's own name relays with the reserved action. No such client is turned
away, since the name is a valid id, and so a peer list can be forged.
-/

namespace RoomRelay

open Json

/-- What is read has the action and the sender of what is said. -/
theorem Frame.Conveys.names_of_decode {f : Frame} {d e : Downlink} (conveys : f.Conveys e)
    (decodes : Downlink.decode f.isBinary f.bytes = .ok d) :
    d.action = e.action ∧ d.sender = e.sender := by
  obtain ⟨read, hread, hreads⟩ := conveys.message
  cases hread.symm.trans decodes
  exact ⟨hreads.action, hreads.sender⟩

theorem Downlink.isPeerList_iff {d : Downlink} :
    d.isPeerList = true ↔ d.action = peerListAction ∧ d.sender = relaySender := by
  simp [isPeerList]

/-- The frame can be read, and is taken for a peer list. -/
def Frame.IsPeerList (f : Frame) : Prop :=
  ∃ d, Downlink.decode f.isBinary f.bytes = .ok d ∧ d.isPeerList = true

theorem Frame.Lists.isPeerList {f : Frame} {ids : List PeerId} (h : f.Lists ids) : f.IsPeerList :=
  ⟨_, h.message, rfl⟩

namespace World

/-- A client in the room that goes by the name of the relay sends a message with the action of a
peer list. -/
inductive Forges (w : World) (a : Action) (room : RoomId) : Prop where
  | intro (s : Session) (f : Frame) (u : Uplink) (present : s ∈ w.sessions)
    (own_room : s.room = room) (own : a = .receive s.connection.number (.frame f))
    (decodes : Uplink.decode f.isBinary f.bytes = .ok u) (action : u.action = peerListAction)
    (name : s.peer = relaySender)

/-- The step gives the frame to the connection. If it announces a join or a leave then the frame
is a peer list, and if it relays a message then the frame reads as one exactly if it is forged. -/
inductive Sources (w : World) (a : Action) (room : RoomId) (c : Connection) (frame : Frame) :
    Prop where
  | announced (announces : w.AnnouncesTo a room c frame) (list : frame.IsPeerList)
  | relayed (relays : w.RelaysTo a room c frame)
    (list_iff : ∀ d, Downlink.decode frame.isBinary frame.bytes = .ok d →
      (d.isPeerList = true ↔ w.Forges a room))

theorem sources_of_announces {w : World} {a : Action} {room : RoomId} {c : Connection}
    {frame : Frame} (h : w.AnnouncesTo a room c frame) : w.Sources a room c frame := by
  refine .announced h ?_
  obtain ⟨ids, d, -, -, hlists, -⟩ := h
  exact hlists.isPeerList

theorem sources_of_relays {w : World} (settled : w.Settled) {a : Action} {room : RoomId}
    {c : Connection} {frame : Frame} (h : w.RelaysTo a room c frame) :
    w.Sources a room c frame := by
  refine .relayed h fun d hd => ?_
  obtain ⟨s, f, u, count, hpresent, -, hroom, hown, hdecodes, -, -, hconveys, -⟩ := h
  obtain ⟨haction, hsender⟩ := hconveys.names_of_decode hd
  rw [Downlink.isPeerList_iff, haction, hsender]
  constructor
  · rintro ⟨haction, hname⟩
    exact ⟨s, f, u, hpresent, hroom, hown, hdecodes, haction, hname⟩
  · rintro ⟨s', f', u', hpresent', -, hown', hdecodes', haction', hname'⟩
    obtain ⟨hnumber, rfl⟩ : s.connection.number = s'.connection.number ∧ f = f' := by
      simpa using hown.symm.trans hown'
    cases hdecodes.symm.trans hdecodes'
    -- One connection has one session, so the client that relays is the one that forges.
    have hseat : s.seat = s'.seat :=
      settled.eq_of_number (List.mem_map_of_mem hpresent) (List.mem_map_of_mem hpresent') hnumber
    have hpeer : s.peer = s'.peer := congrArg (fun seat => seat.2.peer) hseat
    exact ⟨haction', hpeer.trans hname'⟩

theorem roster_subset_run (actions more : List Action) :
    (run actions).roster ⊆ (run (actions ++ more)).roster := by
  induction more using List.reverseRecOn with
  | nil => rw [List.append_nil]; exact List.Subset.refl _
  | append_singleton more a ih =>
      obtain ⟨made, sent, heffect⟩ := (run (actions ++ more)).effect_step a
      rw [← List.append_assoc, run_concat]
      exact List.Subset.trans ih (roster_subset_of_makes heffect.makes)

/-- Every frame that a connection gets goes back to a step of its own, and it reads as a peer list
exactly if the relay announces who is in the room, or if a client of the relay's name sends it with
the reserved action. So a peer list in a room where nobody has that name comes from the relay. -/
theorem peer_lists_sourced (actions : List Action) {room : RoomId} {c : Connection}
    (joined : (room, c) ∈ (run actions).roster) :
    (∃ origins : List Nat, origins.Nodup ∧
      List.Forall₂ (fun k frame => ∃ a, actions[k]? = some a ∧
          (run (actions.take k)).Sources a room c frame)
        origins (queued actions c)) ∧
    ((∀ d, (room, d) ∈ (run actions).roster → d.peer ≠ relaySender) →
      ∀ frame ∈ queued actions c, frame.IsPeerList → ∃ k a, actions[k]? = some a ∧
        (run (actions.take k)).AnnouncesTo a room c frame) := by
  obtain ⟨hsettled, -, plans, -, haccounts⟩ := accounts_run actions
  obtain ⟨trace, hframes, htrace⟩ := haccounts.traced c
  have hsources : ∀ s ∈ trace, ∃ a, actions[s.1]? = some a ∧
      (run (actions.take s.1)).Sources a room c s.2 := by
    intro s hs
    obtain ⟨t, hnumber, a, other, ha, hroster, hgives⟩ := htrace.origin s hs
    cases hsettled.eq_of_number hroster joined hnumber
    refine ⟨a, ha, ?_⟩
    rcases hgives with hrelays | hannounces
    · exact sources_of_relays (accounts_run _).1 hrelays
    · exact sources_of_announces hannounces
  rw [← hframes]
  constructor
  · refine ⟨trace.map (·.1), htrace.nodup.of_append_left, ?_⟩
    rw [List.forall₂_map_left_iff, List.forall₂_map_right_iff, List.forall₂_same]
    exact hsources
  · rintro honest frame hframe ⟨d, hdecode, hlist⟩
    obtain ⟨s, hs, rfl⟩ := List.mem_map.mp hframe
    obtain ⟨a, ha, hsource⟩ := hsources s hs
    cases hsource with
    | announced announces list => exact ⟨s.1, a, ha, announces⟩
    | relayed relays list_iff =>
        obtain ⟨t, f, u, hpresent, rfl, -, -, -, hname⟩ := (list_iff d hdecode).mp hlist
        have hseat := roster_subset_run (actions.take s.1) (actions.drop s.1)
          (List.mem_map_of_mem hpresent)
        rw [List.take_append_drop] at hseat
        exact absurd hname (honest _ hseat)

/-- In a room of `a` and `b` all peer lists come from the relay, and there are some. -/
theorem peer_lists_sourced_takeover :
    ("r", ⟨1, "b"⟩) ∈ (run takeover).roster ∧
      (∃ frame ∈ queued takeover ⟨1, "b"⟩, frame.IsPeerList) ∧
      ∀ frame ∈ queued takeover ⟨1, "b"⟩, frame.IsPeerList → ∃ k a, takeover[k]? = some a ∧
        (run (takeover.take k)).AnnouncesTo a "r" ⟨1, "b"⟩ frame := by
  have hjoined : ("r", ⟨1, "b"⟩) ∈ (run takeover).roster := by decide +kernel
  have hnames : (run takeover).roster.all (fun seat => seat.2.peer != relaySender) = true := by
    decide +kernel
  have hlist : listFrame ["a", "b"] ∈ queued takeover ⟨1, "b"⟩ := by decide +kernel
  refine ⟨hjoined, ⟨_, hlist, (lists_listFrame _).isPeerList⟩,
    (peer_lists_sourced takeover hjoined).2 ?_⟩
  intro d hd
  simpa using List.all_eq_true.mp hnames _ hd

/-- A client with the name of the relay joins the room of `a` and sends a list of its own. -/
def forgery : List Action :=
  [.start "r" "a" 4, .start "r" "server" 4,
    .receive 1 (.frame (.text "\x7b\"action\":\"__update_peers__\",\"data\":[\"x\"]\x7d"))]

/-- Requests with such names lead to sessions. The list reads as a peer list, though it names
somebody who never was in the room, and no step announces it. -/
theorem peer_list_is_forged :
    (Http.Request.mk "GET" "/r/a" true).route = .session "r" "a" ∧
      (Http.Request.mk "GET" "/r/server" true).route = .session "r" "server" ∧
      ∃ frame d, frame ∈ queued forgery ⟨0, "a"⟩ ∧
        Downlink.decode frame.isBinary frame.bytes = .ok d ∧ d.isPeerList = true ∧
        d.peerIds? = some ["x"] ∧
        ¬ ∃ k a room, forgery[k]? = some a ∧
          (run (forgery.take k)).AnnouncesTo a room ⟨0, "a"⟩ frame := by
  let frame : Frame := .text
    "\x7b\"action\":\"__update_peers__\",\"data\":[\"x\"],\"peerId\":\"server\"\x7d"
  have hlist : listFrame ["x"] = frame := by decide +kernel
  refine ⟨by decide +kernel, by decide +kernel, frame, Downlink.peerList ["x"], by decide +kernel,
    hlist ▸ decode_listFrame ["x"], rfl, peerIds?_peerList ["x"], ?_⟩
  rintro ⟨k, a, room, -, ids, d, -, -, hlists, -, -, -, hlisted⟩
  have hread : Downlink.decode frame.isBinary frame.bytes = .ok (Downlink.peerList ["x"]) :=
    hlist ▸ decode_listFrame ["x"]
  have hids : (Downlink.peerList ids).peerIds? = (Downlink.peerList ["x"]).peerIds? :=
    congrArg Downlink.peerIds? (Except.ok.inj (hlists.message.symm.trans hread))
  rw [peerIds?_peerList, peerIds?_peerList, Option.some.injEq] at hids
  subst hids
  exact absurd hlisted (by decide)

end World

end RoomRelay
