import RoomRelay.Proofs.Http.Routing
import RoomRelay.Proofs.Socket.Links

/-!
Who gets into a room. The router is the only way in, and it lets a client in only under a word, so
all names in the registry are words, whatever the clients do afterwards. A request that is not let
in makes no difference to anybody.
-/

namespace RoomRelay

open Http Socket

/-- All rooms and all peers in the registry have words as their names. -/
def Registry.Words (r : Registry) : Prop :=
  ∀ entry ∈ r.rooms, IsWord entry.1 ∧ ∀ c ∈ entry.2, IsWord c.peer

namespace Registry.Words

variable {r r' : Registry} {room : RoomId} {c : Connection}

theorem setRoom (words : r.Words) (room_word : IsWord room) {ms : Members}
    (peers : ∀ c ∈ ms, IsWord c.peer) : Words ⟨Registry.setRoom room ms r.rooms⟩ := by
  intro entry hentry
  rcases mem_setRoom hentry with rfl | hold
  · exact ⟨room_word, peers⟩
  · exact words entry hold

theorem join (words : r.Words) (room_word : IsWord room) (peer_word : IsWord c.peer) :
    (r.join room c).1.Words := by
  refine words.setRoom room_word fun d hd => ?_
  rcases Members.mem_seat hd with rfl | hold
  · exact peer_word
  · cases hms : r.members? room with
    | none =>
        rw [hms] at hold
        cases hold
    | some ms =>
        rw [hms] at hold
        exact (words _ (mem_of_members? hms)).2 d hold

theorem leave (words : r.Words) (room : RoomId) (c : Connection) : (r.leave room c).1.Words := by
  unfold Registry.leave
  split
  · exact words
  · rename_i ms hms
    obtain ⟨hroom, hpeers⟩ := words _ (mem_of_members? hms)
    split
    · split
      · exact fun entry hentry => words entry (List.mem_of_mem_filter hentry)
      · rename_i hrest
        exact words.setRoom hroom fun d hd => hpeers d (List.mem_of_mem_filter hd)
    · exact words

theorem of_leaves (words : r.Words) (leaves : r.Leaves r') : r'.Words := by
  induction leaves with
  | refl => exact words
  | leave so_far room c ih => exact ih.leave room c

end Registry.Words

namespace Server

/-- What happens to a server that is reached through its router only: a request, whatever the
client of a link does, and the passing of time. -/
inductive Input where
  | request (r : Request) (capacity : Nat)
  | send (link : Nat) (items : List Inbound)
  | read (link : Nat)
  | vanish (link : Nat)
  | advance (milliseconds : Nat)

def take (s : Server) : Input → Server
  | .request r capacity => (s.http r capacity).1
  | .send link items => s.clientSend link items
  | .read link => (s.clientRead link).1
  | .vanish link => s.vanish link
  | .advance milliseconds => s.advance milliseconds

/-- A server after some inputs. -/
def serve (delay : Nat) (inputs : List Input) : Server :=
  inputs.foldl take { hub := { delay } }

/-- A request that made no difference. All that it did itself was a line in the log, and what is
there afterwards is what the background would have left anyway. -/
structure Spares (s : Server) (r : Request) (capacity : Nat) : Prop where
  log : ∃ events, (respond s.hub r).1 = { s.hub with events }
  registry : (s.http r capacity).1.hub.registry = s.settle.hub.registry
  outbox : ∀ c, (s.http r capacity).1.hub.outbox c = s.settle.hub.outbox c
  links : (s.http r capacity).1.links = s.settle.links

theorem http_of_response {s : Server} {r : Request} {capacity : Nat} {response : Response}
    (answer : (respond s.hub r).2 = .response response) :
    s.http r capacity = ({ s with hub := (respond s.hub r).1 }.settle, .response response) := by
  unfold http
  rcases hrespond : respond s.hub r with ⟨hub, given⟩
  rw [hrespond] at answer
  rw [show given = .response response from answer]

theorem http_of_upgrade {s : Server} {r : Request} {capacity : Nat} {room : RoomId} {peer : PeerId}
    (answer : (respond s.hub r).2 = .upgrade room peer) :
    s.http r capacity =
      ({ s with
          hub := (openLink (respond s.hub r).1 room peer capacity).1
          links := s.links.push (openLink (respond s.hub r).1 room peer capacity).2 }.settle,
        .upgrade room peer) := by
  unfold http
  rcases hrespond : respond s.hub r with ⟨hub, given⟩
  rw [hrespond] at answer
  rw [show given = .upgrade room peer from answer]

theorem spares_http {s : Server} {r : Request} {capacity : Nat}
    (refused : (s.http r capacity).2.status ≠ 101) : s.Spares r capacity := by
  have hlog := respond_hub s.hub r
  cases hanswer : (respond s.hub r).2 with
  | upgrade room peer =>
      rw [http_of_upgrade hanswer] at refused
      exact absurd rfl refused
  | response response =>
      obtain ⟨events, hevents⟩ := hlog
      have hmatches : Matches { s with hub := (respond s.hub r).1 } s := by
        rw [hevents]
        exact ⟨⟨rfl, rfl, rfl, fun _ _ => rfl, rfl, rfl⟩, rfl, rfl, rfl⟩
      have hsettled := hmatches.settle
      have hhttp : (s.http r capacity).1 = { s with hub := (respond s.hub r).1 }.settle :=
        congrArg Prod.fst (http_of_response hanswer)
      exact {
        log := ⟨events, hevents⟩
        registry := hhttp ▸ hsettled.hub.registry_eq fun _ => rfl
        outbox := fun c => hhttp ▸ hsettled.hub.outbox c rfl
        links := hhttp ▸ hsettled.links }

theorem registry_openLink (h : Hub) (room : RoomId) (peer : PeerId) (capacity : Nat) :
    (openLink h room peer capacity).1.registry =
      (h.registry.join room (h.connect peer defaultCapacity).2).1 :=
  (Hub.alike_join (h.connect peer defaultCapacity).1 room
    (h.connect peer defaultCapacity).2).registry

theorem words_http {s : Server} (words : s.hub.registry.Words) (r : Request) (capacity : Nat) :
    (s.http r capacity).1.hub.registry.Words := by
  obtain ⟨events, hevents⟩ := respond_hub s.hub r
  have hregistry : (respond s.hub r).1.registry = s.hub.registry := by rw [hevents]
  cases hanswer : (respond s.hub r).2 with
  | response response =>
      rw [http_of_response hanswer]
      refine Registry.Words.of_leaves ?_ (leaves_settle _)
      exact hregistry ▸ words
  | upgrade room peer =>
      rw [http_of_upgrade hanswer]
      refine Registry.Words.of_leaves ?_ (leaves_settle _)
      rw [registry_openLink, hregistry]
      cases respond_eq_iff.mp hanswer with
      | upgraded names room_text peer_text room_word peer_word =>
          exact words.join room_word peer_word

theorem words_take {s : Server} (words : s.hub.registry.Words) (input : Input) :
    (s.take input).hub.registry.Words := by
  cases input with
  | request r capacity => exact words_http words r capacity
  | send link items => exact words.of_leaves (s.leaves_clientSend link items)
  | read link => exact words.of_leaves (s.leaves_clientRead link)
  | vanish link => exact words.of_leaves (s.leaves_vanish link)
  | advance milliseconds => exact words.of_leaves (s.leaves_advance milliseconds)

theorem words_serve (delay : Nat) (inputs : List Input) :
    (serve delay inputs).hub.registry.Words := by
  have hfold (inputs : List Input) (s : Server) (words : s.hub.registry.Words) :
      (inputs.foldl take s).hub.registry.Words := by
    induction inputs generalizing s with
    | nil => exact words
    | cons input rest ih => exact ih _ (words_take words input)
  exact hfold inputs _ fun entry hentry => absurd hentry List.not_mem_nil

end Server

/-- Every request gets its one answer. A name is a word just when its bytes are those of one. A
request that is answered by anything but a switch to a session makes no difference, and in every
state that is reached through the router all names are words. -/
theorem routing_and_admission :
    (∀ h r a, (respond h r).2 = a ↔ Answers h r a) ∧
    (∀ s, IsWord s ↔ s ≠ "" ∧ ∀ b ∈ textBytes s, isIdByte b = true) ∧
    (∀ (s : Server) r capacity, (s.http r capacity).2.status ≠ 101 → s.Spares r capacity) ∧
    ∀ delay inputs, (Server.serve delay inputs).hub.registry.Words :=
  ⟨fun _ _ _ => respond_eq_iff, fun _ => isWord_iff_bytes, fun _ _ _ => Server.spares_http,
    Server.words_serve⟩

/-- An escape that says a letter lets a client in, one that says a slash does not. -/
theorem routing_and_admission_escaped :
    let inputs : List Server.Input :=
      [.request { method := "GET", target := "/r%6Fom/a_1?x", upgradable := true } 4096]
    let refused : Request := { method := "GET", target := "/r%2Fm/a", upgradable := true }
    (Server.serve 0 inputs).hub.registry.members? "room" = some [⟨0, "a_1"⟩] ∧
    (Server.serve 0 inputs).hub.registry.Words ∧
    (Server.serve 0 inputs).Spares refused 4096 := by
  intro inputs refused
  obtain ⟨-, -, hspares, hwords⟩ := routing_and_admission
  exact ⟨by decide +kernel, hwords 0 inputs, hspares _ refused 4096 (by decide +kernel)⟩

/-- A path that begins with an empty segment is not passed over: what the second segment says is
read first. Nor is the number of rooms in the answer to a `HEAD`. -/
theorem empty_segment_read :
    let r : Request := { method := "GET", target := "//%ff" }
    let head : Request := { method := "HEAD", target := "/" }
    r.path ≠ ['/'] ∧ (∀ room peer, Pair r.path room peer → room = []) ∧
    (respond {} r).2.status = 400 ∧
    (respond {} head).2 = .response ⟨200, [("content-type", "text/plain"), allowOrigin], ""⟩ := by
  intro r head
  have hpath : r.path = ['/', '/', '%', 'f', 'f'] := by decide +kernel
  refine ⟨by rw [hpath]; decide, fun room peer hpair => ?_, by decide +kernel,
    by decide +kernel⟩
  have hsegments := segments_eq_pair_iff.mpr hpair
  rw [hpath] at hsegments
  cases hsegments
  rfl

end RoomRelay
