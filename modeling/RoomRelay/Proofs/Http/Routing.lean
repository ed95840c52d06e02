import RoomRelay.Http.Router
import RoomRelay.Proofs.Http.Segments

/-!
The answer to every request, said without the order in which the router looks at it: by the method,
the segments of the path, what these say, and the handshake behind the request. Exactly one of the
cases applies to a request, and no answer but a switch to a session changes more than the log.
-/

namespace RoomRelay.Http

def Request.path (r : Request) : List Char :=
  pathOf r.target.toList

def Answer.status : Answer → Nat
  | .response r => r.status
  | .upgrade _ _ => 101

/-- A path of two segments, the second of which is not empty. -/
structure Request.Names (r : Request) (room peer : List Char) : Prop where
  method : r.method ≠ "OPTIONS"
  path : Pair r.path room peer
  nonempty : peer ≠ []

/-- The answer to a request. -/
inductive Answers (h : Hub) (r : Request) : Answer → Prop where
  | preflight (method : r.method = "OPTIONS") : Answers h r (.response preflightResponse)
  | shown (path : r.path = ['/']) (method : r.method = "GET") :
      Answers h r (.response ⟨200, [("content-type", "text/plain"), allowOrigin],
        statusText h.registry.roomCount⟩)
  | head (path : r.path = ['/']) (method : r.method = "HEAD") :
      Answers h r (.response ⟨200, [("content-type", "text/plain"), allowOrigin], ""⟩)
  | notShown (path : r.path = ['/']) (method : r.method ∉ ["OPTIONS", "GET", "HEAD"]) :
      Answers h r (.response (plainText 404 "Not found"))
  | roomUnreadable {room peer : List Char} (names : r.Names room peer)
      (unreadable : ∀ text, ¬ Spells room text) :
      Answers h r (.response (plainText 400 "Invalid URL: Invalid UTF-8 in `room_id`"))
  | peerUnreadable {room peer : List Char} {roomText : String} (names : r.Names room peer)
      (readable : Spells room roomText) (unreadable : ∀ text, ¬ Spells peer text) :
      Answers h r (.response (plainText 400 "Invalid URL: Invalid UTF-8 in `peer_id`"))
  | notWords {room peer : List Char} {roomText peerText : String} (names : r.Names room peer)
      (room_text : Spells room roomText) (peer_text : Spells peer peerText)
      (notWords : ¬ (IsWord roomText ∧ IsWord peerText)) :
      Answers h r (.response (plainText 404 "Not found"))
  | upgraded {room peer : List Char} {roomText peerText : String} (names : r.Names room peer)
      (room_text : Spells room roomText) (peer_text : Spells peer peerText)
      (room_word : IsWord roomText) (peer_word : IsWord peerText)
      (upgradable : r.upgradable = true) : Answers h r (.upgrade roomText peerText)
  | notUpgraded {room peer : List Char} {roomText peerText : String} (names : r.Names room peer)
      (room_text : Spells room roomText) (peer_text : Spells peer peerText)
      (room_word : IsWord roomText) (peer_word : IsWord peerText)
      (upgradable : r.upgradable = false) :
      Answers h r (.response (plainText 500 "Upgrade failed"))
  | elsewhere (method : r.method ≠ "OPTIONS") (path : r.path ≠ ['/'])
      (names : ∀ room peer, ¬ r.Names room peer) :
      Answers h r (.response (plainText 404 "Not found"))

variable {h : Hub} {r : Request}

/-! ### The routes -/

theorem route_root (path : r.path = ['/']) :
    r.route = if r.method = "OPTIONS" then .preflight else if r.method = "GET" then .status true
      else if r.method = "HEAD" then .status false else .notFound := by
  unfold Request.route
  rw [show segments (pathOf r.target.toList) = [[], []] from segments_eq_root_iff.mpr path]

theorem route_names {room peer : List Char} (names : r.Names room peer) :
    r.route = sessionRoute room peer := by
  have hsegments : segments (pathOf r.target.toList) = [[], room, peer] :=
    segments_eq_pair_iff.mpr names.path
  unfold Request.route
  simp only [if_neg names.method, hsegments, if_neg names.nonempty]

theorem route_elsewhere (method : r.method ≠ "OPTIONS") (path : r.path ≠ ['/'])
    (names : ∀ room peer, ¬ r.Names room peer) : r.route = .notFound := by
  unfold Request.route
  rw [if_neg method]
  split
  case h_1 hroot => exact absurd (segments_eq_root_iff.mp hroot) path
  case h_2 room peer hpair =>
      split
      · rfl
      · rename_i hpeer
        exact absurd ⟨method, segments_eq_pair_iff.mp hpair, hpeer⟩ (names room peer)
  case h_3 => rfl

theorem sessionRoute_of_spells {room peer : List Char} {roomText peerText : String}
    (room_text : Spells room roomText) (peer_text : Spells peer peerText) :
    sessionRoute room peer =
      if isValidId roomText && isValidId peerText then .session roomText peerText
      else .notFound := by
  rw [sessionRoute, segmentText?_eq_some_iff.mpr room_text, segmentText?_eq_some_iff.mpr peer_text]

theorem route_session {room peer : List Char} {roomText peerText : String}
    (names : r.Names room peer) (room_text : Spells room roomText)
    (peer_text : Spells peer peerText) (room_word : IsWord roomText) (peer_word : IsWord peerText) :
    r.route = .session roomText peerText := by
  rw [route_names names, sessionRoute_of_spells room_text peer_text, isValidId_iff.mpr room_word,
    isValidId_iff.mpr peer_word]
  rfl

/-! ### The answers -/

theorem respond_eq_of_answers {a : Answer} (answers : Answers h r a) : (respond h r).2 = a := by
  cases answers with
  | preflight method => simp [respond, Request.route, method]
  | shown path method => simp [respond, route_root path, method]
  | head path method => simp [respond, route_root path, method]
  | notShown path method =>
      have hroute : r.route = .notFound := by
        rw [route_root path]
        simp_all
      rw [respond, hroute]
  | roomUnreadable names unreadable =>
      have hroute : r.route = .badSegment "room_id" := by
        rw [route_names names, sessionRoute, segmentText?_eq_none_iff.mpr unreadable]
      rw [respond, hroute]
      rfl
  | peerUnreadable names readable unreadable =>
      have hroute : r.route = .badSegment "peer_id" := by
        rw [route_names names, sessionRoute, segmentText?_eq_some_iff.mpr readable,
          segmentText?_eq_none_iff.mpr unreadable]
      rw [respond, hroute]
      rfl
  | notWords names room_text peer_text notWords =>
      have hroute : r.route = .notFound := by
        rw [route_names names, sessionRoute_of_spells room_text peer_text, if_neg]
        simpa [isValidId_iff] using notWords
      rw [respond, hroute]
  | upgraded names room_text peer_text room_word peer_word upgradable =>
      simp [respond, route_session names room_text peer_text room_word peer_word, upgradable]
  | notUpgraded names room_text peer_text room_word peer_word upgradable =>
      simp [respond, route_session names room_text peer_text room_word peer_word, upgradable]
  | elsewhere method path names => rw [respond, route_elsewhere method path names]

/-- Some case applies to every request. The cases are told apart in the order of the router. -/
theorem exists_answers (h : Hub) (r : Request) : ∃ a, Answers h r a := by
  by_cases hoptions : r.method = "OPTIONS"
  · exact ⟨_, .preflight hoptions⟩
  by_cases hroot : r.path = ['/']
  · by_cases hget : r.method = "GET"
    · exact ⟨_, .shown hroot hget⟩
    by_cases hhead : r.method = "HEAD"
    · exact ⟨_, .head hroot hhead⟩
    · exact ⟨_, .notShown hroot (by simp [hoptions, hget, hhead])⟩
  by_cases hnames : ∃ room peer, r.Names room peer
  · obtain ⟨room, peer, hnames⟩ := hnames
    by_cases hroom : ∃ text, Spells room text
    · obtain ⟨roomText, hroom⟩ := hroom
      by_cases hpeer : ∃ text, Spells peer text
      · obtain ⟨peerText, hpeer⟩ := hpeer
        by_cases hwords : IsWord roomText ∧ IsWord peerText
        · cases hupgradable : r.upgradable with
          | false => exact ⟨_, .notUpgraded hnames hroom hpeer hwords.1 hwords.2 hupgradable⟩
          | true => exact ⟨_, .upgraded hnames hroom hpeer hwords.1 hwords.2 hupgradable⟩
        · exact ⟨_, .notWords hnames hroom hpeer hwords⟩
      · exact ⟨_, .peerUnreadable hnames hroom (not_exists.mp hpeer)⟩
    · exact ⟨_, .roomUnreadable hnames (not_exists.mp hroom)⟩
  · exact ⟨_, .elsewhere hoptions hroot (by simpa using hnames)⟩

theorem respond_eq_iff {a : Answer} : (respond h r).2 = a ↔ Answers h r a := by
  constructor
  · rintro rfl
    obtain ⟨a, ha⟩ := exists_answers h r
    exact respond_eq_of_answers ha ▸ ha
  · exact respond_eq_of_answers

/-- Answering a request leaves a line in the log at most. -/
theorem respond_hub (h : Hub) (r : Request) : ∃ events, (respond h r).1 = { h with events } := by
  unfold respond
  split
  case h_4 room peer =>
      split
      · exact ⟨h.events, rfl⟩
      · exact ⟨_, rfl⟩
  all_goals exact ⟨h.events, rfl⟩

end RoomRelay.Http
