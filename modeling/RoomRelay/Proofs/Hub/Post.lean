import RoomRelay.Proofs.Hub.Sending
import RoomRelay.Proofs.Room.Tidy
import RoomRelay.Hub.Session

/-!
Frames come to a connection in posts, one frame for some connections each. Every operation of a
session queues the frame of one post at most, at most once for each connection and only for those
that the post is meant for; whatever else it queues is a request to close.
-/

namespace RoomRelay

def Outbound.frame? : Outbound → Option Frame
  | .frame f => some f
  | .close _ => none

namespace Outbox

/-- The frames on their way, in the order in which they come out. -/
def frames (q : Outbox) : List Frame :=
  q.contents.filterMap Outbound.frame?

/-- What came in between two states of an outbox. -/
def gained (before after : Outbox) : List Outbound :=
  after.contents.drop before.contents.length

/-- The frames that came in between two states of an outbox. -/
def given (before after : Outbox) : List Frame :=
  (after.contents.drop before.contents.length).filterMap Outbound.frame?

/-- Something came in at the end, with these frames. -/
def Feeds (before after : Outbox) (fs : List Frame) : Prop :=
  ∃ items, after.contents = before.contents ++ items ∧ items.filterMap Outbound.frame? = fs

namespace Feeds

theorem refl (q : Outbox) : q.Feeds q [] := ⟨[], by simp⟩

theorem trans {p q r : Outbox} {fs gs : List Frame} (first : p.Feeds q fs)
    (second : q.Feeds r gs) : p.Feeds r (fs ++ gs) := by
  obtain ⟨items, hitems, rfl⟩ := first
  obtain ⟨more, hmore, rfl⟩ := second
  exact ⟨items ++ more, by rw [hmore, hitems, List.append_assoc], by simp⟩

theorem given_eq {q r : Outbox} {fs : List Frame} (h : q.Feeds r fs) : q.given r = fs := by
  obtain ⟨items, hitems, rfl⟩ := h
  rw [given, hitems, List.drop_left]

theorem frames_eq {q r : Outbox} {fs : List Frame} (h : q.Feeds r fs) :
    r.frames = q.frames ++ fs := by
  obtain ⟨items, hitems, rfl⟩ := h
  rw [frames, hitems, List.filterMap_append, frames]

end Feeds

theorem feeds_requestClose (q : Outbox) (background : Bool) (request : Close) :
    q.Feeds (q.requestClose background request) [] := by
  unfold requestClose
  split
  · rename_i r hr
    exact ⟨_, contents_offer hr, rfl⟩
  · split
    · exact ⟨[.close request], by simp [contents], rfl⟩
    · exact Feeds.refl q
  · exact Feeds.refl q

theorem feeds_post {q : Outbox} (h : q.Accepts) (f : Frame) : q.Feeds (q.post f) [f] := by
  have hwaiting := h.2.2
  exact ⟨[.frame f], by simp [post_of_accepts h, contents, hwaiting], rfl⟩

/-- What the receiving end does. -/
inductive Use where
  | read (n : Nat)
  | skip (n : Nat)
  | shut
  | discard
deriving DecidableEq, Repr

def use (q : Outbox) : Use → Outbox
  | .read n => (q.read n).2
  | .skip n => q.skip n
  | .shut => q.shut
  | .discard => q.discard

theorem frames_closes (cs : List Close) :
    (cs.map Outbound.close).filterMap Outbound.frame? = [] := by
  induction cs with
  | nil => rfl
  | cons c rest ih => exact ih

theorem contents_shut (q : Outbox) :
    q.shut.contents = q.contents ∨ q.shut.contents = q.queued := by
  unfold shut
  split
  · exact Or.inl rfl
  · exact Or.inr (by simp [contents])

/-- The receiving end takes frames from the front, and puts none in. -/
theorem use_takes (q : Outbox) (u : Use) :
    (q.use u).contents.length ≤ q.contents.length ∧ (q.use u).frames <:+ q.frames := by
  cases u with
  | read n =>
      have hread := contents_read q n
      have hsuffix : (q.read n).2.contents <:+ q.contents := ⟨_, hread⟩
      exact ⟨hsuffix.length_le, hsuffix.filterMap _⟩
  | skip n =>
      have hsuffix : (q.skip n).contents <:+ q.contents := by
        rw [contents_skip]
        exact List.drop_suffix n _
      exact ⟨hsuffix.length_le, hsuffix.filterMap _⟩
  | shut =>
      have hframes : q.frames = q.queued.filterMap Outbound.frame? := by
        rw [frames, contents, List.filterMap_append, frames_closes, List.append_nil]
      rcases contents_shut q with hsame | hqueued
      · have hshut : q.shut.frames = q.frames := by rw [frames, hsame, frames]
        exact ⟨hsame ▸ Nat.le_refl _, hshut ▸ List.suffix_refl _⟩
      · have hshut : q.shut.frames = q.frames := by rw [hframes, frames, hqueued]
        refine ⟨?_, hshut ▸ List.suffix_refl _⟩
        rw [use, hqueued, contents, List.length_append]
        omega
  | discard => exact ⟨Nat.zero_le _, List.nil_suffix⟩

theorem given_use (q : Outbox) (u : Use) : q.given (q.use u) = [] := by
  rw [given, List.drop_eq_nil_of_le (use_takes q u).1]
  rfl

end Outbox

/-- A frame and the connections that it is for. -/
structure Post where
  frame : Frame
  targets : List Connection

namespace Hub

/-- Every outbox gets the frame of the post once if it is meant for its connection, or no frame. -/
def Carries (h k : Hub) (post : Option Post) : Prop :=
  ∀ c, (h.outbox c).Feeds (k.outbox c) [] ∨
    ∃ p ∈ post, c.number ∈ p.targets.map (·.number) ∧ (h.outbox c).Feeds (k.outbox c) [p.frame]

namespace Carries

variable {h k l : Hub} {post : Option Post}

theorem of_outbox_eq (same : ∀ c, k.outbox c = h.outbox c) : h.Carries k post := by
  intro c
  rw [same c]
  exact Or.inl (Outbox.Feeds.refl _)

theorem refl (h : Hub) : h.Carries h none := of_outbox_eq fun _ => rfl

theorem feeds_nil (quiet : h.Carries k none) (c : Connection) :
    (h.outbox c).Feeds (k.outbox c) [] := by
  rcases quiet c with hnil | ⟨p, hp, -⟩
  · exact hnil
  · cases hp

theorem quiet_trans (first : h.Carries k none) (second : k.Carries l post) :
    h.Carries l post := by
  intro c
  have hfirst := first.feeds_nil c
  rcases second c with hnil | ⟨p, hp, hmem, hone⟩
  · exact Or.inl (hfirst.trans hnil)
  · exact Or.inr ⟨p, hp, hmem, hfirst.trans hone⟩

theorem trans_quiet (first : h.Carries k post) (second : k.Carries l none) :
    h.Carries l post := by
  intro c
  have hsecond := second.feeds_nil c
  rcases first c with hnil | ⟨p, hp, hmem, hone⟩
  · exact Or.inl (hnil.trans hsecond)
  · exact Or.inr ⟨p, hp, hmem, hone.trans hsecond⟩

end Carries

theorem carries_record (h : Hub) (e : Event) : h.Carries (h.record e) none :=
  Carries.of_outbox_eq fun _ => rfl

theorem carries_close (h : Hub) (c : Connection) (request : Close) (background : Bool) :
    h.Carries (h.close c request background) none := by
  intro d
  refine Or.inl ?_
  rcases eq_or_ne c.number d.number with hsame | hne
  · have hclosed : (h.close c request background).outbox d =
        (h.outbox d).requestClose background request := by
      rw [outbox_congr (h.close c request background) hsame.symm, outbox_close_self,
        outbox_congr h hsame]
    rw [hclosed]
    exact Outbox.feeds_requestClose _ background request
  · rw [outbox_close_of_ne hne]
    exact Outbox.Feeds.refl _

theorem carries_sendEach (h : Hub) (f : Frame) (failed : PeerId → RelayError → Event)
    {cs : List Connection} (nodup : (cs.map (·.number)).Nodup) :
    h.Carries (h.sendEach f failed cs) (some ⟨f, cs⟩) := by
  intro c
  rw [outbox_sendEach h f failed nodup]
  split
  · rename_i hmem
    rcases Decidable.em (h.outbox c).Accepts with haccepts | hrefuses
    · exact Or.inr ⟨_, rfl, hmem, Outbox.feeds_post haccepts f⟩
    · rw [Outbox.post_of_not_accepts hrefuses]
      exact Or.inl (Outbox.Feeds.refl _)
  · exact Or.inl (Outbox.Feeds.refl _)

end Hub

/-! ### Peer lists -/

/-- The frame of a peer list. -/
def listFrame (ids : List PeerId) : Frame :=
  .text (objectText (Downlink.peerList ids).fields)

theorem encode_peerList (ids : List PeerId) :
    (Downlink.peerList ids).encode = .ok (listFrame ids) := rfl

/-- The members of a room are told who they are. -/
def listPost (members : List Connection) : Post :=
  ⟨listFrame (members.map (·.peer)), members⟩

theorem encode_listPost (members : List Connection) :
    (Downlink.peerList (members.map (·.peer))).encode = .ok (listPost members).frame := by
  rw [listPost]
  exact encode_peerList _

/-- Who is told of a leave. -/
def Departure.members : Departure → List Connection
  | .remaining members => members
  | _ => []

def Delivery.post (d : Delivery) : Post := ⟨d.frame, d.targets⟩

/-- The frame is held back for a connection of this number, among others perhaps. -/
def Delivery.isFor (d : Delivery) (n : Nat) : Bool :=
  d.targets.any (·.number == n)

namespace Hub

theorem carries_deliver (h : Hub) (d : Delivery) (nodup : (d.targets.map (·.number)).Nodup) :
    h.Carries (h.deliver d) (some d.post) :=
  carries_sendEach h d.frame _ nodup

theorem carries_broadcastPeers (h : Hub) (room : RoomId) {members : List Connection}
    (nodup : (members.map (·.number)).Nodup) :
    h.Carries (h.broadcastPeers room members) (some (listPost members)) := by
  unfold broadcastPeers
  rw [encode_peerList]
  exact carries_sendEach h _ _ nodup

theorem carries_announceJoin (h : Hub) (room : RoomId) (c : Connection) {joined : Joined}
    (nodup : (joined.members.map (·.number)).Nodup) :
    h.Carries (h.announceJoin room c joined) (some (listPost joined.members)) := by
  unfold announceJoin
  split
  · rename_i previous _
    have hclose : h.Carries ((h.record (.peerReplaced room c.peer)).close previous superseded)
        none := (carries_record h _).quiet_trans (carries_close _ previous superseded true)
    exact (hclose.quiet_trans (carries_record _ _)).quiet_trans
      (carries_broadcastPeers _ room nodup)
  · exact (carries_record h _).quiet_trans (carries_broadcastPeers _ room nodup)

theorem outbox_announceLeave (h : Hub) (room : RoomId) (c : Connection) (departure : Departure)
    (d : Connection) :
    (h.announceLeave room c departure).outbox d =
      (h.broadcastPeers room departure.members).outbox d := by
  cases departure <;> rfl

/-- A leave is noticed in the outboxes by those whom it leaves behind. -/
theorem outbox_depart (h : Hub) (room : RoomId) (c d : Connection) :
    (h.depart room c).outbox d =
      ((h.exit room c).1.broadcastPeers room (h.exit room c).2.members).outbox d :=
  outbox_announceLeave (h.exit room c).1 room c _ d

theorem carries_announceLeave (h : Hub) (room : RoomId) (c : Connection) {departure : Departure}
    (nodup : (departure.members.map (·.number)).Nodup) :
    h.Carries (h.announceLeave room c departure) (some (listPost departure.members)) := by
  cases departure with
  | notMember => exact Carries.of_outbox_eq fun _ => rfl
  | roomEmpty => exact Carries.of_outbox_eq fun _ => rfl
  | remaining members =>
      exact (carries_broadcastPeers h room nodup).trans_quiet (carries_record _ _)

theorem carries_depart (h : Hub) (room : RoomId) (c : Connection)
    (nodup : ((h.registry.leave room c).2.members.map (·.number)).Nodup) :
    h.Carries (h.depart room c) (some (listPost (h.registry.leave room c).2.members)) :=
  carries_announceLeave { h with registry := (h.registry.leave room c).1 } room c nodup

end Hub

end RoomRelay
