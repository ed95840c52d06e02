import RoomRelay.Message.Basic

/-!
Which connection holds which place in which room.

A room has one place per peer id and exists only while somebody is in it. Joining takes the place
of an earlier connection under the same peer id; leaving gives up a place only if it is still held
by the connection that leaves.
-/

namespace RoomRelay

/-- One client connection. The number tells apart the connections that a peer makes over time. -/
structure Connection where
  number : Nat
  peer : PeerId
deriving DecidableEq, Repr

def Connection.same (c d : Connection) : Bool :=
  c.number == d.number

/-- The members of one room, each under its peer id. -/
abbrev Members := List Connection

namespace Members

def find? (ms : Members) (peer : PeerId) : Option Connection :=
  List.find? (·.peer == peer) ms

/-- Puts a connection in the place of its peer id. -/
def seat (c : Connection) : Members → Members
  | [] => [c]
  | m :: rest => if m.peer = c.peer then c :: rest else m :: seat c rest

def unseat (peer : PeerId) (ms : Members) : Members :=
  ms.filter (·.peer != peer)

/-- Whether the place of its peer id is held by this very connection. -/
def isHeldBy (ms : Members) (c : Connection) : Bool :=
  match ms.find? c.peer with
  | some holder => holder.same c
  | none => false

theorem find?_seat_self (c : Connection) (ms : Members) :
    (ms.seat c).find? c.peer = some c := by
  induction ms with
  | nil => simp [seat, find?]
  | cons m rest ih =>
    simp only [seat]
    split
    · simp [find?]
    · rename_i h
      simpa [find?, h] using ih

theorem find?_seat_of_ne {c : Connection} {peer : PeerId} (h : peer ≠ c.peer) (ms : Members) :
    (ms.seat c).find? peer = ms.find? peer := by
  induction ms with
  | nil => simp [seat, find?, Ne.symm h]
  | cons m rest ih =>
    simp only [seat]
    split
    · rename_i hm
      simp [find?, hm, Ne.symm h]
    · simp only [find?, List.find?_cons] at ih ⊢
      rw [ih]

theorem find?_unseat_self (peer : PeerId) (ms : Members) : (ms.unseat peer).find? peer = none := by
  simp [find?, unseat]

theorem find?_unseat_of_ne {peer other : PeerId} (h : other ≠ peer) (ms : Members) :
    (ms.unseat peer).find? other = ms.find? other := by
  simp only [find?, unseat, List.find?_filter]
  congr 1
  funext m
  by_cases hm : m.peer = other <;> simp [hm, h]

end Members

/-- All rooms with their members. -/
structure Registry where
  rooms : List (RoomId × Members) := []
deriving DecidableEq, Repr

/-- What a join brings about: the members afterwards, the new one included, and the connection
that held the place before. -/
structure Joined where
  members : Members
  superseded : Option Connection
deriving DecidableEq, Repr

/-- What a leave brings about. -/
inductive Departure where
  | notMember
  | roomEmpty
  | remaining (members : Members)
deriving DecidableEq, Repr

namespace Registry

def members? (r : Registry) (room : RoomId) : Option Members :=
  (r.rooms.find? (·.1 == room)).map (·.2)

def contains (r : Registry) (room : RoomId) : Bool :=
  (r.members? room).isSome

def roomCount (r : Registry) : Nat :=
  r.rooms.length

/-- The connection that holds a place. -/
def holder? (r : Registry) (room : RoomId) (peer : PeerId) : Option Connection :=
  (r.members? room).bind (·.find? peer)

def setRoom (room : RoomId) (ms : Members) : List (RoomId × Members) → List (RoomId × Members)
  | [] => [(room, ms)]
  | entry :: rest => if entry.1 = room then (room, ms) :: rest else entry :: setRoom room ms rest

def removeRoom (room : RoomId) (rooms : List (RoomId × Members)) : List (RoomId × Members) :=
  rooms.filter (·.1 != room)

/-- Seats a connection in a room, which comes into being if need be. -/
def join (r : Registry) (room : RoomId) (c : Connection) : Registry × Joined :=
  let before := (r.members? room).getD []
  let members := before.seat c
  (⟨setRoom room members r.rooms⟩, ⟨members, before.find? c.peer⟩)

/-- Gives up the place of a connection if it still holds it, and the room with its last member. -/
def leave (r : Registry) (room : RoomId) (c : Connection) : Registry × Departure :=
  match r.members? room with
  | none => (r, .notMember)
  | some members =>
    if members.isHeldBy c then
      match members.unseat c.peer with
      | [] => (⟨removeRoom room r.rooms⟩, .roomEmpty)
      | rest => (⟨setRoom room rest r.rooms⟩, .remaining rest)
    else (r, .notMember)

theorem find?_setRoom_self (room : RoomId) (ms : Members) (rooms : List (RoomId × Members)) :
    (setRoom room ms rooms).find? (·.1 == room) = some (room, ms) := by
  induction rooms with
  | nil => simp [setRoom]
  | cons entry rest ih =>
    simp only [setRoom]
    split
    · simp
    · rename_i h
      simpa [h] using ih

theorem find?_setRoom_of_ne {room other : RoomId} (h : other ≠ room) (ms : Members)
    (rooms : List (RoomId × Members)) :
    (setRoom room ms rooms).find? (·.1 == other) = rooms.find? (·.1 == other) := by
  induction rooms with
  | nil => simp [setRoom, Ne.symm h]
  | cons entry rest ih =>
    simp only [setRoom]
    split
    · rename_i hr
      simp [hr, Ne.symm h]
    · simp only [List.find?_cons, ih]

theorem find?_removeRoom_self (room : RoomId) (rooms : List (RoomId × Members)) :
    (removeRoom room rooms).find? (·.1 == room) = none := by
  simp [removeRoom]

theorem find?_removeRoom_of_ne {room other : RoomId} (h : other ≠ room)
    (rooms : List (RoomId × Members)) :
    (removeRoom room rooms).find? (·.1 == other) = rooms.find? (·.1 == other) := by
  simp only [removeRoom, List.find?_filter]
  congr 1
  funext entry
  by_cases he : entry.1 = other <;> simp [he, h]

theorem members?_join_self (r : Registry) (room : RoomId) (c : Connection) :
    (r.join room c).1.members? room = some (((r.members? room).getD []).seat c) := by
  simp [join, members?, find?_setRoom_self]

theorem members?_join_of_ne {room other : RoomId} (h : other ≠ room) (r : Registry)
    (c : Connection) : (r.join room c).1.members? other = r.members? other := by
  simp [join, members?, find?_setRoom_of_ne h]

theorem members?_leave_of_ne {room other : RoomId} (h : other ≠ room) (r : Registry)
    (c : Connection) : (r.leave room c).1.members? other = r.members? other := by
  unfold leave
  split
  · rfl
  · split
    · split
      · simp [members?, find?_removeRoom_of_ne h]
      · simp [members?, find?_setRoom_of_ne h]
    · rfl

end Registry

end RoomRelay
