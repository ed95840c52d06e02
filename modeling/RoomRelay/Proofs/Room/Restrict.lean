import Mathlib.Tactic.SplitIfs
import RoomRelay.Proofs.Room.Tidy

/-!
The part of a registry that belongs to some of the rooms. Joins and leaves of these rooms act on
the part as they act on the whole, with the same answers, and those of other rooms do not touch it.
-/

namespace RoomRelay.Registry

def restrict (p : RoomId → Bool) (r : Registry) : Registry :=
  ⟨r.rooms.filter (p ·.1)⟩

theorem restrict_all {p : RoomId → Bool} (all : ∀ room, p room = true) (r : Registry) :
    r.restrict p = r := by
  simp [restrict, all]

section

variable {p : RoomId → Bool} {room : RoomId}

theorem members?_restrict (inside : p room = true) (r : Registry) :
    (r.restrict p).members? room = r.members? room := by
  unfold members? restrict
  rw [List.find?_filter]
  congr 2
  funext entry
  rcases eq_or_ne entry.1 room with hroom | hne
  · simp [hroom, inside]
  · simp [hne]

theorem filter_setRoom (inside : p room = true) (ms : Members) (rooms : List (RoomId × Members)) :
    (setRoom room ms rooms).filter (p ·.1) = setRoom room ms (rooms.filter (p ·.1)) := by
  induction rooms with
  | nil => simp [setRoom, inside]
  | cons entry rest ih =>
      rw [setRoom]
      split_ifs with hroom
      · subst hroom
        simp [inside, setRoom]
      · cases hp : p entry.1 <;> simp [hp, hroom, setRoom, ih]

theorem filter_setRoom_of_outside (outside : p room = false) (ms : Members)
    (rooms : List (RoomId × Members)) :
    (setRoom room ms rooms).filter (p ·.1) = rooms.filter (p ·.1) := by
  induction rooms with
  | nil => simp [setRoom, outside]
  | cons entry rest ih =>
      rw [setRoom]
      split_ifs with hroom
      · subst hroom
        simp [outside]
      · rw [List.filter_cons, List.filter_cons, ih]

theorem filter_removeRoom (rooms : List (RoomId × Members)) :
    (removeRoom room rooms).filter (p ·.1) = removeRoom room (rooms.filter (p ·.1)) := by
  rw [removeRoom, removeRoom, List.filter_filter, List.filter_filter]
  apply List.filter_congr
  intro entry _
  rw [Bool.and_comm]

theorem filter_removeRoom_of_outside (outside : p room = false)
    (rooms : List (RoomId × Members)) :
    (removeRoom room rooms).filter (p ·.1) = rooms.filter (p ·.1) := by
  rw [removeRoom, List.filter_filter]
  apply List.filter_congr
  intro entry _
  rcases eq_or_ne entry.1 room with hroom | hne
  · simp [hroom, outside]
  · simp [hne]

/-! ### The two operations on a part -/

theorem restrict_join (inside : p room = true) (r : Registry) (c : Connection) :
    (r.restrict p).join room c = ((r.join room c).1.restrict p, (r.join room c).2) := by
  rw [join, members?_restrict inside]
  simp only [join, restrict, filter_setRoom inside]

theorem restrict_join_of_outside (outside : p room = false) (r : Registry) (c : Connection) :
    (r.join room c).1.restrict p = r.restrict p := by
  simp only [join, restrict, filter_setRoom_of_outside outside]

theorem restrict_leave (inside : p room = true) (r : Registry) (c : Connection) :
    (r.restrict p).leave room c = ((r.leave room c).1.restrict p, (r.leave room c).2) := by
  rw [leave, members?_restrict inside, leave]
  split
  · rfl
  · split
    · split
      · simp only [restrict, filter_removeRoom]
      · simp only [restrict, filter_setRoom inside]
    · rfl

theorem restrict_leave_of_outside (outside : p room = false) (r : Registry) (c : Connection) :
    (r.leave room c).1.restrict p = r.restrict p := by
  rw [leave]
  split
  · rfl
  · split
    · split
      · simp only [restrict, filter_removeRoom_of_outside outside]
      · simp only [restrict, filter_setRoom_of_outside outside]
    · rfl

end

end RoomRelay.Registry
