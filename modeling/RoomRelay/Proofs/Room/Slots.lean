import Mathlib.Data.Finset.Card
import Mathlib.Logic.Function.Basic
import RoomRelay.Proofs.Room.Tidy

/-!
A registry seen as one flat map from room and peer id to connection. A join fills a slot, and a
leave clears the slot if this very connection holds it. Whatever calls are made, by whatever
connections and in whatever order, the registry and the flat map do not come apart: they show the
same rooms with the same members, and every call is answered as the flat map says.
-/

namespace RoomRelay

/-- Which connection sits in which slot. -/
abbrev Slots := RoomId × PeerId → Option Connection

namespace Slots

def empty : Slots := fun _ => none

def join (m : Slots) (room : RoomId) (c : Connection) : Slots :=
  Function.update m (room, c.peer) (some c)

/-- Whether the slot of a connection's peer id holds this very connection. -/
def isHeldBy (m : Slots) (room : RoomId) (c : Connection) : Bool :=
  (m (room, c.peer)).any (·.same c)

def leave (m : Slots) (room : RoomId) (c : Connection) : Slots :=
  if m.isHeldBy room c then Function.update m (room, c.peer) none else m

/-- Some slot of the room is taken. -/
def Occupied (m : Slots) (room : RoomId) : Prop :=
  ∃ peer c, m (room, peer) = some c

/-- These are the entries of the room and nothing else, one for each peer id, each to be found
under its own. -/
structure Lists (m : Slots) (room : RoomId) (ms : Members) : Prop where
  peers_nodup : (ms.map (·.peer)).Nodup
  mem_iff : ∀ c, c ∈ ms ↔ m (room, c.peer) = some c
  find?_eq : ∀ peer, ms.find? peer = m (room, peer)

/-- A join is answered with the room after the insert and the slot's previous holder. -/
structure AnswersJoin (m : Slots) (room : RoomId) (c : Connection) (answer : Joined) : Prop where
  members : (m.join room c).Lists room answer.members
  superseded : answer.superseded = m (room, c.peer)

/-- A leave is refused, and then changes nothing, when this connection does not hold the slot. It
empties the room when no other slot of it is taken, and is otherwise answered with those who
remain. -/
structure AnswersLeave (m : Slots) (room : RoomId) (c : Connection) (before after : Registry)
    (answer : Departure) : Prop where
  notMember_iff : answer = .notMember ↔ m.isHeldBy room c = false
  unchanged : answer = .notMember → after = before
  roomEmpty_iff : answer = .roomEmpty ↔
    m.isHeldBy room c = true ∧ ∀ peer, peer ≠ c.peer → m (room, peer) = none
  remaining_iff : (∃ ms, answer = .remaining ms) ↔
    m.isHeldBy room c = true ∧ (m.leave room c).Occupied room
  remaining : ∀ ms, answer = .remaining ms → (m.leave room c).Lists room ms

end Slots

namespace Registry

/-- A call on a registry. -/
inductive Call where
  | join (room : RoomId) (c : Connection)
  | leave (room : RoomId) (c : Connection)
deriving DecidableEq, Repr

def Call.connection : Call → Connection
  | .join _ c | .leave _ c => c

def call (r : Registry) : Call → Registry
  | .join room c => (r.join room c).1
  | .leave room c => (r.leave room c).1

/-- An empty registry after these calls, the first of the list first. -/
def after (calls : List Call) : Registry :=
  calls.foldl call {}

/-- A registry and a flat map show the same rooms with the same members. -/
structure Simulates (r : Registry) (m : Slots) : Prop where
  contains_iff : ∀ room, r.contains room = true ↔ m.Occupied room
  members?_eq_none_iff : ∀ room, r.members? room = none ↔ ¬ m.Occupied room
  lists : ∀ room ms, r.members? room = some ms → m.Lists room ms
  own_peer : ∀ room peer c, m (room, peer) = some c → c.peer = peer
  roomCount_eq : ∃ rooms : Finset RoomId,
    (∀ room, room ∈ rooms ↔ m.Occupied room) ∧ r.roomCount = rooms.card

end Registry

def Slots.call (m : Slots) : Registry.Call → Slots
  | .join room c => m.join room c
  | .leave room c => m.leave room c

def Slots.after (calls : List Registry.Call) : Slots :=
  calls.foldl call empty

namespace Registry

/-- The flat map that a registry stands for. -/
def slots (r : Registry) : Slots :=
  fun slot => r.holder? slot.1 slot.2

@[simp]
theorem slots_apply (r : Registry) (room : RoomId) (peer : PeerId) :
    r.slots (room, peer) = r.holder? room peer := rfl

theorem isHeldBy_slots (r : Registry) (room : RoomId) (c : Connection) :
    r.slots.isHeldBy room c = r.isHeldBy room c := rfl

theorem slots_join (r : Registry) (room : RoomId) (c : Connection) :
    (r.join room c).1.slots = r.slots.join room c := by
  funext ⟨other, peer⟩
  rw [slots_apply, holder?_join, Slots.join, Function.update_apply]
  simp

theorem slots_leave (r : Registry) (room : RoomId) (c : Connection) :
    (r.leave room c).1.slots = r.slots.leave room c := by
  funext ⟨other, peer⟩
  rw [slots_apply, holder?_leave, Slots.leave, isHeldBy_slots]
  cases r.isHeldBy room c with
  | true => simp [Function.update_apply]
  | false => simp

theorem slots_call (r : Registry) (call : Call) : (r.call call).slots = r.slots.call call := by
  cases call with
  | join room c => exact slots_join r room c
  | leave room c => exact slots_leave r room c

theorem Tidy.call {r : Registry} (h : r.Tidy) (call : Call) : (r.call call).Tidy := by
  cases call with
  | join room c => exact h.join room c
  | leave room c => exact h.leave room c

/-- Every registry that calls can bring about is tidy and stands for the flat map after the same
calls. -/
theorem tidy_and_slots_after (calls : List Call) :
    (after calls).Tidy ∧ (after calls).slots = Slots.after calls := by
  have hrun (r : Registry) (m : Slots) (htidy : r.Tidy) (hslots : r.slots = m) :
      (calls.foldl call r).Tidy ∧ (calls.foldl call r).slots = calls.foldl Slots.call m := by
    induction calls generalizing r m with
    | nil => exact ⟨htidy, hslots⟩
    | cons first rest ih =>
        apply ih (r.call first) (m.call first) (htidy.call first)
        rw [slots_call, hslots]
  exact hrun {} Slots.empty tidy_empty rfl

theorem tidy_after (calls : List Call) : (after calls).Tidy :=
  (tidy_and_slots_after calls).1

/-- Whoever holds a place has been in some call. -/
theorem mem_calls_of_holder? {calls : List Call} {room : RoomId} {peer : PeerId} {c : Connection} :
    (after calls).holder? room peer = some c → c ∈ calls.map (·.connection) := by
  have hrun (r : Registry) (hc : (calls.foldl call r).holder? room peer = some c) :
      c ∈ calls.map (·.connection) ∨ r.holder? room peer = some c := by
    induction calls generalizing r with
    | nil => exact Or.inr hc
    | cons first rest ih =>
        rcases ih (r.call first) hc with hrest | hfirst
        · exact Or.inl (List.mem_cons_of_mem _ hrest)
        · cases first with
          | join other d =>
              rw [call, holder?_join] at hfirst
              split at hfirst
              · cases hfirst
                exact Or.inl List.mem_cons_self
              · exact Or.inr hfirst
          | leave other d =>
              rw [call, holder?_leave] at hfirst
              split at hfirst
              · cases hfirst
              · exact Or.inr hfirst
  intro h
  rcases hrun {} h with hmem | hnone
  · exact hmem
  · simp [holder?, members?] at hnone

section

variable {r : Registry}

theorem Tidy.lists (h : r.Tidy) {room : RoomId} {ms : Members}
    (hms : r.members? room = some ms) : r.slots.Lists room ms where
  peers_nodup := h.members_nodup hms
  mem_iff c := by
    rw [slots_apply, holder?_eq_find? hms, Members.find?_eq_some_iff (h.members_nodup hms)]
    simp
  find?_eq peer := by rw [slots_apply, holder?_eq_find? hms]

/-- A room that exists has a member, and a member is in a room that exists. -/
theorem Tidy.occupied_iff (h : r.Tidy) {room : RoomId} :
    r.slots.Occupied room ↔ ∃ ms, r.members? room = some ms := by
  constructor
  · rintro ⟨peer, c, hc⟩
    obtain ⟨ms, hms, -⟩ := Option.bind_eq_some_iff.mp hc
    exact ⟨ms, hms⟩
  · rintro ⟨ms, hms⟩
    obtain ⟨c, hc⟩ := List.exists_mem_of_ne_nil ms (h.members_ne_nil hms)
    exact ⟨c.peer, c, ((h.lists hms).mem_iff c).mp hc⟩

theorem exists_members?_iff {room : RoomId} :
    (∃ ms, r.members? room = some ms) ↔ room ∈ r.rooms.map (·.1) := by
  rw [← Option.isSome_iff_exists, ← Option.ne_none_iff_isSome, ne_eq, members?_eq_none_iff]
  simp

theorem Tidy.simulates (h : r.Tidy) : r.Simulates r.slots where
  contains_iff room := by
    rw [h.occupied_iff, contains, Option.isSome_iff_exists]
  members?_eq_none_iff room := by
    rw [h.occupied_iff, ← Option.isSome_iff_exists, Option.not_isSome_iff_eq_none]
  lists room ms hms := h.lists hms
  own_peer room peer c hc := peer_of_holder? hc
  roomCount_eq := by
    refine ⟨(r.rooms.map (·.1)).toFinset, ?_, ?_⟩
    · intro room
      rw [List.mem_toFinset, h.occupied_iff, exists_members?_iff]
    · rw [List.toFinset_card_of_nodup h.rooms_nodup, List.length_map, roomCount]

theorem Tidy.answersJoin (h : r.Tidy) (room : RoomId) (c : Connection) :
    r.slots.AnswersJoin room c (r.join room c).2 where
  members := by
    rw [← slots_join]
    exact (h.join room c).lists (members?_join_self r room c)
  superseded := find?_getD_members? r room c.peer

/-- What a leave answers where the place is held, told by the members who remain. -/
theorem leave_of_held {room : RoomId} {c : Connection} {ms : Members}
    (hms : r.members? room = some ms) (held : r.isHeldBy room c = true) :
    (ms.unseat c.peer = [] ∧ (r.leave room c).2 = .roomEmpty) ∨
      (ms.unseat c.peer ≠ [] ∧ (r.leave room c).2 = .remaining (ms.unseat c.peer) ∧
        (r.leave room c).1.members? room = some (ms.unseat c.peer)) := by
  rw [isHeldBy_of_members? hms] at held
  simp only [leave, hms, held, if_true]
  split
  · rename_i hnil
    exact Or.inl ⟨hnil, rfl⟩
  · rename_i hrest
    refine Or.inr ⟨hrest, rfl, ?_⟩
    simp [members?, find?_setRoom_self]

theorem unseat_eq_nil_iff {room : RoomId} {ms : Members} (h : r.Tidy)
    (hms : r.members? room = some ms) (peer : PeerId) :
    ms.unseat peer = [] ↔ ∀ other, other ≠ peer → r.slots (room, other) = none := by
  have hlists := h.lists hms
  constructor
  · intro hnil other hne
    by_contra hsome
    obtain ⟨d, hd⟩ := Option.ne_none_iff_exists'.mp hsome
    have hpeer : d.peer = other := peer_of_holder? hd
    subst hpeer
    have hmem : d ∈ ms.unseat peer := by
      simpa [Members.unseat, hne] using (hlists.mem_iff d).mpr hd
    rw [hnil] at hmem
    cases hmem
  · intro hnone
    apply List.eq_nil_iff_forall_not_mem.mpr
    intro d hd
    obtain ⟨hmem, hne⟩ : d ∈ ms ∧ d.peer ≠ peer := by simpa [Members.unseat] using hd
    have hslot := (hlists.mem_iff d).mp hmem
    rw [hnone d.peer hne] at hslot
    cases hslot

theorem not_occupied_leave {room : RoomId} {c : Connection}
    (alone : ∀ peer, peer ≠ c.peer → r.slots (room, peer) = none)
    (held : r.isHeldBy room c = true) : ¬ (r.slots.leave room c).Occupied room := by
  rintro ⟨peer, d, hd⟩
  simp only [Slots.leave, isHeldBy_slots, held, if_true, Function.update_apply,
    Prod.mk.injEq, true_and] at hd
  split at hd
  · cases hd
  · rename_i hne
    rw [alone peer hne] at hd
    cases hd

theorem Tidy.answersLeave (h : r.Tidy) (room : RoomId) (c : Connection) :
    r.slots.AnswersLeave room c r (r.leave room c).1 (r.leave room c).2 := by
  cases held : r.isHeldBy room c with
  | false =>
      rw [leave_of_not_held held]
      exact
        { notMember_iff := by simp [isHeldBy_slots, held]
          unchanged := fun _ => rfl
          roomEmpty_iff := by simp [isHeldBy_slots, held]
          remaining_iff := by simp [isHeldBy_slots, held]
          remaining := by simp }
  | true =>
      obtain ⟨d, hd, -⟩ := isHeldBy_iff.mp held
      obtain ⟨ms, hms, -⟩ := Option.bind_eq_some_iff.mp hd
      have hafter := h.leave room c
      have hnil := unseat_eq_nil_iff h hms c.peer
      rcases leave_of_held hms held with ⟨hempty, hanswer⟩ | ⟨hrest, hanswer, hmembers⟩
      · have hgone := not_occupied_leave (hnil.mp hempty) held
        exact
          { notMember_iff := by simp [hanswer, isHeldBy_slots, held]
            unchanged := by simp [hanswer]
            roomEmpty_iff := by simpa [hanswer, isHeldBy_slots, held] using hnil.mp hempty
            remaining_iff := by simp [hanswer, hgone]
            remaining := by simp [hanswer] }
      · have hremain : (r.slots.leave room c).Occupied room := by
          rw [← slots_leave, hafter.occupied_iff]
          exact ⟨_, hmembers⟩
        exact
          { notMember_iff := by simp [hanswer, isHeldBy_slots, held]
            unchanged := by simp [hanswer]
            roomEmpty_iff := by
              rw [← hnil]
              simp [hanswer, hrest]
            remaining_iff := by simp [hanswer, isHeldBy_slots, held, hremain]
            remaining := by
              intro rest hrest
              rw [hanswer] at hrest
              cases hrest
              rw [← slots_leave]
              exact hafter.lists hmembers }

end

/-- After any calls a registry simulates the flat map after the same calls, and whatever call comes
next is answered as that map says. -/
theorem after_simulates_slots (calls : List Call) :
    (after calls).Simulates (Slots.after calls) ∧
      (∀ room c, (Slots.after calls).AnswersJoin room c ((after calls).join room c).2) ∧
      ∀ room c, (Slots.after calls).AnswersLeave room c (after calls)
        ((after calls).leave room c).1 ((after calls).leave room c).2 := by
  obtain ⟨htidy, hslots⟩ := tidy_and_slots_after calls
  rw [← hslots]
  exact ⟨htidy.simulates, htidy.answersJoin, htidy.answersLeave⟩

/-- A connection that was replaced does not clear the slot of its successor. -/
example : (after [.join "r" ⟨0, "a"⟩, .join "r" ⟨1, "a"⟩, .leave "r" ⟨0, "a"⟩]).holder? "r" "a" =
    some ⟨1, "a"⟩ := by decide

end Registry

end RoomRelay
