import Mathlib.Data.List.Nodup
import RoomRelay.Room.Registry

/-!
What every registry keeps to, however it came about: each room is listed once, nobody is in a room
twice under one peer id, and no room is empty. In such a registry looking up a place and being
listed as a member are the same thing.
-/

namespace RoomRelay

namespace Members

theorem peers_seat (c : Connection) (ms : Members) :
    (ms.seat c).map (·.peer) =
      if c.peer ∈ ms.map (·.peer) then ms.map (·.peer) else ms.map (·.peer) ++ [c.peer] := by
  induction ms with
  | nil => simp [seat]
  | cons m rest ih =>
      rcases eq_or_ne m.peer c.peer with hm | hm
      · simp [seat, hm]
      · have hne : c.peer ≠ m.peer := Ne.symm hm
        simp only [seat, hm, if_false, List.map_cons, ih, List.mem_cons, hne, false_or]
        split <;> rfl

theorem peers_seat_nodup (c : Connection) {ms : Members} (h : (ms.map (·.peer)).Nodup) :
    ((ms.seat c).map (·.peer)).Nodup := by
  rw [peers_seat]
  split
  · exact h
  · rename_i hnew
    simpa using h.concat hnew

theorem seat_ne_nil (c : Connection) (ms : Members) : ms.seat c ≠ [] := by
  cases ms with
  | nil => simp [seat]
  | cons m rest =>
      simp only [seat]
      split <;> simp

theorem peers_unseat_nodup (peer : PeerId) {ms : Members} (h : (ms.map (·.peer)).Nodup) :
    ((ms.unseat peer).map (·.peer)).Nodup :=
  h.sublist (List.Sublist.map _ List.filter_sublist)

theorem mem_of_find? {ms : Members} {peer : PeerId} {c : Connection}
    (h : ms.find? peer = some c) : c ∈ ms ∧ c.peer = peer := by
  have hpeer := List.find?_some h
  exact ⟨List.mem_of_find?_eq_some h, by simpa using hpeer⟩

theorem find?_of_mem {ms : Members} {c : Connection} (nodup : (ms.map (·.peer)).Nodup)
    (h : c ∈ ms) : ms.find? c.peer = some c := by
  induction ms with
  | nil => cases h
  | cons m rest ih =>
      rw [List.map_cons, List.nodup_cons] at nodup
      rcases List.mem_cons.mp h with rfl | hrest
      · simp [find?]
      · have hne : m.peer ≠ c.peer := fun heq =>
          nodup.1 (heq ▸ List.mem_map_of_mem (f := fun d : Connection => d.peer) hrest)
        have htail := ih nodup.2 hrest
        simpa [find?, hne] using htail

/-- Under distinct peer ids, whoever is found in a place is the member with that peer id. -/
theorem find?_eq_some_iff {ms : Members} (nodup : (ms.map (·.peer)).Nodup) {peer : PeerId}
    {c : Connection} : ms.find? peer = some c ↔ c ∈ ms ∧ c.peer = peer := by
  constructor
  · exact mem_of_find?
  · rintro ⟨hmem, rfl⟩
    exact find?_of_mem nodup hmem

theorem isHeldBy_eq_any (ms : Members) (c : Connection) :
    ms.isHeldBy c = (ms.find? c.peer).any (·.same c) := by
  unfold isHeldBy
  cases ms.find? c.peer <;> rfl

end Members

namespace Registry

/-- One entry for each room, one member for each peer id in it, and somebody in every room. -/
structure Tidy (r : Registry) : Prop where
  rooms_nodup : (r.rooms.map (·.1)).Nodup
  peers_nodup : ∀ entry ∈ r.rooms, (entry.2.map (·.peer)).Nodup
  occupied : ∀ entry ∈ r.rooms, entry.2 ≠ []

theorem tidy_empty : Tidy {} where
  rooms_nodup := List.nodup_nil
  peers_nodup := by simp
  occupied := by simp

theorem keys_setRoom (room : RoomId) (ms : Members) (rooms : List (RoomId × Members)) :
    (setRoom room ms rooms).map (·.1) =
      if room ∈ rooms.map (·.1) then rooms.map (·.1) else rooms.map (·.1) ++ [room] := by
  induction rooms with
  | nil => simp [setRoom]
  | cons entry rest ih =>
      rcases eq_or_ne entry.1 room with hroom | hroom
      · simp [setRoom, hroom]
      · have hne : room ≠ entry.1 := Ne.symm hroom
        simp only [setRoom, hroom, if_false, List.map_cons, ih, List.mem_cons, hne, false_or]
        split <;> rfl

theorem mem_setRoom {room : RoomId} {ms : Members} {rooms : List (RoomId × Members)}
    {entry : RoomId × Members} (h : entry ∈ setRoom room ms rooms) :
    entry = (room, ms) ∨ entry ∈ rooms := by
  induction rooms with
  | nil => simpa [setRoom] using h
  | cons first rest ih =>
      simp only [setRoom] at h
      split at h
      · rcases List.mem_cons.mp h with heq | hrest
        · exact Or.inl heq
        · exact Or.inr (List.mem_cons_of_mem _ hrest)
      · rcases List.mem_cons.mp h with heq | hrest
        · exact Or.inr (heq ▸ List.mem_cons_self)
        · exact (ih hrest).imp_right (List.mem_cons_of_mem _)

theorem mem_of_members? {r : Registry} {room : RoomId} {ms : Members}
    (h : r.members? room = some ms) : (room, ms) ∈ r.rooms := by
  obtain ⟨entry, hfind, rfl⟩ := Option.map_eq_some_iff.mp h
  have hroom : entry.1 = room := by simpa using List.find?_some hfind
  subst hroom
  exact List.mem_of_find?_eq_some hfind

theorem members?_eq_none_iff {r : Registry} {room : RoomId} :
    r.members? room = none ↔ ∀ entry ∈ r.rooms, entry.1 ≠ room := by
  simp [members?]

namespace Tidy

variable {r : Registry}

/-- Putting orderly members into a room keeps a registry tidy. -/
theorem setRoom (h : r.Tidy) (room : RoomId) {ms : Members} (nodup : (ms.map (·.peer)).Nodup)
    (occupied : ms ≠ []) : Tidy ⟨Registry.setRoom room ms r.rooms⟩ where
  rooms_nodup := by
    rw [keys_setRoom]
    split
    · exact h.rooms_nodup
    · rename_i hnew
      simpa using h.rooms_nodup.concat hnew
  peers_nodup := by
    intro entry hentry
    rcases mem_setRoom hentry with rfl | hold
    · exact nodup
    · exact h.peers_nodup entry hold
  occupied := by
    intro entry hentry
    rcases mem_setRoom hentry with rfl | hold
    · exact occupied
    · exact h.occupied entry hold

theorem removeRoom (h : r.Tidy) (room : RoomId) :
    Tidy ⟨Registry.removeRoom room r.rooms⟩ where
  rooms_nodup := h.rooms_nodup.sublist (List.Sublist.map _ List.filter_sublist)
  peers_nodup entry hentry := h.peers_nodup entry (List.mem_of_mem_filter hentry)
  occupied entry hentry := h.occupied entry (List.mem_of_mem_filter hentry)

theorem members_nodup (h : r.Tidy) {room : RoomId} {ms : Members}
    (hms : r.members? room = some ms) : (ms.map (·.peer)).Nodup :=
  h.peers_nodup _ (mem_of_members? hms)

theorem members_ne_nil (h : r.Tidy) {room : RoomId} {ms : Members}
    (hms : r.members? room = some ms) : ms ≠ [] :=
  h.occupied _ (mem_of_members? hms)

theorem members?_of_mem (h : r.Tidy) {room : RoomId} {ms : Members}
    (hentry : (room, ms) ∈ r.rooms) : r.members? room = some ms := by
  have hsome : (r.rooms.find? (·.1 == room)).isSome := by
    rw [List.find?_isSome]
    exact ⟨(room, ms), hentry, by simp⟩
  obtain ⟨entry, hfind⟩ := Option.isSome_iff_exists.mp hsome
  have hroom : entry.1 = room := by simpa using List.find?_some hfind
  have hsame : entry = (room, ms) :=
    List.inj_on_of_nodup_map h.rooms_nodup (List.mem_of_find?_eq_some hfind) hentry hroom
  rw [members?, hfind, hsame]
  rfl

/-- A join keeps a registry tidy, whoever joins whatever room. -/
theorem join (h : r.Tidy) (room : RoomId) (c : Connection) : (r.join room c).1.Tidy := by
  apply h.setRoom room _ (Members.seat_ne_nil c _)
  apply Members.peers_seat_nodup
  cases hms : r.members? room with
  | none => exact List.nodup_nil
  | some ms => exact h.members_nodup hms

/-- So does a leave, whether or not the place is still held. -/
theorem leave (h : r.Tidy) (room : RoomId) (c : Connection) : (r.leave room c).1.Tidy := by
  unfold Registry.leave
  split
  · exact h
  · rename_i ms hms
    split
    · split
      · exact h.removeRoom room
      · rename_i hrest
        exact h.setRoom room (Members.peers_unseat_nodup c.peer (h.members_nodup hms)) hrest
    · exact h

end Tidy

/-! Who holds a place, in a registry and after each of its two operations. -/

theorem holder?_eq_some_iff {r : Registry} (h : r.Tidy) {room : RoomId} {peer : PeerId}
    {c : Connection} :
    r.holder? room peer = some c ↔ ∃ ms, r.members? room = some ms ∧ c ∈ ms ∧ c.peer = peer := by
  unfold holder?
  rw [Option.bind_eq_some_iff]
  constructor
  · rintro ⟨ms, hms, hfind⟩
    exact ⟨ms, hms, Members.mem_of_find? hfind⟩
  · rintro ⟨ms, hms, hmem⟩
    exact ⟨ms, hms, (Members.find?_eq_some_iff (h.members_nodup hms)).mpr hmem⟩

theorem peer_of_holder? {r : Registry} {room : RoomId} {peer : PeerId} {c : Connection}
    (h : r.holder? room peer = some c) : c.peer = peer := by
  obtain ⟨ms, -, hfind⟩ := Option.bind_eq_some_iff.mp h
  exact (Members.mem_of_find? hfind).2

theorem holder?_eq_find? {r : Registry} {room : RoomId} {ms : Members}
    (h : r.members? room = some ms) (peer : PeerId) : r.holder? room peer = ms.find? peer := by
  simp [holder?, h]

theorem find?_getD_members? (r : Registry) (room : RoomId) (peer : PeerId) :
    ((r.members? room).getD []).find? peer = r.holder? room peer := by
  unfold holder?
  cases r.members? room <;> rfl

theorem holder?_join (r : Registry) (room other : RoomId) (c : Connection) (peer : PeerId) :
    (r.join room c).1.holder? other peer =
      if other = room ∧ peer = c.peer then some c else r.holder? other peer := by
  rcases eq_or_ne other room with rfl | hroom
  · rw [holder?_eq_find? (members?_join_self r other c)]
    rcases eq_or_ne peer c.peer with hpeer | hpeer
    · simp [hpeer, Members.find?_seat_self]
    · simp [hpeer, Members.find?_seat_of_ne hpeer, find?_getD_members?]
  · simp [holder?, hroom, members?_join_of_ne hroom]

/-- Whether a place is held by this very connection. -/
def isHeldBy (r : Registry) (room : RoomId) (c : Connection) : Bool :=
  (r.holder? room c.peer).any (·.same c)

theorem isHeldBy_iff {r : Registry} {room : RoomId} {c : Connection} :
    r.isHeldBy room c = true ↔ ∃ d, r.holder? room c.peer = some d ∧ d.number = c.number := by
  unfold isHeldBy
  cases r.holder? room c.peer <;> simp [Connection.same]

theorem isHeldBy_of_members? {r : Registry} {room : RoomId} {ms : Members}
    (h : r.members? room = some ms) (c : Connection) :
    r.isHeldBy room c = ms.isHeldBy c := by
  rw [Members.isHeldBy_eq_any, isHeldBy, holder?_eq_find? h]

theorem leave_of_not_held {r : Registry} {room : RoomId} {c : Connection}
    (h : r.isHeldBy room c = false) : r.leave room c = (r, .notMember) := by
  unfold leave
  split
  · rfl
  · rename_i ms hms
    rw [← isHeldBy_of_members? hms, h]
    rfl

/-- Giving up a place that is held empties it and leaves the other places of the room alone. -/
theorem holder?_leave_of_held {r : Registry} {room : RoomId} {c : Connection}
    (held : r.isHeldBy room c = true) (peer : PeerId) :
    (r.leave room c).1.holder? room peer =
      (Members.unseat c.peer ((r.members? room).getD [])).find? peer := by
  obtain ⟨d, hd, -⟩ := isHeldBy_iff.mp held
  obtain ⟨ms, hms, -⟩ := Option.bind_eq_some_iff.mp hd
  rw [isHeldBy_of_members? hms] at held
  simp only [leave, hms, held, if_true, Option.getD_some]
  split
  · rename_i hnil
    simp [holder?, members?, find?_removeRoom_self, hnil, Members.find?]
  · simp [holder?, members?, find?_setRoom_self]

theorem holder?_leave (r : Registry) (room other : RoomId) (c : Connection) (peer : PeerId) :
    (r.leave room c).1.holder? other peer =
      if other = room ∧ peer = c.peer ∧ r.isHeldBy room c = true then none
      else r.holder? other peer := by
  cases hheld : r.isHeldBy room c with
  | false =>
      rw [leave_of_not_held hheld]
      simp
  | true =>
      rcases eq_or_ne other room with rfl | hroom
      · rw [holder?_leave_of_held hheld]
        rcases eq_or_ne peer c.peer with hpeer | hpeer
        · simp [hpeer, Members.find?_unseat_self]
        · simp [hpeer, Members.find?_unseat_of_ne hpeer, find?_getD_members?]
      · simp [holder?, hroom, members?_leave_of_ne hroom]

end Registry

end RoomRelay
