import RoomRelay.Proofs.Hub.Post
import RoomRelay.Proofs.Hub.Relay
import RoomRelay.Proofs.Room.Restrict

/-!
Two states of the relay that look alike to some of the connections. A scope says which rooms are
watched, whose pending leaves, and whose outboxes. An operation of a watched room does the same to
what is watched in both states and is answered alike. An operation of a connection that has no
place in a watched room, and whose own outbox is not watched, does nothing to what is watched.
-/

namespace RoomRelay

/-- What is watched: rooms, and connections by their numbers, for what they do and for what comes
to them. -/
structure Scope where
  rooms : RoomId → Bool
  actors : Nat → Bool
  queues : Nat → Bool

namespace Scope

/-- All rooms, and all connections in what they do and in what comes to them. -/
def everything : Scope where
  rooms _ := true
  actors _ := true
  queues _ := true

/-- Somebody whose outbox is watched is meant. -/
def targets (σ : Scope) (d : Delivery) : Bool :=
  d.targets.any (σ.queues ·.number)

end Scope

namespace Hub

/-- The states differ in nothing that is watched. The log is not. -/
structure Agrees (σ : Scope) (h k : Hub) : Prop where
  registry : h.registry.restrict σ.rooms = k.registry.restrict σ.rooms
  departures : h.departures.filter (σ.actors ·.2.number) =
    k.departures.filter (σ.actors ·.2.number)
  deliveries : h.deliveries.filter σ.targets = k.deliveries.filter σ.targets
  outbox : ∀ c, σ.queues c.number = true → h.outbox c = k.outbox c
  now : h.now = k.now
  delay : h.delay = k.delay

variable {σ : Scope} {g h k : Hub}

namespace Agrees

theorem refl (h : Hub) : h.Agrees σ h := ⟨rfl, rfl, rfl, fun _ _ => rfl, rfl, rfl⟩

theorem symm (agrees : h.Agrees σ k) : k.Agrees σ h where
  registry := agrees.registry.symm
  departures := agrees.departures.symm
  deliveries := agrees.deliveries.symm
  outbox c hc := (agrees.outbox c hc).symm
  now := agrees.now.symm
  delay := agrees.delay.symm

theorem trans (first : g.Agrees σ h) (second : h.Agrees σ k) : g.Agrees σ k where
  registry := first.registry.trans second.registry
  departures := first.departures.trans second.departures
  deliveries := first.deliveries.trans second.deliveries
  outbox c hc := (first.outbox c hc).trans (second.outbox c hc)
  now := first.now.trans second.now
  delay := first.delay.trans second.delay

/-- What is alike but for the outboxes agrees if the watched outboxes do. -/
theorem of_alike {h' k' : Hub} (agrees : h.Agrees σ k) (left : h.Alike h') (right : k.Alike k')
    (outbox : ∀ c, σ.queues c.number = true → h'.outbox c = k'.outbox c) : h'.Agrees σ k' where
  registry := by rw [left.registry, right.registry, agrees.registry]
  departures := by rw [left.departures, right.departures, agrees.departures]
  deliveries := by rw [left.deliveries, right.deliveries, agrees.deliveries]
  outbox := outbox
  now := by rw [left.now, right.now, agrees.now]
  delay := by rw [left.delay, right.delay, agrees.delay]

theorem members? (agrees : h.Agrees σ k) {room : RoomId} (watched : σ.rooms room = true) :
    h.registry.members? room = k.registry.members? room := by
  rw [← Registry.members?_restrict watched, agrees.registry, Registry.members?_restrict watched]

theorem registry_eq (agrees : h.Agrees σ k) (all : ∀ room, σ.rooms room = true) :
    h.registry = k.registry := by
  rw [← Registry.restrict_all all h.registry, agrees.registry, Registry.restrict_all all]

theorem record (agrees : h.Agrees σ k) (e e' : Event) :
    (h.record e).Agrees σ (k.record e') :=
  agrees.of_alike (alike_record h e) (alike_record k e') agrees.outbox

end Agrees

theorem agrees_record (h : Hub) (e : Event) : h.Agrees σ (h.record e) :=
  ⟨rfl, rfl, rfl, fun _ _ => rfl, rfl, rfl⟩

/-- Alike but for outboxes that are not watched. -/
theorem Alike.agrees (alike : h.Alike k)
    (outbox : ∀ c, σ.queues c.number = true → k.outbox c = h.outbox c) : h.Agrees σ k :=
  (Agrees.refl h).of_alike (Alike.refl h) alike fun c hc => (outbox c hc).symm

/-- Changing the outbox of one connection in the same way on both sides. -/
theorem Agrees.of_one {h' k' : Hub} (agrees : h.Agrees σ k) (left : h.Alike h')
    (right : k.Alike k') {c : Connection} (f : Outbox → Outbox)
    (left_self : h'.outbox c = f (h.outbox c)) (right_self : k'.outbox c = f (k.outbox c))
    (left_others : ∀ d : Connection, c.number ≠ d.number → h'.outbox d = h.outbox d)
    (right_others : ∀ d : Connection, c.number ≠ d.number → k'.outbox d = k.outbox d) :
    h'.Agrees σ k' := by
  apply agrees.of_alike left right
  intro d hd
  rcases eq_or_ne c.number d.number with hsame | hne
  · rw [outbox_congr h' hsame.symm, left_self, outbox_congr h hsame, agrees.outbox d hd,
      outbox_congr k' hsame.symm, right_self, outbox_congr k hsame]
  · rw [left_others d hne, right_others d hne, agrees.outbox d hd]

theorem Alike.agrees_of_others (alike : h.Alike k) {c : Connection}
    (own : σ.queues c.number = false)
    (others : ∀ d : Connection, c.number ≠ d.number → k.outbox d = h.outbox d) :
    h.Agrees σ k := by
  apply alike.agrees
  intro d hd
  apply others
  intro hsame
  rw [hsame, hd] at own
  cases own

/-! ### Sending -/

theorem outbox_sendEach_congr {c : Connection} (same : h.outbox c = k.outbox c) (f : Frame)
    (failed failed' : PeerId → RelayError → Event) (cs : List Connection) :
    (h.sendEach f failed cs).outbox c = (k.sendEach f failed' cs).outbox c := by
  induction cs generalizing h k with
  | nil => exact same
  | cons d rest ih =>
      have hattempt : (h.attempt f failed d).outbox c = (k.attempt f failed' d).outbox c := by
        rw [outbox_attempt, outbox_attempt, same]
      exact ih hattempt

/-- What holds of an outbox while one frame is posted into it holds after any sending of it. -/
theorem sendEach_rule {P : Outbox → Prop} {f : Frame} (post : ∀ q, P q → P (q.post f))
    {c : Connection} (holds : P (h.outbox c)) (failed : PeerId → RelayError → Event)
    (cs : List Connection) : P ((h.sendEach f failed cs).outbox c) := by
  induction cs generalizing h with
  | nil => exact holds
  | cons d rest ih =>
      have hattempt : P ((h.attempt f failed d).outbox c) := by
        rw [outbox_attempt]
        split
        · exact post _ holds
        · exact holds
      exact ih hattempt

theorem outbox_sendEach_of_not_mem {c : Connection} {cs : List Connection}
    (other : ∀ d ∈ cs, d.number ≠ c.number) (h : Hub) (f : Frame)
    (failed : PeerId → RelayError → Event) : (h.sendEach f failed cs).outbox c = h.outbox c := by
  induction cs generalizing h with
  | nil => rfl
  | cons d rest ih =>
      have hrest := ih (fun e he => other e (List.mem_cons_of_mem _ he)) (h.attempt f failed d)
      have hne : c.number ≠ d.number := (other d List.mem_cons_self).symm
      refine hrest.trans ?_
      rw [outbox_attempt, if_neg hne]

theorem Agrees.sendEach (agrees : h.Agrees σ k) (f : Frame)
    (failed failed' : PeerId → RelayError → Event) (cs : List Connection) :
    (h.sendEach f failed cs).Agrees σ (k.sendEach f failed' cs) :=
  agrees.of_alike (alike_sendEach h f failed cs) (alike_sendEach k f failed' cs)
    fun c hc => outbox_sendEach_congr (agrees.outbox c hc) f failed failed' cs

/-- None of these connections has a watched outbox. -/
def Unwatched (σ : Scope) (cs : List Connection) : Prop :=
  ∀ c ∈ cs, σ.queues c.number = false

theorem Unwatched.ne {cs : List Connection} (unwatched : Unwatched σ cs) {c : Connection}
    (hc : σ.queues c.number = true) : ∀ d ∈ cs, d.number ≠ c.number := by
  intro d hd hsame
  have hfalse := unwatched d hd
  rw [hsame, hc] at hfalse
  cases hfalse

theorem agrees_sendEach {cs : List Connection} (unwatched : Unwatched σ cs) (h : Hub) (f : Frame)
    (failed : PeerId → RelayError → Event) : h.Agrees σ (h.sendEach f failed cs) :=
  (alike_sendEach h f failed cs).agrees
    fun _ hc => outbox_sendEach_of_not_mem (unwatched.ne hc) h f failed

theorem Agrees.close (agrees : h.Agrees σ k) (c : Connection) (request : Close) :
    (h.close c request).Agrees σ (k.close c request) :=
  agrees.of_one (alike_close h c request true) (alike_close k c request true)
    (·.requestClose true request)
    (outbox_close_self h c request true) (outbox_close_self k c request true)
    (fun _ hne => outbox_close_of_ne hne h request true)
    (fun _ hne => outbox_close_of_ne hne k request true)

theorem agrees_close {c : Connection} (own : σ.queues c.number = false) (h : Hub)
    (request : Close) : h.Agrees σ (h.close c request) :=
  (alike_close h c request true).agrees_of_others own
    fun _ hne => outbox_close_of_ne hne h request true

/-! ### Joining and leaving -/

theorem Agrees.broadcastPeers (agrees : h.Agrees σ k) (room : RoomId)
    (members : List Connection) :
    (h.broadcastPeers room members).Agrees σ (k.broadcastPeers room members) := by
  unfold Hub.broadcastPeers
  split
  · exact agrees.sendEach _ _ _ members
  · exact agrees.record _ _

theorem agrees_broadcastPeers {members : List Connection} (unwatched : Unwatched σ members)
    (h : Hub) (room : RoomId) : h.Agrees σ (h.broadcastPeers room members) := by
  unfold broadcastPeers
  split
  · exact agrees_sendEach unwatched h _ _
  · exact agrees_record h _

theorem Agrees.announceJoin (agrees : h.Agrees σ k) (room : RoomId) (c : Connection)
    (joined : Joined) : (h.announceJoin room c joined).Agrees σ (k.announceJoin room c joined) := by
  unfold Hub.announceJoin
  apply Agrees.broadcastPeers
  apply Agrees.record
  cases joined.superseded with
  | none => exact agrees
  | some previous => exact (agrees.record _ _).close previous superseded

theorem agrees_announceJoin {joined : Joined} (unwatched : Unwatched σ joined.members)
    (replaced : Unwatched σ joined.superseded.toList) (h : Hub) (room : RoomId) (c : Connection) :
    h.Agrees σ (h.announceJoin room c joined) := by
  unfold announceJoin
  refine Agrees.trans ?_ (agrees_broadcastPeers unwatched _ room)
  refine Agrees.trans ?_ (agrees_record _ _)
  cases hsuperseded : joined.superseded with
  | none => exact Agrees.refl h
  | some previous =>
      have hprevious : σ.queues previous.number = false := replaced previous (by simp [hsuperseded])
      exact (agrees_record h _).trans (agrees_close hprevious _ superseded)

theorem Agrees.announceLeave (agrees : h.Agrees σ k) (room : RoomId) (c : Connection)
    (departure : Departure) :
    (h.announceLeave room c departure).Agrees σ (k.announceLeave room c departure) := by
  unfold Hub.announceLeave
  apply Agrees.record
  cases departure with
  | notMember => exact agrees.record _ _
  | roomEmpty => exact agrees.record _ _
  | remaining members => exact agrees.broadcastPeers room members

theorem agrees_announceLeave {departure : Departure} (unwatched : Unwatched σ departure.members)
    (h : Hub) (room : RoomId) (c : Connection) : h.Agrees σ (h.announceLeave room c departure) := by
  unfold announceLeave
  refine Agrees.trans ?_ (agrees_record _ _)
  cases departure with
  | notMember => exact agrees_record h _
  | roomEmpty => exact agrees_record h _
  | remaining members => exact agrees_broadcastPeers unwatched h room

theorem Agrees.enter (agrees : h.Agrees σ k) {room : RoomId} (watched : σ.rooms room = true)
    (c : Connection) :
    (h.enter room c).1.Agrees σ (k.enter room c).1 ∧ (h.enter room c).2 = (k.enter room c).2 := by
  have hjoin := Registry.restrict_join watched h.registry c
  rw [agrees.registry, Registry.restrict_join watched] at hjoin
  obtain ⟨hregistry, hanswer⟩ := Prod.mk.inj hjoin
  exact ⟨{ agrees with registry := hregistry.symm }, hanswer.symm⟩

theorem Agrees.join (agrees : h.Agrees σ k) {room : RoomId} (watched : σ.rooms room = true)
    (c : Connection) :
    (h.join room c).1.Agrees σ (k.join room c).1 ∧ (h.enter room c).2 = (k.enter room c).2 := by
  obtain ⟨hentered, hanswer⟩ := agrees.enter watched c
  have hjoined : (h.join room c).1 = (h.enter room c).1.announceJoin room c (k.enter room c).2 := by
    rw [← hanswer]
    rfl
  refine ⟨?_, hanswer⟩
  rw [hjoined]
  exact hentered.announceJoin room c (k.enter room c).2

theorem Agrees.exit (agrees : h.Agrees σ k) {room : RoomId} (watched : σ.rooms room = true)
    (c : Connection) :
    (h.exit room c).1.Agrees σ (k.exit room c).1 ∧ (h.exit room c).2 = (k.exit room c).2 := by
  have hleave := Registry.restrict_leave watched h.registry c
  rw [agrees.registry, Registry.restrict_leave watched] at hleave
  obtain ⟨hregistry, hanswer⟩ := Prod.mk.inj hleave
  exact ⟨{ agrees with registry := hregistry.symm }, hanswer.symm⟩

theorem Agrees.depart (agrees : h.Agrees σ k) {room : RoomId} (watched : σ.rooms room = true)
    (c : Connection) :
    (h.depart room c).Agrees σ (k.depart room c) ∧
      (h.registry.leave room c).2 = (k.registry.leave room c).2 := by
  obtain ⟨hexited, hanswer⟩ := agrees.exit watched c
  have hdeparted : h.depart room c = (h.exit room c).1.announceLeave room c (k.exit room c).2 := by
    rw [← hanswer]
    rfl
  refine ⟨?_, hanswer⟩
  rw [hdeparted]
  exact hexited.announceLeave room c (k.exit room c).2

/-- Nothing that the connection does in the room is watched: not its own outbox, and either it
has no place there to do it from, or neither the room is watched nor who is in it. -/
structure Aside (σ : Scope) (h : Hub) (room : RoomId) (c : Connection) : Prop where
  own : σ.queues c.number = false
  place : h.registry.isHeldBy room c = false ∨
    σ.rooms room = false ∧ ∀ ms, h.registry.members? room = some ms → Unwatched σ ms

end Hub

theorem Members.mem_seat {c d : Connection} {ms : Members} (h : d ∈ ms.seat c) :
    d = c ∨ d ∈ ms := by
  induction ms with
  | nil => exact Or.inl (List.mem_singleton.mp h)
  | cons m rest ih =>
      rw [seat] at h
      split at h
      · exact (List.mem_cons.mp h).imp_right (List.mem_cons_of_mem _)
      · rcases List.mem_cons.mp h with rfl | hrest
        · exact Or.inr List.mem_cons_self
        · exact (ih hrest).imp_right (List.mem_cons_of_mem _)

theorem mem_of_mem_resolve {ms : Members} {sender : PeerId} {targets : Option Targets}
    {c : Connection} (h : c ∈ resolve ms sender targets) : c ∈ ms := by
  cases targets with
  | none => exact List.mem_of_mem_filter h
  | some named =>
      obtain ⟨id, -, hfind⟩ := List.mem_filterMap.mp h
      exact (Members.mem_of_find? hfind).1

/-- Those who are told of a leave were in the room before. -/
theorem Registry.mem_members_leave {r : Registry} {room : RoomId} {c d : Connection}
    (h : d ∈ (r.leave room c).2.members) : ∃ ms, r.members? room = some ms ∧ d ∈ ms := by
  cases hheld : r.isHeldBy room c with
  | false =>
      rw [leave_of_not_held hheld] at h
      cases h
  | true =>
      obtain ⟨e, he, -⟩ := isHeldBy_iff.mp hheld
      obtain ⟨ms, hms, -⟩ := Option.bind_eq_some_iff.mp he
      refine ⟨ms, hms, ?_⟩
      rcases leave_of_held hms hheld with ⟨-, hanswer⟩ | ⟨-, hanswer, -⟩
      · rw [hanswer] at h
        cases h
      · rw [hanswer] at h
        exact List.mem_of_mem_filter h

namespace Hub

variable {σ : Scope} {g h k : Hub}

theorem agrees_join {room : RoomId} (outside : σ.rooms room = false) {c : Connection}
    (own : σ.queues c.number = false)
    (others : ∀ ms, h.registry.members? room = some ms → Unwatched σ ms) :
    h.Agrees σ (h.join room c).1 := by
  have hentered : h.Agrees σ (h.enter room c).1 :=
    { Agrees.refl h with registry := (Registry.restrict_join_of_outside outside _ c).symm }
  have hmembers : Unwatched σ ((h.registry.members? room).getD []) := by
    cases hms : h.registry.members? room with
    | none => exact fun d hd => absurd hd List.not_mem_nil
    | some ms => exact others ms hms
  refine hentered.trans (agrees_announceJoin ?_ ?_ _ room c)
  · intro d hd
    rcases Members.mem_seat hd with rfl | hold
    · exact own
    · exact hmembers d hold
  · intro d hd
    exact hmembers d (Members.mem_of_find? (Option.mem_toList.mp hd)).1

theorem Aside.agrees_depart {room : RoomId} {c : Connection} (aside : h.Aside σ room c) :
    h.Agrees σ (h.depart room c) := by
  rcases aside.place with hheld | ⟨houtside, hothers⟩
  · have hexit : h.exit room c = (h, .notMember) := by
      rw [exit, Registry.leave_of_not_held hheld]
    rw [depart, hexit]
    exact agrees_announceLeave (fun d hd => absurd hd List.not_mem_nil) h room c
  · have hexited : h.Agrees σ (h.exit room c).1 :=
      { Agrees.refl h with registry := (Registry.restrict_leave_of_outside houtside _ c).symm }
    refine hexited.trans (agrees_announceLeave ?_ _ room c)
    intro d hd
    obtain ⟨ms, hms, hmem⟩ := Registry.mem_members_leave hd
    exact hothers ms hms d hmem

/-! ### Relaying -/

theorem Agrees.deliver (agrees : h.Agrees σ k) (d : Delivery) :
    (h.deliver d).Agrees σ (k.deliver d) :=
  agrees.sendEach d.frame _ _ d.targets

theorem agrees_deliver {d : Delivery} (unwatched : Unwatched σ d.targets) (h : Hub) :
    h.Agrees σ (h.deliver d) :=
  agrees_sendEach unwatched h d.frame _

theorem targets_eq_false_iff {d : Delivery} : σ.targets d = false ↔ Unwatched σ d.targets := by
  simp [Scope.targets, Unwatched]

theorem Agrees.dispatch (agrees : h.Agrees σ k) (d : Delivery) :
    (h.dispatch d).Agrees σ (k.dispatch d) := by
  have hdelay := agrees.delay
  rcases eq_or_ne k.delay 0 with hzero | hheld
  · rw [Hub.dispatch, if_pos (hdelay.trans hzero), Hub.dispatch, if_pos hzero]
    exact agrees.deliver d
  · rw [Hub.dispatch, if_neg (hdelay ▸ hheld), Hub.dispatch, if_neg hheld]
    have hdeliveries : (h.deliveries ++ [d]).filter σ.targets =
        (k.deliveries ++ [d]).filter σ.targets := by
      rw [List.filter_append, List.filter_append, agrees.deliveries]
    exact { agrees with deliveries := hdeliveries }

theorem agrees_dispatch {d : Delivery} (unwatched : Unwatched σ d.targets) (h : Hub) :
    h.Agrees σ (h.dispatch d) := by
  unfold dispatch
  split
  · exact agrees_deliver unwatched h
  · have hdeliveries : h.deliveries.filter σ.targets =
        (h.deliveries ++ [d]).filter σ.targets := by
      simp [targets_eq_false_iff.mpr unwatched]
    exact { Agrees.refl h with deliveries := hdeliveries }

theorem Agrees.relay (agrees : h.Agrees σ k) {room : RoomId} (watched : σ.rooms room = true)
    (sender : Connection) (u : Uplink) :
    (h.relay room sender u).1.Agrees σ (k.relay room sender u).1 ∧
      (h.relay room sender u).2 = (k.relay room sender u).2 := by
  have hnext : h.nextDue = k.nextDue := by rw [nextDue, nextDue, agrees.now, agrees.delay]
  have hdue (e : Event) : (h.record e).nextDue = (k.record e).nextDue := hnext
  unfold Hub.relay
  rw [agrees.members? watched]
  cases (u.relayed sender.peer).encode with
  | error e => exact ⟨agrees, rfl⟩
  | ok frame =>
      cases k.registry.members? room with
      | none => exact ⟨agrees.close sender roomGone, rfl⟩
      | some ms =>
          simp only [hdue]
          split
          · exact ⟨(agrees.record _ _).dispatch _, rfl⟩
          · exact ⟨agrees.close sender superseded, rfl⟩

theorem Aside.agrees_close {room : RoomId} {c : Connection} (aside : h.Aside σ room c)
    (request : Close) : h.Agrees σ (h.close c request) :=
  Hub.agrees_close aside.own h request

/-- What a relay leads to: nothing, a request to close to who makes it, or a delivery to members of
the room if that one has its place there. -/
theorem relay_rule {P : Hub → Prop} {room : RoomId} {c : Connection} (same : P h)
    (close : ∀ request, P (h.close c request))
    (dispatch : ∀ e ms d, h.registry.members? room = some ms → h.registry.isHeldBy room c = true →
      (∀ t ∈ d.targets, t ∈ ms) → P ((h.record e).dispatch d))
    (u : Uplink) : P (h.relay room c u).1 := by
  rcases h.relay_cases room c u with
    ⟨e, -, heq⟩ | ⟨frame, -, ⟨-, heq⟩ | ⟨ms, -, -, heq⟩ | ⟨ms, hms, hheld, heq⟩⟩
  · rw [heq]
    exact same
  · rw [heq]
    exact close roomGone
  · rw [heq]
    exact close superseded
  · rw [heq]
    exact dispatch _ ms _ hms hheld fun t ht => mem_of_mem_resolve ht

theorem Aside.agrees_relay {room : RoomId} {c : Connection} (aside : h.Aside σ room c)
    (u : Uplink) : h.Agrees σ (h.relay room c u).1 := by
  refine relay_rule (Agrees.refl h) aside.agrees_close ?_ u
  intro e ms d hms hheld htargets
  rcases aside.place with hnot | ⟨-, hothers⟩
  · rw [hheld] at hnot
    cases hnot
  · refine (agrees_record h e).trans (agrees_dispatch ?_ _)
    intro t ht
    exact hothers ms hms t (htargets t ht)

/-! ### The passing of time -/

/-- What is to be delivered until a point in time. -/
def dueBy (h : Hub) (time : Nat) : List Delivery :=
  h.deliveries.filter (·.due ≤ time)

/-- The state at a later point in time, before what has become due is delivered. -/
def later (h : Hub) (time : Nat) : Hub :=
  { h with now := time, deliveries := h.deliveries.filter fun d => !decide (d.due ≤ time) }

theorem advance_eq (h : Hub) (milliseconds : Nat) :
    h.advance milliseconds =
      (h.dueBy (h.now + milliseconds)).foldl deliver (h.later (h.now + milliseconds)) := by
  rw [advance, List.partition_eq_filter_filter]
  rfl

theorem alike_deliver (h : Hub) (d : Delivery) : h.Alike (h.deliver d) :=
  alike_sendEach h d.frame _ d.targets

theorem alike_foldl_deliver (h : Hub) (ds : List Delivery) : h.Alike (ds.foldl deliver h) := by
  induction ds generalizing h with
  | nil => exact Alike.refl h
  | cons d rest ih => exact (alike_deliver h d).trans (ih (h.deliver d))

theorem registry_advance (h : Hub) (milliseconds : Nat) :
    (h.advance milliseconds).registry = h.registry := by
  rw [advance_eq]
  exact (alike_foldl_deliver _ _).registry

/-- Deliveries that are for nobody who is watched may be left out. -/
theorem Agrees.foldl_deliver (agrees : h.Agrees σ k) (ds : List Delivery) :
    (ds.foldl Hub.deliver h).Agrees σ ((ds.filter σ.targets).foldl Hub.deliver k) := by
  induction ds generalizing h k with
  | nil => exact agrees
  | cons d rest ih =>
      cases hd : σ.targets d with
      | true =>
          rw [List.filter_cons_of_pos hd]
          exact ih (agrees.deliver d)
      | false =>
          rw [List.filter_cons_of_neg (by simp [hd])]
          exact ih ((agrees_deliver (targets_eq_false_iff.mp hd) h).symm.trans agrees)

theorem Agrees.later (agrees : h.Agrees σ k) (time : Nat) :
    (h.later time).Agrees σ (k.later time) := by
  have hdeliveries : (h.later time).deliveries.filter σ.targets =
      (k.later time).deliveries.filter σ.targets := by
    simp only [Hub.later]
    rw [List.filter_comm, agrees.deliveries, List.filter_comm]
  exact { agrees with deliveries := hdeliveries, now := rfl }

theorem Agrees.advance (agrees : h.Agrees σ k) (milliseconds : Nat) :
    (h.advance milliseconds).Agrees σ (k.advance milliseconds) := by
  have hdue (time : Nat) : (h.dueBy time).filter σ.targets = (k.dueBy time).filter σ.targets := by
    rw [dueBy, List.filter_comm, agrees.deliveries, List.filter_comm, dueBy]
  rw [advance_eq, advance_eq, agrees.now]
  have hleft := (agrees.later (k.now + milliseconds)).foldl_deliver
    (h.dueBy (k.now + milliseconds))
  rw [hdue] at hleft
  have hkept : (k.later (k.now + milliseconds)).Agrees σ (k.later (k.now + milliseconds)) :=
    Agrees.refl _
  exact hleft.trans (hkept.foldl_deliver (k.dueBy (k.now + milliseconds))).symm

/-! ### Leaves in the background -/

theorem Agrees.carryOut (agrees : h.Agrees σ k) {room : RoomId} (watched : σ.rooms room = true)
    {c : Connection} (actor : σ.actors c.number = true) :
    (h.carryOut room c).Agrees σ (k.carryOut room c) ∧
      ((room, c) ∈ h.departures ↔ (room, c) ∈ k.departures) := by
  have hmem : (room, c) ∈ h.departures ↔ (room, c) ∈ k.departures := by
    have hfilter (l : List (RoomId × Connection)) :
        (room, c) ∈ l.filter (σ.actors ·.2.number) ↔ (room, c) ∈ l := by
      simp [actor]
    rw [← hfilter, agrees.departures, hfilter]
  refine ⟨?_, hmem⟩
  unfold Hub.carryOut
  split_ifs with hleft hright hright
  · have hdepartures : (h.departures.erase (room, c)).filter (σ.actors ·.2.number) =
        (k.departures.erase (room, c)).filter (σ.actors ·.2.number) := by
      rw [← List.erase_filter, agrees.departures, List.erase_filter]
    have herased : Agrees σ { h with departures := h.departures.erase (room, c) }
        { k with departures := k.departures.erase (room, c) } :=
      { agrees with departures := hdepartures }
    exact (herased.depart watched c).1
  · exact absurd (hmem.mp hleft) hright
  · exact absurd (hmem.mpr hright) hleft
  · exact agrees

theorem Aside.agrees_departs {room : RoomId} {c : Connection} (aside : h.Aside σ room c)
    (actor : σ.actors c.number = false) :
    h.Agrees σ (depart { h with departures := h.departures.erase (room, c) } room c) := by
  have hdepartures : h.departures.filter (σ.actors ·.2.number) =
      (h.departures.erase (room, c)).filter (σ.actors ·.2.number) := by
    rw [← List.erase_filter, List.erase_of_not_mem]
    simp [actor]
  have herased : h.Agrees σ { h with departures := h.departures.erase (room, c) } :=
    { Agrees.refl h with departures := hdepartures }
  have haside : Aside σ { h with departures := h.departures.erase (room, c) } room c :=
    ⟨aside.own, aside.place⟩
  exact herased.trans haside.agrees_depart

/-! ### The receiving ends -/

/-- The receiving end of a connection is used. -/
def use (h : Hub) (c : Connection) (u : Outbox.Use) : Hub :=
  h.setOutbox c ((h.outbox c).use u)

theorem alike_use (h : Hub) (c : Connection) (u : Outbox.Use) : h.Alike (h.use c u) :=
  alike_setOutbox h c _

/-- Nothing can be read from an outbox that was never made. -/
theorem outbox_use_self (h : Hub) (c : Connection) (u : Outbox.Use) :
    (h.use c u).outbox c = (h.outbox c).use u := by
  rcases Nat.lt_or_ge c.number h.outboxes.size with hmade | hunmade
  · exact outbox_setOutbox_self hmade _
  · have hnone : h.outboxes[c.number]? = none := Array.getElem?_eq_none hunmade
    have hused : (h.use c u).outboxes[c.number]? = none := by
      simp [use, setOutbox, Array.getElem?_modify, hnone]
    rw [outbox, hused, outbox, hnone]
    cases u <;> simp [Outbox.use, Outbox.read, Outbox.skip, Outbox.shut, Outbox.discard,
      Outbox.promote]

theorem outbox_use_of_same {c d : Connection} (same : d.number = c.number) (h : Hub)
    (u : Outbox.Use) : (h.use c u).outbox d = (h.outbox d).use u := by
  rw [outbox_congr (h.use c u) same, outbox_use_self, outbox_congr h same]

theorem outbox_use_of_ne {c d : Connection} (hne : c.number ≠ d.number) (h : Hub)
    (u : Outbox.Use) : (h.use c u).outbox d = h.outbox d :=
  outbox_setOutbox_of_ne hne h _

theorem Agrees.use (agrees : h.Agrees σ k) (c : Connection) (u : Outbox.Use) :
    (h.use c u).Agrees σ (k.use c u) :=
  agrees.of_one (alike_use h c u) (alike_use k c u) (·.use u)
    (outbox_use_self h c u) (outbox_use_self k c u)
    (fun _ hne => outbox_use_of_ne hne h u) (fun _ hne => outbox_use_of_ne hne k u)

theorem agrees_use {c : Connection} (own : σ.queues c.number = false) (h : Hub)
    (u : Outbox.Use) : h.Agrees σ (h.use c u) :=
  (alike_use h c u).agrees_of_others own fun _ hne => outbox_use_of_ne hne h u

end Hub

/-! ### Sessions -/

namespace Session

variable {σ : Scope} {h k : Hub}

section

variable {R : Hub → Hub → Prop} {s : Session}

theorem finish_related
    (depart : ∀ g g', R g g' → R (g.depart s.room s.connection) (g'.depart s.room s.connection))
    (related : R h k) :
    R (s.finish h).1 (s.finish k).1 ∧ (s.finish h).2 = (s.finish k).2 := by
  obtain ⟨⟨room, c, stage⟩, running⟩ := s
  cases stage with
  | member => exact ⟨depart h k related, rfl⟩
  | leaving => exact ⟨depart h k related, rfl⟩
  | _ => exact ⟨related, rfl⟩

theorem receiveFrame_related (record : ∀ g g' e, R g g' → R (g.record e) (g'.record e))
    (depart : ∀ g g', R g g' → R (g.depart s.room s.connection) (g'.depart s.room s.connection))
    (related : R h k)
    (relay : ∀ u, R (h.relay s.room s.connection u).1 (k.relay s.room s.connection u).1 ∧
      (h.relay s.room s.connection u).2 = (k.relay s.room s.connection u).2) (f : Frame) :
    R (s.receiveFrame h f).1 (s.receiveFrame k f).1 ∧
      (s.receiveFrame h f).2 = (s.receiveFrame k f).2 := by
  unfold receiveFrame
  cases Uplink.decode f.isBinary f.bytes with
  | error e => exact ⟨record h k _ related, rfl⟩
  | ok u =>
      obtain ⟨hrelayed, hanswer⟩ := relay u
      rcases hleft : h.relay s.room s.connection u with ⟨h', answer⟩
      rcases hright : k.relay s.room s.connection u with ⟨k', answer'⟩
      rw [hleft, hright] at hrelayed hanswer
      cases hanswer
      simp only [hleft, hright]
      cases answer with
      | ok count => exact ⟨hrelayed, rfl⟩
      | error e =>
          have hrefused := finish_related depart (record h' k' (.sessionRefused s.peer e) hrelayed)
          have hpassed := record h' k' (.unprocessed s.peer e) hrelayed
          cases e with
          | roomNotFound room => exact hrefused
          | staleSession room peer => exact hrefused
          | codec e => exact ⟨hpassed, rfl⟩
          | queueFull peer => exact ⟨hpassed, rfl⟩
          | peerGone peer => exact ⟨hpassed, rfl⟩

/-- What reports and leaves preserve between two states, and relays too, which are answered alike,
is preserved by whatever a session gets, and the session goes on in the same way in both. -/
theorem receive_related (record : ∀ g g' e, R g g' → R (g.record e) (g'.record e))
    (depart : ∀ g g', R g g' → R (g.depart s.room s.connection) (g'.depart s.room s.connection))
    (related : R h k)
    (relay : ∀ u, R (h.relay s.room s.connection u).1 (k.relay s.room s.connection u).1 ∧
      (h.relay s.room s.connection u).2 = (k.relay s.room s.connection u).2) (item : Inbound) :
    R (s.receive h item).1 (s.receive k item).1 ∧ (s.receive h item).2 = (s.receive k item).2 := by
  unfold receive
  split
  · cases item with
    | frame f => exact receiveFrame_related record depart related relay f
    | ping payload => exact ⟨related, rfl⟩
    | pong payload => exact ⟨related, rfl⟩
    | close request =>
        cases request with
        | none => exact finish_related depart related
        | some c =>
            simp only
            split
            · exact finish_related depart related
            · exact finish_related depart (record h k _ related)
    | failure reason => exact finish_related depart (record h k _ related)
    | ended => exact finish_related depart related
  · exact ⟨related, rfl⟩

end

/-- A session of a watched room goes on in the same way in both states. -/
theorem agrees_receive (agrees : h.Agrees σ k) (s : Session) (watched : σ.rooms s.room = true)
    (item : Inbound) :
    (s.receive h item).1.Agrees σ (s.receive k item).1 ∧
      (s.receive h item).2 = (s.receive k item).2 :=
  receive_related (R := fun g g' => g.Agrees σ g') (fun _ _ e hg => hg.record e e)
    (fun _ _ hg => (hg.depart watched s.connection).1) agrees
    (agrees.relay watched s.connection) item

theorem agrees_abort (agrees : h.Agrees σ k) (s : Session) :
    (s.abort h).1.Agrees σ (s.abort k).1 ∧ (s.abort h).2 = (s.abort k).2 := by
  obtain ⟨⟨room, c, stage⟩, running⟩ := s
  cases running with
  | false => exact ⟨agrees, rfl⟩
  | true =>
      cases stage with
      | member =>
          have hdepartures : (h.departures ++ [(room, c)]).filter (σ.actors ·.2.number) =
              (k.departures ++ [(room, c)]).filter (σ.actors ·.2.number) := by
            rw [List.filter_append, List.filter_append, agrees.departures]
          exact ⟨{ agrees with departures := hdepartures }, rfl⟩
      | leaving => exact ⟨agrees, rfl⟩
      | _ => exact ⟨agrees, rfl⟩

section

variable {P Q : Hub → Prop} {s : Session}

theorem finish_rule (stay : ∀ g, P g → Q g)
    (depart : ∀ g, P g → Q (g.depart s.room s.connection)) {h : Hub} (holds : P h) :
    Q (s.finish h).1 := by
  obtain ⟨⟨room, c, stage⟩, running⟩ := s
  cases stage with
  | member => exact depart h holds
  | leaving => exact depart h holds
  | _ => exact stay h holds

/-- What a session does with an item is made of reports, of one relay and, at the end, one leave. -/
theorem receive_rule (record : ∀ g e, P g → P (g.record e)) (stay : ∀ g, P g → Q g)
    (depart : ∀ g, P g → Q (g.depart s.room s.connection)) {h : Hub} (holds : P h)
    (relay : ∀ u, P (h.relay s.room s.connection u).1) (item : Inbound) :
    Q (s.receive h item).1 := by
  unfold receive
  split
  · cases item with
    | frame f =>
        simp only [receiveFrame]
        cases Uplink.decode f.isBinary f.bytes with
        | error e => exact stay _ (record _ _ holds)
        | ok u =>
            have hrelay := relay u
            rcases hanswer : h.relay s.room s.connection u with ⟨g, answer⟩
            rw [hanswer] at hrelay
            simp only [hanswer]
            cases answer with
            | ok count => exact stay g hrelay
            | error e =>
                have hreported := record g (.sessionRefused s.peer e) hrelay
                have hrefused := finish_rule stay depart hreported
                have hpassed := stay _ (record g (.unprocessed s.peer e) hrelay)
                cases e with
                | roomNotFound room => exact hrefused
                | staleSession room peer => exact hrefused
                | codec e => exact hpassed
                | queueFull peer => exact hpassed
                | peerGone peer => exact hpassed
    | ping payload => exact stay h holds
    | pong payload => exact stay h holds
    | close request =>
        cases request with
        | none => exact finish_rule stay depart holds
        | some c =>
            simp only
            split
            · exact finish_rule stay depart holds
            · exact finish_rule stay depart (record _ _ holds)
    | failure reason => exact finish_rule stay depart (record _ _ holds)
    | ended => exact finish_rule stay depart holds
  · exact stay h holds

end

end Session

namespace Hub

theorem registry_dispatch (h : Hub) (d : Delivery) : (h.dispatch d).registry = h.registry := by
  unfold dispatch
  split
  · exact (alike_deliver h d).registry
  · rfl

theorem registry_relay (h : Hub) (room : RoomId) (c : Connection) (u : Uplink) :
    (h.relay room c u).1.registry = h.registry :=
  relay_rule (P := (·.registry = h.registry)) rfl (fun _ => rfl)
    (fun _ _ _ _ _ _ => registry_dispatch _ _) u

theorem Aside.agrees_receive {σ : Scope} {h : Hub} {s : Session}
    (aside : h.Aside σ s.room s.connection) (item : Inbound) :
    h.Agrees σ (s.receive h item).1 := by
  apply Session.receive_rule (P := fun g => h.Agrees σ g ∧ g.registry = h.registry)
  · rintro g e ⟨hagrees, hregistry⟩
    exact ⟨hagrees.trans (agrees_record g e), hregistry⟩
  · rintro g ⟨hagrees, -⟩
    exact hagrees
  · rintro g ⟨hagrees, hregistry⟩
    have hg : g.Aside σ s.room s.connection := ⟨aside.own, hregistry ▸ aside.place⟩
    exact hagrees.trans hg.agrees_depart
  · exact ⟨Agrees.refl h, rfl⟩
  · intro u
    exact ⟨aside.agrees_relay u, registry_relay h _ _ u⟩

theorem agrees_abort {σ : Scope} {s : Session} (actor : σ.actors s.connection.number = false)
    (h : Hub) : h.Agrees σ (s.abort h).1 := by
  obtain ⟨⟨room, c, stage⟩, running⟩ := s
  cases running with
  | false => exact Agrees.refl h
  | true =>
      cases stage with
      | member =>
          have hactor : σ.actors c.number = false := actor
          have hdepartures : h.departures.filter (σ.actors ·.2.number) =
              (h.departures ++ [(room, c)]).filter (σ.actors ·.2.number) := by
            simp [hactor]
          exact { Agrees.refl h with departures := hdepartures }
      | leaving => exact Agrees.refl h
      | _ => exact Agrees.refl h

end Hub

end RoomRelay
