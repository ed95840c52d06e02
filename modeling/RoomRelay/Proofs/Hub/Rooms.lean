import RoomRelay.Proofs.Hub.Unwinding

/-!
Rooms do not interfere. If every connection keeps to one room, then a run looks to a room as if
nothing had happened in any other: the room has the same members, what its connections do is
answered alike, and the same items come into their outboxes. Equal peer ids in different rooms do
not meet.
-/

namespace RoomRelay

/-- A room with the connections whose room it is. -/
def Scope.ofRoom (home : Nat → RoomId) (room : RoomId) : Scope where
  rooms := (· == room)
  actors n := home n == room
  queues n := home n == room

namespace Exchange

variable {home : Nat → RoomId}

/-- Where the action names a room, it is that of the connection. -/
def Action.KeepsTo (home : Nat → RoomId) : Action → Prop
  | .deed c (.join _ room) | .deed c (.carryOut room) | .deed c (.relay room _) =>
    room = home c.number
  | _ => True

/-- The action is that of a connection of the room, or time passes. -/
def Action.concerns (home : Nat → RoomId) (room : RoomId) : Action → Bool
  | .deed c _ => home c.number == room
  | .advance _ => true

/-- Everybody is in the room that is theirs. -/
structure AtHome (home : Nat → RoomId) (x : Exchange) : Prop where
  tidy : x.hub.registry.Tidy
  owned : x.Owned
  members : ∀ room peer c, x.hub.registry.holder? room peer = some c → home c.number = room
  sessions : ∀ c k s, x.sessions c k = some s → s.room = home c.number

theorem atHome_start (outboxes : Array Outbox) (delay : Nat) :
    (start outboxes delay).AtHome home where
  tidy := Registry.tidy_empty
  owned := owned_start outboxes delay
  members room peer c hc := by cases hc
  sessions c k s hs := by cases hs

theorem AtHome.step {x : Exchange} (atHome : x.AtHome home) {a : Action}
    (keeps : a.KeepsTo home) : (x.step a).AtHome home where
  tidy := tidy_step atHome.tidy a
  owned := atHome.owned.step a
  members := by
    intro room peer c hc
    rcases holder?_step hc with hold | ⟨-, k, rfl⟩
    · exact atHome.members room peer c hold
    · exact keeps.symm
  sessions := by
    intro c k s hs
    rcases sessions_step hs with ⟨t, ht, hseat⟩ | ⟨room, rfl, -, hseat⟩
    · exact (Prod.mk.inj hseat).1.trans (atHome.sessions c k t ht)
    · exact (Prod.mk.inj hseat).1.trans keeps

section

variable {x : Exchange} {room : RoomId}

theorem AtHome.unwatched (atHome : x.AtHome home) {other : RoomId} (hne : other ≠ room)
    {ms : Members} (hms : x.hub.registry.members? other = some ms) :
    Hub.Unwatched (.ofRoom home room) ms := by
  intro c hc
  have hholds : x.hub.registry.holder? other c.peer = some c :=
    ((atHome.tidy.lists hms).mem_iff c).mp hc
  have hhome : home c.number = other := atHome.members other c.peer c hholds
  simp [Scope.ofRoom, hhome, hne]

theorem AtHome.aside (atHome : x.AtHome home) {c : Connection} (hne : home c.number ≠ room) :
    x.hub.Aside (.ofRoom home room) (home c.number) c where
  own := by simp [Scope.ofRoom, hne]
  place := by
    refine Or.inr ⟨by simp [Scope.ofRoom, hne], ?_⟩
    intro ms hms
    exact atHome.unwatched hne hms

theorem AtHome.covers (atHome : x.AtHome home) {a : Action} (keeps : a.KeepsTo home)
    (concerns : a.concerns home room = true) : x.Covers (.ofRoom home room) a := by
  cases a with
  | advance milliseconds => trivial
  | deed c d =>
      have hhome : (home c.number == room) = true := concerns
      have hroom {other : RoomId} (hother : other = home c.number) : (other == room) = true :=
        hother ▸ hhome
      cases d with
      | join k other => exact ⟨hhome, hroom keeps⟩
      | carryOut other => exact ⟨hhome, hroom keeps⟩
      | relay other u => exact ⟨hhome, hroom keeps⟩
      | receive k item => exact ⟨hhome, fun s hs => hroom (atHome.sessions c k s hs)⟩
      | abort k => exact ⟨hhome, fun s hs => hroom (atHome.sessions c k s hs)⟩
      | use u => exact ⟨hhome, hhome⟩

theorem AtHome.spares (atHome : x.AtHome home) {a : Action} (keeps : a.KeepsTo home)
    (elsewhere : a.concerns home room = false) : x.Spares (.ofRoom home room) a := by
  cases a with
  | advance milliseconds => cases elsewhere
  | deed c d =>
      have hhome : (home c.number == room) = false := elsewhere
      have hne : home c.number ≠ room := by simpa using hhome
      have haside := atHome.aside hne
      cases d with
      | join k other =>
          obtain rfl : other = home c.number := keeps
          exact ⟨hhome, hhome, hhome, fun ms hms => atHome.unwatched hne hms⟩
      | carryOut other =>
          obtain rfl : other = home c.number := keeps
          exact ⟨hhome, haside⟩
      | relay other u =>
          obtain rfl : other = home c.number := keeps
          exact haside
      | receive k item =>
          refine ⟨hhome, ?_⟩
          intro s hs
          rw [atHome.sessions c k s hs]
          exact ⟨atHome.owned c k s hs, haside⟩
      | abort k => exact ⟨hhome, fun s hs => atHome.owned c k s hs⟩
      | use u => exact hhome

end

theorem atHome_run {x : Exchange} (atHome : x.AtHome home) {actions : List Action}
    (keep : ∀ a ∈ actions, a.KeepsTo home) : (x.run actions).AtHome home :=
  run_rule (fun _ a ha hy => hy.step (keep a ha)) atHome

/-- Leaving out what connections of other rooms do makes no difference to a room, at no point of
the run. None of its members is a connection of another room, and no step of such a connection
does anything to its members or their outboxes. -/
theorem rooms_do_not_interfere {actions : List Action} (keep : ∀ a ∈ actions, a.KeepsTo home)
    (outboxes : Array Outbox) (delay : Nat) (room : RoomId) :
    let x := (start outboxes delay).run actions
    let y := (start outboxes delay).run (actions.filter (·.concerns home room))
    x.hub.registry.members? room = y.hub.registry.members? room ∧
      ((start outboxes delay).answers actions).filter (·.1.concerns home room) =
        (start outboxes delay).answers (actions.filter (·.concerns home room)) ∧
      (∀ c : Connection, home c.number = room →
        x.sessions c = y.sessions c ∧ x.hub.outbox c = y.hub.outbox c ∧
          (start outboxes delay).intake c actions =
            (start outboxes delay).intake c (actions.filter (·.concerns home room))) ∧
      (∀ peer c, x.hub.registry.holder? room peer = some c → home c.number = room) ∧
      ∀ a : Action, a.KeepsTo home → a.concerns home room = false →
        (x.step a).hub.registry.members? room = x.hub.registry.members? room ∧
          ∀ c : Connection, home c.number = room → (x.step a).hub.outbox c = x.hub.outbox c := by
  intro x y
  have hx : x.AtHome home := atHome_run (atHome_start outboxes delay) keep
  have hroom : (Scope.ofRoom home room).rooms room = true := by simp [Scope.ofRoom]
  have hwatched {c : Connection} (hc : home c.number = room) :
      (Scope.ofRoom home room).queues c.number = true := by simp [Scope.ofRoom, hc]
  obtain ⟨hrun, hanswers, hintake⟩ := unwind (σ := .ofRoom home room)
    (·.concerns home room) (AtHome home)
    (fun z a ha hz => hz.step (keep a ha))
    (fun z a ha hz hkeep => hz.covers (keep a ha) hkeep)
    (fun z a ha hz hkeep => hz.spares (keep a ha) hkeep)
    (atHome_start outboxes delay) (Agrees.refl _)
  refine ⟨hrun.hub.members? hroom, hanswers, ?_, hx.members room, ?_⟩
  · intro c hc
    exact ⟨hrun.sessions c (hwatched hc), hrun.hub.outbox c (hwatched hc),
      hintake c (hwatched hc)⟩
  · intro a hkeeps helsewhere
    have hstep := agrees_step (hx.spares hkeeps helsewhere)
    refine ⟨(hstep.hub.members? hroom).symm, ?_⟩
    intro c hc
    exact (hstep.hub.outbox c (hwatched hc)).symm

/-- An `a` and a `b` in each of two rooms. One `a` relays and leaves, and then the other one
relays. -/
def twins : List Action :=
  [.deed ⟨0, "a"⟩ (.join 0 "r"), .deed ⟨1, "a"⟩ (.join 0 "q"), .deed ⟨2, "b"⟩ (.join 0 "r"),
    .deed ⟨3, "b"⟩ (.join 0 "q"),
    .deed ⟨1, "a"⟩ (.receive 0 (.frame (.text "\x7b\x7d"))), .deed ⟨1, "a"⟩ (.receive 0 .ended),
    .deed ⟨0, "a"⟩ (.receive 0 (.frame (.text "\x7b\"targetPeers\":\"b\"\x7d"))), .advance 50]

theorem rooms_do_not_interfere_twins :
    let home : Nat → RoomId := fun n => if n % 2 = 0 then "r" else "q"
    let x := start #[{ capacity := 4 }, { capacity := 4 }, { capacity := 4 }, { capacity := 4 }] 50
    (∀ a ∈ twins, a.KeepsTo home) ∧ (twins.filter (·.concerns home "r")).length = 4 ∧
      (x.intake ⟨2, "b"⟩ twins).length = 2 ∧
      x.intake ⟨2, "b"⟩ twins = x.intake ⟨2, "b"⟩ (twins.filter (·.concerns home "r")) := by
  intro home x
  have hkeep : ∀ a ∈ twins, a.KeepsTo home := by simp [twins, Action.KeepsTo, home]
  obtain ⟨-, -, hsame, -⟩ := rooms_do_not_interfere hkeep x.hub.outboxes 50 "r"
  have hb : home 2 = "r" := rfl
  exact ⟨hkeep, rfl, by decide +kernel, (hsame ⟨2, "b"⟩ hb).2.2⟩

end Exchange

end RoomRelay
