import RoomRelay.Proofs.Hub.Agreement
import RoomRelay.Proofs.Hub.Effect

/-!
Runs in which it is known who does what. Every action but the passing of time belongs to one
connection: it joins a room and gets a session there, its session gets an item or is aborted, the
background carries out its leave, it relays by itself, or its outbox is read from or closed. The
outboxes are given in advance, and a connection's number is the place of its own.

A membership without a session is a session that gets no frames: it leaves when its stream ends,
and is dropped when it is aborted.
-/

namespace RoomRelay

/-- What a connection does. Its sessions are told apart by numbers of their own. -/
inductive Deed where
  | join (k : Nat) (room : RoomId)
  | receive (k : Nat) (item : Inbound)
  | abort (k : Nat)
  | carryOut (room : RoomId)
  | relay (room : RoomId) (u : Uplink)
  | use (u : Outbox.Use)

/-- What an action is answered. A session answers whether it goes on, and what it was answered
itself if it relayed or left. -/
inductive Reply where
  | nothing
  | joined (answer : Joined)
  | left (answer : Departure)
  | relayed (answer : Except RelayError Nat)
  | session (running : Bool) (relayed : Option (Except RelayError Nat)) (left : Option Departure)
  | read (items : List Outbound)

/-- What relaying an item is answered, if the session relays it. -/
def Session.relayed? (s : Session) (h : Hub) : Inbound → Option (Except RelayError Nat)
  | .frame f =>
    match s.running, Uplink.decode f.isBinary f.bytes with
    | true, .ok u => some (h.relay s.room s.connection u).2
    | _, _ => none
  | _ => none

/-- What leaving is answered, if the session leaves over an item. -/
def Session.left? (s : Session) (h : Hub) (item : Inbound) : Option Departure :=
  if s.running && !(s.receive h item).2.running then
    some (h.registry.leave s.room s.connection).2
  else none

/-- What is read when the receiving end is used. -/
def Outbox.taken (q : Outbox) : Outbox.Use → List Outbound
  | .read n => (q.read n).1
  | _ => []

structure Exchange where
  hub : Hub
  sessions : Connection → Nat → Option Session := fun _ _ => none

namespace Exchange

inductive Action where
  | deed (c : Connection) (d : Deed)
  | advance (milliseconds : Nat)

/-- The action is a use of the connection's outbox by its receiving end. -/
def Action.uses (a : Action) (c : Connection) : Bool :=
  match a with
  | .deed d (.use _) => d.number == c.number
  | _ => false

/-- Nobody is in any room yet. -/
def start (outboxes : Array Outbox) (delay : Nat) : Exchange :=
  { hub := { outboxes, delay } }

def put (x : Exchange) (c : Connection) (k : Nat) (s : Session) : Exchange :=
  { x with sessions := fun d m => if d = c ∧ m = k then some s else x.sessions d m }

/-- What a connection does, and what it is answered. A session begins once. -/
def perform (x : Exchange) (c : Connection) : Deed → Exchange × Reply
  | .join k room =>
    match x.sessions c k with
    | some _ => (x, .nothing)
    | none =>
      let (hub, s) := x.hub.startSession room c
      ({ x with hub }.put c k s, .joined (x.hub.enter room c).2)
  | .receive k item =>
    match x.sessions c k with
    | some s =>
      let (hub, t) := s.receive x.hub item
      ({ x with hub }.put c k t,
        .session t.running (s.relayed? x.hub item) (s.left? x.hub item))
    | none => (x, .nothing)
  | .abort k =>
    match x.sessions c k with
    | some s =>
      let (hub, t) := s.abort x.hub
      ({ x with hub }.put c k t, .session t.running none none)
    | none => (x, .nothing)
  | .carryOut room =>
    ({ x with hub := x.hub.carryOut room c },
      if x.hub.departures.contains (room, c) then .left (x.hub.registry.leave room c).2
      else .nothing)
  | .relay room u =>
    let (hub, answer) := x.hub.relay room c u
    ({ x with hub }, .relayed answer)
  | .use u => ({ x with hub := x.hub.use c u }, .read ((x.hub.outbox c).taken u))

def act (x : Exchange) : Action → Exchange × Reply
  | .deed c d => x.perform c d
  | .advance milliseconds => ({ x with hub := x.hub.advance milliseconds }, .nothing)

def step (x : Exchange) (a : Action) : Exchange :=
  (x.act a).1

def run (x : Exchange) (actions : List Action) : Exchange :=
  actions.foldl step x

/-- The actions of a run with their answers. -/
def answers (x : Exchange) : List Action → List (Action × Reply)
  | [] => []
  | a :: rest => (a, (x.act a).2) :: (x.step a).answers rest

/-- All that comes into a connection's outbox during a run, in its order. -/
def intake (x : Exchange) (c : Connection) : List Action → List Outbound
  | [] => []
  | a :: rest =>
    (x.hub.outbox c).gained ((x.step a).hub.outbox c) ++ (x.step a).intake c rest

/-- Whether a session of a connection is there and goes on. -/
def running (x : Exchange) (c : Connection) (k : Nat) : Bool :=
  (x.sessions c k).any (·.running)

/-! ### What a step changes -/

theorem sessions_put_self (x : Exchange) (c : Connection) (k : Nat) (s : Session) :
    (x.put c k s).sessions c k = some s := if_pos ⟨rfl, rfl⟩

theorem sessions_put_of_ne (x : Exchange) {c d : Connection} {k m : Nat} (ne : ¬ (d = c ∧ m = k))
    (s : Session) : (x.put c k s).sessions d m = x.sessions d m := if_neg ne

/-- A session after one has been put in its place is that one, or another that was there before. -/
theorem cases_sessions_put {x : Exchange} {c d : Connection} {k m : Nat} {s t : Session}
    (found : (x.put c k s).sessions d m = some t) :
    (d = c ∧ m = k) ∧ t = s ∨ ¬ (d = c ∧ m = k) ∧ x.sessions d m = some t := by
  by_cases hsame : d = c ∧ m = k
  · obtain ⟨rfl, rfl⟩ := hsame
    rw [sessions_put_self] at found
    exact Or.inl ⟨⟨rfl, rfl⟩, (Option.some.inj found).symm⟩
  · rw [sessions_put_of_ne x hsame] at found
    exact Or.inr ⟨hsame, found⟩

/-- What a step leads to. It leaves everything as it is if there is nothing to be done: no session
where one is meant to go on, one already where it is meant to begin, or no leave that waits. -/
inductive Leads (x : Exchange) : Action → Exchange → Prop where
  | idle (a : Action) : Leads x a x
  | joins (c : Connection) (k : Nat) (room : RoomId) (fresh : x.sessions c k = none) :
    Leads x (.deed c (.join k room))
      ({ x with hub := (x.hub.join room c).1 }.put c k { membership := ⟨room, c, .member⟩ })
  | receives (c : Connection) (k : Nat) (item : Inbound) (s : Session)
    (found : x.sessions c k = some s) :
    Leads x (.deed c (.receive k item))
      ({ x with hub := (s.receive x.hub item).1 }.put c k (s.receive x.hub item).2)
  | aborts (c : Connection) (k : Nat) (s : Session) (found : x.sessions c k = some s) :
    Leads x (.deed c (.abort k)) ({ x with hub := (s.abort x.hub).1 }.put c k (s.abort x.hub).2)
  | departs (c : Connection) (room : RoomId) :
    Leads x (.deed c (.carryOut room))
      { x with hub :=
          { x.hub with departures := x.hub.departures.erase (room, c) }.depart room c }
  | relays (c : Connection) (room : RoomId) (u : Uplink) :
    Leads x (.deed c (.relay room u)) { x with hub := (x.hub.relay room c u).1 }
  | uses (c : Connection) (u : Outbox.Use) :
    Leads x (.deed c (.use u)) { x with hub := x.hub.use c u }
  | advances (milliseconds : Nat) :
    Leads x (.advance milliseconds) { x with hub := x.hub.advance milliseconds }

theorem leads_step (x : Exchange) (a : Action) : x.Leads a (x.step a) := by
  cases a with
  | advance milliseconds => exact .advances milliseconds
  | deed c d =>
      cases d with
      | join k room =>
          simp only [step, act, perform]
          cases hs : x.sessions c k with
          | some s => exact .idle _
          | none => exact .joins c k room hs
      | receive k item =>
          simp only [step, act, perform]
          cases hs : x.sessions c k with
          | some s => exact .receives c k item s hs
          | none => exact .idle _
      | abort k =>
          simp only [step, act, perform]
          cases hs : x.sessions c k with
          | some s => exact .aborts c k s hs
          | none => exact .idle _
      | carryOut room =>
          simp only [step, act, perform, Hub.carryOut]
          split
          · exact .departs c room
          · exact .idle _
      | relay room u => exact .relays c room u
      | use u => exact .uses c u

/-- The registry after a step: as before, or after one join or leave. -/
inductive Moves (x : Exchange) (a : Action) (r : Registry) : Prop where
  | stays (registry : r = x.hub.registry)
  | joined (c : Connection) (k : Nat) (room : RoomId) (own : a = .deed c (.join k room))
    (fresh : x.sessions c k = none) (registry : r = (x.hub.registry.join room c).1)
  | left (c : Connection) (room : RoomId) (registry : r = (x.hub.registry.leave room c).1)

theorem registry_receive (s : Session) (h : Hub) (item : Inbound) :
    (s.receive h item).1.registry = h.registry ∨
      (s.receive h item).1.registry = (h.registry.leave s.room s.connection).1 := by
  apply Session.receive_rule (P := fun g => g.registry = h.registry) (Q := fun g =>
    g.registry = h.registry ∨ g.registry = (h.registry.leave s.room s.connection).1)
  · intro g e hg
    exact hg
  · intro g hg
    exact Or.inl hg
  · intro g hg
    refine Or.inr ?_
    rw [(Hub.alike_depart g s.room s.connection).registry, hg]
  · rfl
  · exact Hub.registry_relay h s.room s.connection

theorem moves_step (x : Exchange) (a : Action) : x.Moves a (x.step a).hub.registry := by
  have hleads := x.leads_step a
  generalize x.step a = y at hleads ⊢
  cases hleads with
  | idle => exact .stays rfl
  | joins c k room fresh =>
      exact .joined c k room rfl fresh (Hub.alike_join x.hub room c).registry
  | receives c k item s found =>
      rcases registry_receive s x.hub item with hsame | hleft
      · exact .stays hsame
      · exact .left s.connection s.room hleft
  | aborts c k s found => exact .stays (s.abort_quiet x.hub).2.1
  | departs c room => exact .left c room (Hub.alike_depart _ room c).registry
  | relays c room u => exact .stays (Hub.registry_relay x.hub room c u)
  | uses c u => exact .stays rfl
  | advances milliseconds => exact .stays (x.hub.registry_advance milliseconds)

theorem tidy_step {x : Exchange} (tidy : x.hub.registry.Tidy) (a : Action) :
    (x.step a).hub.registry.Tidy := by
  cases x.moves_step a with
  | stays registry => exact registry ▸ tidy
  | joined c k room own fresh registry => exact registry ▸ tidy.join room c
  | left c room registry => exact registry ▸ tidy.leave room c

/-- Whoever holds a place after a step held it before, or has just joined. -/
theorem holder?_step {x : Exchange} {a : Action} {room : RoomId} {peer : PeerId} {d : Connection}
    (holds : (x.step a).hub.registry.holder? room peer = some d) :
    x.hub.registry.holder? room peer = some d ∨
      d.peer = peer ∧ ∃ k, a = .deed d (.join k room) := by
  cases x.moves_step a with
  | stays registry => exact Or.inl (registry ▸ holds)
  | joined c k other own fresh registry =>
      rw [registry, Registry.holder?_join] at holds
      split at holds
      · rename_i hslot
        cases holds
        exact Or.inr ⟨hslot.2.symm, k, hslot.1 ▸ own⟩
      · exact Or.inl holds
  | left c other registry =>
      rw [registry, Registry.holder?_leave] at holds
      split at holds
      · cases holds
      · exact Or.inl holds

/-- The sessions after a step: those of before, about the same places, and one that has begun. -/
theorem sessions_step {x : Exchange} {a : Action} {c : Connection} {k : Nat} {s : Session}
    (found : (x.step a).sessions c k = some s) :
    (∃ t, x.sessions c k = some t ∧ s.seat = t.seat) ∨
      ∃ room, a = .deed c (.join k room) ∧ x.sessions c k = none ∧ s.seat = (room, c) := by
  have hleads := x.leads_step a
  generalize x.step a = y at hleads found
  -- A session that is put in the place of another is about the same place.
  have hput (h : Hub) (d : Connection) (m : Nat) (before after : Session)
      (hbefore : x.sessions d m = some before) (hseat : after.seat = before.seat)
      (hfound : ({ x with hub := h }.put d m after).sessions c k = some s) :
      ∃ t, x.sessions c k = some t ∧ s.seat = t.seat := by
    rcases cases_sessions_put hfound with ⟨⟨rfl, rfl⟩, rfl⟩ | ⟨-, hother⟩
    · exact ⟨before, hbefore, hseat⟩
    · exact ⟨s, hother, rfl⟩
  cases hleads with
  | joins d m room fresh =>
      rcases cases_sessions_put found with ⟨⟨rfl, rfl⟩, rfl⟩ | ⟨-, hother⟩
      · exact Or.inr ⟨room, rfl, fresh, rfl⟩
      · exact Or.inl ⟨s, hother, rfl⟩
  | receives d m item t ht =>
      exact Or.inl (hput _ d m t _ ht (t.takes_receive x.hub item).1 found)
  | aborts d m t ht => exact Or.inl (hput _ d m t _ ht (t.abort_quiet x.hub).1 found)
  | idle => exact Or.inl ⟨s, found, rfl⟩
  | departs d room => exact Or.inl ⟨s, found, rfl⟩
  | relays d room u => exact Or.inl ⟨s, found, rfl⟩
  | uses d u => exact Or.inl ⟨s, found, rfl⟩
  | advances milliseconds => exact Or.inl ⟨s, found, rfl⟩

/-- Every session is that of the connection that began it. -/
def Owned (x : Exchange) : Prop :=
  ∀ c k s, x.sessions c k = some s → s.connection = c

theorem owned_start (outboxes : Array Outbox) (delay : Nat) : (start outboxes delay).Owned := by
  intro c k s hs
  cases hs

theorem Owned.step {x : Exchange} (owned : x.Owned) (a : Action) : (x.step a).Owned := by
  intro c k s hs
  rcases sessions_step hs with ⟨t, ht, hseat⟩ | ⟨room, -, -, hseat⟩
  · exact (Prod.mk.inj hseat).2.trans (owned c k t ht)
  · exact (Prod.mk.inj hseat).2

/-! ### Whole runs -/

theorem run_append (x : Exchange) (as bs : List Action) :
    x.run (as ++ bs) = (x.run as).run bs := List.foldl_append

/-- What every action of a run preserves holds after it. -/
theorem run_rule {I : Exchange → Prop} {actions : List Action}
    (preserved : ∀ x, ∀ a ∈ actions, I x → I (x.step a)) {x : Exchange} (holds : I x) :
    I (x.run actions) := by
  induction actions generalizing x with
  | nil => exact holds
  | cons a rest ih =>
      exact ih (fun y b hb => preserved y b (List.mem_cons_of_mem a hb))
        (preserved x a List.mem_cons_self holds)

end Exchange

end RoomRelay
