import RoomRelay.Proofs.Hub.Relay
import RoomRelay.Proofs.Hub.World

/-!
What a step of a run does. It changes the registry by one join or leave at most, it decides on one
frame at most and for whom that is meant, and it sends what it has decided on or what was pending
before.
-/

namespace RoomRelay

/-! ### What a session does with an item -/

namespace Session

theorem finish_cases (s : Session) (h : Hub) :
    (s.finish h).2.seat = s.seat ∧
      ((s.finish h).1 = h ∨ (s.finish h).1 = h.depart s.room s.connection) := by
  obtain ⟨⟨room, c, stage⟩, running⟩ := s
  cases stage with
  | member => exact ⟨rfl, Or.inr rfl⟩
  | leaving => exact ⟨rfl, Or.inr rfl⟩
  | _ => exact ⟨rfl, Or.inl rfl⟩

/-- The session gets a frame that it can decode, holds its place and relays it. -/
structure Passes (s : Session) (h : Hub) (item : Inbound) (u : Uplink) (frame : Frame)
    (ms : Members) : Prop where
  running : s.running = true
  decodes : ∃ f, item = .frame f ∧ Uplink.decode f.isBinary f.bytes = .ok u
  encodes : (u.relayed s.peer).encode = .ok frame
  members : h.registry.members? s.room = some ms
  held : h.registry.isHeldBy s.room s.connection = true
  succeeds : (h.relay s.room s.connection u).2 = .ok (resolve ms s.peer u.targets).length

/-- Beyond its log and requests to close, a session that takes an item does nothing, or leaves its
room, or relays what it got. -/
inductive Takes (s : Session) (h : Hub) (item : Inbound) (k : Hub) : Prop where
  | nothing (alike : h.Alike k) (quiet : h.Carries k none)
  | left (g : Hub) (alike : h.Alike g) (quiet : h.Carries g none)
    (leaves : k = g.depart s.room s.connection)
  | relayed (u : Uplink) (frame : Frame) (ms : Members) (e : Event)
    (passes : s.Passes h item u frame ms)
    (dispatched : k = (h.record e).dispatch
      ⟨h.nextDue, s.peer, resolve ms s.peer u.targets, frame⟩)

theorem takes_finish (s : Session) {h g : Hub} (item : Inbound) (alike : h.Alike g)
    (quiet : h.Carries g none) :
    (s.finish g).2.seat = s.seat ∧ s.Takes h item (s.finish g).1 := by
  obtain ⟨hseat, hsame | hleaves⟩ := finish_cases s g
  · refine ⟨hseat, ?_⟩
    rw [hsame]
    exact .nothing alike quiet
  · exact ⟨hseat, .left g alike quiet hleaves⟩

theorem takes_receiveFrame (s : Session) (h : Hub) (f : Frame) (running : s.running = true) :
    (s.receiveFrame h f).2.seat = s.seat ∧ s.Takes h (.frame f) (s.receiveFrame h f).1 := by
  unfold receiveFrame
  cases hdecode : Uplink.decode f.isBinary f.bytes with
  | error e => exact ⟨rfl, .nothing (Hub.alike_record h _) (Hub.carries_record h _)⟩
  | ok u =>
      have hquiet (request : Close) (e : RelayError) :
          h.Alike ((h.close s.connection request).record (.sessionRefused s.peer e)) ∧
            h.Carries ((h.close s.connection request).record (.sessionRefused s.peer e)) none :=
        ⟨(Hub.alike_close h _ _ _).trans (Hub.alike_record _ _),
          (Hub.carries_close h _ _ _).trans_quiet (Hub.carries_record _ _)⟩
      rcases Hub.relay_cases h s.room s.connection u with
        ⟨e, -, heq⟩ | ⟨frame, hencode, ⟨-, heq⟩ | ⟨-, -, -, heq⟩ | ⟨ms, hms, hheld, heq⟩⟩
      · simp only [heq]
        exact ⟨trivial, .nothing (Hub.alike_record h _) (Hub.carries_record h _)⟩
      · simp only [heq]
        exact takes_finish s _ (hquiet roomGone _).1 (hquiet roomGone _).2
      · simp only [heq]
        exact takes_finish s _ (hquiet superseded _).1 (hquiet superseded _).2
      · simp only [heq]
        refine ⟨trivial, .relayed u frame ms _ ?_ rfl⟩
        exact ⟨running, ⟨f, rfl, hdecode⟩, hencode, hms, hheld, by rw [heq]; rfl⟩

/-- Every item is taken in one of these ways, and the session keeps its place in mind. -/
theorem takes_receive (s : Session) (h : Hub) (item : Inbound) :
    (s.receive h item).2.seat = s.seat ∧ s.Takes h item (s.receive h item).1 := by
  have hrefl : h.Alike h ∧ h.Carries h none := ⟨Hub.Alike.refl h, Hub.Carries.refl h⟩
  have hrecord (e : Event) : h.Alike (h.record e) ∧ h.Carries (h.record e) none :=
    ⟨Hub.alike_record h e, Hub.carries_record h e⟩
  unfold receive
  split
  · rename_i hrunning
    cases item with
    | frame f => exact takes_receiveFrame s h f hrunning
    | ping payload => exact ⟨rfl, .nothing hrefl.1 hrefl.2⟩
    | pong payload => exact ⟨rfl, .nothing hrefl.1 hrefl.2⟩
    | close request =>
        cases request with
        | none => exact takes_finish s _ hrefl.1 hrefl.2
        | some c =>
            simp only
            split
            · exact takes_finish s _ hrefl.1 hrefl.2
            · exact takes_finish s _ (hrecord _).1 (hrecord _).2
    | failure reason => exact takes_finish s _ (hrecord _).1 (hrecord _).2
    | ended => exact takes_finish s _ hrefl.1 hrefl.2
  · exact ⟨rfl, .nothing hrefl.1 hrefl.2⟩

/-- An aborted session does no more than hand over its leave. -/
theorem abort_quiet (s : Session) (h : Hub) :
    (s.abort h).2.seat = s.seat ∧ (s.abort h).1.registry = h.registry ∧
      (s.abort h).1.outboxes = h.outboxes ∧ (s.abort h).1.deliveries = h.deliveries := by
  obtain ⟨⟨room, c, stage⟩, running⟩ := s
  cases running with
  | false => exact ⟨rfl, rfl, rfl, rfl⟩
  | true => cases stage <;> exact ⟨rfl, rfl, rfl, rfl⟩

end Session

/-! ### What a step does -/

namespace Hub

/-- Every outbox gets the frame of the post once if it is meant for its connection, or no frame;
the receiving end may take from the front meanwhile. -/
def Flows (h k : Hub) (sent : Option Post) : Prop :=
  ∀ c, (k.outbox c).frames <:+ (h.outbox c).frames ++ (h.outbox c).given (k.outbox c) ∧
    ((h.outbox c).given (k.outbox c) = [] ∨ ∃ p ∈ sent, c.number ∈ p.targets.map (·.number) ∧
      (h.outbox c).given (k.outbox c) = [p.frame])

theorem Carries.flows {h k : Hub} {sent : Option Post} (carries : h.Carries k sent) :
    h.Flows k sent := by
  intro c
  rcases carries c with hnil | ⟨p, hp, hmem, hone⟩
  · rw [hnil.given_eq, hnil.frames_eq]
    exact ⟨List.suffix_refl _, Or.inl rfl⟩
  · rw [hone.given_eq, hone.frames_eq]
    exact ⟨List.suffix_refl _, Or.inr ⟨p, hp, hmem, rfl⟩⟩

theorem carries_connect (h : Hub) (peer : PeerId) (capacity : Nat) :
    h.Carries (h.connect peer capacity).1 none := by
  intro c
  refine Or.inl ⟨[], ?_, rfl⟩
  simp only [connect, outbox, Array.getElem?_push, List.append_nil]
  split
  · rename_i hlast
    have hnone : h.outboxes[c.number]? = none := Array.getElem?_eq_none (Nat.le_of_eq hlast.symm)
    rw [hnone]
    rfl
  · rfl

theorem flows_use (h : Hub) (d : Connection) (u : Outbox.Use) :
    h.Flows (h.setOutbox d ((h.outbox d).use u)) none := by
  intro c
  rcases eq_or_ne d.number c.number with hsame | hne
  · rw [outbox_congr h hsame]
    rcases Nat.lt_or_ge c.number h.outboxes.size with hmade | hunmade
    · have hset : (h.setOutbox d ((h.outbox c).use u)).outbox c = (h.outbox c).use u := by
        rw [outbox_congr _ hsame.symm]
        exact outbox_setOutbox_self (hsame ▸ hmade) _
      rw [hset, Outbox.given_use, List.append_nil]
      exact ⟨(Outbox.use_takes _ u).2, Or.inl rfl⟩
    · have hnone : h.outboxes[c.number]? = none := Array.getElem?_eq_none hunmade
      have hset : (h.setOutbox d ((h.outbox c).use u)).outbox c = h.outbox c := by
        simp [outbox, setOutbox, Array.getElem?_modify, hnone]
      rw [hset]
      exact (Carries.refl h).flows c
  · have hset : (h.setOutbox d ((h.outbox d).use u)).outbox c = h.outbox c :=
      outbox_setOutbox_of_ne hne h _
    rw [hset]
    exact (Carries.refl h).flows c

end Hub

namespace World

/-- The action is that of a connection made just now which joins the room. -/
def Action.Joins (a : Action) (w : World) (room : RoomId) (c : Connection) : Prop :=
  c.number = w.hub.outboxes.size ∧
    ∃ capacity, a = .start room c.peer capacity ∨ a = .enter room c.peer capacity

/-- The action can be that of a leave of the connection. -/
def Action.Leaves (a : Action) (c : Connection) : Prop :=
  (∃ item, a = .receive c.number item) ∨ a = .runDeparture c.number ∨ a = .depart c.number

/-- What a step decides on, to be sent at once or later: a peer list for those who are in a room
after a join or a leave, or a frame that is relayed. -/
inductive Makes (w : World) (a : Action) (k : World) : Option Post → Prop where
  | nothing (registry : k.hub.registry = w.hub.registry) (roster : k.roster = w.roster) :
      Makes w a k none
  | joined (room : RoomId) (c : Connection) (own : a.Joins w room c)
      (made : c.number < k.hub.outboxes.size)
      (registry : k.hub.registry = (w.hub.registry.join room c).1)
      (roster : k.roster = (room, c) :: w.roster) :
      Makes w a k (some (listPost (w.hub.registry.join room c).2.members))
  | left (room : RoomId) (c : Connection) (own : a.Leaves c)
      (registry : k.hub.registry = (w.hub.registry.leave room c).1) (roster : k.roster = w.roster) :
      Makes w a k (some (listPost (w.hub.registry.leave room c).2.members))
  | relayed (s : Session) (item : Inbound) (u : Uplink) (frame : Frame) (ms : Members)
      (present : s ∈ w.sessions) (own : a = .receive s.connection.number item)
      (passes : s.Passes w.hub item u frame ms) (registry : k.hub.registry = w.hub.registry)
      (roster : k.roster = w.roster) :
      Makes w a k (some ⟨frame, resolve ms s.peer u.targets⟩)

/-- What a step decides on and what it sends. What it sends it has decided on itself, or it was
pending before. -/
structure Effect (w : World) (a : Action) (k : World) (made sent : Option Post) : Prop where
  makes : w.Makes a k made
  size : w.hub.outboxes.size ≤ k.hub.outboxes.size
  pending : (made.toList ++ w.pending).Perm (sent.toList ++ k.pending)
  flows : (∀ p ∈ sent, (p.targets.map (·.number)).Nodup) → w.hub.Flows k.hub sent

section

variable (w : World)

theorem effect_quiet (a : Action) {k : World} (registry : k.hub.registry = w.hub.registry)
    (roster : k.roster = w.roster) (size : k.hub.outboxes.size = w.hub.outboxes.size)
    (deliveries : k.hub.deliveries = w.hub.deliveries) (notices : k.notices = w.notices)
    (flows : w.hub.Flows k.hub none) : ∃ made sent, w.Effect a k made sent := by
  refine ⟨none, none, .nothing registry roster, Nat.le_of_eq size.symm, ?_, fun _ => flows⟩
  rw [pending, pending, deliveries, notices]

theorem effect_idle (a : Action) : ∃ made sent, w.Effect a w made sent :=
  w.effect_quiet a rfl rfl rfl rfl rfl (Hub.Carries.refl w.hub).flows

theorem effect_start (room : RoomId) (peer : PeerId) (capacity : Nat) :
    ∃ made sent, w.Effect (.start room peer capacity) (w.step (.start room peer capacity))
      made sent := by
  let c : Connection := ⟨w.hub.outboxes.size, peer⟩
  let entered : Hub :=
    { (w.hub.connect peer capacity).1 with registry := (w.hub.registry.join room c).1 }
  have halike := Hub.alike_announceJoin entered room c (w.hub.registry.join room c).2
  have hsize : entered.outboxes.size = w.hub.outboxes.size + 1 := Array.size_push _
  have hk : (w.step (.start room peer capacity)).hub =
      entered.announceJoin room c (w.hub.registry.join room c).2 := rfl
  refine ⟨_, some (listPost (w.hub.registry.join room c).2.members),
    .joined room c ⟨rfl, capacity, Or.inl rfl⟩ ?_ ?_ rfl, ?_, ?_, ?_⟩
  · rw [hk, halike.size, hsize]
    exact Nat.lt_succ_self _
  · rw [hk, halike.registry]
  · rw [hk, halike.size, hsize]
    exact Nat.le_succ _
  · have hdeliveries : (w.step (.start room peer capacity)).hub.deliveries = w.hub.deliveries := by
      rw [hk, halike.deliveries]
      rfl
    rw [pending, pending, hdeliveries]
    exact List.Perm.refl _
  · intro nodup
    rw [hk]
    have hconnect : w.hub.Carries entered none := w.hub.carries_connect peer capacity
    exact (hconnect.quiet_trans
      (Hub.carries_announceJoin entered room c (nodup _ rfl))).flows

theorem effect_enter (room : RoomId) (peer : PeerId) (capacity : Nat) :
    ∃ made sent, w.Effect (.enter room peer capacity) (w.step (.enter room peer capacity))
      made sent := by
  let c : Connection := ⟨w.hub.outboxes.size, peer⟩
  have hsize : (w.step (.enter room peer capacity)).hub.outboxes.size =
      w.hub.outboxes.size + 1 := Array.size_push _
  refine ⟨_, none, .joined room c ⟨rfl, capacity, Or.inr rfl⟩ ?_ rfl rfl, ?_, ?_, ?_⟩
  · rw [hsize]
    exact Nat.lt_succ_self _
  · rw [hsize]
    exact Nat.le_succ _
  · have hpending : (w.step (.enter room peer capacity)).pending =
        w.pending ++ [listPost (w.hub.registry.join room c).2.members] := by
      simp only [step, pending, List.map_append, List.append_assoc]
      rfl
    rw [hpending]
    exact (List.perm_append_singleton _ _).symm
  · intro _
    have hconnect : w.hub.Carries (w.step (.enter room peer capacity)).hub none :=
      w.hub.carries_connect peer capacity
    exact hconnect.flows

/-- A leave that is carried out in one go. -/
theorem effect_departed {a : Action} {k : World} {g : Hub} {room : RoomId} {c : Connection}
    (own : a.Leaves c) (registry : g.registry = w.hub.registry)
    (size : g.outboxes.size = w.hub.outboxes.size) (deliveries : g.deliveries = w.hub.deliveries)
    (quiet : w.hub.Carries g none) (leaves : k.hub = g.depart room c)
    (roster : k.roster = w.roster) (notices : k.notices = w.notices) :
    ∃ made sent, w.Effect a k made sent := by
  have halike := Hub.alike_depart g room c
  refine ⟨_, some (listPost (w.hub.registry.leave room c).2.members),
    .left room c own ?_ roster, ?_, ?_, ?_⟩
  · rw [leaves, halike.registry, registry]
  · rw [leaves, halike.size]
    exact Nat.le_of_eq size.symm
  · rw [pending, pending, leaves, halike.deliveries, deliveries, notices]
  · intro nodup
    rw [leaves]
    have hdepart : g.Carries (g.depart room c)
        (some (listPost (w.hub.registry.leave room c).2.members)) := by
      rw [← registry] at nodup ⊢
      exact g.carries_depart room c (nodup _ rfl)
    exact (quiet.quiet_trans hdepart).flows

theorem onSession_cases (n : Nat) {f : Session → Hub → Hub × Session}
    (keeps : ∀ s h, (f s h).2.seat = s.seat) :
    w.onSession n f = w ∨ ∃ s ∈ w.sessions, s.connection.number = n ∧
      (w.onSession n f).hub = (f s w.hub).1 ∧ (w.onSession n f).roster = w.roster ∧
      (w.onSession n f).notices = w.notices := by
  unfold onSession
  cases hfind : w.sessions.find? (·.connection.number == n) with
  | none => exact Or.inl rfl
  | some s =>
      have hnumber := List.find?_some hfind
      refine Or.inr ⟨s, List.mem_of_find?_eq_some hfind, by simpa using hnumber, rfl, ?_, rfl⟩
      simp only [roster, List.map_map]
      apply List.map_congr_left
      intro t _
      simp only [Function.comp_apply]
      split
      · rename_i hts
        rw [keeps, hts]
      · rfl

theorem effect_relayed {a : Action} {k : World} {s : Session} {item : Inbound} {u : Uplink}
    {frame : Frame} {ms : Members} {e : Event} (present : s ∈ w.sessions)
    (own : a = .receive s.connection.number item) (passes : s.Passes w.hub item u frame ms)
    (dispatched : k.hub = (w.hub.record e).dispatch
      ⟨w.hub.nextDue, s.peer, resolve ms s.peer u.targets, frame⟩)
    (roster : k.roster = w.roster) (notices : k.notices = w.notices) :
    ∃ made sent, w.Effect a k made sent := by
  let d : Delivery := ⟨w.hub.nextDue, s.peer, resolve ms s.peer u.targets, frame⟩
  rcases eq_or_ne w.hub.delay 0 with hdelay | hdelay
  · have hk : k.hub = (w.hub.record e).deliver d := by
      rw [dispatched, Hub.dispatch]
      exact if_pos hdelay
    have halike : w.hub.Alike k.hub :=
      hk ▸ (Hub.alike_record _ e).trans (Hub.alike_sendEach _ _ _ d.targets)
    refine ⟨_, some d.post,
      .relayed s item u frame ms present own passes halike.registry roster, ?_, ?_, ?_⟩
    · exact Nat.le_of_eq halike.size.symm
    · rw [pending, pending, halike.deliveries, notices]
      exact List.Perm.refl _
    · intro nodup
      rw [hk]
      exact ((Hub.carries_record w.hub e).quiet_trans
        (Hub.carries_deliver _ d (nodup _ rfl))).flows
  · have hk : k.hub = { w.hub.record e with deliveries := w.hub.deliveries ++ [d] } := by
      rw [dispatched, Hub.dispatch]
      exact if_neg hdelay
    refine ⟨_, none, .relayed s item u frame ms present own passes (by rw [hk]; rfl) roster,
      ?_, ?_, ?_⟩
    · rw [hk]
      exact Nat.le_refl _
    · rw [pending, pending, hk, notices]
      simp only [List.map_append, List.append_assoc]
      change (d.post :: (w.hub.deliveries.map Delivery.post ++ w.notices.map Notice.post)).Perm
        (w.hub.deliveries.map Delivery.post ++ d.post :: w.notices.map Notice.post)
      exact List.perm_middle.symm
    · intro _
      rw [hk]
      exact (Hub.carries_record w.hub e).flows

theorem effect_receive (n : Nat) (item : Inbound) :
    ∃ made sent, w.Effect (.receive n item) (w.step (.receive n item)) made sent := by
  have hkeeps (s : Session) (h : Hub) : (s.receive h item).2.seat = s.seat :=
    (s.takes_receive h item).1
  rcases w.onSession_cases n hkeeps with hsame | ⟨s, present, rfl, hhub, hroster, hnotices⟩
  · rw [step, hsame]
    exact w.effect_idle _
  · rw [step]
    cases (s.takes_receive w.hub item).2 with
    | nothing alike quiet =>
        rw [← hhub] at alike quiet
        exact w.effect_quiet _ alike.registry hroster alike.size alike.deliveries hnotices
          quiet.flows
    | left g alike quiet leaves =>
        rw [← hhub] at leaves
        exact w.effect_departed (Or.inl ⟨item, rfl⟩) alike.registry alike.size alike.deliveries
          quiet leaves hroster hnotices
    | relayed u frame ms e passes dispatched =>
        rw [← hhub] at dispatched
        exact w.effect_relayed present rfl passes dispatched hroster hnotices

theorem effect_abort (n : Nat) :
    ∃ made sent, w.Effect (.abort n) (w.step (.abort n)) made sent := by
  have hkeeps (s : Session) (h : Hub) : (s.abort h).2.seat = s.seat := (s.abort_quiet h).1
  rcases w.onSession_cases n hkeeps with hsame | ⟨s, -, -, hhub, hroster, hnotices⟩
  · rw [step, hsame]
    exact w.effect_idle _
  · rw [step]
    obtain ⟨-, hregistry, houtboxes, hdeliveries⟩ := s.abort_quiet w.hub
    rw [← hhub] at hregistry houtboxes hdeliveries
    refine w.effect_quiet _ hregistry hroster (by rw [houtboxes]) hdeliveries hnotices ?_
    apply Hub.Carries.flows
    apply Hub.Carries.of_outbox_eq
    intro c
    rw [Hub.outbox, houtboxes, Hub.outbox]

theorem effect_runDeparture (n : Nat) :
    ∃ made sent, w.Effect (.runDeparture n) (w.step (.runDeparture n)) made sent := by
  simp only [step, Hub.runDeparture]
  cases hfind : w.hub.departures.find? (·.2.number == n) with
  | none => exact w.effect_idle _
  | some d =>
      obtain ⟨-, rfl⟩ := Hub.departure_of_find? hfind
      let rest : Hub := { w.hub with departures := w.hub.departures.erase d }
      have hregistry : rest.registry = w.hub.registry := rfl
      have hquiet : w.hub.Carries rest none := Hub.Carries.of_outbox_eq fun _ => rfl
      exact w.effect_departed (Or.inr (Or.inl rfl)) hregistry rfl rfl hquiet rfl rfl rfl

theorem effect_depart (n : Nat) :
    ∃ made sent, w.Effect (.depart n) (w.step (.depart n)) made sent := by
  simp only [step]
  cases hfind : w.hub.departures.find? (·.2.number == n) with
  | none => exact w.effect_idle _
  | some d =>
      obtain ⟨-, rfl⟩ := Hub.departure_of_find? hfind
      refine ⟨_, none, .left d.1 d.2 (Or.inr (Or.inr rfl)) rfl rfl, Nat.le_refl _, ?_, ?_⟩
      · simp only [pending, List.map_append, ← List.append_assoc]
        exact (List.perm_append_singleton _ _).symm
      · intro _
        apply Hub.Carries.flows
        exact Hub.Carries.of_outbox_eq fun _ => rfl

theorem perm_cons_eraseIdx {α : Type} {l : List α} {i : Nat} {x : α} (h : l[i]? = some x) :
    l.Perm (x :: l.eraseIdx i) := by
  obtain ⟨hlt, rfl⟩ := List.getElem?_eq_some_iff.mp h
  exact (List.getElem_cons_eraseIdx_perm hlt).symm

theorem effect_announce (k : Nat) :
    ∃ made sent, w.Effect (.announce k) (w.step (.announce k)) made sent := by
  simp only [step]
  cases hnotice : w.notices[k]? with
  | none => exact w.effect_idle _
  | some notice =>
      have halike := notice.alike_announce w.hub
      refine ⟨none, some notice.post, .nothing halike.registry rfl,
        Nat.le_of_eq halike.size.symm, ?_, ?_⟩
      · have hperm := (perm_cons_eraseIdx hnotice).map Notice.post
        simp only [pending, halike.deliveries]
        exact (hperm.append_left _).trans List.perm_middle
      · intro nodup
        exact (notice.carries_announce w.hub (nodup _ rfl)).flows

theorem effect_deliver (k : Nat) :
    ∃ made sent, w.Effect (.deliver k) (w.step (.deliver k)) made sent := by
  simp only [step]
  cases hdelivery : w.hub.deliveries[k]? with
  | none => exact w.effect_idle _
  | some d =>
      let rest : Hub := { w.hub with deliveries := w.hub.deliveries.eraseIdx k }
      have halike : rest.Alike (rest.deliver d) := Hub.alike_sendEach _ _ _ d.targets
      refine ⟨none, some d.post, .nothing halike.registry rfl,
        Nat.le_of_eq halike.size.symm, ?_, ?_⟩
      · have hperm := (perm_cons_eraseIdx hdelivery).map Delivery.post
        simp only [pending]
        rw [halike.deliveries]
        exact hperm.append_right _
      · intro nodup
        have hquiet : w.hub.Carries rest none := Hub.Carries.of_outbox_eq fun _ => rfl
        exact (hquiet.quiet_trans (rest.carries_deliver d (nodup _ rfl))).flows

/-- Every step is one of these. -/
theorem effect_step (a : Action) : ∃ made sent, w.Effect a (w.step a) made sent := by
  cases a with
  | start room peer capacity => exact w.effect_start room peer capacity
  | enter room peer capacity => exact w.effect_enter room peer capacity
  | receive n item => exact w.effect_receive n item
  | abort n => exact w.effect_abort n
  | runDeparture n => exact w.effect_runDeparture n
  | depart n => exact w.effect_depart n
  | announce k => exact w.effect_announce k
  | deliver k => exact w.effect_deliver k
  | hold milliseconds =>
      exact w.effect_quiet _ rfl rfl rfl rfl rfl (Hub.Carries.of_outbox_eq fun _ => rfl).flows
  | elapse milliseconds =>
      exact w.effect_quiet _ rfl rfl rfl rfl rfl (Hub.Carries.of_outbox_eq fun _ => rfl).flows
  | use n u =>
      exact w.effect_quiet _ rfl rfl Array.size_modify rfl rfl (w.hub.flows_use ⟨n, ""⟩ u)

end

end World

end RoomRelay
