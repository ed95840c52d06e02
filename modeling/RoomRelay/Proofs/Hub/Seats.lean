import RoomRelay.Proofs.Hub.Closes
import RoomRelay.Proofs.Hub.Displaced

/-!
Seats that were lost. Who has lost its seat does not get it again. What is still to be announced is
about connections that have joined, and a leave or a takeover that is to be announced has cost
somebody a seat already. So nobody is asked to close that still holds its seat after.
-/

namespace RoomRelay

/-- The seat that was given up or taken away, as is to be announced. -/
def Notice.ousted : Notice → Option (RoomId × Connection)
  | .joined room _ answer => answer.superseded.map (room, ·)
  | .left room c _ => some (room, c)

namespace Session

theorem departures_receive (s : Session) (h : Hub) (item : Inbound) :
    (s.receive h item).1.departures = h.departures := by
  cases (s.takes_receive h item).2 with
  | nothing alike quiet => exact alike.departures
  | left g alike quiet leaves =>
      rw [leaves, (Hub.alike_depart g s.room s.connection).departures]
      exact alike.departures
  | relayed u frame ms e passes dispatched =>
      rw [dispatched, Hub.dispatch]
      split
      · exact (Hub.alike_deliver (h.record e) _).departures
      · rfl

theorem departures_abort (s : Session) (h : Hub) :
    (s.abort h).1.departures = h.departures ∨
      (s.abort h).1.departures = h.departures ++ [s.seat] := by
  obtain ⟨⟨room, c, stage⟩, running⟩ := s
  cases running with
  | false => exact Or.inl rfl
  | true =>
      cases stage with
      | member => exact Or.inr rfl
      | _ => exact Or.inl rfl

end Session

namespace World

variable {w : World} {n : Nat}

/-- Who does not hold its seat does not get it again. -/
theorem Settled.not_held_of_makes (settled : w.Settled) {k : World} {a : Action}
    {made : Option Post} (makes : w.Makes a k made) {seat : RoomId × Connection}
    (joined : seat ∈ w.roster) (not_held : w.hub.registry.isHeldBy seat.1 seat.2 = false) :
    k.hub.registry.isHeldBy seat.1 seat.2 = false := by
  rw [← Bool.not_eq_true, Registry.isHeldBy_iff] at not_held ⊢
  rintro ⟨d, hd, hsame⟩
  cases makes with
  | nothing registry roster => exact not_held ⟨d, registry ▸ hd, hsame⟩
  | relayed s item u frame ms present own passes registry roster =>
      exact not_held ⟨d, registry ▸ hd, hsame⟩
  | joined room c own made registry roster =>
      rw [registry, Registry.holder?_join] at hd
      split at hd
      · cases hd
        exact Nat.ne_of_lt (settled.numbers_lt seat joined) (hsame.symm.trans own.1)
      · exact not_held ⟨d, hd, hsame⟩
  | left room c own registry roster =>
      rw [registry, Registry.holder?_leave] at hd
      split at hd
      · cases hd
      · exact not_held ⟨d, hd, hsame⟩

/-- What comes to the announcements at a step: none, or that of a join, or that of a leave. -/
inductive Notes (w : World) (a : Action) : Notice → Prop where
  | kept (notice : Notice) (waits : notice ∈ w.notices) : Notes w a notice
  | entered (room : RoomId) (c : Connection) (own : a.Joins w room c) :
    Notes w a (.joined room c (w.hub.registry.join room c).2)
  | departed (room : RoomId) (c : Connection) (waits : (room, c) ∈ w.hub.departures)
    (own : a = .depart c.number)
    (registry : (w.step a).hub.registry = (w.hub.registry.leave room c).1) :
    Notes w a (.left room c (w.hub.registry.leave room c).2)

theorem notices_onSession (w : World) (m : Nat) (f : Session → Hub → Hub × Session) :
    (w.onSession m f).notices = w.notices := by
  unfold onSession
  split <;> rfl

theorem notes_step (w : World) (a : Action) : ∀ notice ∈ (w.step a).notices, w.Notes a notice := by
  intro notice hnotice
  cases a with
  | enter room peer capacity =>
      rcases List.mem_append.mp hnotice with hold | hnew
      · exact .kept notice hold
      · obtain rfl := List.mem_singleton.mp hnew
        exact .entered room ⟨w.hub.outboxes.size, peer⟩ ⟨rfl, capacity, Or.inr rfl⟩
  | receive m item => exact .kept notice (w.notices_onSession m _ ▸ hnotice)
  | abort m => exact .kept notice (w.notices_onSession m _ ▸ hnotice)
  | depart m =>
      simp only [step] at hnotice
      cases hfind : w.hub.departures.find? (·.2.number == m) with
      | none => exact .kept notice (by simpa [hfind] using hnotice)
      | some d =>
          obtain ⟨hmem, rfl⟩ := Hub.departure_of_find? hfind
          simp only [hfind] at hnotice
          rcases List.mem_append.mp hnotice with hold | hnew
          · exact .kept notice hold
          · obtain rfl := List.mem_singleton.mp hnew
            refine .departed d.1 d.2 hmem rfl ?_
            simp only [step, hfind]
            rfl
  | announce k =>
      simp only [step] at hnotice
      cases hfound : w.notices[k]? with
      | none => exact .kept notice (by simpa [hfound] using hnotice)
      | some found =>
          simp only [hfound] at hnotice
          exact .kept notice (List.mem_of_mem_eraseIdx hnotice)
  | deliver k =>
      simp only [step] at hnotice
      cases hfound : w.hub.deliveries[k]? with
      | none => exact .kept notice (by simpa [hfound] using hnotice)
      | some found => exact .kept notice (by simpa [hfound] using hnotice)
  | _ => exact .kept notice hnotice

theorem hub_onSession (w : World) (m : Nat) (f : Session → Hub → Hub × Session) :
    (w.onSession m f).hub = w.hub ∨
      ∃ s ∈ w.sessions, s.connection.number = m ∧ (w.onSession m f).hub = (f s w.hub).1 := by
  unfold onSession
  cases hfind : w.sessions.find? (·.connection.number == m) with
  | none => exact Or.inl rfl
  | some s =>
      have hnumber := List.find?_some hfind
      exact Or.inr ⟨s, List.mem_of_find?_eq_some hfind, by simpa using hnumber, rfl⟩

/-- A leave that waits in the background was there before, or is that of a session. -/
theorem departures_step (w : World) (a : Action) :
    ∀ seat ∈ (w.step a).hub.departures, seat ∈ w.hub.departures ∨ seat ∈ w.roster := by
  intro seat hseat
  have hsame (same : (w.step a).hub.departures = w.hub.departures) :
      seat ∈ w.hub.departures ∨ seat ∈ w.roster := Or.inl (same ▸ hseat)
  cases a with
  | start room peer capacity => exact hsame (Hub.alike_join _ room _).departures
  | enter room peer capacity => exact hsame rfl
  | receive m item =>
      rcases w.hub_onSession m (fun s h => s.receive h item) with heq | ⟨s, -, -, heq⟩
      · exact hsame (congrArg Hub.departures heq)
      · exact hsame ((congrArg Hub.departures heq).trans (s.departures_receive w.hub item))
  | abort m =>
      rcases w.hub_onSession m (fun s h => s.abort h) with heq | ⟨s, hs, -, heq⟩
      · exact hsame (congrArg Hub.departures heq)
      · rcases s.departures_abort w.hub with hold | hnew
        · exact hsame ((congrArg Hub.departures heq).trans hold)
        · have hdepartures := (congrArg Hub.departures heq).trans hnew
          change seat ∈ (w.onSession m fun s h => s.abort h).hub.departures at hseat
          rw [hdepartures] at hseat
          rcases List.mem_append.mp hseat with hwaits | hlast
          · exact Or.inl hwaits
          · obtain rfl := List.mem_singleton.mp hlast
            exact Or.inr (List.mem_map_of_mem hs)
  | runDeparture m =>
      simp only [step, Hub.runDeparture] at hseat
      cases hfind : w.hub.departures.find? (·.2.number == m) with
      | none => exact Or.inl (by simpa [hfind] using hseat)
      | some d =>
          simp only [hfind] at hseat
          rw [(Hub.alike_depart _ d.1 d.2).departures] at hseat
          exact Or.inl (List.mem_of_mem_erase hseat)
  | depart m =>
      simp only [step] at hseat
      cases hfind : w.hub.departures.find? (·.2.number == m) with
      | none => exact Or.inl (by simpa [hfind] using hseat)
      | some d =>
          simp only [hfind] at hseat
          exact Or.inl (List.mem_of_mem_erase hseat)
  | announce k =>
      simp only [step] at hsame
      cases hfound : w.notices[k]? with
      | none => exact hsame (by simp [hfound])
      | some notice => exact hsame (by simp [hfound, (notice.alike_announce w.hub).departures])
  | deliver k =>
      simp only [step] at hsame
      cases hfound : w.hub.deliveries[k]? with
      | none => exact hsame (by simp [hfound])
      | some d => exact hsame (by simp [hfound, (Hub.alike_deliver _ d).departures])
  | hold milliseconds => exact hsame rfl
  | elapse milliseconds => exact hsame rfl
  | use m u => exact hsame rfl

/-- What is to be announced is about connections that have joined, and have lost their seat if
that is what is announced of them. So are the leaves that wait in the background. -/
structure Noted (w : World) : Prop where
  settled : w.Settled
  departing : ∀ seat ∈ w.hub.departures, seat ∈ w.roster
  joined : ∀ room d answer, .joined room d answer ∈ w.notices → (room, d) ∈ w.roster
  ousted : ∀ notice ∈ w.notices, ∀ seat ∈ notice.ousted,
    seat ∈ w.roster ∧ w.hub.registry.isHeldBy seat.1 seat.2 = false

theorem Settled.step (settled : w.Settled) (a : Action) : (w.step a).Settled := by
  obtain ⟨made, sent, heffect⟩ := w.effect_step a
  exact settled.of_makes heffect.size heffect.makes

theorem roster_step (w : World) (a : Action) : w.roster ⊆ (w.step a).roster := by
  obtain ⟨made, sent, heffect⟩ := w.effect_step a
  exact roster_subset_of_makes heffect.makes

theorem Settled.not_held_step (settled : w.Settled) {seat : RoomId × Connection}
    (joined : seat ∈ w.roster) (not_held : w.hub.registry.isHeldBy seat.1 seat.2 = false)
    (a : Action) : (w.step a).hub.registry.isHeldBy seat.1 seat.2 = false := by
  obtain ⟨made, sent, heffect⟩ := w.effect_step a
  exact settled.not_held_of_makes heffect.makes joined not_held

theorem Settled.not_held_run (settled : w.Settled) {seat : RoomId × Connection}
    (joined : seat ∈ w.roster) (not_held : w.hub.registry.isHeldBy seat.1 seat.2 = false)
    (actions : List Action) :
    (w.runFrom actions).hub.registry.isHeldBy seat.1 seat.2 = false := by
  induction actions generalizing w with
  | nil => exact not_held
  | cons a rest ih =>
      exact ih (settled.step a) (w.roster_step a joined) (settled.not_held_step joined not_held a)

theorem roster_run (w : World) (actions : List Action) : w.roster ⊆ (w.runFrom actions).roster := by
  induction actions generalizing w with
  | nil => exact List.Subset.refl _
  | cons a rest ih => exact List.Subset.trans (w.roster_step a) (ih (w.step a))

/-- A connection that joins takes the seat, and who had held it before does not hold it after. -/
theorem not_held_of_joined (settled : w.Settled) {a : Action} {room : RoomId} {c e : Connection}
    (own : a.Joins w room c) (holder : w.hub.registry.holder? room c.peer = some e) :
    (w.hub.registry.join room c).1.isHeldBy room e = false := by
  have hpeer := Registry.peer_of_holder? holder
  have hseat := settled.seated room e (hpeer ▸ holder)
  rw [← Bool.not_eq_true, Registry.isHeldBy_iff]
  rintro ⟨d, hd, hsame⟩
  rw [Registry.holder?_join, if_pos ⟨rfl, hpeer⟩] at hd
  cases hd
  exact Nat.ne_of_lt (settled.numbers_lt _ hseat) (hsame.symm.trans own.1)

/-- Who leaves does not hold its seat after. -/
theorem not_held_of_left (r : Registry) (room : RoomId) (c : Connection) :
    (r.leave room c).1.isHeldBy room c = false := by
  rw [← Bool.not_eq_true, Registry.isHeldBy_iff]
  rintro ⟨d, hd, hsame⟩
  rw [Registry.holder?_leave] at hd
  split at hd
  · cases hd
  · rename_i hnot
    exact hnot ⟨rfl, rfl, Registry.isHeldBy_iff.mpr ⟨d, hd, hsame⟩⟩

theorem step_of_joins {a : Action} {room : RoomId} {c : Connection} (own : a.Joins w room c) :
    (w.step a).roster = (room, c) :: w.roster ∧
      (w.step a).hub.registry = (w.hub.registry.join room c).1 := by
  obtain ⟨number, peer⟩ := c
  obtain ⟨hnumber, capacity, rfl | rfl⟩ := own
  · cases hnumber
    exact ⟨rfl, (Hub.alike_join _ room _).registry⟩
  · cases hnumber
    exact ⟨rfl, rfl⟩

theorem superseded_join (r : Registry) (room : RoomId) (c : Connection) :
    (r.join room c).2.superseded = r.holder? room c.peer :=
  Registry.find?_getD_members? r room c.peer

theorem Noted.step (noted : w.Noted) (a : Action) : (w.step a).Noted where
  settled := noted.settled.step a
  departing := by
    intro seat hseat
    rcases w.departures_step a seat hseat with hold | hnew
    · exact w.roster_step a (noted.departing seat hold)
    · exact w.roster_step a hnew
  joined := by
    intro room d answer hnotice
    generalize hjoined : Notice.joined room d answer = notice at hnotice
    cases w.notes_step a notice hnotice with
    | kept notice waits => exact w.roster_step a (noted.joined room d answer (hjoined ▸ waits))
    | entered room c own =>
        cases hjoined
        rw [(step_of_joins own).1]
        exact List.mem_cons_self
    | departed room c waits own registry => cases hjoined
  ousted := by
    intro notice hnotice seat hseat
    cases w.notes_step a notice hnotice with
    | kept notice waits =>
        obtain ⟨hroster, hnot⟩ := noted.ousted notice waits seat hseat
        exact ⟨w.roster_step a hroster, noted.settled.not_held_step hroster hnot a⟩
    | entered room c own =>
        obtain ⟨e, he, rfl⟩ := Option.map_eq_some_iff.mp hseat
        rw [superseded_join] at he
        have hpeer := Registry.peer_of_holder? he
        refine ⟨w.roster_step a (noted.settled.seated room e (hpeer ▸ he)), ?_⟩
        rw [(step_of_joins own).2]
        exact not_held_of_joined noted.settled own he
    | departed room c waits own registry =>
        cases hseat
        refine ⟨w.roster_step a (noted.departing (room, c) waits), ?_⟩
        rw [registry]
        exact not_held_of_left w.hub.registry room c

theorem noted_run (actions : List Action) : (run actions).Noted := by
  have hfrom (w : World) (noted : w.Noted) : (w.runFrom actions).Noted := by
    induction actions generalizing w with
    | nil => exact noted
    | cons a rest ih => exact ih (w.step a) (noted.step a)
  refine hfrom {} ⟨(accounts_run []).1, ?_, ?_, ?_⟩
  · simp
  · simp
  · simp

/-- Whoever is asked to close at a step does not hold its seat after it. -/
theorem Noted.not_held_of_requests (noted : w.Noted) {a : Action} {r : Close}
    (requests : w.Requests n a r) :
    ∃ seat ∈ w.roster, seat.2.number = n ∧
      (w.step a).hub.registry.isHeldBy seat.1 seat.2 = false := by
  cases requests with
  | started room peer capacity e holder same =>
      have hpeer := Registry.peer_of_holder? holder
      have hown : (Action.start room peer capacity).Joins w room ⟨w.hub.outboxes.size, peer⟩ :=
        ⟨rfl, capacity, Or.inl rfl⟩
      refine ⟨(room, e), noted.settled.seated room e (hpeer ▸ holder), same, ?_⟩
      rw [(step_of_joins hown).2]
      exact not_held_of_joined noted.settled hown holder
  | announced k room d answer e notice replaced same =>
      have hseat : (room, e) ∈ (Notice.joined room d answer).ousted := by
        simp [Notice.ousted, replaced]
      obtain ⟨hroster, hnot⟩ := noted.ousted _ (List.mem_of_getElem? notice) _ hseat
      exact ⟨(room, e), hroster, same, noted.settled.not_held_step hroster hnot _⟩
  | relayed f s r present same refuses =>
      have hroster : s.seat ∈ w.roster := List.mem_map_of_mem present
      exact ⟨s.seat, hroster, same, noted.settled.not_held_step hroster refuses.not_held _⟩

end World

end RoomRelay
