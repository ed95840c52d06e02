import RoomRelay.Proofs.Hub.Bystanders
import RoomRelay.Proofs.Hub.Displaced

/-!
Whether anybody notices what a connection without a place does. A run is compared with the one in
which the connection does nothing more.

An announcement is made by its place among those that are still to be made. The leaves of the
connection that took no effect are among them in one of the two runs only, so the places are counted
without these. The announcement of its own join, if that is still to be made, is made in both.
-/

namespace RoomRelay

/-- A leave of the connection that took no effect is to be announced, which nobody notices. -/
def Notice.isVain (n : Nat) : Notice → Bool
  | .left _ c .notMember => c.number == n
  | _ => false

namespace World

/-- What is left of an action in a run in which the connection does nothing. -/
def kept (w : World) (n : Nat) : Action → Option Action
  | .announce k =>
    if (w.notices[k]?).any (·.isVain n) then none
    else some (.announce ((w.notices.take k).countP (!·.isVain n)))
  | a => if a.isBy n then none else some a

/-- The run in which the connection does nothing. -/
def without (w : World) (n : Nat) : List Action → List Action
  | [] => []
  | a :: rest => (w.kept n a).toList ++ (w.step a).without n rest

/-- A session that is put in the place of another is that of the same connection. -/
theorem number_replaced {s r : Session} (same : r.seat = s.seat) (t : Session) :
    (if t = s then r else t).connection.number = t.connection.number := by
  split
  · rename_i hts
    rw [hts]
    exact congrArg (·.2.number) same
  · rfl

section

variable {w v : World} {n : Nat}

/-! ### Two runs -/

/-- The worlds differ in nothing but one connection. -/
structure Shadows (n : Nat) (w v : World) : Prop where
  hub : w.hub.Besides n v.hub
  sessions : w.sessions.filter (·.connection.number != n) =
    v.sessions.filter (·.connection.number != n)
  notices : v.notices = w.notices.filter (!·.isVain n)

namespace Shadows

theorem departures (shadows : w.Shadows n v) :
    w.hub.departures.filter (·.2.number != n) = v.hub.departures.filter (·.2.number != n) :=
  shadows.hub.agrees.departures

theorem find?_other {α : Type} (number : α → Nat) {m : Nat} (other : m ≠ n) (l : List α) :
    (l.filter (number · != n)).find? (number · == m) = l.find? (number · == m) := by
  rw [List.find?_filter]
  congr 1
  funext x
  rcases eq_or_ne (number x) m with rfl | hne
  · simp [other]
  · simp [hne]

theorem find?_session (shadows : w.Shadows n v) {m : Nat} (other : m ≠ n) :
    w.sessions.find? (·.connection.number == m) = v.sessions.find? (·.connection.number == m) := by
  have hfind := find?_other (fun s : Session => s.connection.number) other
  rw [← hfind, shadows.sessions, hfind]

theorem find?_departure (shadows : w.Shadows n v) {m : Nat} (other : m ≠ n) :
    w.hub.departures.find? (·.2.number == m) = v.hub.departures.find? (·.2.number == m) := by
  have hfind := find?_other (fun d : RoomId × Connection => d.2.number) other
  rw [← hfind, shadows.departures, hfind]

theorem found_at {α : Type} {l : List α} {k : Nat} {x : α} (found : l[k]? = some x) :
    ∃ before after, l = before ++ x :: after ∧ before.length = k := by
  obtain ⟨hlt, rfl⟩ := List.getElem?_eq_some_iff.mp found
  refine ⟨l.take k, l.drop (k + 1), ?_, List.length_take_of_le (Nat.le_of_lt hlt)⟩
  rw [List.getElem_cons_drop hlt, List.take_append_drop]

/-- An announcement that both runs have to make is at the place of the one in the other. -/
theorem announce (shadows : w.Shadows n v) {k : Nat} {b : Action}
    (kept : w.kept n (.announce k) = some b) : (w.step (.announce k)).Shadows n (v.step b) := by
  obtain ⟨hvain, rfl⟩ : (w.notices[k]?).any (·.isVain n) = false ∧
      .announce ((w.notices.take k).countP (!·.isVain n)) = b := by
    simpa [World.kept] using kept
  rw [List.countP_eq_length_filter]
  cases hnotice : w.notices[k]? with
  | none =>
      have hall : w.notices.take k = w.notices :=
        List.take_of_length_le (List.getElem?_eq_none_iff.mp hnotice)
      have hnone : v.notices[v.notices.length]? = none := List.getElem?_eq_none (Nat.le_refl _)
      rw [hall, ← shadows.notices]
      simp only [World.step, hnotice, hnone]
      exact shadows
  | some notice =>
      rw [hnotice] at hvain
      obtain ⟨before, after, hsplit, rfl⟩ := found_at hnotice
      have hfilter : v.notices = before.filter (!·.isVain n) ++
          notice :: after.filter (!·.isVain n) := by
        rw [shadows.notices, hsplit, List.filter_append, List.filter_cons_of_pos]
        simpa using hvain
      have hfound : v.notices[(before.filter (!·.isVain n)).length]? = some notice := by
        rw [hfilter, List.getElem?_append_right (Nat.le_refl _), Nat.sub_self]
        rfl
      have htake : w.notices.take before.length = before := by rw [hsplit, List.take_left]
      rw [htake]
      simp only [World.step, hnotice, hfound]
      refine ⟨?_, shadows.sessions, ?_⟩
      · refine shadows.hub.of_alike (notice.alike_announce _) (notice.alike_announce _) ?_
        cases notice with
        | joined room c answer => exact shadows.hub.agrees.announceJoin room c answer
        | left room c answer => exact shadows.hub.agrees.announceLeave room c answer
      · have herase (l r : List Notice) :
            (l ++ notice :: r).eraseIdx l.length = l ++ r := by
          rw [List.eraseIdx_append_of_length_le (Nat.le_refl _), Nat.sub_self]
          rfl
        rw [hsplit, hfilter, herase, herase, List.filter_append]

/-- So is the announcement that comes last. -/
theorem announce_last {notice : Notice} (other : notice.isVain n = false)
    {w' v' : World} (shadows : w'.Shadows n v') {before : List Notice}
    (latest : w'.notices = before ++ [notice]) :
    (w'.step (.announce before.length)).Shadows n
      (v'.step (.announce (before.filter (!·.isVain n)).length)) := by
  apply shadows.announce
  have hfound : w'.notices[before.length]? = some notice := by
    rw [latest, List.getElem?_concat_length]
  have htake : w'.notices.take before.length = before := by rw [latest, List.take_left]
  simp only [World.kept, hfound, htake, List.countP_eq_length_filter]
  simp [other]

theorem enter (shadows : w.Shadows n v) (room : RoomId) (peer : PeerId) (capacity : Nat) :
    (w.step (.enter room peer capacity)).Shadows n (v.step (.enter room peer capacity)) := by
  obtain ⟨hconnected, hnumber⟩ := shadows.hub.connect peer capacity
  have hwatched : (Scope.allBut n).rooms room = true := rfl
  obtain ⟨hentered, hanswer⟩ :=
    hconnected.agrees.enter hwatched (v.hub.connect peer capacity).2
  simp only [World.step]
  rw [hnumber, hanswer]
  refine ⟨⟨hentered, shadows.hub.deliveries, hconnected.size⟩, ?_, ?_⟩
  · simp only [List.filter_cons, shadows.sessions]
  · simp [shadows.notices, Notice.isVain]

theorem start (shadows : w.Shadows n v) (room : RoomId) (peer : PeerId) (capacity : Nat) :
    (w.step (.start room peer capacity)).Shadows n (v.step (.start room peer capacity)) := by
  rw [step_start, step_start, shadows.notices]
  exact announce_last rfl (shadows.enter room peer capacity) rfl

/-- What the session of another connection does is the same in both runs. -/
theorem onSession (shadows : w.Shadows n v) {m : Nat} (other : m ≠ n)
    {f : Session → Hub → Hub × Session} (keeps : ∀ s h, (f s h).2.seat = s.seat)
    (same : ∀ s, (f s w.hub).1.Besides n (f s v.hub).1 ∧ (f s w.hub).2 = (f s v.hub).2) :
    (w.onSession m f).Shadows n (v.onSession m f) := by
  unfold World.onSession
  rw [shadows.find?_session other]
  cases v.sessions.find? (·.connection.number == m) with
  | none => exact shadows
  | some s =>
      obtain ⟨hhub, hsession⟩ := same s
      refine ⟨hhub, ?_, shadows.notices⟩
      simp only [hsession, List.filter_map, Function.comp_def, number_replaced (keeps s v.hub),
        shadows.sessions]

theorem depart (shadows : w.Shadows n v) {m : Nat} (other : m ≠ n) :
    (w.step (.depart m)).Shadows n (v.step (.depart m)) := by
  simp only [World.step]
  rw [shadows.find?_departure other]
  cases hfind : v.hub.departures.find? (·.2.number == m) with
  | none => exact shadows
  | some d =>
      obtain ⟨-, rfl⟩ := Hub.departure_of_find? hfind
      have hdepartures : (w.hub.departures.erase d).filter (·.2.number != n) =
          (v.hub.departures.erase d).filter (·.2.number != n) := by
        rw [← List.erase_filter, shadows.departures, List.erase_filter]
      have herased : Hub.Agrees (.allBut n) { w.hub with departures := w.hub.departures.erase d }
          { v.hub with departures := v.hub.departures.erase d } :=
        { shadows.hub.agrees with departures := hdepartures }
      have hwatched : (Scope.allBut n).rooms d.1 = true := rfl
      obtain ⟨hexited, hanswer⟩ := herased.exit hwatched d.2
      simp only [hanswer]
      refine ⟨⟨hexited, shadows.hub.deliveries, shadows.hub.size⟩, shadows.sessions, ?_⟩
      have hvain (answer : Departure) : (Notice.left d.1 d.2 answer).isVain n = false := by
        cases answer <;> simp [Notice.isVain, other]
      simp [shadows.notices, hvain]

theorem runDeparture (shadows : w.Shadows n v) {m : Nat} (other : m ≠ n) :
    (w.step (.runDeparture m)).Shadows n (v.step (.runDeparture m)) := by
  have hdepart := shadows.depart other
  rw [step_runDeparture, step_runDeparture, shadows.notices]
  simp only [World.step, shadows.find?_departure other] at hdepart ⊢
  cases hfind : v.hub.departures.find? (·.2.number == m) with
  | none =>
      rw [hfind] at hdepart
      simp only [← shadows.notices, List.getElem?_eq_none (Nat.le_refl _)]
      exact shadows
  | some d =>
      obtain ⟨-, rfl⟩ := Hub.departure_of_find? hfind
      rw [hfind] at hdepart
      have hvain (answer : Departure) : (Notice.left d.1 d.2 answer).isVain n = false := by
        cases answer <;> simp [Notice.isVain, other]
      exact announce_last (hvain _) hdepart rfl

/-- An action that is kept does the same in both runs. -/
theorem step_kept (shadows : w.Shadows n v) {a b : Action} (kept : w.kept n a = some b) :
    (w.step a).Shadows n (v.step b) := by
  have hother (h : (if a.isBy n then none else some a) = some b) : a.isBy n = false ∧ a = b := by
    simpa using h
  cases a with
  | announce k => exact shadows.announce kept
  | start room peer capacity =>
      obtain ⟨-, rfl⟩ := hother kept
      exact shadows.start room peer capacity
  | enter room peer capacity =>
      obtain ⟨-, rfl⟩ := hother kept
      exact shadows.enter room peer capacity
  | receive m item =>
      obtain ⟨hne, rfl⟩ := hother kept
      exact shadows.onSession (by simpa [Action.isBy] using hne)
        (fun s h => (s.takes_receive h item).1) fun s => shadows.hub.receive s item
  | abort m =>
      obtain ⟨hne, rfl⟩ := hother kept
      exact shadows.onSession (by simpa [Action.isBy] using hne)
        (fun s h => (s.abort_quiet h).1) fun s => shadows.hub.abort s
  | runDeparture m =>
      obtain ⟨hne, rfl⟩ := hother kept
      exact shadows.runDeparture (by simpa [Action.isBy] using hne)
  | depart m =>
      obtain ⟨hne, rfl⟩ := hother kept
      exact shadows.depart (by simpa [Action.isBy] using hne)
  | deliver k =>
      obtain ⟨-, rfl⟩ := hother kept
      simp only [World.step]
      rw [shadows.hub.deliveries]
      cases v.hub.deliveries[k]? with
      | none => exact shadows
      | some d =>
          have hrest : Hub.Besides n
              { w.hub with deliveries := v.hub.deliveries.eraseIdx k }
              { v.hub with deliveries := v.hub.deliveries.eraseIdx k } :=
            ⟨{ shadows.hub.agrees with deliveries := rfl }, rfl, shadows.hub.size⟩
          exact ⟨hrest.deliver d, shadows.sessions, shadows.notices⟩
  | hold milliseconds =>
      obtain ⟨-, rfl⟩ := hother kept
      exact ⟨⟨{ shadows.hub.agrees with delay := rfl }, shadows.hub.deliveries, shadows.hub.size⟩,
        shadows.sessions, shadows.notices⟩
  | elapse milliseconds =>
      obtain ⟨-, rfl⟩ := hother kept
      have hnow := congrArg (· + milliseconds) shadows.hub.agrees.now
      exact ⟨⟨{ shadows.hub.agrees with now := hnow }, shadows.hub.deliveries, shadows.hub.size⟩,
        shadows.sessions, shadows.notices⟩
  | use m u =>
      obtain ⟨-, rfl⟩ := hother kept
      have hused := shadows.hub.of_alike (Hub.alike_use w.hub ⟨m, ""⟩ u)
        (Hub.alike_use v.hub ⟨m, ""⟩ u) (shadows.hub.agrees.use ⟨m, ""⟩ u)
      exact ⟨hused, shadows.sessions, shadows.notices⟩

theorem of_hub (shadows : w.Shadows n v) {h : Hub} (hub : w.hub.Besides n h) :
    Shadows n { w with hub := h } v :=
  ⟨hub.symm.trans shadows.hub, shadows.sessions, shadows.notices⟩

/-- What its own session does to the connection is not noticed. -/
theorem onSession_own (shadows : w.Shadows n v) {f : Session → Hub → Hub × Session}
    (keeps : ∀ s h, (f s h).2.seat = s.seat)
    (besides : ∀ s, s.connection.number = n → w.hub.Besides n (f s w.hub).1) :
    (w.onSession n f).Shadows n v := by
  unfold World.onSession
  cases hfind : w.sessions.find? (·.connection.number == n) with
  | none => exact shadows
  | some s =>
      have hnumber : s.connection.number = n := by simpa using List.find?_some hfind
      refine ⟨(besides s hnumber).symm.trans shadows.hub, ?_, shadows.notices⟩
      rw [← shadows.sessions]
      simp only [List.filter_map, Function.comp_def, number_replaced (keeps s w.hub)]
      rw [List.map_congr_left (g := id), List.map_id]
      intro t ht
      rw [if_neg]
      · rfl
      · rintro rfl
        simp [hnumber] at ht

theorem depart_own (shadows : w.Shadows n v) (displaced : w.Displaced n) :
    (w.step (.depart n)).Shadows n v ∧
      ∀ k, w.notices.length = k → (w.step (.depart n)).notices[k]?.all (·.isVain n) := by
  simp only [World.step]
  cases hfind : w.hub.departures.find? (·.2.number == n) with
  | none => exact ⟨shadows, by rintro k rfl; simp⟩
  | some d =>
      obtain ⟨-, hnumber⟩ := Hub.departure_of_find? hfind
      have hnot := displaced.not_held d.1 hnumber
      have hdepartures : w.hub.departures.filter (·.2.number != n) =
          (w.hub.departures.erase d).filter (·.2.number != n) := by
        rw [← List.erase_filter, List.erase_of_not_mem]
        simp [hnumber]
      have herased : w.hub.Besides n { w.hub with departures := w.hub.departures.erase d } :=
        ⟨{ Hub.Agrees.refl w.hub with departures := hdepartures }, rfl, rfl⟩
      have hvain : (Notice.left d.1 d.2 .notMember).isVain n = true := by
        simp [Notice.isVain, hnumber]
      simp only [Hub.exit, Registry.leave_of_not_held hnot]
      refine ⟨⟨herased.symm.trans shadows.hub, shadows.sessions, ?_⟩, ?_⟩
      · simp [shadows.notices, hvain]
      · rintro k rfl
        simp [hvain]

/-- Nobody notices a leave without effect. -/
theorem announce_vain (shadows : w.Shadows n v) {k : Nat}
    (vain : (w.notices[k]?).all (·.isVain n)) : (w.step (.announce k)).Shadows n v := by
  simp only [World.step]
  cases hnotice : w.notices[k]? with
  | none => exact shadows
  | some notice =>
      rw [hnotice] at vain
      obtain ⟨before, after, hsplit, rfl⟩ := found_at hnotice
      have halike := notice.alike_announce w.hub
      have hagrees : w.hub.Agrees (.allBut n) (notice.announce w.hub) := by
        cases notice with
        | joined room c answer => cases vain
        | left room c answer =>
            cases answer with
            | notMember =>
                have hnobody : Hub.Unwatched (.allBut n) (Departure.members .notMember) :=
                  fun d hd => absurd hd List.not_mem_nil
                exact Hub.agrees_announceLeave hnobody _ room c
            | _ => cases vain
      refine ⟨Hub.Besides.trans ⟨hagrees.symm, halike.deliveries, halike.size⟩ shadows.hub,
        shadows.sessions, ?_⟩
      rw [shadows.notices, hsplit, List.eraseIdx_append_of_length_le (Nat.le_refl _), Nat.sub_self]
      simp only [List.eraseIdx_cons_zero, List.filter_append]
      rw [List.filter_cons_of_neg]
      simpa using vain

/-- An action that is not kept changes nothing but the connection itself. -/
theorem step_dropped (shadows : w.Shadows n v) (displaced : w.Displaced n) {a : Action}
    (dropped : w.kept n a = none) : (w.step a).Shadows n v := by
  have hown (h : (if a.isBy n then none else some a) = none) : a.isBy n = true := by simpa using h
  cases a with
  | announce k =>
      apply shadows.announce_vain
      have hvain : (w.notices[k]?).any (·.isVain n) = true := by
        simpa [World.kept] using dropped
      cases hnotice : w.notices[k]? with
      | none => rfl
      | some notice => simpa [hnotice] using hvain
  | receive m item =>
      obtain rfl : m = n := by simpa [Action.isBy] using hown dropped
      exact shadows.onSession_own (fun s h => (s.takes_receive h item).1) fun s hnumber =>
        Hub.besides_receive hnumber (displaced.not_held s.room hnumber) item
  | abort m =>
      obtain rfl : m = n := by simpa [Action.isBy] using hown dropped
      exact shadows.onSession_own (fun s h => (s.abort_quiet h).1) fun s hnumber =>
        Hub.besides_abort hnumber w.hub
  | runDeparture m =>
      obtain rfl : m = n := by simpa [Action.isBy] using hown dropped
      obtain ⟨hdepart, hvain⟩ := shadows.depart_own displaced
      rw [step_runDeparture]
      exact hdepart.announce_vain (hvain _ rfl)
  | depart m =>
      obtain rfl : m = n := by simpa [Action.isBy] using hown dropped
      exact (shadows.depart_own displaced).1
  | use m u =>
      obtain rfl : m = n := by simpa [Action.isBy] using hown dropped
      have hnumber : (⟨m, ""⟩ : Connection).number = m := rfl
      exact shadows.of_hub (Hub.besides_use hnumber w.hub u)
  | _ => cases hown dropped

theorem outbox (shadows : w.Shadows n v) {d : Connection} (other : d.number ≠ n) :
    w.hub.outbox d = v.hub.outbox d :=
  shadows.hub.agrees.outbox d (Scope.queues_allBut other)

/-- Leaving out what the connection does makes no difference to the others, at no point of a run. -/
theorem run (shadows : w.Shadows n v) (displaced : w.Displaced n) (actions : List Action) :
    (w.runFrom actions).Shadows n (v.runFrom (w.without n actions)) ∧
      ∀ d : Connection, d.number ≠ n →
        w.intake d actions = v.intake d (w.without n actions) := by
  induction actions generalizing w v with
  | nil => exact ⟨shadows, fun _ _ => rfl⟩
  | cons a rest ih =>
      rw [without]
      cases hkept : w.kept n a with
      | some b =>
          have hstep := shadows.step_kept hkept
          obtain ⟨hrun, hintake⟩ := ih hstep (displaced.step a)
          refine ⟨hrun, ?_⟩
          intro d hd
          change intake w d (a :: rest) = intake v d (b :: (w.step a).without n rest)
          rw [intake, intake, hintake d hd, shadows.outbox hd, hstep.outbox hd]
      | none =>
          have hstep := shadows.step_dropped displaced hkept
          obtain ⟨hrun, hintake⟩ := ih hstep (displaced.step a)
          refine ⟨hrun, ?_⟩
          intro d hd
          have hnone : (w.hub.outbox d).gained ((w.step a).hub.outbox d) = [] := by
            rw [shadows.outbox hd, hstep.outbox hd, Outbox.gained, List.drop_length]
          rw [intake, hnone, List.nil_append]
          exact hintake d hd

end Shadows

end

/-! ### Inertness -/

/-- Whatever these actions are, what the connection does in them is noticed by nobody else, it does
not get a place again, a relay of its session ends the session, and it gets no frames but those
that were owed to it already. -/
structure Inert (w : World) (c : Connection) (actions : List Action) : Prop where
  registry : (w.runFrom actions).hub.registry =
    (w.runFrom (w.without c.number actions)).hub.registry
  outboxes : ∀ d : Connection, d.number ≠ c.number →
    (w.runFrom actions).hub.outbox d = (w.runFrom (w.without c.number actions)).hub.outbox d ∧
      w.intake d actions = w.intake d (w.without c.number actions)
  sessions : (w.runFrom actions).sessions.filter (·.connection.number != c.number) =
    (w.runFrom (w.without c.number actions)).sessions.filter (·.connection.number != c.number)
  unseated : ∀ room peer d,
    (w.runFrom actions).hub.registry.holder? room peer = some d → d.number ≠ c.number
  refused : ∀ s f u,
    (w.runFrom actions).sessions.find? (·.connection.number == c.number) = some s →
    s.running = true → Uplink.decode f.isBinary f.bytes = .ok u →
    (((w.runFrom actions).hub.relay s.room s.connection u).2 = .error (.roomNotFound s.room) ∨
        ((w.runFrom actions).hub.relay s.room s.connection u).2 =
          .error (.staleSession s.room s.peer)) ∧
        ((w.runFrom actions).step (.receive c.number (.frame f))).running c.number = false ∨
      u.Oversized s.peer ∧ 2 ^ 26 < f.bytes.length + (textBytes s.peer).length ∧
        ∃ e, ((w.runFrom actions).hub.relay s.room s.connection u).2 = .error (.codec e)
  owed : ((w.intake c actions).filterMap Outbound.frame?).Subperm (w.owed c.number)

section

variable {w : World} {c : Connection}

theorem running_onSession {n : Nat} {s : Session}
    (found : w.sessions.find? (·.connection.number == n) = some s)
    {f : Session → Hub → Hub × Session} (keeps : ∀ s h, (f s h).2.seat = s.seat) :
    (w.onSession n f).running n = (f s w.hub).2.running := by
  simp only [onSession, found, running, List.find?_map, Function.comp_def,
    number_replaced (keeps s w.hub)]
  simp

theorem Displaced.inert (displaced : w.Displaced c.number)
    (announced : ∀ notice ∈ w.notices, notice.isVain c.number = false) (actions : List Action) :
    w.Inert c actions := by
  have hrefl : w.Shadows c.number w := by
    refine ⟨Hub.Besides.refl _, rfl, ?_⟩
    rw [List.filter_eq_self.mpr]
    simpa using announced
  obtain ⟨hrun, hintake⟩ := hrefl.run displaced actions
  have hafter := displaced.run actions
  refine
    { registry := hrun.hub.registry
      outboxes := fun d hd => ⟨hrun.outbox hd, hintake d hd⟩
      sessions := hrun.sessions
      unseated := hafter.unseated
      refused := ?_
      owed := displaced.owed_run rfl actions }
  intro s f u hfound hrunning hdecodes
  have hnumber : s.connection.number = c.number := by simpa using List.find?_some hfound
  have hnot := hafter.not_held s.room hnumber
  rcases Session.receive_of_not_held hnot hrunning hdecodes with ⟨hanswer, hover⟩ | hoversized
  · refine Or.inl ⟨hanswer, ?_⟩
    exact (running_onSession hfound fun s h => (s.takes_receive h (.frame f)).1).trans hover
  · exact Or.inr hoversized

end

end World

end RoomRelay
