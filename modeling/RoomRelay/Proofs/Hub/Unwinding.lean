import RoomRelay.Proofs.Hub.Exchange

/-!
Comparing two runs. Some of the actions are kept in both, the others are left out of one. If what is
kept is about watched rooms and connections only, and what is left out is aside from them, then
nothing that is watched ever differs: not the state, not what is answered, and not what comes into
the outboxes.
-/

namespace RoomRelay.Exchange

variable {σ : Scope} {x y : Exchange}

/-- The exchanges differ in nothing that is watched. -/
structure Agrees (σ : Scope) (x y : Exchange) : Prop where
  hub : x.hub.Agrees σ y.hub
  sessions : ∀ c, σ.actors c.number = true → x.sessions c = y.sessions c

theorem Agrees.refl (x : Exchange) : x.Agrees σ x := ⟨Hub.Agrees.refl x.hub, fun _ _ => rfl⟩

theorem Agrees.symm (agrees : x.Agrees σ y) : y.Agrees σ x :=
  ⟨agrees.hub.symm, fun c hc => (agrees.sessions c hc).symm⟩

theorem Agrees.trans {z : Exchange} (first : x.Agrees σ y) (second : y.Agrees σ z) :
    x.Agrees σ z :=
  ⟨first.hub.trans second.hub, fun c hc => (first.sessions c hc).trans (second.sessions c hc)⟩

/-- The action is that of a watched connection, in a watched room. -/
def Covers (σ : Scope) (x : Exchange) : Action → Prop
  | .advance _ => True
  | .deed c (.join _ room) | .deed c (.carryOut room) | .deed c (.relay room _) =>
    σ.actors c.number = true ∧ σ.rooms room = true
  | .deed c (.receive k _) | .deed c (.abort k) =>
    σ.actors c.number = true ∧ ∀ s, x.sessions c k = some s → σ.rooms s.room = true
  | .deed c (.use _) => σ.actors c.number = true ∧ σ.queues c.number = true

/-- The action is that of a connection whose outbox is not watched, and nothing that it does is. -/
def Spares (σ : Scope) (x : Exchange) : Action → Prop
  | .advance _ => False
  | .deed c (.join _ room) =>
    σ.actors c.number = false ∧ σ.queues c.number = false ∧ σ.rooms room = false ∧
      ∀ ms, x.hub.registry.members? room = some ms → Hub.Unwatched σ ms
  | .deed c (.carryOut room) => σ.actors c.number = false ∧ x.hub.Aside σ room c
  | .deed c (.relay room _) => x.hub.Aside σ room c
  | .deed c (.receive k _) => σ.actors c.number = false ∧
    ∀ s, x.sessions c k = some s → s.connection = c ∧ x.hub.Aside σ s.room c
  | .deed c (.abort k) => σ.actors c.number = false ∧
    ∀ s, x.sessions c k = some s → s.connection = c
  | .deed c (.use _) => σ.queues c.number = false

theorem Agrees.put (agrees : x.Agrees σ y) {h k : Hub} (hub : h.Agrees σ k) (c : Connection)
    (m : Nat) (s : Session) :
    ({ x with hub := h }.put c m s).Agrees σ ({ y with hub := k }.put c m s) := by
  refine ⟨hub, ?_⟩
  intro d hd
  funext n
  simp only [Exchange.put, agrees.sessions d hd]

theorem relayed?_congr {h k : Hub} (agrees : h.Agrees σ k) (s : Session)
    (watched : σ.rooms s.room = true) (item : Inbound) : s.relayed? h item = s.relayed? k item := by
  cases item with
  | frame f =>
      simp only [Session.relayed?]
      split
      · rw [(agrees.relay watched s.connection _).2]
      · rfl
  | _ => rfl

theorem left?_congr {h k : Hub} (agrees : h.Agrees σ k) (s : Session)
    (watched : σ.rooms s.room = true) (item : Inbound) : s.left? h item = s.left? k item := by
  rw [Session.left?, (s.agrees_receive agrees watched item).2,
    (agrees.depart watched s.connection).2, Session.left?]

/-- A covered action does the same on both sides and is answered alike. -/
theorem Agrees.step (agrees : x.Agrees σ y) {a : Action} (covers : x.Covers σ a) :
    (x.step a).Agrees σ (y.step a) ∧ (x.act a).2 = (y.act a).2 := by
  unfold Exchange.step
  cases a with
  | advance milliseconds => exact ⟨⟨agrees.hub.advance milliseconds, agrees.sessions⟩, rfl⟩
  | deed c d =>
      cases d with
      | join k room =>
          have hsessions := congrFun (agrees.sessions c covers.1) k
          simp only [Exchange.act, perform, ← hsessions]
          cases x.sessions c k with
          | some s => exact ⟨agrees, rfl⟩
          | none =>
              obtain ⟨hhub, hanswer⟩ := agrees.hub.join covers.2 c
              exact ⟨agrees.put hhub c k _, congrArg Reply.joined hanswer⟩
      | receive k item =>
          have hsessions := congrFun (agrees.sessions c covers.1) k
          simp only [Exchange.act, perform, ← hsessions]
          cases hs : x.sessions c k with
          | none => exact ⟨agrees, rfl⟩
          | some s =>
              have hroom := covers.2 s hs
              obtain ⟨hhub, hsession⟩ := s.agrees_receive agrees.hub hroom item
              simp only [← hsession, ← relayed?_congr agrees.hub s hroom item,
                ← left?_congr agrees.hub s hroom item, and_true]
              exact agrees.put hhub c k _
      | abort k =>
          have hsessions := congrFun (agrees.sessions c covers.1) k
          simp only [Exchange.act, perform, ← hsessions]
          cases hs : x.sessions c k with
          | none => exact ⟨agrees, rfl⟩
          | some s =>
              obtain ⟨hhub, hsession⟩ := s.agrees_abort agrees.hub
              simp only [← hsession, and_true]
              exact agrees.put hhub c k _
      | carryOut room =>
          obtain ⟨hhub, hmem⟩ := agrees.hub.carryOut covers.2 covers.1
          have hanswer := (agrees.hub.depart covers.2 c).2
          refine ⟨⟨hhub, agrees.sessions⟩, ?_⟩
          simp only [Exchange.act, perform, List.contains_iff_mem, hmem, hanswer]
      | relay room u =>
          obtain ⟨hhub, hanswer⟩ := agrees.hub.relay covers.2 c u
          exact ⟨⟨hhub, agrees.sessions⟩, congrArg Reply.relayed hanswer⟩
      | use u =>
          have houtbox := agrees.hub.outbox c covers.2
          refine ⟨⟨agrees.hub.use c u, agrees.sessions⟩, ?_⟩
          simp only [Exchange.act, perform, houtbox]

theorem agrees_put (x : Exchange) {h : Hub} (hub : x.hub.Agrees σ h) {c : Connection}
    (actor : σ.actors c.number = false) (k : Nat) (s : Session) :
    x.Agrees σ ({ x with hub := h }.put c k s) := by
  refine ⟨hub, ?_⟩
  intro d hd
  funext n
  have hne : d ≠ c := by
    rintro rfl
    rw [actor] at hd
    cases hd
  simp [Exchange.put, hne]

/-- An action that spares what is watched changes nothing of it. -/
theorem agrees_step {a : Action} (spares : x.Spares σ a) : x.Agrees σ (x.step a) := by
  have hleads := x.leads_step a
  generalize x.step a = y at hleads ⊢
  have hkept {h : Hub} (hub : x.hub.Agrees σ h) : x.Agrees σ { x with hub := h } :=
    ⟨hub, fun _ _ => rfl⟩
  cases hleads with
  | idle => exact Agrees.refl x
  | joins c k room fresh =>
      obtain ⟨hactor, hown, houtside, hothers⟩ := spares
      exact x.agrees_put (Hub.agrees_join houtside hown hothers) hactor k _
  | receives c k item s found =>
      obtain ⟨rfl, haside⟩ := spares.2 s found
      exact x.agrees_put (haside.agrees_receive item) spares.1 k _
  | aborts c k s found =>
      obtain rfl := spares.2 s found
      exact x.agrees_put (Hub.agrees_abort spares.1 x.hub) spares.1 k _
  | departs c room => exact hkept (spares.2.agrees_departs spares.1)
  | relays c room u => exact hkept (spares.agrees_relay u)
  | uses c u => exact hkept (Hub.agrees_use spares x.hub u)
  | advances milliseconds => cases spares

/-! ### Whole runs -/

/-- Leaving out actions that change nothing of what is watched makes no difference to it, at no
point of a run and to no answer. -/
theorem unwind_of_agrees (keep : Action → Bool) (I : Exchange → Prop) {actions : List Action}
    (preserved : ∀ x, ∀ a ∈ actions, I x → I (x.step a))
    (covers : ∀ x, ∀ a ∈ actions, I x → keep a = true → x.Covers σ a)
    (idle : ∀ x, ∀ a ∈ actions, I x → keep a = false → x.Agrees σ (x.step a))
    (holds : I x) (agrees : x.Agrees σ y) :
    (x.run actions).Agrees σ (y.run (actions.filter keep)) ∧
      (x.answers actions).filter (keep ·.1) = y.answers (actions.filter keep) ∧
      ∀ c, σ.queues c.number = true →
        x.intake c actions = y.intake c (actions.filter keep) := by
  induction actions generalizing x y with
  | nil => exact ⟨agrees, rfl, fun _ _ => rfl⟩
  | cons a rest ih =>
      have hinvariant := preserved x a List.mem_cons_self holds
      have hih {z : Exchange} (hz : (x.step a).Agrees σ z) := ih
        (fun x b hb => preserved x b (List.mem_cons_of_mem a hb))
        (fun x b hb => covers x b (List.mem_cons_of_mem a hb))
        (fun x b hb => idle x b (List.mem_cons_of_mem a hb)) hinvariant hz
      cases hkeep : keep a with
      | true =>
          obtain ⟨hstep, hanswer⟩ := agrees.step (covers x a List.mem_cons_self holds hkeep)
          obtain ⟨hrun, hanswers, hintake⟩ := hih hstep
          rw [List.filter_cons_of_pos hkeep]
          refine ⟨hrun, ?_, ?_⟩
          · simp only [answers, List.filter_cons, hkeep, if_true, hanswers, hanswer]
          · intro c hc
            rw [intake, intake, hintake c hc, agrees.hub.outbox c hc, hstep.hub.outbox c hc]
      | false =>
          have hstep := idle x a List.mem_cons_self holds hkeep
          obtain ⟨hrun, hanswers, hintake⟩ := hih (hstep.symm.trans agrees)
          rw [List.filter_cons_of_neg (by simp [hkeep])]
          refine ⟨hrun, ?_, ?_⟩
          · simp only [answers, List.filter_cons, hkeep, hanswers]
            rfl
          · intro c hc
            have hnone : (x.hub.outbox c).gained ((x.step a).hub.outbox c) = [] := by
              rw [← hstep.hub.outbox c hc, Outbox.gained, List.drop_length]
            rw [intake, hnone, List.nil_append, hintake c hc]

/-- Actions that spare what is watched may be left out. -/
theorem unwind (keep : Action → Bool) (I : Exchange → Prop) {actions : List Action}
    (preserved : ∀ x, ∀ a ∈ actions, I x → I (x.step a))
    (covers : ∀ x, ∀ a ∈ actions, I x → keep a = true → x.Covers σ a)
    (spares : ∀ x, ∀ a ∈ actions, I x → keep a = false → x.Spares σ a)
    (holds : I x) (agrees : x.Agrees σ y) :
    (x.run actions).Agrees σ (y.run (actions.filter keep)) ∧
      (x.answers actions).filter (keep ·.1) = y.answers (actions.filter keep) ∧
      ∀ c, σ.queues c.number = true →
        x.intake c actions = y.intake c (actions.filter keep) :=
  unwind_of_agrees keep I preserved covers
    (fun x a ha hx hkeep => agrees_step (spares x a ha hx hkeep)) holds agrees

end RoomRelay.Exchange
