import RoomRelay.Proofs.Hub.Exchange
import RoomRelay.Proofs.Hub.Updates
import RoomRelay.Proofs.Socket.Client
import RoomRelay.Server

/-!
What the links of a server do to the state that they share. Their writers use nothing but the
receiving ends of their own connections, and what a client does frees places in rooms but takes
none. How the writers work does not depend on the log.
-/

namespace RoomRelay

open Socket

/-- What is left of a registry after some leaves. -/
inductive Registry.Leaves (r : Registry) : Registry → Prop where
  | refl : Leaves r r
  | leave {r' : Registry} (so_far : Leaves r r') (room : RoomId) (c : Connection) :
      Leaves r (r'.leave room c).1

theorem Registry.Leaves.trans {r r' r'' : Registry} (first : r.Leaves r') (second : r'.Leaves r'') :
    r.Leaves r'' := by
  induction second with
  | refl => exact first
  | leave so_far room c ih => exact ih.leave room c

namespace Hub

theorem leaves_depart (h : Hub) (room : RoomId) (c : Connection) :
    h.registry.Leaves (h.depart room c).registry := by
  rw [(alike_depart h room c).registry]
  exact .leave .refl room c

theorem leaves_runDepartures (h : Hub) : h.registry.Leaves h.runDepartures.registry := by
  have hfold (ds : List (RoomId × Connection)) (g : Hub) :
      g.registry.Leaves (ds.foldl (fun g d => g.depart d.1 d.2) g).registry := by
    induction ds generalizing g with
    | nil => exact .refl
    | cons d rest ih => exact (leaves_depart g d.1 d.2).trans (ih _)
  exact hfold h.departures { h with departures := [] }

theorem leaves_receive (s : Session) (h : Hub) (item : Inbound) :
    h.registry.Leaves (s.receive h item).1.registry := by
  rcases Exchange.registry_receive s h item with hsame | hleft
  · exact hsame ▸ .refl
  · exact hleft ▸ .leave .refl s.room s.connection

end Hub

namespace Socket.Link

/-! ### The registry -/

theorem registry_failWrite (l : Link) (h : Hub) (item : Outbound) (reason : String) :
    (l.failWrite h item reason).1.registry = h.registry := rfl

theorem registry_resume (l : Link) (h : Hub) : (l.resume h).1.registry = h.registry := by
  unfold resume
  split
  · dsimp only
    split
    · rfl
    · split <;> rfl
  · rfl

theorem registry_work (l : Link) (h : Hub) : (l.work h).1.registry = h.registry := by
  unfold work
  dsimp only
  split
  · rfl
  · rfl
  · split <;> rfl
  · rfl

theorem registry_pump (l : Link) (h : Hub) : (l.pump h).1.registry = h.registry := by
  unfold pump
  dsimp only
  split
  · rw [registry_work, registry_resume]
  · exact registry_resume l h

theorem registry_expire (l : Link) (h : Hub) : (l.expire h).1.registry = h.registry := by
  unfold expire
  split
  · split <;> rfl
  · rfl

/-- What a client does can only make its session leave. -/
theorem Passes.leaves {l : Link} {h : Hub} {p : Hub × Link} (passes : l.Passes h p) :
    h.registry.Leaves p.1.registry := by
  cases passes with
  | nothing => exact .refl
  | item => exact Hub.leaves_receive _ h _

theorem leaves_vanish (l : Link) (h : Hub) : h.registry.Leaves (l.vanish h).1.registry := by
  obtain ⟨p, hpasses, heq | ⟨item, -, heq⟩⟩ := l.passes_vanish h
  · rw [heq]
    exact hpasses.leaves
  · rw [heq, registry_failWrite]
    exact hpasses.leaves

end Socket.Link

namespace Server

theorem registry_pumpLinks (h : Hub) (ls : List Link) :
    (pumpLinks h ls).1.registry = h.registry := by
  induction ls generalizing h with
  | nil => rfl
  | cons l rest ih => exact (ih (l.pump h).1).trans (l.registry_pump h)

theorem leaves_settle (s : Server) : s.hub.registry.Leaves s.settle.hub.registry := by
  have hpump : s.settle.hub.registry = s.hub.runDepartures.registry :=
    registry_pumpLinks s.hub.runDepartures s.links.toList
  exact hpump ▸ s.hub.leaves_runDepartures

theorem leaves_onLink (s : Server) (i : Nat) {f : Link → Hub → Hub × Link}
    (leaves : ∀ (l : Link) (h : Hub), h.registry.Leaves (f l h).1.registry) :
    s.hub.registry.Leaves (s.onLink i f).hub.registry := by
  unfold onLink
  split
  · rename_i l hl
    let changed : Server :=
      { s with hub := (f l s.hub).1, links := s.links.modify i fun _ => (f l s.hub).2 }
    exact (leaves l s.hub).trans changed.leaves_settle
  · exact .refl

theorem leaves_clientSend (s : Server) (i : Nat) (items : List Inbound) :
    s.hub.registry.Leaves (s.clientSend i items).hub.registry := by
  unfold clientSend
  induction items generalizing s with
  | nil => exact .refl
  | cons item rest ih =>
      exact (s.leaves_onLink i fun l h => (l.passes_clientSend h item).leaves).trans (ih _)

theorem leaves_clientRead (s : Server) (i : Nat) :
    s.hub.registry.Leaves (s.clientRead i).1.hub.registry := by
  unfold clientRead
  split
  · rename_i l hl
    let read : Server :=
      { s with
        hub := (l.clientRead s.hub).1
        links := s.links.modify i fun _ => (l.clientRead s.hub).2.1 }
    exact (l.passes_clientRead s.hub).leaves.trans read.leaves_settle
  · exact .refl

theorem leaves_vanish (s : Server) (i : Nat) :
    s.hub.registry.Leaves (s.vanish i).hub.registry :=
  s.leaves_onLink i fun l h => l.leaves_vanish h

theorem registry_expireLinks (h : Hub) (ls : List Link) :
    (expireLinks h ls).1.registry = h.registry := by
  induction ls generalizing h with
  | nil => rfl
  | cons l rest ih => exact (ih (l.expire h).1).trans (l.registry_expire h)

theorem leaves_elapse (s : Server) (moment : Nat) :
    s.hub.registry.Leaves (s.elapse moment).hub.registry := by
  have hexpired := (registry_expireLinks (s.hub.advance (moment - s.hub.now)) s.links.toList).trans
    (s.hub.registry_advance (moment - s.hub.now))
  have hsettled := leaves_settle { s with
    hub := (expireLinks (s.hub.advance (moment - s.hub.now)) s.links.toList).1
    links := (expireLinks (s.hub.advance (moment - s.hub.now)) s.links.toList).2.toArray }
  rw [hexpired] at hsettled
  exact hsettled

theorem leaves_advance (s : Server) (milliseconds : Nat) :
    s.hub.registry.Leaves (s.advance milliseconds).hub.registry := by
  have hfold (ts : List Nat) (s : Server) :
      s.hub.registry.Leaves (ts.foldl elapse s).hub.registry := by
    induction ts generalizing s with
    | nil => exact .refl
    | cons t rest ih => exact (s.leaves_elapse t).trans (ih _)
  exact hfold _ s

end Server

/-! ### The log -/

namespace Hub

/-- The states differ in nothing but the log. -/
abbrev Matches (h k : Hub) : Prop := h.Agrees .everything k

variable {h k : Hub}

theorem Matches.departures_eq (alike : h.Matches k) : h.departures = k.departures := by
  simpa [Scope.everything] using alike.departures

theorem Matches.runDepartures (alike : h.Matches k) : h.runDepartures.Matches k.runDepartures := by
  rw [runDepartures_eq, runDepartures_eq, alike.departures_eq]
  generalize k.departures = ds
  induction ds generalizing h k with
  | nil => exact alike
  | cons d rest ih => exact ih (alike.carryOut rfl rfl).1

end Hub

namespace Socket.Link

variable {h k : Hub}

theorem isReachable_congr (alike : h.Matches k) (l : Link) : l.isReachable h = l.isReachable k := by
  have hdeliveries (ds : List Delivery) :
      ds.any (·.targets.any (·.same l.connection)) =
        (ds.filter Scope.everything.targets).any (·.targets.any (·.same l.connection)) := by
    rw [List.any_filter]
    congr 1
    funext d
    cases htargets : d.targets <;> simp [Scope.targets, Scope.everything, htargets]
  rw [isReachable, isReachable, alike.registry_eq fun _ => rfl, hdeliveries h.deliveries,
    alike.deliveries, ← hdeliveries, alike.departures_eq]

theorem stopWriter_congr (alike : h.Matches k) (l : Link) :
    (l.stopWriter h).1.Matches (l.stopWriter k).1 :=
  alike.use l.connection .discard

theorem failWrite_congr (alike : h.Matches k) (l : Link) (item : Outbound) (reason : String) :
    (l.failWrite h item reason).1.Matches (l.failWrite k item reason).1 :=
  stopWriter_congr (alike.record _ _) l

theorem resume_congr (alike : h.Matches k) (l : Link) :
    (l.resume h).1.Matches (l.resume k).1 ∧ (l.resume h).2 = (l.resume k).2 := by
  unfold resume
  split
  · dsimp only
    split
    · exact ⟨alike, rfl⟩
    · split
      · exact ⟨stopWriter_congr alike _, rfl⟩
      · exact ⟨alike, rfl⟩
  · exact ⟨alike, rfl⟩

theorem work_congr (alike : h.Matches k) (l : Link) :
    (l.work h).1.Matches (l.work k).1 ∧ (l.work h).2 = (l.work k).2 := by
  have hskip (n : Nat) : (h.setOutbox l.connection ((h.outbox l.connection).skip n)).Matches
      (k.setOutbox l.connection ((k.outbox l.connection).skip n)) :=
    alike.use l.connection (.skip n)
  unfold work
  rw [alike.outbox l.connection rfl] at hskip ⊢
  dsimp only
  split
  · exact ⟨failWrite_congr (hskip _) _ _ _, rfl⟩
  · exact ⟨stopWriter_congr (hskip _) _, rfl⟩
  · rw [isReachable_congr (hskip _)]
    split
    · exact ⟨hskip _, rfl⟩
    · exact ⟨stopWriter_congr (hskip _) _, rfl⟩
  · exact ⟨hskip _, rfl⟩

theorem pump_congr (alike : h.Matches k) (l : Link) :
    (l.pump h).1.Matches (l.pump k).1 ∧ (l.pump h).2 = (l.pump k).2 := by
  obtain ⟨hresumed, hlink⟩ := resume_congr alike l
  unfold pump
  dsimp only
  rw [hlink]
  split
  · exact work_congr hresumed _
  · exact ⟨hresumed, rfl⟩

end Socket.Link

namespace Server

theorem pumpLinks_congr {h k : Hub} (alike : h.Matches k) (ls : List Link) :
    (pumpLinks h ls).1.Matches (pumpLinks k ls).1 ∧ (pumpLinks h ls).2 = (pumpLinks k ls).2 := by
  induction ls generalizing h k with
  | nil => exact ⟨alike, rfl⟩
  | cons l rest ih =>
      obtain ⟨hpumped, hlink⟩ := l.pump_congr alike
      obtain ⟨hrest, hlinks⟩ := ih hpumped
      exact ⟨hrest, congrArg₂ List.cons hlink hlinks⟩

/-- Servers that differ in nothing but the log. -/
structure Matches (s t : Server) : Prop where
  hub : s.hub.Matches t.hub
  memberships : s.memberships = t.memberships
  sessions : s.sessions = t.sessions
  links : s.links = t.links

theorem Matches.settle {s t : Server} (alike : s.Matches t) : s.settle.Matches t.settle := by
  obtain ⟨hpumped, hlinks⟩ := pumpLinks_congr alike.hub.runDepartures t.links.toList
  have hsettle : s.settle =
      { s with
        hub := (pumpLinks s.hub.runDepartures t.links.toList).1
        links := (pumpLinks s.hub.runDepartures t.links.toList).2.toArray } := by
    rw [← alike.links]
    rfl
  rw [hsettle]
  exact {
    hub := hpumped
    memberships := alike.memberships
    sessions := alike.sessions
    links := congrArg List.toArray hlinks }

end Server

end RoomRelay
