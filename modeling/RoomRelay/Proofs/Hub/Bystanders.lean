import RoomRelay.Proofs.Hub.Agreement
import RoomRelay.Proofs.Hub.Effect

/-!
Two states of the relay that differ in one connection. What the others do keeps them so and is
answered alike. What the connection does itself makes no further difference, as long as it holds no
place.
-/

namespace RoomRelay

/-- Everything but one connection: neither what it does nor what comes to it. -/
def Scope.allBut (n : Nat) : Scope where
  rooms _ := true
  actors m := m != n
  queues m := m != n

theorem Scope.queues_allBut {n : Nat} {c : Connection} (other : c.number ≠ n) :
    (allBut n).queues c.number = true := by simp [allBut, other]

namespace Hub

/-- The states differ in nothing but one connection: the leave that it has handed over, and its
outbox. The log is not regarded. -/
structure Besides (n : Nat) (h k : Hub) : Prop where
  agrees : h.Agrees (.allBut n) k
  deliveries : h.deliveries = k.deliveries
  size : h.outboxes.size = k.outboxes.size

namespace Besides

variable {n : Nat} {h k : Hub}

theorem refl (h : Hub) : h.Besides n h := ⟨Agrees.refl h, rfl, rfl⟩

theorem symm (besides : h.Besides n k) : k.Besides n h :=
  ⟨besides.agrees.symm, besides.deliveries.symm, besides.size.symm⟩

theorem trans {l : Hub} (first : h.Besides n k) (second : k.Besides n l) : h.Besides n l :=
  ⟨first.agrees.trans second.agrees, first.deliveries.trans second.deliveries,
    first.size.trans second.size⟩

theorem of_alike (besides : h.Besides n k) {h' k' : Hub} (left : h.Alike h') (right : k.Alike k')
    (agrees : h'.Agrees (.allBut n) k') : h'.Besides n k' where
  agrees := agrees
  deliveries := by rw [left.deliveries, right.deliveries, besides.deliveries]
  size := by rw [left.size, right.size, besides.size]

theorem registry (besides : h.Besides n k) : h.registry = k.registry :=
  besides.agrees.registry_eq fun _ => rfl

theorem record (besides : h.Besides n k) (e : Event) : (h.record e).Besides n (k.record e) :=
  ⟨besides.agrees.record e e, besides.deliveries, besides.size⟩

theorem depart (besides : h.Besides n k) (room : RoomId) (c : Connection) :
    (h.depart room c).Besides n (k.depart room c) where
  agrees := (besides.agrees.depart rfl c).1
  deliveries := by
    rw [(alike_depart h room c).deliveries, (alike_depart k room c).deliveries]
    exact besides.deliveries
  size := by
    rw [(alike_depart h room c).size, (alike_depart k room c).size]
    exact besides.size

theorem deliver (besides : h.Besides n k) (d : Delivery) : (h.deliver d).Besides n (k.deliver d) :=
  besides.of_alike (alike_deliver h d) (alike_deliver k d) (besides.agrees.deliver d)

theorem dispatch (besides : h.Besides n k) (d : Delivery) :
    (h.dispatch d).Besides n (k.dispatch d) := by
  have hagrees := besides.agrees.dispatch d
  revert hagrees
  unfold Hub.dispatch
  rw [besides.agrees.delay]
  split
  · exact fun hagrees => besides.of_alike (alike_deliver h d) (alike_deliver k d) hagrees
  · exact fun hagrees => ⟨hagrees, congrArg (· ++ [d]) besides.deliveries, besides.size⟩

theorem relay (besides : h.Besides n k) (room : RoomId) (c : Connection) (u : Uplink) :
    (h.relay room c u).1.Besides n (k.relay room c u).1 ∧
      (h.relay room c u).2 = (k.relay room c u).2 := by
  have hnext : h.nextDue = k.nextDue := by
    rw [nextDue, nextDue, besides.agrees.now, besides.agrees.delay]
  have hclose (request : Close) : (h.close c request).Besides n (k.close c request) :=
    besides.of_alike (alike_close h c request true) (alike_close k c request true)
      (besides.agrees.close c request)
  unfold Hub.relay
  rw [besides.registry]
  cases (u.relayed c.peer).encode with
  | error e => exact ⟨besides, rfl⟩
  | ok frame =>
      cases k.registry.members? room with
      | none => exact ⟨hclose roomGone, rfl⟩
      | some ms =>
          simp only
          split
          · have hdue (g : Hub) (e : Event) : (g.record e).nextDue = g.nextDue := rfl
            simp only [hdue, hnext]
            exact ⟨(besides.record _).dispatch _, trivial⟩
          · exact ⟨hclose superseded, rfl⟩

theorem receive (besides : h.Besides n k) (s : Session) (item : Inbound) :
    (s.receive h item).1.Besides n (s.receive k item).1 ∧
      (s.receive h item).2 = (s.receive k item).2 :=
  Session.receive_related (R := fun g g' => g.Besides n g') (fun _ _ e hg => hg.record e)
    (fun _ _ hg => hg.depart s.room s.connection) besides (besides.relay s.room s.connection) item

theorem abort (besides : h.Besides n k) (s : Session) :
    (s.abort h).1.Besides n (s.abort k).1 ∧ (s.abort h).2 = (s.abort k).2 := by
  obtain ⟨hagrees, hsession⟩ := s.agrees_abort besides.agrees
  obtain ⟨-, -, hleft, hleft'⟩ := s.abort_quiet h
  obtain ⟨-, -, hright, hright'⟩ := s.abort_quiet k
  refine ⟨⟨hagrees, ?_, ?_⟩, hsession⟩
  · rw [hleft', hright', besides.deliveries]
  · rw [hleft, hright, besides.size]

theorem connect (besides : h.Besides n k) (peer : PeerId) (capacity : Nat) :
    (h.connect peer capacity).1.Besides n (k.connect peer capacity).1 ∧
      (h.connect peer capacity).2 = (k.connect peer capacity).2 := by
  refine ⟨⟨{ besides.agrees with outbox := ?_ }, besides.deliveries, ?_⟩, ?_⟩
  · intro c hc
    have houtbox := besides.agrees.outbox c hc
    simp only [outbox] at houtbox
    simp only [Hub.connect, outbox, Array.getElem?_push, besides.size]
    split
    · rfl
    · exact houtbox
  · simp only [Hub.connect, Array.size_push, besides.size]
  · simp only [Hub.connect, besides.size]

end Besides

/-- Without a place the session of the connection does nothing to the others. -/
theorem besides_receive {n : Nat} {h : Hub} {s : Session} (number : s.connection.number = n)
    (not_held : h.registry.isHeldBy s.room s.connection = false) (item : Inbound) :
    h.Besides n (s.receive h item).1 := by
  have haside : h.Aside (.allBut n) s.room s.connection :=
    ⟨by simp [Scope.allBut, number], Or.inl not_held⟩
  have hagrees := haside.agrees_receive item
  cases (s.takes_receive h item).2 with
  | nothing alike quiet => exact ⟨hagrees, alike.deliveries.symm, alike.size.symm⟩
  | left g alike quiet leaves =>
      have hdepart := alike_depart g s.room s.connection
      rw [leaves] at hagrees ⊢
      exact ⟨hagrees, (hdepart.deliveries.trans alike.deliveries).symm,
        (hdepart.size.trans alike.size).symm⟩
  | relayed u frame ms e passes dispatched =>
      have hheld := passes.held
      rw [not_held] at hheld
      cases hheld

theorem besides_abort {n : Nat} {s : Session} (number : s.connection.number = n) (h : Hub) :
    h.Besides n (s.abort h).1 := by
  obtain ⟨-, -, houtboxes, hdeliveries⟩ := s.abort_quiet h
  exact ⟨agrees_abort (by simp [Scope.allBut, number]) h, hdeliveries.symm, by rw [houtboxes]⟩

theorem besides_use {n : Nat} {c : Connection} (number : c.number = n) (h : Hub)
    (u : Outbox.Use) : h.Besides n (h.use c u) :=
  have halike := alike_use h c u
  ⟨agrees_use (by simp [Scope.allBut, number]) h u, halike.deliveries.symm, halike.size.symm⟩

end Hub

end RoomRelay
