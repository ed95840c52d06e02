import RoomRelay.Proofs.Hub.Exchange
import RoomRelay.Proofs.Hub.Mailbox
import RoomRelay.Proofs.Hub.Updates

/-!
What comes into an outbox from outside. Whatever is done with the shared state, other than by the
receiving end of a connection itself, can only add to the connection's outbox: frames that find it
open, and requests to close, which wait where there is no room.
-/

namespace RoomRelay

/-- An outbox that took these items since, in this order. What it refused left no trace. -/
inductive Outbox.Fed (q : Outbox) : List Outbound → Outbox → Prop where
  | refl : Fed q [] q
  | frame {r : Outbox} {items : List Outbound} (so_far : Fed q items r) (f : Frame)
      (accepts : r.Accepts) : Fed q (items ++ [.frame f]) (r.post f)
  | close {r : Outbox} {items : List Outbound} (so_far : Fed q items r) (c : Close)
      (listening : r.receiver = .listening) : Fed q (items ++ [.close c]) (r.requestClose true c)

namespace Outbox

/-- An outbox took something or nothing. -/
def Grows (q r : Outbox) : Prop := ∃ items, q.Fed items r

namespace Fed

variable {q r s : Outbox} {items more : List Outbound}

theorem trans (first : q.Fed items r) (second : r.Fed more s) : q.Fed (items ++ more) s := by
  induction second with
  | refl => simpa using first
  | frame so_far f accepts ih =>
      rw [← List.append_assoc]
      exact .frame ih f accepts
  | close so_far c listening ih =>
      rw [← List.append_assoc]
      exact .close ih c listening

theorem contents (fed : q.Fed items r) : r.contents = q.contents ++ items := by
  induction fed with
  | refl => simp
  | frame so_far f accepts ih => rw [contents_post accepts, ih, List.append_assoc]
  | close so_far c listening ih => rw [contents_requestClose _ c listening, ih, List.append_assoc]

theorem receiver (fed : q.Fed items r) : r.receiver = q.receiver := by
  induction fed with
  | refl => rfl
  | frame so_far f accepts ih => rw [receiver_post, ih]
  | close so_far c listening ih => rw [receiver_requestClose, ih]

/-- Nothing comes into an outbox that has no receiver. -/
theorem of_gone (fed : q.Fed items r) (gone : q.receiver ≠ .listening) : items = [] ∧ r = q := by
  cases fed with
  | refl => exact ⟨rfl, rfl⟩
  | frame so_far f accepts => exact absurd (so_far.receiver ▸ accepts.1) gone
  | close so_far c listening => exact absurd (so_far.receiver ▸ listening) gone

end Fed

namespace Grows

variable {q r s : Outbox}

theorem refl (q : Outbox) : q.Grows q := ⟨[], .refl⟩

theorem trans (first : q.Grows r) (second : r.Grows s) : q.Grows s := by
  obtain ⟨items, hfirst⟩ := first
  obtain ⟨more, hsecond⟩ := second
  exact ⟨items ++ more, hfirst.trans hsecond⟩

end Grows

theorem grows_post (q : Outbox) (f : Frame) : q.Grows (q.post f) := by
  rcases Decidable.em q.Accepts with haccepts | hrefuses
  · exact ⟨_, .frame .refl f haccepts⟩
  · rw [post_of_not_accepts hrefuses]
    exact .refl q

theorem grows_requestClose (q : Outbox) (background : Bool) (c : Close) :
    q.Grows (q.requestClose background c) := by
  rcases Decidable.em (q.receiver = .listening) with hlistening | hgone
  · cases background with
    | true => exact ⟨_, .close .refl c hlistening⟩
    | false =>
        rcases Decidable.em q.Accepts with haccepts | hrefuses
        · have hsame : q.requestClose false c = q.requestClose true c := by
            simp only [requestClose, offer_eq, if_pos haccepts]
          rw [hsame]
          exact ⟨_, .close .refl c hlistening⟩
        · have hsame : q.requestClose false c = q := by
            simp only [requestClose, offer_eq, if_neg hrefuses, refusal, if_pos hlistening]
            rfl
          rw [hsame]
          exact .refl q
  · have hsame : q.requestClose background c = q := by
      have hrefuses : ¬ q.Accepts := fun h => hgone h.1
      simp only [requestClose, offer_eq, if_neg hrefuses, refusal, if_neg hgone]
    rw [hsame]
    exact .refl q

end Outbox

namespace Hub

variable (h : Hub) (c : Connection)

theorem grows_sendEach (f : Frame) (failed : PeerId → RelayError → Event) (cs : List Connection) :
    (h.outbox c).Grows ((h.sendEach f failed cs).outbox c) :=
  sendEach_rule (fun q hq => hq.trans (q.grows_post f)) (Outbox.Grows.refl _) failed cs

/-- A frame that was not refused came in. -/
theorem fed_send {f : Frame} {k : Hub} (sends : h.send c f = .ok k) :
    (h.outbox c).Fed [.frame f] (k.outbox c) := by
  rw [send_eq] at sends
  split at sends
  · rename_i haccepts
    cases sends
    rw [outbox_setOutbox_self (made_of_accepts haccepts)]
    exact .frame .refl f haccepts
  · cases sends

/-- So did a request to close, if there is a receiver. -/
theorem fed_close (listening : (h.outbox c).receiver = .listening) (request : Close) :
    (h.outbox c).Fed [.close request] ((h.close c request).outbox c) := by
  rw [outbox_close_self]
  exact .close .refl request listening

theorem grows_close (d : Connection) (request : Close) (background : Bool) :
    (h.outbox c).Grows ((h.close d request background).outbox c) := by
  rcases eq_or_ne d.number c.number with hsame | hne
  · rw [← outbox_congr h hsame, ← outbox_congr (h.close d request background) hsame,
      outbox_close_self]
    exact Outbox.grows_requestClose _ background request
  · rw [outbox_close_of_ne hne]
    exact .refl _

theorem grows_broadcastPeers (room : RoomId) (members : List Connection) :
    (h.outbox c).Grows ((h.broadcastPeers room members).outbox c) := by
  rw [broadcastPeers, encode_peerList]
  exact h.grows_sendEach c _ _ members

theorem grows_join (room : RoomId) (d : Connection) :
    (h.outbox c).Grows ((h.join room d).1.outbox c) := by
  let entered := (h.enter room d).1
  change (h.outbox c).Grows ((entered.announceJoin room d (h.enter room d).2).outbox c)
  have htold (g : Hub) (members : List Connection) : (g.outbox c).Grows
      (((g.record (.peerJoined room d.peer)).broadcastPeers room members).outbox c) :=
    (g.record _).grows_broadcastPeers c room members
  unfold announceJoin
  cases (h.enter room d).2.superseded with
  | none => exact htold entered _
  | some p =>
      have hclosed := (entered.record (.peerReplaced room d.peer)).grows_close c p superseded true
      exact hclosed.trans (htold _ _)

theorem grows_depart (room : RoomId) (d : Connection) :
    (h.outbox c).Grows ((h.depart room d).outbox c) := by
  rw [outbox_depart]
  exact (h.exit room d).1.grows_broadcastPeers c room _

theorem grows_dispatch (d : Delivery) : (h.outbox c).Grows ((h.dispatch d).outbox c) := by
  unfold dispatch
  split
  · exact h.grows_sendEach c _ _ d.targets
  · exact .refl _

theorem grows_relay (room : RoomId) (d : Connection) (u : Uplink) :
    (h.outbox c).Grows ((h.relay room d u).1.outbox c) := by
  rcases h.relay_cases room d u with
    ⟨e, -, heq⟩ | ⟨frame, -, ⟨-, heq⟩ | ⟨ms, -, -, heq⟩ | ⟨ms, -, -, heq⟩⟩
  · rw [heq]
    exact .refl _
  · rw [heq]
    exact h.grows_close c d roomGone true
  · rw [heq]
    exact h.grows_close c d superseded true
  · rw [heq]
    exact grows_dispatch (h.record _) c _

theorem grows_advance (milliseconds : Nat) :
    (h.outbox c).Grows ((h.advance milliseconds).outbox c) := by
  have hdeliver (g : Hub) (ds : List Delivery) :
      (g.outbox c).Grows ((ds.foldl deliver g).outbox c) := by
    induction ds generalizing g with
    | nil => exact .refl _
    | cons d rest ih => exact (g.grows_sendEach c _ _ d.targets).trans (ih (g.deliver d))
  rw [advance_eq]
  exact hdeliver (h.later (h.now + milliseconds)) _

theorem grows_receive (s : Session) (item : Inbound) :
    (h.outbox c).Grows ((s.receive h item).1.outbox c) := by
  apply Session.receive_rule (P := fun g => (h.outbox c).Grows (g.outbox c))
    (Q := fun g => (h.outbox c).Grows (g.outbox c))
  · exact fun g e hg => hg
  · exact fun g hg => hg
  · exact fun g hg => hg.trans (g.grows_depart c _ _)
  · exact .refl _
  · exact h.grows_relay c s.room s.connection

end Hub

namespace Exchange

variable {x : Exchange} {c : Connection}

theorem grows_step {a : Action} (kept : a.uses c = false) :
    (x.hub.outbox c).Grows ((x.step a).hub.outbox c) := by
  have hleads := x.leads_step a
  generalize x.step a = y at hleads ⊢
  cases hleads with
  | idle => exact .refl _
  | joins d k room fresh => exact x.hub.grows_join c room d
  | receives d k item s found => exact x.hub.grows_receive c s item
  | aborts d k s found =>
      have hsame : (s.abort x.hub).1.outbox c = x.hub.outbox c :=
        congrArg (·[c.number]?.getD _) (s.abort_quiet x.hub).2.2.1
      change (x.hub.outbox c).Grows ((s.abort x.hub).1.outbox c)
      rw [hsame]
      exact .refl _
  | departs d room =>
      let erased := { x.hub with departures := x.hub.departures.erase (room, d) }
      exact erased.grows_depart c room d
  | relays d room u => exact x.hub.grows_relay c room d u
  | uses d u =>
      have hne : d.number ≠ c.number := by simpa [Action.uses] using kept
      rw [Hub.outbox_use_of_ne hne]
      exact .refl _
  | advances milliseconds => exact x.hub.grows_advance c milliseconds

/-- What comes in during a run in which the receiving end is left alone. -/
theorem fed_run {actions : List Action} (kept : ∀ a ∈ actions, a.uses c = false) :
    (x.hub.outbox c).Fed (x.intake c actions) ((x.run actions).hub.outbox c) := by
  induction actions generalizing x with
  | nil => exact .refl
  | cons a rest ih =>
      obtain ⟨items, hfed⟩ := grows_step (x := x) (kept a List.mem_cons_self)
      have hgained : (x.hub.outbox c).gained ((x.step a).hub.outbox c) = items := by
        rw [Outbox.gained, hfed.contents, List.drop_left]
      rw [intake, hgained]
      exact hfed.trans (ih fun b hb => kept b (List.mem_cons_of_mem a hb))

end Exchange

end RoomRelay
