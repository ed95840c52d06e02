import RoomRelay.Proofs.Hub.Agreement

/-!
The outbox of one connection under everything that is done with it: frames are sent and closes
requested through its handle, and the receiving end takes items, is closed, or goes away. While
there is a receiving end, what was received, what is queued and what waits are together what was
accepted, in its order. A close can only wait where the queue is full, so that it never stands back
behind a frame that was sent after it.
-/

namespace RoomRelay

namespace Outbox

/-- No more is queued than there is room for, and closes wait for nothing but a free place. -/
structure Orderly (q : Outbox) : Prop where
  bounded : q.queued.length ≤ q.capacity
  full : q.waiting ≠ [] → q.receiver = .listening ∧ q.queued.length = q.capacity

namespace Orderly

variable {q : Outbox}

theorem fresh (capacity : Nat) : Orderly { capacity } := ⟨Nat.zero_le _, fun h => absurd rfl h⟩

theorem post (h : q.Orderly) (f : Frame) : (q.post f).Orderly := by
  rcases Decidable.em q.Accepts with haccepts | hrefuses
  · rw [post_of_accepts haccepts]
    obtain ⟨-, hroom, hnobody⟩ := haccepts
    refine ⟨?_, fun hwaiting => absurd hnobody hwaiting⟩
    simp only [List.length_append, List.length_singleton]
    omega
  · rw [post_of_not_accepts hrefuses]
    exact h

theorem requestClose (h : q.Orderly) (c : Close) : (q.requestClose true c).Orderly := by
  rw [Outbox.requestClose, offer_eq]
  rcases Decidable.em q.Accepts with haccepts | hrefuses
  · rw [if_pos haccepts]
    obtain ⟨-, hroom, hnobody⟩ := haccepts
    refine ⟨?_, fun hwaiting => absurd hnobody hwaiting⟩
    simp only [List.length_append, List.length_singleton]
    omega
  · rw [if_neg hrefuses, refusal]
    rcases Decidable.em (q.receiver = .listening) with hlistening | hgone
    · rw [if_pos hlistening]
      -- A close waits because the queue is full, or behind one that waits for this reason.
      have hfull : q.queued.length = q.capacity := by
        rcases Decidable.em (q.waiting = []) with hnobody | hsomebody
        · have hlong : ¬ q.queued.length < q.capacity := fun hroom =>
            hrefuses ⟨hlistening, hroom, hnobody⟩
          have hbounded := h.bounded
          omega
        · exact (h.full hsomebody).2
      exact ⟨h.bounded, fun _ => ⟨hlistening, hfull⟩⟩
    · rw [if_neg hgone]
      exact h

theorem read (h : q.Orderly) (n : Nat) : (q.read n).2.Orderly := by
  have hbounded := h.bounded
  refine ⟨?_, ?_⟩
  · simp only [Outbox.read, promote, List.length_append, List.length_drop, List.length_map,
      List.length_take]
    omega
  · intro hwaiting
    simp only [Outbox.read, promote, List.length_append, List.length_drop, List.length_map,
      List.length_take, ne_eq, List.drop_eq_nil_iff] at hwaiting ⊢
    have hsomebody : q.waiting ≠ [] := by
      rintro hnobody
      simp [hnobody] at hwaiting
    refine ⟨(h.full hsomebody).1, ?_⟩
    omega

theorem shut (h : q.Orderly) : q.shut.Orderly := by
  unfold Outbox.shut
  split
  · exact h
  · exact ⟨h.bounded, fun hwaiting => absurd rfl hwaiting⟩

theorem discard (q : Outbox) : q.discard.Orderly :=
  ⟨Nat.zero_le _, fun hwaiting => absurd rfl hwaiting⟩

/-- Nothing waits where nobody receives. -/
theorem waiting_of_gone (h : q.Orderly) (gone : q.receiver ≠ .listening) : q.waiting = [] := by
  by_contra hwaiting
  exact gone (h.full hwaiting).1

end Orderly

theorem requestClose_of_gone {q : Outbox} (gone : q.receiver ≠ .listening) (c : Close) :
    q.requestClose true c = q := by
  have hrefuses : ¬ q.Accepts := fun h => gone h.1
  rw [requestClose, offer_eq, if_neg hrefuses, refusal, if_neg gone]

/-! The capacity never changes, and the receiver only by what the receiving end does. -/

@[simp]
theorem receiver_post (q : Outbox) (f : Frame) : (q.post f).receiver = q.receiver := by
  unfold post
  split <;> rfl

@[simp]
theorem capacity_post (q : Outbox) (f : Frame) : (q.post f).capacity = q.capacity := by
  unfold post
  split <;> rfl

theorem requestClose_keeps (q : Outbox) (c : Close) :
    (q.requestClose true c).receiver = q.receiver ∧
      (q.requestClose true c).capacity = q.capacity := by
  rw [requestClose, offer_eq]
  rcases Decidable.em q.Accepts with haccepts | hrefuses
  · rw [if_pos haccepts]
    exact ⟨rfl, rfl⟩
  · rw [if_neg hrefuses]
    cases q.refusal <;> exact ⟨rfl, rfl⟩

@[simp]
theorem receiver_requestClose (q : Outbox) (c : Close) :
    (q.requestClose true c).receiver = q.receiver := (requestClose_keeps q c).1

@[simp]
theorem capacity_requestClose (q : Outbox) (c : Close) :
    (q.requestClose true c).capacity = q.capacity := (requestClose_keeps q c).2

@[simp]
theorem receiver_read (q : Outbox) (n : Nat) : (q.read n).2.receiver = q.receiver := rfl

@[simp]
theorem capacity_read (q : Outbox) (n : Nat) : (q.read n).2.capacity = q.capacity := rfl

@[simp]
theorem capacity_shut (q : Outbox) : q.shut.capacity = q.capacity := by
  unfold shut
  split <;> rfl

theorem shut_of_listening {q : Outbox} (listening : q.receiver = .listening) :
    q.shut = { q with waiting := [], receiver := .closed } := by
  rw [shut, listening]

theorem receiver_shut_ne (q : Outbox) : q.shut.receiver ≠ .listening := by
  unfold shut
  split
  · rename_i hdropped
    rw [hdropped]
    exact Receiver.noConfusion
  · exact Receiver.noConfusion

theorem contents_post {q : Outbox} (accepts : q.Accepts) (f : Frame) :
    (q.post f).contents = q.contents ++ [.frame f] := by
  have hnobody := accepts.2.2
  simp [post_of_accepts accepts, contents, hnobody]

/-- Where nothing waits, what is read and what stays queued are what was queued. -/
theorem read_of_nobody {q : Outbox} (nobody : q.waiting = []) (n : Nat) :
    (q.read n).2 = { q with queued := q.queued.drop n } := by
  simp [read, promote, nobody]

end Outbox

/-- A connection with an account of its outbox: what was received from it so far, and what was
accepted, which is every frame that was not refused and every request to close. Clones of a handle
are the same connection. -/
structure Mailbox where
  hub : Hub
  handle : Connection
  received : List Outbound := []
  accepted : List Outbound := []

namespace Mailbox

inductive Move where
  | send (f : Frame)
  | close (c : Close)
  | receive (n : Nat)
  | shut
  | discard
deriving DecidableEq, Repr

def outbox (m : Mailbox) : Outbox := m.hub.outbox m.handle

/-- A connection that was just made. -/
def opened (h : Hub) (peer : PeerId) (capacity : Nat) : Mailbox :=
  { hub := (h.connect peer capacity).1, handle := (h.connect peer capacity).2 }

def step (m : Mailbox) : Move → Mailbox
  | .send f =>
    match m.hub.send m.handle f with
    | .ok hub => { m with hub, accepted := m.accepted ++ [.frame f] }
    | .error _ => m
  | .close c =>
    { m with hub := m.hub.close m.handle c, accepted := m.accepted ++ [.close c] }
  | .receive n =>
    { m with
      hub := m.hub.use m.handle (.read n)
      received := m.received ++ (m.outbox.read n).1 }
  | .shut => { m with hub := m.hub.use m.handle .shut }
  | .discard => { m with hub := m.hub.use m.handle .discard }

def run (m : Mailbox) (moves : List Move) : Mailbox :=
  moves.foldl step m

/-! ### One step -/

section

variable (m : Mailbox)

@[simp]
theorem handle_step (move : Move) : (m.step move).handle = m.handle := by
  cases move with
  | send f =>
      rw [step]
      split <;> rfl
  | _ => rfl

theorem send_eq (f : Frame) :
    m.hub.send m.handle f =
      if m.outbox.Accepts then .ok (m.hub.setOutbox m.handle (m.outbox.post f))
      else .error (m.hub.refused m.handle) :=
  Hub.send_eq m.hub m.handle f

theorem step_send (f : Frame) :
    m.step (.send f) =
      if m.outbox.Accepts then
        { m with
          hub := m.hub.setOutbox m.handle (m.outbox.post f)
          accepted := m.accepted ++ [.frame f] }
      else m := by
  rw [step, send_eq]
  rcases Decidable.em m.outbox.Accepts with haccepts | hrefuses
  · rw [if_pos haccepts, if_pos haccepts]
  · rw [if_neg hrefuses, if_neg hrefuses]

theorem outbox_step_send (f : Frame) : (m.step (.send f)).outbox = m.outbox.post f := by
  rw [step_send]
  split
  · rename_i haccepts
    exact Hub.outbox_setOutbox_self (Hub.made_of_accepts haccepts) _
  · rename_i hrefuses
    exact (Outbox.post_of_not_accepts hrefuses f).symm

theorem outbox_step_close (c : Close) :
    (m.step (.close c)).outbox = m.outbox.requestClose true c :=
  Hub.outbox_close_self m.hub m.handle c true

theorem outbox_step_receive (n : Nat) : (m.step (.receive n)).outbox = (m.outbox.read n).2 :=
  Hub.outbox_use_self m.hub m.handle (.read n)

theorem outbox_step_shut : (m.step .shut).outbox = m.outbox.shut :=
  Hub.outbox_use_self m.hub m.handle .shut

theorem outbox_step_discard : (m.step .discard).outbox = m.outbox.discard :=
  Hub.outbox_use_self m.hub m.handle .discard

end

/-- The account is right: the outbox is in order, and as long as somebody receives, everything that
was accepted has come out or is on its way, in its order. -/
structure Balanced (m : Mailbox) : Prop where
  orderly : m.outbox.Orderly
  kept : m.outbox.receiver = .listening → m.received ++ m.outbox.contents = m.accepted
  emptied : m.outbox.receiver = .dropped → m.outbox.queued = []

theorem outbox_opened (h : Hub) (peer : PeerId) (capacity : Nat) :
    (opened h peer capacity).outbox = { capacity } := by
  simp [opened, outbox, Hub.connect, Hub.outbox]

theorem balanced_opened (h : Hub) (peer : PeerId) (capacity : Nat) :
    (opened h peer capacity).Balanced := by
  refine ⟨?_, ?_, ?_⟩
  · rw [outbox_opened]
    exact Outbox.Orderly.fresh capacity
  · intro _
    rw [outbox_opened]
    rfl
  · intro _
    rw [outbox_opened]

theorem Balanced.step {m : Mailbox} (h : m.Balanced) (move : Move) : (m.step move).Balanced := by
  cases move with
  | send f =>
      refine ⟨by rw [outbox_step_send]; exact h.orderly.post f, ?_, ?_⟩
      · rw [outbox_step_send, Outbox.receiver_post, step_send]
        intro hlistening
        split
        · rename_i haccepts
          rw [Outbox.contents_post haccepts, ← List.append_assoc, h.kept hlistening]
        · rename_i hrefuses
          rw [Outbox.post_of_not_accepts hrefuses]
          exact h.kept hlistening
      · rw [outbox_step_send, Outbox.receiver_post]
        intro hdropped
        rw [Outbox.post_of_not_accepts (Outbox.not_accepts_of_dropped hdropped)]
        exact h.emptied hdropped
  | close c =>
      refine ⟨by rw [outbox_step_close]; exact h.orderly.requestClose c, ?_, ?_⟩
      · rw [outbox_step_close, Outbox.receiver_requestClose]
        intro hlistening
        rw [Outbox.contents_requestClose _ c hlistening, ← List.append_assoc]
        exact congrArg (· ++ [.close c]) (h.kept hlistening)
      · rw [outbox_step_close, Outbox.receiver_requestClose]
        intro hdropped
        rw [Outbox.requestClose_of_gone (by simp [hdropped])]
        exact h.emptied hdropped
  | receive n =>
      refine ⟨by rw [outbox_step_receive]; exact h.orderly.read n, ?_, ?_⟩
      · rw [outbox_step_receive, Outbox.receiver_read]
        intro hlistening
        have hread := Outbox.contents_read m.outbox n
        have hkept := h.kept hlistening
        rw [← hread, ← List.append_assoc] at hkept
        exact hkept
      · rw [outbox_step_receive, Outbox.receiver_read]
        intro hdropped
        have hnobody := h.orderly.waiting_of_gone (by simp [hdropped])
        simp [Outbox.read_of_nobody hnobody, h.emptied hdropped]
  | shut =>
      refine ⟨by rw [outbox_step_shut]; exact h.orderly.shut, ?_, ?_⟩
      · rw [outbox_step_shut]
        intro hlistening
        exact absurd hlistening m.outbox.receiver_shut_ne
      · rw [outbox_step_shut]
        unfold Outbox.shut
        split
        · exact h.emptied
        · intro hdropped
          cases hdropped
  | discard =>
      refine ⟨by rw [outbox_step_discard]; exact Outbox.Orderly.discard _, ?_, ?_⟩
      · rw [outbox_step_discard]
        intro hlistening
        cases hlistening
      · intro _
        rw [outbox_step_discard]
        rfl

theorem Balanced.run {m : Mailbox} (h : m.Balanced) (moves : List Move) :
    (m.run moves).Balanced := by
  induction moves generalizing m with
  | nil => exact h
  | cons move rest ih => exact ih (h.step move)

theorem handle_run (m : Mailbox) (moves : List Move) : (m.run moves).handle = m.handle := by
  induction moves generalizing m with
  | nil => rfl
  | cons move rest ih => exact (ih (m.step move)).trans (m.handle_step move)

theorem capacity_run (m : Mailbox) (moves : List Move) :
    (m.run moves).outbox.capacity = m.outbox.capacity := by
  induction moves generalizing m with
  | nil => rfl
  | cons move rest ih =>
      refine (ih (m.step move)).trans ?_
      cases move with
      | send f => rw [outbox_step_send, Outbox.capacity_post]
      | close c => rw [outbox_step_close, Outbox.capacity_requestClose]
      | receive n => rw [outbox_step_receive, Outbox.capacity_read]
      | shut => rw [outbox_step_shut, Outbox.capacity_shut]
      | discard => rw [outbox_step_discard]; rfl

/-! ### While somebody receives -/

/-- A frame is taken if there is a place and nobody waits for it, and is otherwise refused and
changes nothing; a close is never refused, and waits only where the queue is full; and nothing that
was accepted is lost. -/
structure Serves (m : Mailbox) : Prop where
  send_iff : ∀ f, (∃ h, m.hub.send m.handle f = .ok h) ↔
    m.outbox.queued.length < m.outbox.capacity ∧ m.outbox.waiting = []
  sent : ∀ f h, m.hub.send m.handle f = .ok h →
    (m.step (.send f)).outbox = { m.outbox with queued := m.outbox.queued ++ [.frame f] }
  refused : ∀ f e, m.hub.send m.handle f = .error e →
    e = .queueFull m.handle.peer ∧ m.step (.send f) = m
  closed : ∀ c, (m.step (.close c)).outbox.contents = m.outbox.contents ++ [.close c]
  full : m.outbox.waiting ≠ [] → m.outbox.queued.length = m.outbox.capacity
  kept : m.received ++ m.outbox.queued ++ m.outbox.waiting.map .close = m.accepted

theorem Balanced.serves {m : Mailbox} (h : m.Balanced)
    (listening : m.outbox.receiver = .listening) : m.Serves := by
  have haccepts : m.outbox.Accepts ↔
      m.outbox.queued.length < m.outbox.capacity ∧ m.outbox.waiting = [] := by
    simp [Outbox.Accepts, listening]
  have haccepted {f : Frame} {k : Hub} (hk : m.hub.send m.handle f = .ok k) :
      m.outbox.Accepts := by
    by_contra hrefuses
    rw [send_eq, if_neg hrefuses] at hk
    cases hk
  refine ⟨?_, ?_, ?_, ?_, fun hwaiting => (h.orderly.full hwaiting).2, ?_⟩
  · intro f
    rw [← haccepts]
    constructor
    · rintro ⟨k, hk⟩
      exact haccepted hk
    · intro hall
      exact ⟨_, (m.send_eq f).trans (if_pos hall)⟩
  · intro f k hk
    rw [outbox_step_send, Outbox.post_of_accepts (haccepted hk)]
  · intro f e he
    have hrefuses : ¬ m.outbox.Accepts := by
      intro hall
      rw [send_eq, if_pos hall] at he
      cases he
    have hfull : m.hub.refused m.handle = .queueFull m.handle.peer := if_pos listening
    rw [send_eq, if_neg hrefuses, hfull] at he
    cases he
    exact ⟨rfl, by rw [step_send, if_neg hrefuses]⟩
  · intro c
    rw [outbox_step_close]
    exact Outbox.contents_requestClose _ c listening
  · rw [List.append_assoc]
    exact h.kept listening

/-! ### Once nobody receives any more -/

/-- Every frame is refused and every request to close is lost; nothing waits; and what is queued
comes out in its order, unless the receiving end goes away before. -/
structure Ceased (m : Mailbox) : Prop where
  refused : ∀ f, m.hub.send m.handle f = .error (.peerGone m.handle.peer) ∧ m.step (.send f) = m
  lost : ∀ c, (m.step (.close c)).outbox = m.outbox
  waiting : m.outbox.waiting = []
  received : ∀ n, (m.step (.receive n)).received = m.received ++ m.outbox.queued.take n ∧
    (m.step (.receive n)).outbox.queued = m.outbox.queued.drop n
  drains : ∀ later, .discard ∉ later →
    (m.run later).received ++ (m.run later).outbox.queued = m.received ++ m.outbox.queued
  adds_nothing : ∀ later, (m.run later).received <+: m.received ++ m.outbox.queued

theorem gone_step {m : Mailbox} (gone : m.outbox.receiver ≠ .listening) (move : Move) :
    (m.step move).outbox.receiver ≠ .listening := by
  cases move with
  | send f => rwa [outbox_step_send, Outbox.receiver_post]
  | close c => rwa [outbox_step_close, Outbox.receiver_requestClose]
  | receive n => rwa [outbox_step_receive, Outbox.receiver_read]
  | shut =>
      rw [outbox_step_shut]
      exact m.outbox.receiver_shut_ne
  | discard =>
      rw [outbox_step_discard]
      exact Receiver.noConfusion

/-- What was received and what is queued change by nothing but the receiving end going away, which
takes the queue with it. -/
theorem Balanced.drains_step {m : Mailbox} (h : m.Balanced)
    (gone : m.outbox.receiver ≠ .listening) (move : Move) :
    ((m.step move).received ++ (m.step move).outbox.queued = m.received ++ m.outbox.queued) ∨
      move = .discard ∧ (m.step move).received = m.received ∧
        (m.step move).outbox.queued = [] := by
  have hrefuses : ¬ m.outbox.Accepts := fun haccepts => gone haccepts.1
  cases move with
  | send f => exact Or.inl (by rw [step_send, if_neg hrefuses])
  | close c =>
      refine Or.inl ?_
      rw [outbox_step_close, Outbox.requestClose_of_gone gone]
      rfl
  | receive n =>
      refine Or.inl ?_
      rw [outbox_step_receive, Outbox.read_of_nobody (h.orderly.waiting_of_gone gone)]
      simp [Mailbox.step, Outbox.read]
  | shut =>
      refine Or.inl ?_
      have hqueued : m.outbox.shut.queued = m.outbox.queued := by
        unfold Outbox.shut
        split <;> rfl
      rw [outbox_step_shut, hqueued]
      rfl
  | discard =>
      refine Or.inr ⟨rfl, rfl, ?_⟩
      rw [outbox_step_discard]
      rfl

theorem Balanced.drains {m : Mailbox} (h : m.Balanced) (gone : m.outbox.receiver ≠ .listening)
    {later : List Move} (held : .discard ∉ later) :
    (m.run later).received ++ (m.run later).outbox.queued = m.received ++ m.outbox.queued := by
  induction later generalizing m with
  | nil => rfl
  | cons move rest ih =>
      obtain ⟨hmove, hrest⟩ := not_or.mp (mt List.mem_cons.mpr held)
      refine (ih (h.step move) (gone_step gone move) hrest).trans ?_
      rcases h.drains_step gone move with hsame | ⟨rfl, -⟩
      · exact hsame
      · exact absurd rfl hmove

theorem Balanced.prefix_run {m : Mailbox} (h : m.Balanced)
    (gone : m.outbox.receiver ≠ .listening) (later : List Move) :
    (m.run later).received <+: m.received ++ m.outbox.queued := by
  induction later generalizing m with
  | nil => exact List.prefix_append _ _
  | cons move rest ih =>
      have hrest := ih (h.step move) (gone_step gone move)
      rcases h.drains_step gone move with hsame | ⟨-, hreceived, hnothing⟩
      · exact hsame ▸ hrest
      · rw [hreceived, hnothing, List.append_nil] at hrest
        exact hrest.trans (List.prefix_append _ _)

theorem Balanced.ceased {m : Mailbox} (h : m.Balanced)
    (gone : m.outbox.receiver ≠ .listening) : m.Ceased := by
  have hrefuses : ¬ m.outbox.Accepts := fun haccepts => gone haccepts.1
  have hgone : m.hub.refused m.handle = .peerGone m.handle.peer := if_neg gone
  have hnobody := h.orderly.waiting_of_gone gone
  refine ⟨?_, ?_, hnobody, ?_, fun _ => h.drains gone, h.prefix_run gone⟩
  · intro f
    exact ⟨by rw [send_eq, if_neg hrefuses, hgone], by rw [step_send, if_neg hrefuses]⟩
  · intro c
    rw [outbox_step_close, Outbox.requestClose_of_gone gone]
  · intro n
    refine ⟨rfl, ?_⟩
    rw [outbox_step_receive, Outbox.read_of_nobody hnobody]

/-! ### Whole runs -/

theorem listening_step_iff (m : Mailbox) (move : Move) :
    (m.step move).outbox.receiver = .listening ↔
      m.outbox.receiver = .listening ∧ move ≠ .shut ∧ move ≠ .discard := by
  cases move with
  | send f => simp [outbox_step_send]
  | close c => simp [outbox_step_close]
  | receive n => simp [outbox_step_receive]
  | shut => simp [outbox_step_shut, Outbox.receiver_shut_ne]
  | discard => simp [outbox_step_discard, Outbox.discard]

theorem listening_run_iff (m : Mailbox) (moves : List Move) :
    (m.run moves).outbox.receiver = .listening ↔
      m.outbox.receiver = .listening ∧ .shut ∉ moves ∧ .discard ∉ moves := by
  induction moves generalizing m with
  | nil => simp [run]
  | cons move rest ih =>
      refine (ih (m.step move)).trans ?_
      rw [listening_step_iff]
      simp only [List.mem_cons, not_or, ne_eq, eq_comm (a := Move.shut),
        eq_comm (a := Move.discard)]
      constructor
      · rintro ⟨⟨h, hs, hd⟩, hs', hd'⟩
        exact ⟨h, ⟨hs, hs'⟩, hd, hd'⟩
      · rintro ⟨h, ⟨hs, hs'⟩, hd, hd'⟩
        exact ⟨⟨h, hs, hd⟩, hs', hd'⟩

/-- Whatever is done with an outbox, it never holds more than its capacity. As long as somebody
receives, what was received, what is queued and what waits are together the accepted frames and all
requested closes in the order of the calls. When the receiving end is closed, what waits is lost and
what is queued still comes out; when it goes away, nothing more does. -/
theorem outbox_in_order (h : Hub) (peer : PeerId) (capacity : Nat) (moves : List Move) :
    let m := (opened h peer capacity).run moves
    m.handle.peer = peer ∧ m.outbox.capacity = capacity ∧ m.outbox.queued.length ≤ capacity ∧
      (m.outbox.receiver = .listening ↔ .shut ∉ moves ∧ .discard ∉ moves) ∧
      (m.outbox.receiver = .listening → m.Serves ∧
        (m.step .shut).outbox = { m.outbox with waiting := [], receiver := .closed }) ∧
      (m.outbox.receiver ≠ .listening → m.Ceased) ∧
      (m.step .discard).outbox =
        { m.outbox with queued := [], waiting := [], receiver := .dropped } := by
  intro m
  have hbalanced : m.Balanced := (balanced_opened h peer capacity).run moves
  have hcapacity : m.outbox.capacity = capacity :=
    (capacity_run _ moves).trans (by rw [outbox_opened])
  refine ⟨?_, hcapacity, hcapacity ▸ hbalanced.orderly.bounded, ?_, ?_, hbalanced.ceased,
    outbox_step_discard m⟩
  · exact congrArg Connection.peer (handle_run _ moves)
  · refine (listening_run_iff _ moves).trans ?_
    rw [outbox_opened]
    simp
  · intro hlistening
    refine ⟨hbalanced.serves hlistening, ?_⟩
    rw [outbox_step_shut, Outbox.shut_of_listening hlistening]

end Mailbox

end RoomRelay
