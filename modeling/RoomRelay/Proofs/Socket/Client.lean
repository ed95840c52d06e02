import RoomRelay.Socket.Link

/-!
What a client does to its link. The session is handed one item at most and nothing else of the
shared state changes. The link may answer a ping or a close by itself, but writes no frame, and the
writer is left alone, unless the client vanishes under a write.
-/

namespace RoomRelay.Socket

namespace Message

def frame? : Message → Option Frame
  | .frame f => some f
  | _ => none

def isClose : Message → Bool
  | .close _ => true
  | _ => false

end Message

namespace Pipe

/-- All that was pushed and has not been read, in its order. -/
def messages (p : Pipe) : List Message :=
  p.arrived ++ p.outside.map Prod.fst

theorem messages_fill (room : Nat) (waiting : List (Message × Nat)) :
    (fill room waiting).1 ++ (fill room waiting).2.2.map Prod.fst = waiting.map Prod.fst := by
  fun_induction fill room waiting with
  | case1 => rfl
  | case2 room m left rest fits moved bytes outside hfill ih =>
      rw [hfill] at ih
      exact congrArg (m :: ·) ih
  | case3 room m left rest full => rfl

@[simp]
theorem messages_flush (p : Pipe) : p.flush.messages = p.messages := by
  unfold flush messages
  simp only [List.append_assoc, messages_fill]

@[simp]
theorem messages_push (p : Pipe) (m : Message) : (p.push m).messages = p.messages ++ [m] := by
  simp [push, messages]

end Pipe

namespace Link

/-- A link that did no more than answer: it wrote no frame, and a close only when the closing
handshake had begun. -/
structure Stirs (l m : Link) : Prop where
  connection : m.connection = l.connection
  writer : m.writer = l.writer
  handshake : l.handshake ≠ .active → m.handshake ≠ .active
  messages : ∃ more, m.pipe.messages = l.pipe.messages ++ more ∧
    ∀ x ∈ more, x.frame? = none ∧ (x.isClose = true → m.handshake ≠ .active)

variable {l m n : Link} {h : Hub}

theorem Stirs.of_same (connection : m.connection = l.connection) (writer : m.writer = l.writer)
    (handshake : l.handshake ≠ .active → m.handshake ≠ .active) (pipe : m.pipe = l.pipe) :
    l.Stirs m where
  connection := connection
  writer := writer
  handshake := handshake
  messages := ⟨[], by rw [pipe, List.append_nil], by simp⟩

theorem Stirs.refl (l : Link) : l.Stirs l := .of_same rfl rfl id rfl

theorem Stirs.trans (first : l.Stirs m) (second : m.Stirs n) : l.Stirs n where
  connection := second.connection.trans first.connection
  writer := second.writer.trans first.writer
  handshake := fun hl => second.handshake (first.handshake hl)
  messages := by
    obtain ⟨more, hmore, hanswers⟩ := first.messages
    obtain ⟨last, hlast, hanswers'⟩ := second.messages
    refine ⟨more ++ last, by rw [hlast, hmore, List.append_assoc], fun x hx => ?_⟩
    rcases List.mem_append.mp hx with hx | hx
    · exact ⟨(hanswers x hx).1, fun hclose => second.handshake ((hanswers x hx).2 hclose)⟩
    · exact hanswers' x hx

/-- At most one item is handed to the session, by a link that did no more than answer. -/
inductive Passes (l : Link) (h : Hub) : Hub × Link → Prop where
  | nothing {m : Link} (stirs : l.Stirs m) : Passes l h (h, m)
  | item {m : Link} {item : Inbound} (stirs : l.Stirs m) : Passes l h (m.pass h item)

theorem Passes.of_stirs {p : Hub × Link} (passes : m.Passes h p) (stirs : l.Stirs m) :
    l.Passes h p := by
  cases passes with
  | nothing stirs' => exact .nothing (stirs.trans stirs')
  | item stirs' => exact .item (stirs.trans stirs')

/-- A close from the client is answered while a write is in progress. -/
theorem passes_receiveClose (l : Link) (h : Hub) (request : Option Close) :
    l.Passes h (l.receiveClose h request) := by
  unfold receiveClose
  split
  · refine .item ⟨rfl, rfl, fun _ => Handshake.noConfusion, ?_⟩
    dsimp only
    split
    · exact ⟨_, Pipe.messages_push _ _, by simp [Message.frame?]⟩
    · exact ⟨[], (List.append_nil _).symm, by simp⟩
  · exact .item (.of_same rfl rfl (fun _ => Handshake.noConfusion) rfl)
  · exact .nothing (.refl l)

theorem passes_receive (l : Link) (h : Hub) (item : Inbound) : l.Passes h (l.receive h item) := by
  unfold receive
  split
  · split
    · exact .item (.refl l)
    · split
      · exact l.passes_receiveClose h _
      · split
        · rename_i payload _ _
          refine .nothing ⟨rfl, rfl, id, [.pong payload], ?_, ?_⟩
          · simp only [flush, Pipe.messages_flush, Pipe.messages_push]
          · simp [Message.frame?, Message.isClose]
        · exact .nothing (.refl l)
      · exact .item (.refl l)
  · exact .nothing (.refl l)

theorem passes_clientSend (l : Link) (h : Hub) (item : Inbound) :
    l.Passes h (l.clientSend h item) := by
  unfold clientSend
  split
  · exact (passes_receive _ h item).of_stirs (.of_same rfl rfl id rfl)
  · exact .nothing (.refl l)

/-- When a client vanishes the session learns of it, and a write that is in progress fails. -/
theorem passes_vanish (l : Link) (h : Hub) :
    ∃ p, l.Passes h p ∧ (l.vanish h = p ∨
      ∃ item, p.2.writer = .writing item ∧ l.vanish h = p.2.failWrite p.1 item brokenPipe) := by
  have hite {q : Prop} [Decidable q] {x y : Hub × Link} (first : l.Passes h x)
      (second : l.Passes h y) : l.Passes h (if q then x else y) := by
    split
    · exact first
    · exact second
  have hclosed : Handshake.terminated ≠ .active := Handshake.noConfusion
  unfold vanish
  dsimp only
  split
  · rename_i item hwriting
    refine ⟨_, ?_, .inr ⟨item, hwriting, rfl⟩⟩
    exact hite (.nothing (.of_same rfl rfl id rfl)) (hite (.item (.of_same rfl rfl id rfl))
      (.item (.of_same rfl rfl (fun _ => hclosed) rfl)))
  · refine ⟨_, ?_, .inl rfl⟩
    exact hite (.nothing (.of_same rfl rfl id rfl)) (hite (.item (.of_same rfl rfl id rfl))
      (.item (.of_same rfl rfl (fun _ => hclosed) rfl)))

/-! ### Reading -/

/-- What the client takes out of the pipe when it reads. -/
def arrivals (l : Link) : List Message :=
  if l.client = .finished then [] else l.pipe.arrived

/-- The link without what the client takes out. -/
def emptied (l : Link) : Link :=
  if l.client = .finished then l else { l with pipe := l.pipe.readAll.2 }

theorem arrivals_emptied (l : Link) : l.arrivals ++ l.emptied.pipe.messages = l.pipe.messages := by
  unfold arrivals emptied
  split <;> rfl

theorem passes_clientRead (l : Link) (h : Hub) :
    l.emptied.Passes h ((l.clientRead h).1, (l.clientRead h).2.1) := by
  unfold clientRead emptied
  split
  · exact .nothing (.refl l)
  · dsimp only
    split
    · dsimp only
      split
      · exact (passes_receive _ h _).of_stirs (.of_same rfl rfl id rfl)
      · exact .nothing (.of_same rfl rfl id rfl)
    · split
      · exact .nothing (.of_same rfl rfl id rfl)
      · exact .nothing (.of_same rfl rfl id rfl)

end Link

end RoomRelay.Socket
