import RoomRelay.Proofs.Socket.Wire

/-!
What reaches the socket of a connection: what was accepted, in its order, up to the first close or
up to the first write that fails, and nothing after it. This holds of any socket and of any order in
which items come in, handles go away, and writes are held up, end or fail.

A link is one such line. The messages it puts on its pipe are the items as they are.
-/

namespace RoomRelay.Socket

namespace Line

variable {σ : Type} {write : σ → Outbound → Outcome σ} {capacity : Nat} {socket : σ}
  {l m : Line σ}

/-- How far a writer comes that goes through all there is: to its end, to a close, to a write that
the socket holds up, or to one that fails. -/
inductive Goes (write : σ → Outbound → Outcome σ) (l m : Line σ) : Prop where
  | through (writer : m.writer = .idle) (written : m.written = l.accepted)
  | closes (ending : m.ending = some .closed) (written : m.written = untilClose l.accepted)
  | held {s t : σ} {item : Outbound} (held : write s item = .held t)
      (writer : m.writer = .writing item)
  | fails {s : σ} {item : Outbound} {reason : String} (failed : write s item = .failed reason)
      (ending : m.ending = some .failed)

/-- What a line gives its socket, and what can still become of it. -/
structure Delivers (write : σ → Outbound → Outcome σ) (l : Line σ) : Prop where
  stands : l.Stands
  /-- Nothing is left out, moved or repeated, and nothing comes after a close. -/
  ordered : l.handed <+: untilClose l.accepted
  /-- A writer that was neither cut short nor met a failure has left nothing out. -/
  complete : l.ending = some .closed ∨ l.ending = some .retired →
    l.written = untilClose l.accepted
  /-- What comes through handles comes into the line. -/
  sent (h : Hub) (c : Connection) (f : Frame) (k : Hub) :
    l.shared = true → l.outbox = h.outbox c → h.send c f = .ok k →
      Step write l { l with outbox := k.outbox c, accepted := l.accepted ++ [.frame f] }
  asked (h : Hub) (c : Connection) (request : Close) :
    l.shared = true → l.writer ≠ .stopped → l.outbox = h.outbox c →
      Step write l
        { l with
          outbox := (h.close c request).outbox c
          accepted := l.accepted ++ [.close request] }
  /-- So does what comes in by sessions, relays and deliveries, whoever they belong to. -/
  relayed (x : Exchange) (c : Connection) (actions : List Exchange.Action) :
    l.shared = true → l.outbox = x.hub.outbox c → (∀ a ∈ actions, a.uses c = false) →
      Step write l
        { l with
          outbox := (x.run actions).hub.outbox c
          accepted := l.accepted ++ x.intake c actions }
  /-- An idle writer that goes through all there is does not come to rest on the way. -/
  works (n : Nat) : l.writer = .idle → l.outbox.contents.length ≤ n →
    l.Goes write (l.work write n)
  /-- The first close that waits for a free place is written after all that is before it, whoever
  lets go of the handles, unless a write fails or the writer is cut short. -/
  awaited (c : Close) (others : List Close) : l.writer ≠ .stopped →
    l.outbox.waiting = c :: others → OnlyFrames (l.handed ++ l.outbox.queued) →
      ∀ m, Reaches write l m → m.writer = .stopped → m.ending ≠ some .failed →
        m.ending ≠ some .cut →
          m.ending = some .closed ∧ m.written = l.handed ++ l.outbox.queued ++ [.close c]
  /-- Once the writer stopped, whoever sends something learns that the peer is gone. -/
  gone (h : Hub) (c : Connection) (f : Frame) : l.writer = .stopped → l.outbox = h.outbox c →
    h.send c f = .error (.peerGone c.peer)
  /-- Nothing happens on the line any more. -/
  final : l.writer = .stopped → ∀ m, Reaches write l m → l.Rests m

/-- What was handed over is frames and at most one item more. -/
theorem Stands.exists_last (stands : l.Stands) :
    ∃ frames last rest, OnlyFrames frames ∧ last.length ≤ 1 ∧ l.handed = frames ++ last ∧
      l.accepted = l.handed ++ rest := by
  cases stands with
  | idle ending writer listening handed accepted only =>
      exact ⟨_, [], _, only, Nat.zero_le _, by rw [handed, List.append_nil], accepted⟩
  | writing item ending writer listening handed accepted only =>
      exact ⟨_, [item], _, only, Nat.le_refl _, handed, accepted⟩
  | closed c frames rest ending writer gone handed written accepted only =>
      exact ⟨_, [.close c], _, only, Nat.le_refl _, handed.trans written, accepted⟩
  | failed item rest ending writer gone handed accepted only =>
      exact ⟨_, [item], _, only, Nat.le_refl _, handed, accepted⟩
  | retired ending writer gone alone handed accepted only =>
      refine ⟨_, [], [], only, Nat.zero_le _, ?_, ?_⟩
      · rw [handed, List.append_nil]
      · rw [accepted, List.append_nil]
  | cut last rest ending writer gone handed single accepted only =>
      exact ⟨_, last, _, only, single, handed, accepted⟩

theorem Stands.ordered (stands : l.Stands) : l.handed <+: untilClose l.accepted := by
  obtain ⟨frames, last, rest, honly, hsingle, hhanded, haccepted⟩ := stands.exists_last
  rw [haccepted, hhanded]
  exact prefix_untilClose honly hsingle rest

theorem Stands.written_eq (stands : l.Stands)
    (ended : l.ending = some .closed ∨ l.ending = some .retired) :
    l.written = untilClose l.accepted := by
  cases stands with
  | closed c frames rest ending writer gone handed written accepted only =>
      rw [accepted, handed, written, List.append_assoc, List.singleton_append,
        untilClose_of_close only]
  | retired ending writer gone alone handed accepted only =>
      rw [accepted, handed, untilClose_frames only]
  | _ => simp_all

theorem accepted_work (write : σ → Outbound → Outcome σ) (l : Line σ) (n : Nat) :
    (l.work write n).accepted = l.accepted := by
  unfold Line.work
  dsimp only
  split <;> rfl

theorem Stands.goes (stands : l.Stands) {n : Nat} (idle : l.writer = .idle)
    (all : l.outbox.contents.length ≤ n) : l.Goes write (l.work write n) := by
  have hstands : (l.work write n).Stands := stands.work n idle
  have haccepted := accepted_work write l n
  have hforwards := forwards_forward write l.socket (l.outbox.contents.take n)
  unfold Line.work at hstands haccepted ⊢
  dsimp only at hstands haccepted ⊢
  generalize forward write l.socket (l.outbox.contents.take n) = p at *
  cases hforwards with
  | drained t frames writes =>
      have hnothing : (l.outbox.skip (l.outbox.contents.take n).length).contents = [] := by
        rw [Outbox.contents_skip, List.take_of_length_le all, List.drop_length]
      refine .through rfl ?_
      have haccount := (hstands.runs Writer.noConfusion).accepted
      rw [hnothing, List.append_nil] at haccount
      exact (hstands.handed_of_idle rfl).symm.trans haccount.symm
  | closed frames rest c t split only writes =>
      exact .closes rfl (hstands.written_eq (.inl rfl))
  | held frames rest item t u split only writes held => exact .held held rfl
  | failed frames rest item t reason split only writes failed => exact .fails failed rfl

theorem Stands.awaited (stands : l.Stands) {c : Close} {others : List Close}
    (running : l.writer ≠ .stopped) (waits : l.outbox.waiting = c :: others)
    (only : OnlyFrames (l.handed ++ l.outbox.queued)) (reaches : Reaches write l m)
    (stopped : m.writer = .stopped) (sound : m.ending ≠ some .failed)
    (whole : m.ending ≠ some .cut) :
    m.ending = some .closed ∧ m.written = l.handed ++ l.outbox.queued ++ [.close c] := by
  have haccepted : l.accepted =
      (l.handed ++ l.outbox.queued) ++ .close c :: others.map .close := by
    rw [(stands.runs running).accepted, Outbox.contents, waits, List.append_assoc]
    rfl
  obtain ⟨more, hmore⟩ := accepted_prefix reaches
  have hfirst : untilClose m.accepted = l.handed ++ l.outbox.queued ++ [.close c] := by
    rw [← hmore, haccepted, List.append_assoc, List.cons_append, untilClose_of_close only]
  have hm := stands.reaches reaches
  have hwritten := hm.written_eq
  cases hm with
  | closed d frames rest ending writer gone handed written accepted only =>
      exact ⟨ending, (hwritten (.inl ending)).trans hfirst⟩
  | retired ending writer gone alone handed accepted frames =>
      -- All that was written would be frames, and the close is among it.
      have hclose : Outbound.close c ∈ m.written := by
        rw [hwritten (.inr ending), hfirst]
        exact List.mem_append_right _ List.mem_cons_self
      obtain ⟨f, hf⟩ := frames _ hclose
      cases hf
  | idle | writing | failed | cut => simp_all

theorem delivers (run : Reaches write (fresh capacity socket) l) : l.Delivers write := by
  have hstands := stands_of_run run
  exact {
    stands := hstands
    ordered := hstands.ordered
    complete := hstands.written_eq
    sent := fun h c f k shared outbox sends => .feed shared (outbox ▸ h.fed_send c sends)
    asked := fun h c request shared running outbox => by
      have hlistening := outbox ▸ (hstands.runs running).listening
      exact .feed shared (outbox ▸ h.fed_close c hlistening request)
    relayed := fun x c actions shared outbox kept =>
      .feed shared (outbox ▸ Exchange.fed_run kept)
    works := fun n idle all => hstands.goes idle all
    awaited := fun c others running waits only m reaches stopped sound whole =>
      hstands.awaited running waits only reaches stopped sound whole
    gone := fun h c f stopped outbox => by
      have hdropped := outbox ▸ hstands.gone stopped
      rw [h.send_eq, if_neg (Outbox.not_accepts_of_dropped hdropped), Hub.refused, hdropped]
      rfl
    final := fun stopped m reaches => hstands.rests stopped reaches }

end Line

/-- What reaches the socket, whatever it is and whatever happens. The links are lines whose writers
put what they hand over into the pipe as it is. Whatever their clients do, the frames in the pipe,
read or not, are those that were handed over, and none comes after a close. -/
theorem socket_receives {σ : Type} {write : σ → Outbound → Outcome σ} {capacity : Nat} {socket : σ}
    {l : Line σ} (run : Line.Reaches write (Line.fresh capacity socket) l) :
    l.Delivers write ∧
      (∀ s items, Forwards write s items (forward write s items)) ∧
      (∀ (k : Link) items, let p := forward Link.write k items
        k.Puts (items.take p.given) p.socket) ∧
      ∀ (k : Link) (h : Hub) (read : List Message), k.Lives h read →
        ∃ line : Line Link, line.Delivers Link.write ∧ Link.Shows line k h read := by
  refine ⟨Line.delivers run, forwards_forward write, Link.puts_forward, ?_⟩
  intro k h read lives
  obtain ⟨start, line, hreaches, hshows⟩ := lives.shown
  exact ⟨line, Line.delivers hreaches, hshows⟩

/-- A socket that takes everything and keeps it. -/
def keep (kept : List Outbound) (item : Outbound) : Outcome (List Outbound) :=
  .written (kept ++ [item])

/-- There is place for one item. A close waits behind a frame, and the last handle is gone. -/
def lastClose : Line (List Outbound) where
  outbox := { capacity := 1, queued := [.frame (.text "a")], waiting := [superseded] }
  socket := []
  shared := false
  accepted := [.frame (.text "a"), .close superseded]

/-- The close is written after the frame. The first list of peers is in the pipe of a link that was
just opened. -/
theorem socket_receives_last_close :
    let opened := openLink {} "r" "a" 4096
    let pumped := opened.2.pump opened.1
    (Line.Reaches keep (Line.fresh 1 []) lastClose ∧ lastClose.Delivers keep ∧
      (lastClose.work keep 2).socket = [.frame (.text "a"), .close superseded] ∧
      (lastClose.work keep 2).ending = some .closed) ∧
    pumped.2.pipe.messages = [.frame (listFrame ["a"])] ∧
    ∃ line : Line Link, line.Delivers Link.write ∧ Link.Shows line pumped.2 pumped.1 [] := by
  intro opened pumped
  have hframe : ({ capacity := 1 } : Outbox).Fed [.frame (.text "a")]
      { capacity := 1, queued := [.frame (.text "a")] } := .frame .refl (.text "a") (by decide)
  have hclose : Outbox.Fed { capacity := 1, queued := [.frame (.text "a")] } [.close superseded]
      lastClose.outbox := .close .refl superseded rfl
  have hreaches : Line.Reaches keep (Line.fresh 1 []) lastClose :=
    ((Relation.ReflTransGen.refl.tail (.feed rfl hframe)).tail (.feed rfl hclose)).tail .letGo
  obtain ⟨hdelivers, -, -, hlinks⟩ := socket_receives hreaches
  exact ⟨⟨hreaches, hdelivers, rfl, rfl⟩, by decide +kernel,
    hlinks _ _ _ (.pump (.opened {} "r" "a" 4096))⟩

end RoomRelay.Socket
