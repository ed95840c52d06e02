import RoomRelay.Proofs.Socket.Client
import RoomRelay.Proofs.Socket.Line

/-!
The links as lines. What the writer of a link hands over is in its pipe as it is, frame by frame,
behind what was there; and whatever happens to a link, its outbox and its writer are those of a line
on which the same has happened. What the client finds in the pipe, over the whole life of the link,
is the frames that were handed over, and none of them comes after a close.
-/

namespace RoomRelay

/-- The message that an item is on a socket. -/
def Outbound.message : Outbound → Socket.Message
  | .frame f => .frame f
  | .close c => .close (some c)

namespace Socket

def framesOf (ms : List Message) : List Frame :=
  ms.filterMap Message.frame?

theorem framesOf_append (ms more : List Message) :
    framesOf (ms ++ more) = framesOf ms ++ framesOf more := List.filterMap_append

theorem framesOf_message (items : List Outbound) :
    framesOf (items.map Outbound.message) = items.filterMap Outbound.frame? := by
  rw [framesOf, List.filterMap_map]
  congr 1
  funext item
  cases item <;> rfl

/-- No frame comes after a close. -/
def Calm (ms : List Message) : Prop :=
  ms.Pairwise fun m n => m.isClose = true → n.frame? = none

/-- These frames are what was handed over, but for one that failed. -/
def Line.Told {σ : Type} (l : Line σ) (frames : List Frame) : Prop :=
  frames = l.handed.filterMap Outbound.frame? ∨
    l.ending = some .failed ∧ frames = l.written.filterMap Outbound.frame?

namespace Link

/-! ### What is put into the pipe -/

/-- A link whose pipe got these items, and nothing else that a session uses. -/
structure Puts (l : Link) (items : List Outbound) (m : Link) : Prop where
  messages : m.pipe.messages = l.pipe.messages ++ items.map Outbound.message
  session : m.session = l.session

theorem Puts.trans {l m n : Link} {items more : List Outbound} (first : l.Puts items m)
    (second : m.Puts more n) : l.Puts (items ++ more) n where
  messages := by rw [second.messages, first.messages, List.map_append, List.append_assoc]
  session := second.session.trans first.session

/-- An item that the socket takes is in the pipe as a whole, also if the pipe holds it up. It is
taken only while no close was written, and a close is the last one. -/
theorem puts_write {l m : Link} {item : Outbound}
    (taken : l.write item = .written m ∨ l.write item = .held m) :
    l.Puts [item] m ∧ l.handshake = .active ∧
      (item.message.isClose = true → m.handshake ≠ .active) := by
  have hone {k : Link} (taken : (if k.pipe.isBlocked then Outcome.held k else .written k) =
      .written m ∨ (if k.pipe.isBlocked then Outcome.held k else .written k) = .held m) :
      k = m := by
    split at taken <;> simpa using taken
  unfold write at taken
  split at taken
  · simp at taken
  · rename_i hactive
    split at taken
    · simp at taken
    · cases item with
      | frame f =>
          cases hone taken
          exact ⟨⟨by simp [flush, Outbound.message], rfl⟩, hactive, by
            simp [Outbound.message, Message.isClose]⟩
      | close c =>
          cases hone taken
          exact ⟨⟨by simp [flush, Outbound.message], rfl⟩, hactive, fun _ => Handshake.noConfusion⟩
  · simp at taken

theorem puts_writes {l m : Link} {items : List Outbound} (writes : Writes write l items m) :
    l.Puts items m := by
  induction writes with
  | nil l => exact ⟨(List.append_nil _).symm, rfl⟩
  | cons written writes ih => exact (puts_write (.inl written)).1.trans ih

/-- The writer puts into the pipe what the socket takes, as it is and in its order. -/
theorem puts_forward (l : Link) (items : List Outbound) :
    l.Puts (items.take (forward write l items).given) (forward write l items).socket := by
  have hlast {frames rest : List Outbound} {item : Outbound}
      (split : items = frames ++ item :: rest) :
      items.take (frames.length + 1) = frames ++ [item] := by
    rw [split]
    exact List.take_length_add_append 1
  have hforwards := forwards_forward write l items
  generalize forward write l items = p at hforwards
  cases hforwards with
  | drained m frames writes =>
      simp only [Progress.given, Option.toList_none, List.length_nil, Nat.sub_zero,
        List.take_length]
      exact puts_writes writes
  | closed frames rest c m split only writes => exact hlast split ▸ puts_writes writes
  | held frames rest item m n split only writes held =>
      exact hlast split ▸ (puts_writes writes).trans (puts_write (.inr held)).1
  | failed frames rest item m reason split only writes failed =>
      have hbefore : items.take frames.length = frames := by rw [split, List.take_left]
      exact hbefore.symm ▸ puts_writes writes

/-! ### Frames and closes -/

/-- Of what was in the pipe, read or not, no frame came after a close, and a link that wrote a close
writes nothing more. -/
structure Quiet (l : Link) (read : List Message) : Prop where
  calm : Calm (read ++ l.pipe.messages)
  closing : ∀ x ∈ read ++ l.pipe.messages, x.isClose = true → l.handshake ≠ .active

variable {l m : Link} {read : List Message}

theorem Quiet.of_same (quiet : l.Quiet read) (messages : m.pipe.messages = l.pipe.messages)
    (handshake : l.handshake ≠ .active → m.handshake ≠ .active) : m.Quiet read where
  calm := messages ▸ quiet.calm
  closing := fun x hx hclose => handshake (quiet.closing x (messages ▸ hx) hclose)

theorem Quiet.stirs (quiet : l.Quiet read) (stirs : l.Stirs m) : m.Quiet read := by
  obtain ⟨more, hmore, hanswers⟩ := stirs.messages
  have hmessages : read ++ m.pipe.messages = (read ++ l.pipe.messages) ++ more := by
    rw [hmore, List.append_assoc]
  refine ⟨?_, fun x hx hclose => ?_⟩
  · rw [hmessages, Calm, List.pairwise_append]
    exact ⟨quiet.calm, List.pairwise_of_forall_mem_list fun x _ y hy _ => (hanswers y hy).1,
      fun x hx y hy _ => (hanswers y hy).1⟩
  · rw [hmessages] at hx
    rcases List.mem_append.mp hx with hold | hnew
    · exact stirs.handshake (quiet.closing x hold hclose)
    · exact (hanswers x hnew).2 hclose

theorem Quiet.write {item : Outbound} (quiet : l.Quiet read)
    (taken : l.write item = .written m ∨ l.write item = .held m) : m.Quiet read := by
  obtain ⟨hputs, hactive, hclose⟩ := puts_write taken
  have hmessages : read ++ m.pipe.messages = (read ++ l.pipe.messages) ++ [item.message] := by
    rw [hputs.messages, List.append_assoc]
    rfl
  -- There was no close before, since the link still writes.
  have hnone (x : Message) (hx : x ∈ read ++ l.pipe.messages) : ¬ x.isClose = true := fun hx' =>
    quiet.closing x hx hx' hactive
  refine ⟨?_, fun x hx hx' => ?_⟩
  · rw [hmessages, Calm, List.pairwise_append]
    exact ⟨quiet.calm, List.pairwise_singleton _ _, fun x hx y _ hx' => absurd hx' (hnone x hx)⟩
  · rw [hmessages] at hx
    rcases List.mem_append.mp hx with hold | hnew
    · exact absurd hx' (hnone x hold)
    · rw [List.mem_singleton.mp hnew] at hx'
      exact hclose hx'

theorem Quiet.writes {items : List Outbound} (quiet : l.Quiet read)
    (writes : Writes Link.write l items m) : m.Quiet read := by
  induction writes with
  | nil => exact quiet
  | cons written writes ih => exact ih (quiet.write (.inl written))

theorem Quiet.forward (quiet : l.Quiet read) (items : List Outbound) :
    (forward Link.write l items).socket.Quiet read := by
  have hforwards := forwards_forward Link.write l items
  generalize Socket.forward Link.write l items = p at hforwards
  cases hforwards with
  | drained m frames writes => exact quiet.writes writes
  | closed frames rest c m split only writes => exact quiet.writes writes
  | held frames rest item m n split only writes held =>
      exact (quiet.writes writes).write (.inr held)
  | failed frames rest item m reason split only writes failed => exact quiet.writes writes

/-! ### A link as a line -/

/-- A link with the state that it lives on, from its beginning on, and what its client has taken out
of the pipe. -/
inductive Lives : Link → Hub → List Message → Prop where
  | opened (h : Hub) (room : RoomId) (peer : PeerId) (capacity : Nat) :
      Lives (openLink h room peer capacity).2 (openLink h room peer capacity).1 []
  /-- Something is done with the state that does not use the outbox's receiving end. -/
  | besides {l : Link} {h k : Hub} {read : List Message} (lives : Lives l h read)
      (grows : (h.outbox l.connection).Grows (k.outbox l.connection)) : Lives l k read
  | clientSend {l : Link} {h : Hub} {read : List Message} (lives : Lives l h read)
      (item : Inbound) : Lives (l.clientSend h item).2 (l.clientSend h item).1 read
  | clientRead {l : Link} {h : Hub} {read : List Message} (lives : Lives l h read) :
      Lives (l.clientRead h).2.1 (l.clientRead h).1 (read ++ l.arrivals)
  | vanish {l : Link} {h : Hub} {read : List Message} (lives : Lives l h read) :
      Lives (l.vanish h).2 (l.vanish h).1 read
  | pump {l : Link} {h : Hub} {read : List Message} (lives : Lives l h read) :
      Lives (l.pump h).2 (l.pump h).1 read
  | expire {l : Link} {h : Hub} {read : List Message} (lives : Lives l h read) :
      Lives (l.expire h).2 (l.expire h).1 read

/-- A line that is as a link and its outbox are. Somebody can put something in as long as the writer
runs. -/
structure Shows (line : Line Link) (l : Link) (h : Hub) (read : List Message) : Prop where
  outbox : line.outbox = h.outbox l.connection
  socket : line.socket = l
  writer : line.writer = l.writer
  shared : l.writer ≠ .stopped → line.shared = true
  told : line.Told (framesOf (read ++ l.pipe.messages))
  quiet : l.Quiet read

/-- What happened to a link can have happened on a line. -/
def Shown (l : Link) (h : Hub) (read : List Message) : Prop :=
  ∃ start line, Line.Reaches write (Line.fresh defaultCapacity start) line ∧
    Shows line l h read

variable {start : Link} {h k : Hub}

/-- As long as the writer runs, all that was handed over is in the pipe. -/
theorem Shows.frames {line : Line Link} (shows : Shows line l h read)
    (reaches : Line.Reaches write (Line.fresh defaultCapacity start) line)
    (running : l.writer ≠ .stopped) :
    framesOf (read ++ l.pipe.messages) = line.handed.filterMap Outbound.frame? := by
  have hruns := (Line.stands_of_run reaches).runs (shows.writer ▸ running)
  rcases shows.told with htold | ⟨hfailed, -⟩
  · exact htold
  · cases hruns.ending.symm.trans hfailed

/-- The socket of a line can be any. -/
theorem shown_of_line {line : Line Link}
    (reaches : Line.Reaches write (Line.fresh defaultCapacity start) line)
    (outbox : line.outbox = h.outbox l.connection) (writer : line.writer = l.writer)
    (shared : l.writer ≠ .stopped → line.shared = true)
    (told : line.Told (framesOf (read ++ l.pipe.messages))) (quiet : l.Quiet read) :
    Shown l h read :=
  ⟨_, _, reaches.tail (.socket l), outbox, rfl, writer, shared, told, quiet⟩

/-- Something is done that leaves the writer alone and the outbox's receiving end. -/
theorem Shown.grow (shown : Shown l h read) (stirs : l.Stirs m)
    (grows : (h.outbox l.connection).Grows (k.outbox l.connection)) : Shown m k read := by
  obtain ⟨start, line, hreaches, hshows⟩ := shown
  obtain ⟨items, hfed⟩ := grows
  have hconnection := stirs.connection
  have hwriter := hshows.writer.trans stirs.writer.symm
  have hquiet := hshows.quiet.stirs stirs
  have htold : line.Told (framesOf (read ++ m.pipe.messages)) := by
    obtain ⟨more, hmore, hanswers⟩ := stirs.messages
    have hnone : framesOf more = [] := List.filterMap_eq_nil_iff.mpr fun x hx => (hanswers x hx).1
    have hsame : framesOf (read ++ m.pipe.messages) = framesOf (read ++ l.pipe.messages) := by
      rw [hmore, ← List.append_assoc, framesOf_append, hnone, List.append_nil]
    exact hsame ▸ hshows.told
  rw [← hshows.outbox] at hfed
  rcases eq_or_ne l.writer .stopped with hstopped | hrunning
  · have hstands := Line.stands_of_run hreaches
    obtain ⟨-, hsame⟩ := hfed.of_gone (by simp [hstands.gone (hshows.writer.trans hstopped)])
    refine shown_of_line hreaches ?_ hwriter ?_ htold hquiet
    · rw [hconnection, hsame]
    · exact fun hm => absurd (stirs.writer.trans hstopped) hm
  · have hopen := hshows.shared hrunning
    refine shown_of_line (hreaches.tail (.feed hopen hfed)) ?_ hwriter (fun _ => hopen) htold
      hquiet
    rw [hconnection]

/-- The writer stops. -/
theorem shown_stopWriter {line : Line Link} {e : Ending}
    (reaches : Line.Reaches write (Line.fresh defaultCapacity start) (line.stop e))
    (outbox : line.outbox = h.outbox l.connection)
    (told : (line.stop e).Told (framesOf (read ++ l.pipe.messages))) (quiet : l.Quiet read) :
    Shown (l.stopWriter h).2 (l.stopWriter h).1 read := by
  refine shown_of_line reaches ?_ rfl (fun hrunning => absurd rfl hrunning) told
    (quiet.of_same rfl id)
  change line.outbox.discard = (h.use l.connection .discard).outbox l.connection
  rw [Hub.outbox_use_self, outbox]
  rfl

theorem Shown.resume (shown : Shown l h read) :
    Shown (l.resume h).2 (l.resume h).1 read := by
  obtain ⟨start, line, hreaches, hshows⟩ := id shown
  have hflush : l.flush.pipe.messages = l.pipe.messages := Pipe.messages_flush l.pipe
  have hstirs : l.Stirs l.flush :=
    ⟨rfl, rfl, id, [], hflush.trans (List.append_nil _).symm, by simp⟩
  unfold Link.resume
  split
  · rename_i item hwriting
    dsimp only
    split
    · exact shown.grow hstirs (.refl _)
    · have hwriter := hshows.writer.trans hwriting
      have hrunning : l.writer ≠ .stopped := by simp [hwriting]
      have hcomplete := hreaches.tail (.complete hwriter)
      have hquiet {m : Link} (pipe : m.pipe = l.flush.pipe)
          (handshake : m.handshake = .terminated ∨ m.handshake = l.handshake) : m.Quiet read := by
        refine hshows.quiet.of_same (pipe ▸ hflush) fun hactive => ?_
        rcases handshake with hterminated | hsame
        · exact hterminated ▸ Handshake.noConfusion
        · exact hsame ▸ hactive
      have htold := hflush.symm ▸ hshows.frames hreaches hrunning
      cases item with
      | frame f =>
          refine shown_of_line hcomplete hshows.outbox rfl (fun _ => hshows.shared hrunning)
            (.inl htold) (hquiet rfl ?_)
          simp only [Writer.after]
          split <;> simp [flush]
      | close c =>
          refine shown_stopWriter hcomplete hshows.outbox (.inl htold) (hquiet rfl ?_)
          dsimp only
          split <;> simp [flush]
  · split
    · exact shown.grow hstirs (.refl _)
    · exact shown

theorem Shown.work (shown : Shown l h read) (idle : l.writer = .idle) :
    Shown (l.work h).2 (l.work h).1 read := by
  obtain ⟨start, line, hreaches, hshows⟩ := shown
  have hwriter := hshows.writer.trans idle
  have hrunning : l.writer ≠ .stopped := by simp [idle]
  have hopen := hshows.shared hrunning
  have hwork := hreaches.tail (.work (h.outbox l.connection).contents.length hwriter)
  unfold Line.work at hwork
  rw [hshows.outbox, hshows.socket, List.take_length] at hwork
  unfold Link.work
  dsimp only at hwork ⊢
  have hskip (n : Nat) : (h.outbox l.connection).skip n =
      (h.setOutbox l.connection ((h.outbox l.connection).skip n)).outbox l.connection :=
    (h.outbox_use_self l.connection (.skip n)).symm
  have hputs := puts_forward l (h.outbox l.connection).contents
  have hquiet := hshows.quiet.forward (h.outbox l.connection).contents
  have hforwards := forwards_forward write l (h.outbox l.connection).contents
  generalize forward write l (h.outbox l.connection).contents = p at *
  have hconnection : p.socket.connection = l.connection :=
    congrArg Session.connection hputs.session
  have htold : framesOf (read ++ p.socket.pipe.messages) =
      (line.handed ++ (h.outbox l.connection).contents.take p.given).filterMap Outbound.frame? := by
    rw [hputs.messages, ← List.append_assoc, framesOf_append, framesOf_message,
      hshows.frames hreaches hrunning, List.filterMap_append]
  cases hforwards with
  | drained m frames writes =>
      dsimp only
      split
      · exact shown_of_line hwork (hconnection ▸ hskip _) rfl (fun _ => hopen) (.inl htold)
          (hquiet.of_same rfl id)
      · have halone := hwork.tail .letGo
        refine shown_stopWriter (e := .retired) (halone.tail (.retire rfl rfl ?_)) ?_ (.inl htold)
          (hquiet.of_same rfl id)
        · exact (Outbox.contents_skip _ _).trans List.drop_length
        · exact hconnection ▸ hskip _
  | closed frames rest c m split only writes =>
      exact shown_stopWriter hwork (hconnection ▸ hskip _) (.inl htold) (hquiet.of_same rfl id)
  | held frames rest item m n split only writes held =>
      exact shown_of_line hwork (hconnection ▸ hskip _) rfl (fun _ => hopen) (.inl htold)
        (hquiet.of_same rfl id)
  | failed frames rest item m reason split only writes failed =>
      refine shown_stopWriter hwork (hconnection ▸ hskip _) (.inr ⟨rfl, ?_⟩)
        (hquiet.of_same rfl id)
      rw [htold, (Line.stands_of_run hreaches).handed_of_idle hwriter]
      rfl

theorem Shown.pump (shown : Shown l h read) : Shown (l.pump h).2 (l.pump h).1 read := by
  have hresumed := shown.resume
  unfold Link.pump
  dsimp only
  split
  · rename_i hidle
    exact hresumed.work hidle
  · exact hresumed

/-- A writer that runs can be stopped for any reason that leaves open what was written. -/
theorem Shown.stop {line : Line Link} (shows : Shows line l h read) {e : Ending}
    (reaches : Line.Reaches write (Line.fresh defaultCapacity start) line)
    (step : Line.Step write line (line.stop e)) (running : l.writer ≠ .stopped) :
    Shown (l.stopWriter h).2 (l.stopWriter h).1 read := by
  have hframes := shows.frames reaches running
  exact shown_stopWriter (reaches.tail step) shows.outbox (.inl hframes) shows.quiet

theorem Shown.expire (shown : Shown l h read) :
    Shown (l.expire h).2 (l.expire h).1 read := by
  obtain ⟨start, line, hreaches, hshows⟩ := id shown
  unfold Link.expire
  split
  · split
    · rename_i hexpires
      have hrunning : line.writer ≠ .stopped := hshows.writer ▸ hexpires.2
      exact .stop hshows hreaches (.cut hrunning) hexpires.2
    · exact shown
  · exact shown

theorem Shown.failWrite (shown : Shown l h read) {item : Outbound}
    (writing : l.writer = .writing item) (reason : String) :
    Shown (l.failWrite h item reason).2 (l.failWrite h item reason).1 read := by
  obtain ⟨start, line, hreaches, hshows⟩ := shown
  have hwriter := hshows.writer.trans writing
  exact Shown.stop (h := h.record _) ⟨hshows.outbox, hshows.socket, hshows.writer, hshows.shared,
    hshows.told, hshows.quiet⟩ hreaches (.fail hwriter) (by simp [writing])

/-! ### What a client does -/

theorem stirs_pass (l : Link) (h : Hub) (item : Inbound) : l.Stirs (l.pass h item).2 := by
  have hseat := (l.session.takes_receive h item).1
  unfold pass afterSession
  dsimp only
  split
  · exact .of_same (congrArg Prod.snd hseat) rfl id rfl
  · exact .of_same (congrArg Prod.snd hseat) rfl id rfl

theorem Shown.passes (shown : Shown l h read) {p : Hub × Link} (passes : l.Passes h p) :
    Shown p.2 p.1 read := by
  cases passes with
  | nothing stirs => exact shown.grow stirs (.refl _)
  | @item m item stirs =>
      refine shown.grow (stirs.trans (m.stirs_pass h item)) ?_
      exact stirs.connection ▸ h.grows_receive m.connection m.session item

theorem Shown.vanish (shown : Shown l h read) :
    Shown (l.vanish h).2 (l.vanish h).1 read := by
  obtain ⟨p, hpasses, heq | ⟨item, hwriting, heq⟩⟩ := l.passes_vanish h
  · rw [heq]
    exact shown.passes hpasses
  · rw [heq]
    exact (shown.passes hpasses).failWrite hwriting brokenPipe

theorem Shown.clientRead (shown : Shown l h read) :
    Shown (l.clientRead h).2.1 (l.clientRead h).1 (read ++ l.arrivals) := by
  obtain ⟨start, line, hreaches, hshows⟩ := shown
  have hmessages : (read ++ l.arrivals) ++ l.emptied.pipe.messages = read ++ l.pipe.messages := by
    rw [List.append_assoc, arrivals_emptied]
  have hsame : l.emptied.connection = l.connection ∧ l.emptied.writer = l.writer ∧
      l.emptied.handshake = l.handshake := by
    unfold emptied
    split <;> exact ⟨rfl, rfl, rfl⟩
  obtain ⟨hconnection, hwriter, hhandshake⟩ := hsame
  have hemptied : Shown l.emptied h (read ++ l.arrivals) := by
    refine shown_of_line hreaches (hconnection ▸ hshows.outbox) (hwriter ▸ hshows.writer)
      (hwriter ▸ hshows.shared) (hmessages.symm ▸ hshows.told) ⟨?_, ?_⟩
    · exact hmessages.symm ▸ hshows.quiet.calm
    · exact fun x hx hclose => hhandshake ▸ hshows.quiet.closing x (hmessages ▸ hx) hclose
  exact hemptied.passes (l.passes_clientRead h)

theorem shown_openLink (h : Hub) (room : RoomId) (peer : PeerId) (capacity : Nat) :
    Shown (openLink h room peer capacity).2 (openLink h room peer capacity).1 [] := by
  let connected := h.connect peer defaultCapacity
  let link := (openLink h room peer capacity).2
  have hfresh : connected.1.outbox connected.2 = { capacity := defaultCapacity } := by
    simp [connected, Hub.connect, Hub.outbox]
  have hopened : Shown link connected.1 [] :=
    ⟨link, _, .refl, hfresh.symm, rfl, rfl, fun _ => rfl, .inl rfl, .nil,
      fun _ hx => absurd hx List.not_mem_nil⟩
  exact hopened.grow (.refl link) (connected.1.grows_join connected.2 room connected.2)

/-- Whatever happened to a link can have happened on a line. -/
theorem Lives.shown (lives : Lives l h read) : Shown l h read := by
  induction lives with
  | opened h room peer capacity => exact shown_openLink h room peer capacity
  | besides lives grows ih => exact ih.grow (.refl _) grows
  | clientSend lives item ih => exact ih.passes (passes_clientSend _ _ item)
  | clientRead lives ih => exact ih.clientRead
  | vanish lives ih => exact ih.vanish
  | pump lives ih => exact ih.pump
  | expire lives ih => exact ih.expire

end Link

end Socket

end RoomRelay
