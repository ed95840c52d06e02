import Mathlib.Logic.Relation
import RoomRelay.Proofs.Hub.Feeding
import RoomRelay.Proofs.Socket.Forwarding

/-!
The way of a connection's items from its outbox to a socket of which nothing is assumed, with an
account of what was accepted, handed over and written. Whoever has a handle may put items in at any
time, the writer takes as many as it likes whenever it is idle, and a write that is held up can end
either way. The writer ends with a close, with a write that fails, with the last handle, or when it
is cut short.
-/

namespace RoomRelay.Socket

/-- Why a writer stopped. -/
inductive Ending where
  | closed
  | failed
  | retired
  | cut
deriving DecidableEq, Repr

structure Line (σ : Type) where
  outbox : Outbox
  socket : σ
  writer : Writer := .idle
  /-- Whether anybody has a handle that can put something in. -/
  shared : Bool := true
  accepted : List Outbound := []
  /-- What the socket was asked to write, up to the write that is in progress or failed. -/
  handed : List Outbound := []
  /-- What the socket has written as a whole. -/
  written : List Outbound := []
  ending : Option Ending := none

namespace Line

variable {σ : Type}

/-- A line on which nothing has happened. -/
def fresh (capacity : Nat) (socket : σ) : Line σ :=
  { outbox := { capacity }, socket }

def stop (l : Line σ) (e : Ending) : Line σ :=
  { l with outbox := l.outbox.discard, writer := .stopped, ending := some e }

/-- The writer takes at most `n` items. -/
def work (write : σ → Outbound → Outcome σ) (l : Line σ) (n : Nat) : Line σ :=
  let items := l.outbox.contents.take n
  let p := forward write l.socket items
  let worked : Line σ :=
    { l with
      outbox := l.outbox.skip p.taken
      socket := p.socket
      writer := p.writer
      handed := l.handed ++ items.take p.taken
      written := l.written ++ items.take p.written }
  match p.writer, p.failure with
  | .stopped, some _ => worked.stop .failed
  | .stopped, none => worked.stop .closed
  | _, _ => worked

/-- The write in progress is done. -/
def complete (l : Line σ) (item : Outbound) : Line σ :=
  let done := { l with writer := .idle, written := l.written ++ [item] }
  match Writer.after item with
  | .stopped => done.stop .closed
  | _ => done

/-- What can happen on a line. -/
inductive Step (write : σ → Outbound → Outcome σ) (l : Line σ) : Line σ → Prop where
  | feed {q : Outbox} {items : List Outbound} (shared : l.shared = true)
      (fed : l.outbox.Fed items q) :
      Step write l { l with outbox := q, accepted := l.accepted ++ items }
  | letGo : Step write l { l with shared := false }
  | work (n : Nat) (idle : l.writer = .idle) : Step write l (l.work write n)
  /-- The socket changes by itself or by what its client does. -/
  | socket (s : σ) : Step write l { l with socket := s }
  | complete {item : Outbound} (writing : l.writer = .writing item) : Step write l (l.complete item)
  | fail {item : Outbound} (writing : l.writer = .writing item) : Step write l (l.stop .failed)
  | retire (idle : l.writer = .idle) (alone : l.shared = false) (empty : l.outbox.contents = []) :
      Step write l (l.stop .retired)
  | cut (running : l.writer ≠ .stopped) : Step write l (l.stop .cut)

/-- What can become of a line. -/
def Reaches (write : σ → Outbound → Outcome σ) : Line σ → Line σ → Prop :=
  Relation.ReflTransGen (Step write)

/-! ### How a line stands -/

/-- How a line stands. While the writer runs, what was handed over and what is on its way are what
was accepted, and there was no close among what was written. A close is the end of it, and so is a
write that fails. -/
inductive Stands (l : Line σ) : Prop where
  | idle (ending : l.ending = none) (writer : l.writer = .idle)
      (listening : l.outbox.receiver = .listening) (handed : l.handed = l.written)
      (accepted : l.accepted = l.handed ++ l.outbox.contents) (only : OnlyFrames l.written)
  | writing (item : Outbound) (ending : l.ending = none) (writer : l.writer = .writing item)
      (listening : l.outbox.receiver = .listening) (handed : l.handed = l.written ++ [item])
      (accepted : l.accepted = l.handed ++ l.outbox.contents) (only : OnlyFrames l.written)
  | closed (c : Close) (frames rest : List Outbound) (ending : l.ending = some .closed)
      (writer : l.writer = .stopped) (gone : l.outbox.receiver = .dropped)
      (handed : l.handed = l.written) (written : l.written = frames ++ [.close c])
      (accepted : l.accepted = l.handed ++ rest) (only : OnlyFrames frames)
  | failed (item : Outbound) (rest : List Outbound) (ending : l.ending = some .failed)
      (writer : l.writer = .stopped) (gone : l.outbox.receiver = .dropped)
      (handed : l.handed = l.written ++ [item]) (accepted : l.accepted = l.handed ++ rest)
      (only : OnlyFrames l.written)
  | retired (ending : l.ending = some .retired) (writer : l.writer = .stopped)
      (gone : l.outbox.receiver = .dropped) (alone : l.shared = false)
      (handed : l.handed = l.written) (accepted : l.accepted = l.handed)
      (only : OnlyFrames l.written)
  | cut (last rest : List Outbound) (ending : l.ending = some .cut) (writer : l.writer = .stopped)
      (gone : l.outbox.receiver = .dropped) (handed : l.handed = l.written ++ last)
      (single : last.length ≤ 1) (accepted : l.accepted = l.handed ++ rest)
      (only : OnlyFrames l.written)

theorem stands_fresh (capacity : Nat) (socket : σ) : (fresh capacity socket).Stands :=
  .idle rfl rfl rfl rfl rfl fun _ hitem => absurd hitem List.not_mem_nil

variable {write : σ → Outbound → Outcome σ} {l m : Line σ}

/-- A line whose writer runs has no ending, and nothing of it is lost. -/
structure Runs (l : Line σ) : Prop where
  ending : l.ending = none
  listening : l.outbox.receiver = .listening
  accepted : l.accepted = l.handed ++ l.outbox.contents
  only : OnlyFrames l.written

theorem Stands.runs (stands : l.Stands) (running : l.writer ≠ .stopped) : l.Runs := by
  cases stands with
  | idle ending writer listening handed accepted only => exact ⟨ending, listening, accepted, only⟩
  | writing item ending writer listening handed accepted only =>
      exact ⟨ending, listening, accepted, only⟩
  | _ => contradiction

theorem Stands.handed_of_idle (stands : l.Stands) (idle : l.writer = .idle) :
    l.handed = l.written := by
  cases stands with
  | idle ending writer listening handed accepted only => exact handed
  | _ => simp_all

theorem Stands.handed_of_writing {item : Outbound} (stands : l.Stands)
    (writing : l.writer = .writing item) : l.handed = l.written ++ [item] := by
  cases stands with
  | writing other ending writer listening handed accepted only =>
      rw [writer] at writing
      cases writing
      exact handed
  | _ => simp_all

theorem Stands.gone (stands : l.Stands) (stopped : l.writer = .stopped) :
    l.outbox.receiver = .dropped := by
  cases stands with
  | idle | writing => simp_all
  | closed | failed | retired | cut => assumption

theorem eq_append_drop_of_take {items front rest : List Outbound} {n : Nat}
    (split : items.take n = front ++ rest) : items = front ++ items.drop front.length := by
  have hitems : items = front ++ (rest ++ items.drop n) := by
    rw [← List.append_assoc, ← split, List.take_append_drop]
  have hdrop := congrArg (List.drop front.length) hitems
  rw [List.drop_left] at hdrop
  rw [hdrop]
  exact hitems

theorem Runs.accepted_eq (runs : l.Runs) {n : Nat} {front rest : List Outbound}
    (split : l.outbox.contents.take n = front ++ rest) :
    l.accepted = l.handed ++ front ++ l.outbox.contents.drop front.length := by
  rw [List.append_assoc, ← eq_append_drop_of_take split, runs.accepted]

/-- The items that were taken, where some were taken before the last one. -/
theorem Runs.last (runs : l.Runs) {n : Nat} {frames rest : List Outbound} {item : Outbound}
    (split : l.outbox.contents.take n = frames ++ item :: rest) :
    (l.outbox.contents.take n).take (frames.length + 1) = frames ++ [item] ∧
      (l.outbox.contents.take n).take frames.length = frames ∧
      l.accepted =
        l.handed ++ (frames ++ [item]) ++ l.outbox.contents.drop (frames.length + 1) := by
  have hlength : (frames ++ [item]).length = frames.length + 1 := List.length_append
  have haccepted := runs.accepted_eq (split.trans (List.append_cons frames item rest))
  refine ⟨?_, ?_, hlength ▸ haccepted⟩
  · rw [split]
    exact List.take_length_add_append 1
  · rw [split, List.take_left]

theorem Stands.work (stands : l.Stands) (n : Nat) (idle : l.writer = .idle) :
    (l.work write n).Stands := by
  have hruns := stands.runs (by simp [idle])
  have handed := stands.handed_of_idle idle
  have hforwards := forwards_forward write l.socket (l.outbox.contents.take n)
  unfold Line.work
  dsimp only
  generalize forward write l.socket (l.outbox.contents.take n) = p at hforwards
  cases hforwards with
  | drained t frames writes =>
      have hall := hruns.accepted_eq (List.append_nil (l.outbox.contents.take n)).symm
      refine .idle hruns.ending rfl hruns.listening ?_ ?_ ?_
      · rw [handed]
        rfl
      · simp only [Outbox.contents_skip, List.take_length]
        exact hall
      · simp only [Progress.written, List.take_length]
        exact hruns.only.append frames
  | closed frames rest c t split frames_only writes =>
      obtain ⟨htaken, -, hall⟩ := hruns.last split
      refine .closed c (l.written ++ frames) (l.outbox.contents.drop (frames.length + 1)) rfl rfl
        rfl ?_ ?_ ?_ (hruns.only.append frames_only)
      · exact congrArg (· ++ _) handed
      · exact (congrArg (l.written ++ ·) htaken).trans (List.append_assoc ..).symm
      · exact htaken ▸ hall
  | held frames rest item t u split frames_only writes held =>
      obtain ⟨htaken, hwritten, hall⟩ := hruns.last split
      refine .writing item hruns.ending rfl hruns.listening ?_ ?_ ?_
      · simp only [Progress.written, Nat.add_sub_cancel, htaken, hwritten, handed,
          List.append_assoc]
      · simp only [Outbox.contents_skip, htaken]
        exact hall
      · simp only [Progress.written, Nat.add_sub_cancel, hwritten]
        exact hruns.only.append frames_only
  | failed frames rest item t reason split frames_only writes failed =>
      obtain ⟨htaken, hwritten, hall⟩ := hruns.last split
      refine .failed item (l.outbox.contents.drop (frames.length + 1)) rfl rfl rfl ?_ ?_ ?_
      · simp only [stop, Progress.written, Nat.add_sub_cancel, htaken, hwritten, handed,
          List.append_assoc]
      · exact htaken ▸ hall
      · simp only [stop, Progress.written, Nat.add_sub_cancel, hwritten]
        exact hruns.only.append frames_only

/-- What is put in comes after the rest, and nothing is once the writer stopped. -/
theorem Stands.feed (stands : l.Stands) {q : Outbox} {items : List Outbound}
    (fed : l.outbox.Fed items q) :
    ({ l with outbox := q, accepted := l.accepted ++ items } : Line σ).Stands := by
  have hmore (accepted : l.accepted = l.handed ++ l.outbox.contents) :
      l.accepted ++ items = l.handed ++ q.contents := by
    rw [accepted, fed.contents, List.append_assoc]
  have hsame (gone : l.outbox.receiver = .dropped) :
      ({ l with outbox := q, accepted := l.accepted ++ items } : Line σ) = l := by
    obtain ⟨rfl, rfl⟩ := fed.of_gone (by simp [gone])
    simp
  have hstands := stands
  cases stands with
  | idle ending writer listening handed accepted only =>
      exact .idle ending writer (fed.receiver.trans listening) handed (hmore accepted) only
  | writing item ending writer listening handed accepted only =>
      exact .writing item ending writer (fed.receiver.trans listening) handed (hmore accepted) only
  | closed | failed | retired | cut =>
      rw [hsame ‹_›]
      exact hstands

theorem Stands.complete {item : Outbound} (stands : l.Stands) (writing : l.writer = .writing item) :
    (l.complete item).Stands := by
  obtain ⟨ending, listening, accepted, only⟩ := stands.runs (by simp [writing])
  have handed := stands.handed_of_writing writing
  cases item with
  | frame f =>
      have hframe : OnlyFrames [.frame f] := List.forall_mem_singleton.mpr ⟨f, rfl⟩
      exact .idle ending rfl listening handed accepted (only.append hframe)
  | close c => exact .closed c l.written _ rfl rfl rfl handed rfl accepted only

theorem Stands.stop_cut (stands : l.Stands) (running : l.writer ≠ .stopped) :
    (l.stop .cut).Stands := by
  obtain ⟨ending, listening, accepted, only⟩ := stands.runs running
  cases hwriter : l.writer with
  | idle =>
      have handed := (stands.handed_of_idle hwriter).trans (List.append_nil _).symm
      exact .cut [] _ rfl rfl rfl handed (Nat.zero_le _) accepted only
  | writing item =>
      have handed := stands.handed_of_writing hwriter
      exact .cut [item] _ rfl rfl rfl handed (Nat.le_refl _) accepted only
  | stopped => contradiction

/-- Neither the socket nor who shares the handles matters to how a line stands. -/
theorem Stands.aside (stands : l.Stands) (s : σ) {shared : Bool}
    (kept : l.shared = false → shared = false) :
    ({ l with socket := s, shared } : Line σ).Stands := by
  cases stands with
  | idle ending writer listening handed accepted only =>
      exact .idle ending writer listening handed accepted only
  | writing item ending writer listening handed accepted only =>
      exact .writing item ending writer listening handed accepted only
  | closed c frames rest ending writer gone handed written accepted only =>
      exact .closed c frames rest ending writer gone handed written accepted only
  | failed item rest ending writer gone handed accepted only =>
      exact .failed item rest ending writer gone handed accepted only
  | retired ending writer gone alone handed accepted only =>
      exact .retired ending writer gone (kept alone) handed accepted only
  | cut last rest ending writer gone handed single accepted only =>
      exact .cut last rest ending writer gone handed single accepted only

theorem Stands.step (stands : l.Stands) (step : Step write l m) : m.Stands := by
  cases step with
  | feed shared fed => exact stands.feed fed
  | letGo => exact stands.aside l.socket fun _ => rfl
  | work n idle => exact stands.work n idle
  | socket s => exact stands.aside s id
  | complete writing => exact stands.complete writing
  | fail writing =>
      obtain ⟨ending, listening, accepted, only⟩ := stands.runs (by simp [writing])
      exact .failed _ _ rfl rfl rfl (stands.handed_of_writing writing) accepted only
  | retire idle alone empty =>
      obtain ⟨ending, listening, accepted, only⟩ := stands.runs (by simp [idle])
      rw [empty, List.append_nil] at accepted
      exact .retired rfl rfl rfl alone (stands.handed_of_idle idle) accepted only
  | cut running => exact stands.stop_cut running

theorem Stands.reaches (stands : l.Stands) (reaches : Reaches write l m) : m.Stands := by
  induction reaches with
  | refl => exact stands
  | tail so_far step ih => exact ih.step step

/-- How a line stands to which anything may have happened. -/
theorem stands_of_run {capacity : Nat} {socket : σ}
    (run : Reaches write (fresh capacity socket) l) : l.Stands :=
  (stands_fresh capacity socket).reaches run

/-! ### What later steps leave as it is -/

theorem accepted_prefix_step (step : Step write l m) : l.accepted <+: m.accepted := by
  cases step with
  | feed shared fed => exact List.prefix_append ..
  | work n idle =>
      unfold Line.work
      dsimp only
      split <;> exact List.prefix_rfl
  | complete writing =>
      unfold Line.complete
      dsimp only
      split <;> exact List.prefix_rfl
  | _ => exact List.prefix_rfl

theorem accepted_prefix (reaches : Reaches write l m) : l.accepted <+: m.accepted := by
  induction reaches with
  | refl => exact List.prefix_rfl
  | tail so_far step ih => exact ih.trans (accepted_prefix_step step)

/-- A line whose writer stopped is what it was, but for its socket and who shares it. -/
def Rests (l m : Line σ) : Prop :=
  m = { l with socket := m.socket, shared := m.shared }

theorem Stands.rests_step (stands : l.Stands) (stopped : l.writer = .stopped)
    (step : Step write l m) : l.Rests m := by
  cases step with
  | feed shared fed =>
      obtain ⟨rfl, rfl⟩ := fed.of_gone (by simp [stands.gone stopped])
      simp [Rests]
  | letGo => rfl
  | socket s => rfl
  | cut running => contradiction
  | work | complete | fail | retire => simp_all

theorem Stands.rests (stands : l.Stands) (stopped : l.writer = .stopped)
    (reaches : Reaches write l m) : l.Rests m := by
  induction reaches with
  | refl => rfl
  | tail so_far step ih =>
      rename_i k m
      have hstopped : k.writer = .stopped := by rw [ih, stopped]
      have hstep := (stands.reaches so_far).rests_step hstopped step
      rw [Rests, hstep, ih]

end Line

end RoomRelay.Socket
