import RoomRelay.Socket.Writer

/-!
How far a writer comes with the items that are there. All that it takes but the last is frames that
were written, and what becomes of the last one decides how it stands: it stops after a close and
after an item that cannot be written, it waits where the socket holds it up, and is idle otherwise.
-/

namespace RoomRelay.Socket

def OnlyFrames (items : List Outbound) : Prop :=
  ∀ item ∈ items, ∃ f, item = .frame f

/-- The items up to the first close, and that close. -/
def untilClose : List Outbound → List Outbound
  | [] => []
  | .close c :: _ => [.close c]
  | .frame f :: rest => .frame f :: untilClose rest

theorem OnlyFrames.append {items more : List Outbound} (first : OnlyFrames items)
    (second : OnlyFrames more) : OnlyFrames (items ++ more) := fun item hitem =>
  (List.mem_append.mp hitem).elim (first item) (second item)

theorem untilClose_append {frames : List Outbound} (only : OnlyFrames frames)
    (items : List Outbound) : untilClose (frames ++ items) = frames ++ untilClose items := by
  induction frames with
  | nil => rfl
  | cons item rest ih =>
      obtain ⟨f, rfl⟩ := only item List.mem_cons_self
      have hrest := ih fun x hx => only x (List.mem_cons_of_mem _ hx)
      rw [List.cons_append, untilClose, hrest, List.cons_append]

theorem untilClose_frames {frames : List Outbound} (only : OnlyFrames frames) :
    untilClose frames = frames := by
  simpa [untilClose] using untilClose_append only []

/-- What comes after a close makes no difference. -/
theorem untilClose_of_close {frames : List Outbound} (only : OnlyFrames frames) (c : Close)
    (rest : List Outbound) : untilClose (frames ++ .close c :: rest) = frames ++ [.close c] := by
  rw [untilClose_append only, untilClose]

/-- One more item after some frames comes no later than the first close. -/
theorem prefix_untilClose {frames last : List Outbound} (only : OnlyFrames frames)
    (single : last.length ≤ 1) (rest : List Outbound) :
    frames ++ last <+: untilClose (frames ++ last ++ rest) := by
  rw [List.append_assoc, untilClose_append only, List.prefix_append_right_inj]
  match last, single with
  | [], _ => exact List.nil_prefix
  | [.frame f], _ => exact ⟨untilClose rest, rfl⟩
  | [.close c], _ => exact List.prefix_rfl

variable {σ : Type}

/-- How many items the socket took: all that were taken but for one that failed. -/
def Progress.given (p : Progress σ) : Nat :=
  p.taken - p.failure.toList.length

/-- How many items were written, of those that were taken. -/
def Progress.written (p : Progress σ) : Nat :=
  match p.writer, p.failure with
  | .writing _, _ | _, some _ => p.taken - 1
  | _, none => p.taken

/-- A socket takes items as a whole, one after the other. -/
inductive Writes (write : σ → Outbound → Outcome σ) : σ → List Outbound → σ → Prop where
  | nil (s : σ) : Writes write s [] s
  | cons {s t u : σ} {item : Outbound} {rest : List Outbound}
      (written : write s item = .written t) (writes : Writes write t rest u) :
      Writes write s (item :: rest) u

/-- How a writer stands after some items, of which it took the first ones. -/
inductive Forwards (write : σ → Outbound → Outcome σ) (s : σ) (items : List Outbound) :
    Progress σ → Prop where
  | drained (t : σ) (frames : OnlyFrames items) (writes : Writes write s items t) :
      Forwards write s items { taken := items.length, socket := t, writer := .idle }
  | closed (frames rest : List Outbound) (c : Close) (t : σ)
      (split : items = frames ++ .close c :: rest) (only : OnlyFrames frames)
      (writes : Writes write s (frames ++ [.close c]) t) :
      Forwards write s items { taken := frames.length + 1, socket := t, writer := .stopped }
  | held (frames rest : List Outbound) (item : Outbound) (t u : σ)
      (split : items = frames ++ item :: rest) (only : OnlyFrames frames)
      (writes : Writes write s frames t) (held : write t item = .held u) :
      Forwards write s items { taken := frames.length + 1, socket := u, writer := .writing item }
  | failed (frames rest : List Outbound) (item : Outbound) (t : σ) (reason : String)
      (split : items = frames ++ item :: rest) (only : OnlyFrames frames)
      (writes : Writes write s frames t) (failed : write t item = .failed reason) :
      Forwards write s items
        { taken := frames.length + 1
          socket := t
          writer := .stopped
          failure := some (item, reason) }

variable {write : σ → Outbound → Outcome σ}

/-- One more frame that was written before the others. -/
theorem Forwards.cons {s t : σ} {f : Frame} {items : List Outbound} {p : Progress σ}
    (written : write s (.frame f) = .written t) (forwards : Forwards write t items p) :
    Forwards write s (.frame f :: items) { p with taken := p.taken + 1 } := by
  have honly {frames : List Outbound} (only : OnlyFrames frames) :
      OnlyFrames (.frame f :: frames) := List.forall_mem_cons.mpr ⟨⟨f, rfl⟩, only⟩
  cases forwards with
  | drained u frames writes => exact .drained u (honly frames) (.cons written writes)
  | closed frames rest c u split only writes =>
      exact .closed (.frame f :: frames) rest c u (congrArg _ split) (honly only)
        (.cons written writes)
  | held frames rest item u v split only writes held =>
      exact .held (.frame f :: frames) rest item u v (congrArg _ split) (honly only)
        (.cons written writes) held
  | failed frames rest item u reason split only writes failed =>
      exact .failed (.frame f :: frames) rest item u reason (congrArg _ split) (honly only)
        (.cons written writes) failed

theorem forwards_forward (write : σ → Outbound → Outcome σ) (s : σ) (items : List Outbound) :
    Forwards write s items (forward write s items) := by
  have hnone : OnlyFrames [] := fun item hitem => absurd hitem List.not_mem_nil
  induction items generalizing s with
  | nil => exact .drained s hnone (.nil s)
  | cons item rest ih =>
      rw [forward]
      cases hwrite : write s item with
      | failed reason => exact .failed [] rest item s reason rfl hnone (.nil s) hwrite
      | held t => exact .held [] rest item s t rfl hnone (.nil s) hwrite
      | written t =>
          cases item with
          | frame f => exact (ih t).cons hwrite
          | close c => exact .closed [] rest c t rfl hnone (.cons hwrite (.nil t))

end RoomRelay.Socket
