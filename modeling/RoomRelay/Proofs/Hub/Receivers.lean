import RoomRelay.Proofs.Hub.Unwinding

/-!
A slow or dead receiver. What one connection's outbox holds, how much it may hold, and whether
anybody reads it, is seen by nobody else: two runs in which the same is done, and which differ in
this alone, have the same registry, the same answers, the same sessions and the same items in the
outboxes of all others.
-/

namespace RoomRelay

/-- Everything but the outbox of one connection. -/
def Scope.allButOutbox (c : Connection) : Scope where
  rooms _ := true
  actors _ := true
  queues n := n != c.number

namespace Exchange

theorem covers_allButOutbox {c : Connection} {a : Action} (kept : a.uses c = false)
    (x : Exchange) : x.Covers (.allButOutbox c) a := by
  cases a with
  | advance milliseconds => trivial
  | deed d deed =>
      cases deed with
      | receive k item => exact ⟨rfl, fun _ _ => rfl⟩
      | abort k => exact ⟨rfl, fun _ _ => rfl⟩
      | use u => exact ⟨rfl, by simpa [Action.uses, Scope.allButOutbox] using kept⟩
      | _ => exact ⟨rfl, rfl⟩

theorem spares_allButOutbox {c : Connection} {a : Action} (left_out : a.uses c = true)
    (x : Exchange) : x.Spares (.allButOutbox c) a := by
  cases a with
  | advance milliseconds => cases left_out
  | deed d deed =>
      cases deed with
      | use u => simpa [Action.uses, Spares, Scope.allButOutbox] using left_out
      | _ => cases left_out

/-- The run without the uses of one outbox. -/
theorem unwind_uses {c : Connection} {x y : Exchange} (agrees : x.Agrees (.allButOutbox c) y)
    (actions : List Action) :
    (x.run actions).Agrees (.allButOutbox c) (y.run (actions.filter (!·.uses c))) ∧
      (x.answers actions).filter (!·.1.uses c) = y.answers (actions.filter (!·.uses c)) ∧
      ∀ d, (Scope.allButOutbox c).queues d.number = true →
        x.intake d actions = y.intake d (actions.filter (!·.uses c)) := by
  apply unwind (!·.uses c) fun _ => True
  · intros
    trivial
  · intro z a _ _ hkeep
    exact covers_allButOutbox (by simpa using hkeep) z
  · intro z a _ _ hkeep
    exact spares_allButOutbox (by simpa using hkeep) z
  · trivial
  · exact agrees

/-- Two runs in which the same is done, but for the capacity of one outbox and what its receiving
end does, differ in nothing else. Since the runs are any runs, this holds after every step. -/
theorem receiver_affects_itself {c : Connection} {left right : Array Outbox} {delay : Nat}
    {actions actions' : List Action}
    (outboxes : ∀ n : Nat, n ≠ c.number → left[n]? = right[n]?)
    (same : actions.filter (!·.uses c) = actions'.filter (!·.uses c)) :
    ((start left delay).run actions).hub.registry =
        ((start right delay).run actions').hub.registry ∧
      ((start left delay).run actions).sessions = ((start right delay).run actions').sessions ∧
      ((start left delay).answers actions).filter (!·.1.uses c) =
        ((start right delay).answers actions').filter (!·.1.uses c) ∧
      ∀ d : Connection, d.number ≠ c.number →
        ((start left delay).run actions).hub.outbox d =
            ((start right delay).run actions').hub.outbox d ∧
          (start left delay).intake d actions = (start right delay).intake d actions' := by
  have hwatched (d : Connection) :
      (Scope.allButOutbox c).queues d.number = true ↔ d.number ≠ c.number := by
    simp [Scope.allButOutbox]
  have hstart : (start left delay).Agrees (.allButOutbox c) (start right delay) := by
    refine ⟨⟨rfl, rfl, rfl, ?_, rfl, rfl⟩, fun _ _ => rfl⟩
    intro d hd
    have houtbox := outboxes d.number ((hwatched d).mp hd)
    simp only [Hub.outbox, start, houtbox]
  obtain ⟨hrun, hanswers, hintake⟩ := unwind_uses hstart actions
  obtain ⟨hrun', hanswers', hintake'⟩ := unwind_uses (Agrees.refl (start right delay)) actions'
  rw [same] at hrun hanswers hintake
  have hboth := hrun.trans hrun'.symm
  refine ⟨?_, ?_, hanswers.trans hanswers'.symm, ?_⟩
  · exact hboth.hub.registry_eq fun _ => rfl
  · funext d
    exact hboth.sessions d rfl
  · intro d hd
    have hqueue := (hwatched d).mpr hd
    exact ⟨hboth.hub.outbox d hqueue, (hintake d hqueue).trans (hintake' d hqueue).symm⟩

/-- `b` joins after `a` and sends something, while `a` does this with its outbox. -/
def besides (u : Outbox.Use) : List Action :=
  [.deed ⟨0, "a"⟩ (.join 0 "r"), .deed ⟨1, "b"⟩ (.join 0 "r"), .deed ⟨0, "a"⟩ (.use u),
    .deed ⟨1, "b"⟩ (.receive 0 (.frame (.text "\x7b\"action\":\"hi\"\x7d")))]

theorem receiver_affects_itself_besides :
    let a : Connection := ⟨0, "a"⟩
    let b : Connection := ⟨1, "b"⟩
    let narrow : Array Outbox := #[{ capacity := 1 }, { capacity := 4 }]
    let wide : Array Outbox := #[{ capacity := 8 }, { capacity := 4 }]
    (start narrow 0).intake a (besides .shut) ≠ (start wide 0).intake a (besides (.read 1)) ∧
      ((start narrow 0).answers (besides .shut)).filter (!·.1.uses a) =
        ((start wide 0).answers (besides (.read 1))).filter (!·.1.uses a) ∧
      (start narrow 0).intake b (besides .shut) = (start wide 0).intake b (besides (.read 1)) := by
  intro a b narrow wide
  have houtboxes (n : Nat) (hn : n ≠ a.number) : narrow[n]? = wide[n]? := by
    match n, hn with
    | 0, hn => exact absurd rfl hn
    | 1, _ => rfl
    | _ + 2, _ => rfl
  have hsame : (besides .shut).filter (!·.uses a) = (besides (.read 1)).filter (!·.uses a) := rfl
  obtain ⟨-, -, hanswers, hothers⟩ :=
    @receiver_affects_itself a narrow wide 0 _ _ houtboxes hsame
  exact ⟨by decide +kernel, hanswers, (hothers b (by decide)).2⟩

end Exchange

end RoomRelay
