import Mathlib.Tactic.IntervalCases
import RoomRelay.Proofs.Hub.Ledger

/-!
How often a leave is executed. Under a runtime that executes what waits in the background and lets
everyone have the registry in the end, the leave of a membership that has ended is executed exactly
once, with two exceptions: the owner is cancelled while it waits for the registry, and the owner
lets go of the membership where there is no background. Then nobody takes care of the leave, and
the connection stays registered for good.
-/

namespace RoomRelay

namespace Ledger

/-- The ledger after the first moves of a schedule. -/
def upTo (outboxes : Array Outbox) (schedule : Nat → Move) : Nat → Ledger
  | 0 => { hub := { outboxes } }
  | n + 1 => (upTo outboxes schedule n).step (schedule n)

section

variable {outboxes : Array Outbox} {schedule : Nat → Move} {k n m : Nat}

theorem sound_upTo (outboxes : Array Outbox) (schedule : Nat → Move) (n : Nat) :
    (upTo outboxes schedule n).Sound := by
  induction n with
  | zero => exact ⟨rfl, rfl, by simp [upTo]⟩
  | succ n ih => exact sound_step ih (schedule n)

theorem stands_succ {s : Standing} (h : (upTo outboxes schedule n).Stands k s) :
    (upTo outboxes schedule (n + 1)).Stands k
      (s.next (upTo outboxes schedule n) (schedule n) k) :=
  stands_step (sound_upTo outboxes schedule n) h (schedule n)

theorem length_step (l : Ledger) (move : Move) :
    (l.step move).memberships.length = l.memberships.length ∨
      ∃ room c, move = .join room c ∧
        (l.step move).memberships.length = l.memberships.length + 1 := by
  cases move with
  | join room c => exact Or.inr ⟨room, c, rfl, by simp [step]⟩
  | runDeparture i =>
      left
      simp only [step]
      split <;> rfl
  | _ =>
      left
      simp only [step]
      split <;> simp

/-- What holds of a membership when it is joined, and goes on to hold, holds of its standing. -/
theorem stands_rule {I : Nat → Standing → Prop} (inside : ∀ n, I n .inside)
    (next : ∀ n s, (upTo outboxes schedule n).Stands k s → I n s →
      I (n + 1) (s.next (upTo outboxes schedule n) (schedule n) k))
    (joined : k < (upTo outboxes schedule n).memberships.length) :
    ∃ s, (upTo outboxes schedule n).Stands k s ∧ I n s := by
  -- By induction on the time, where the membership is either an old one or the one just joined.
  induction n with
  | zero => cases joined
  | succ n ih =>
      have hbefore (hk : k < (upTo outboxes schedule n).memberships.length) :
          ∃ s, (upTo outboxes schedule (n + 1)).Stands k s ∧ I (n + 1) s := by
        obtain ⟨s, hs, hI⟩ := ih hk
        exact ⟨_, stands_succ hs, next n s hs hI⟩
      rw [upTo] at joined
      rcases length_step (upTo outboxes schedule n) (schedule n) with
        hsame | ⟨room, c, hmove, hlonger⟩
      · exact hbefore (hsame ▸ joined)
      · rcases Nat.lt_succ_iff_lt_or_eq.mp (hlonger ▸ joined) with hk | rfl
        · exact hbefore hk
        · refine ⟨.inside, ?_, inside _⟩
          rw [upTo, hmove]
          exact stands_joined (sound_upTo outboxes schedule n) room c

/-- Who has left and who was abandoned stays so. -/
theorem stands_final {s : Standing} (h : (upTo outboxes schedule n).Stands k s)
    (final : s = .left ∨ s = .abandoned) (later : n ≤ m) :
    (upTo outboxes schedule m).Stands k s := by
  induction m, later using Nat.le_induction with
  | base => exact h
  | succ m hm ih =>
      have hnext := stands_succ ih
      rcases final with rfl | rfl <;> exact hnext

/-- Whoever waits for the registry does so until it has left or is abandoned. -/
theorem stands_leaving (h : (upTo outboxes schedule n).Stands k .leaving) (later : n ≤ m) :
    ∃ s, (upTo outboxes schedule m).Stands k s ∧ (s = .leaving ∨ s = .left ∨ s = .abandoned) := by
  induction m, later using Nat.le_induction with
  | base => exact ⟨.leaving, h, Or.inl rfl⟩
  | succ m hm ih =>
      obtain ⟨s, hs, hone⟩ := ih
      refine ⟨_, stands_succ hs, ?_⟩
      rcases hone with rfl | rfl | rfl
      · simp only [Standing.next]
        split <;> (try split) <;> simp
      · exact Or.inr (Or.inl rfl)
      · exact Or.inr (Or.inr rfl)

variable (outboxes schedule) in
/-- What a runtime that keeps running does: it executes what waits in the background, and it lets
everyone have the registry who waits for it and is not cancelled. -/
structure Fair : Prop where
  background : ∀ n, ∀ k ∈ (upTo outboxes schedule n).waiting, ∃ m ≥ n, ∃ i,
    schedule m = .runDeparture i ∧ (upTo outboxes schedule m).waiting[i]? = some k
  registry : ∀ n k, (upTo outboxes schedule n).stage? k = some .leaving → ∃ m ≥ n,
    schedule m = .completeLeave k ∨ ∃ background, schedule m = .drop k background

variable (outboxes schedule) in
/-- The owner of a membership is not cancelled while it waits for the registry, and does not let go
of the membership where there is no background. -/
def Spared (k : Nat) : Prop :=
  ∀ n background, schedule n = .drop k background →
    (upTo outboxes schedule n).stage? k ≠ some .leaving ∧
      ((upTo outboxes schedule n).stage? k = some .member → background = true)

/-- Of whom anything is known, it was joined. -/
theorem joined_of_map {l : Ledger} {α : Type} {f : Membership → α} {a : α}
    (h : l.memberships[k]?.map f = some a) : k < l.memberships.length := by
  obtain ⟨m, hm, -⟩ := Option.map_eq_some_iff.mp h
  exact (List.getElem?_eq_some_iff.mp hm).1

/-- Every membership is in some standing. -/
theorem exists_stands (joined : k < (upTo outboxes schedule n).memberships.length) :
    ∃ s, (upTo outboxes schedule n).Stands k s := by
  obtain ⟨s, hs, -⟩ := stands_rule (I := fun _ _ => True) (by simp) (by simp) joined
  exact ⟨s, hs⟩

theorem leaves_le_one (n : Nat) : (upTo outboxes schedule n).leaves k ≤ 1 := by
  rcases Nat.lt_or_ge k (upTo outboxes schedule n).memberships.length with hk | hk
  · obtain ⟨s, hs⟩ := exists_stands hk
    rw [hs.leaves]
    split <;> omega
  · have hfresh := (sound_upTo outboxes schedule n).fresh (k := k) (by simpa [place?] using hk)
    rw [hfresh.2]
    exact Nat.zero_le 1

/-- The two ways to be abandoned. -/
theorem abandoned_of_next {l : Ledger} {move : Move} {s : Standing}
    (h : s.next l move k = .abandoned) (before : s ≠ .abandoned) :
    ∃ background, move = .drop k background ∧
      (s = .leaving ∨ (s = .inside ∧ background = false)) := by
  cases move with
  | drop j background =>
      have hjk : j = k := by
        by_contra hne
        cases s <;> simp [Standing.next, hne] at h before
      subst hjk
      refine ⟨background, rfl, ?_⟩
      cases s <;> simp [Standing.next] at h before ⊢
      cases background with
      | true => cases h
      | false => rfl
  | _ =>
      cases s <;> simp only [Standing.next] at h
      all_goals
        first
        | exact absurd rfl before
        | cases h
        | (split at h <;> cases h)

/-- Who is spared is never abandoned. -/
theorem Spared.not_abandoned (spared : Spared outboxes schedule k) :
    ¬ (upTo outboxes schedule n).Stands k .abandoned := by
  intro h
  obtain ⟨s, hs, hne⟩ : ∃ s, (upTo outboxes schedule n).Stands k s ∧ s ≠ .abandoned := by
    refine stands_rule (I := fun _ s => s ≠ .abandoned) (by simp) ?_ (joined_of_map h.stage)
    intro n s hs hne hnext
    obtain ⟨background, hmove, rfl | ⟨rfl, hnone⟩⟩ := abandoned_of_next hnext hne
    · exact (spared n background hmove).1 hs.stage
    · rw [(spared n background hmove).2 hs.stage] at hnone
      cases hnone
  exact hne (hs.unique h)

theorem left_of_waiting (fair : Fair outboxes schedule)
    (h : (upTo outboxes schedule n).Stands k .waiting) :
    ∃ m, (upTo outboxes schedule m).Stands k .left := by
  have hwaits : k ∈ (upTo outboxes schedule n).waiting := by
    rw [← List.count_pos_iff, h.waiting]
    exact Nat.one_pos
  obtain ⟨m, -, i, hmove, hi⟩ := fair.background n k hwaits
  obtain ⟨d, -, hplace⟩ := (sound_upTo outboxes schedule m).exists_departure hi
  obtain ⟨s, hs⟩ := exists_stands (joined_of_map hplace)
  cases hs.eq_waiting hi
  have hnext := stands_succ hs
  rw [hmove, Standing.next, if_pos hi] at hnext
  exact ⟨m + 1, hnext⟩

theorem left_of_leaving (fair : Fair outboxes schedule) (spared : Spared outboxes schedule k)
    (h : (upTo outboxes schedule n).Stands k .leaving) :
    ∃ m, (upTo outboxes schedule m).Stands k .left := by
  obtain ⟨m, hm, hmove⟩ := fair.registry n k h.stage
  obtain ⟨s, hs, rfl | rfl | rfl⟩ := stands_leaving h hm
  · rcases hmove with hmove | ⟨background, hmove⟩
    · have hnext := stands_succ hs
      rw [hmove, Standing.next, if_pos rfl] at hnext
      exact ⟨m + 1, hnext⟩
    · exact absurd hs.stage (spared m background hmove).1
  · exact ⟨m, hs⟩
  · exact absurd hs spared.not_abandoned

/-- A membership that has ended without being abandoned has left at some time. -/
theorem exists_left (fair : Fair outboxes schedule) (spared : Spared outboxes schedule k)
    {stage : Stage} (found : (upTo outboxes schedule n).stage? k = some stage)
    (ended : stage ≠ .member) : ∃ m, (upTo outboxes schedule m).Stands k .left := by
  obtain ⟨s, hs⟩ := exists_stands (joined_of_map found)
  have hstage : stage = s.stage := Option.some.inj (found.symm.trans hs.stage)
  cases s with
  | inside => exact absurd hstage ended
  | leaving => exact left_of_leaving fair spared hs
  | waiting => exact left_of_waiting fair hs
  | left => exact ⟨n, hs⟩
  | abandoned => exact absurd hs spared.not_abandoned

/-- Whoever is cancelled while it waits for the registry, or lets go of its membership where there
is no background, is abandoned. -/
theorem abandoned_of_drop {background : Bool} (drops : schedule n = .drop k background)
    (unspared : (upTo outboxes schedule n).stage? k = some .leaving ∨
      ((upTo outboxes schedule n).stage? k = some .member ∧ background = false)) :
    (upTo outboxes schedule (n + 1)).Stands k .abandoned := by
  have hjoined : k < (upTo outboxes schedule n).memberships.length := by
    rcases unspared with h | ⟨h, -⟩ <;> exact joined_of_map h
  obtain ⟨s, hs⟩ := exists_stands hjoined
  have hnext := stands_succ hs
  rw [drops] at hnext
  rw [hs.stage] at unspared
  cases s with
  | inside =>
      obtain rfl : background = false := by simpa [Standing.stage] using unspared
      simpa [Standing.next] using hnext
  | leaving => simpa [Standing.next] using hnext
  | _ => simp [Standing.stage] at unspared

/-- Under a runtime that keeps running, the leave of a membership that has ended is executed exactly
once, unless its owner was cancelled while it waited for the registry, or let go of the membership
where there was no background. In these two cases it is never executed, and in no case twice. -/
theorem leave_runs_once (fair : Fair outboxes schedule) (k : Nat) :
    (∀ n, (upTo outboxes schedule n).Sound ∧ (upTo outboxes schedule n).leaves k ≤ 1) ∧
    (Spared outboxes schedule k → ∀ n stage,
      (upTo outboxes schedule n).stage? k = some stage → stage ≠ .member →
        ∃ m, ∀ later ≥ m, (upTo outboxes schedule later).leaves k = 1) ∧
    (∀ n background, schedule n = .drop k background →
      ((upTo outboxes schedule n).stage? k = some .leaving ∨
        ((upTo outboxes schedule n).stage? k = some .member ∧ background = false)) →
      ∀ later > n, (upTo outboxes schedule later).leaves k = 0) := by
  refine ⟨fun n => ⟨sound_upTo outboxes schedule n, leaves_le_one n⟩, ?_, ?_⟩
  · intro spared n stage found ended
    obtain ⟨m, hm⟩ := exists_left fair spared found ended
    exact ⟨m, fun later hlater => (stands_final hm (Or.inl rfl) hlater).leaves⟩
  · intro n background drops unspared later hlater
    have habandoned := abandoned_of_drop drops unspared
    exact (stands_final habandoned (Or.inr rfl) hlater).leaves

/-! ### Runs that come to rest -/

/-- A schedule of these moves, after which nothing is left to do but what waits in the
background. -/
def thenRest (moves : List Move) (n : Nat) : Move :=
  moves[n]?.getD (.runDeparture 0)

theorem upTo_thenRest (moves : List Move)
    (waiting : (upTo outboxes (thenRest moves) moves.length).waiting = [])
    (later : moves.length ≤ m) :
    upTo outboxes (thenRest moves) m = upTo outboxes (thenRest moves) moves.length := by
  induction m, later using Nat.le_induction with
  | base => rfl
  | succ m hm ih =>
      have hmove : thenRest moves m = .runDeparture 0 := by
        simp [thenRest, List.getElem?_eq_none hm]
      rw [upTo, ih, hmove]
      simp [step, waiting]

/-- A run that comes to rest with nobody waiting is fair if it was until then. -/
theorem fair_thenRest {moves : List Move}
    (waiting : (upTo outboxes (thenRest moves) moves.length).waiting = [])
    (leaving : ∀ k, (upTo outboxes (thenRest moves) moves.length).stage? k ≠ some .leaving)
    (background : ∀ j < moves.length, ∀ k ∈ (upTo outboxes (thenRest moves) j).waiting,
      ∃ m ≥ j, ∃ i, thenRest moves m = .runDeparture i ∧
        (upTo outboxes (thenRest moves) m).waiting[i]? = some k)
    (registry : ∀ j < moves.length, ∀ k,
      (upTo outboxes (thenRest moves) j).stage? k = some .leaving → ∃ m ≥ j,
        thenRest moves m = .completeLeave k ∨ ∃ background, thenRest moves m = .drop k background) :
    Fair outboxes (thenRest moves) := by
  constructor
  · intro j k hk
    rcases Nat.lt_or_ge j moves.length with hj | hj
    · exact background j hj k hk
    · rw [upTo_thenRest moves waiting hj, waiting] at hk
      cases hk
  · intro j k hk
    rcases Nat.lt_or_ge j moves.length with hj | hj
    · exact registry j hj k hk
    · rw [upTo_thenRest moves waiting hj] at hk
      exact absurd hk (leaving k)

end

theorem stage?_ne_leaving {l : Ledger} (none : ∀ m ∈ l.memberships, m.stage ≠ .leaving) (k : Nat) :
    l.stage? k ≠ some .leaving := by
  intro h
  obtain ⟨m, hm, hstage⟩ := Option.map_eq_some_iff.mp h
  exact none m (List.mem_of_getElem? hm) hstage

/-- The membership is dropped, and the background executes its leave. -/
def dropped : List Move :=
  [.join "r" ⟨0, "a"⟩, .drop 0 true, .runDeparture 0]

theorem fair_dropped : Fair #[] (thenRest dropped) := by
  refine fair_thenRest rfl (stage?_ne_leaving (by decide +kernel)) ?_ ?_
  · intro j (hj : j < 3) k hk
    interval_cases j
    · cases hk
    · cases hk
    · cases List.mem_singleton.mp hk
      exact ⟨2, Nat.le_refl 2, 0, rfl, rfl⟩
  · intro j (hj : j < 3) k hk
    interval_cases j <;> exact absurd hk (stage?_ne_leaving (by decide +kernel) k)

theorem leave_runs_once_dropped :
    ∃ m, ∀ later ≥ m, (upTo #[] (thenRest dropped) later).leaves 0 = 1 := by
  refine (leave_runs_once fair_dropped 0).2.1 ?_ 2 .over rfl (by decide)
  intro n background hmove
  rcases n with _ | _ | _ | n <;> cases hmove
  exact ⟨by decide +kernel, fun _ => rfl⟩

/-- The owner is cancelled while it waits for the registry. -/
def cancelled : List Move :=
  [.join "r" ⟨0, "a"⟩, .beginLeave 0, .drop 0 true]

theorem fair_cancelled : Fair #[] (thenRest cancelled) := by
  refine fair_thenRest rfl (stage?_ne_leaving (by decide +kernel)) ?_ ?_
  · intro j (hj : j < 3) k hk
    interval_cases j <;> cases hk
  · intro j (hj : j < 3) k hk
    interval_cases j
    · exact absurd hk (stage?_ne_leaving (by decide +kernel) k)
    · exact absurd hk (stage?_ne_leaving (by decide +kernel) k)
    · match k with
      | 0 => exact ⟨2, Nat.le_refl 2, Or.inr ⟨true, rfl⟩⟩

/-- The owner lets go of the membership where there is no background. -/
def stranded : List Move :=
  [.join "r" ⟨0, "a"⟩, .drop 0 false]

theorem fair_stranded : Fair #[] (thenRest stranded) := by
  refine fair_thenRest rfl (stage?_ne_leaving (by decide +kernel)) ?_ ?_
  · intro j (hj : j < 2) k hk
    interval_cases j <;> cases hk
  · intro j (hj : j < 2) k hk
    interval_cases j <;> exact absurd hk (stage?_ne_leaving (by decide +kernel) k)

/-- However fair the runtime, not every membership that has ended has its leave executed: in both
runs the connection stays registered in its room for good. -/
theorem leave_is_lost :
    (Fair #[] (thenRest cancelled) ∧ (upTo #[] (thenRest cancelled) 3).stage? 0 = some .over ∧
      ∀ m ≥ 3, (upTo #[] (thenRest cancelled) m).leaves 0 = 0 ∧
        (upTo #[] (thenRest cancelled) m).hub.registry.holder? "r" "a" = some ⟨0, "a"⟩) ∧
    (Fair #[] (thenRest stranded) ∧ (upTo #[] (thenRest stranded) 2).stage? 0 = some .over ∧
      ∀ m ≥ 2, (upTo #[] (thenRest stranded) m).leaves 0 = 0 ∧
        (upTo #[] (thenRest stranded) m).hub.registry.holder? "r" "a" = some ⟨0, "a"⟩) := by
  refine ⟨⟨fair_cancelled, rfl, ?_⟩, ⟨fair_stranded, rfl, ?_⟩⟩
  · intro m hm
    rw [upTo_thenRest cancelled rfl hm]
    exact ⟨by decide +kernel, by decide +kernel⟩
  · intro m hm
    rw [upTo_thenRest stranded rfl hm]
    exact ⟨by decide +kernel, by decide +kernel⟩

end Ledger

end RoomRelay
