import RoomRelay.Proofs.Hub.Sending
import RoomRelay.Proofs.Room.Slots

/-!
An account of the leaves of a hub's memberships. The owner of a membership may leave and wait for
the registry, may let the membership go, and may be cancelled at any point, which lets go of
whatever it holds then; a leave that was handed to the background is executed there at some time.

Every membership goes its way through a few standings, however the moves of the others come in
between. That the account is true to the hub is an invariant of its own.
-/

namespace RoomRelay

/-- The memberships of a hub, told by the order in which they were joined, and an account of what
became of their leaves. -/
structure Ledger where
  hub : Hub := {}
  memberships : List Membership := []
  /-- Whose leaves wait in the background, in the order of the hub's departures. -/
  waiting : List Nat := []
  /-- The calls that the registry has executed and on whose behalf, the first first. -/
  calls : List (Nat × Registry.Call) := []

namespace Ledger

/-- What may happen next. A membership is let go by its owner, or because its owner is cancelled. -/
inductive Move where
  | join (room : RoomId) (c : Connection)
  | beginLeave (k : Nat)
  | completeLeave (k : Nat)
  | drop (k : Nat) (background : Bool)
  | runDeparture (i : Nat)
deriving DecidableEq, Repr

def step (l : Ledger) : Move → Ledger
  | .join room c =>
    let (hub, m) := l.hub.join room c
    { l with
      hub
      memberships := l.memberships ++ [m]
      calls := l.calls ++ [(l.memberships.length, .join room c)] }
  | .beginLeave k =>
    match l.memberships[k]? with
    | some m => { l with memberships := l.memberships.set k m.beginLeave }
    | none => l
  | .completeLeave k =>
    match l.memberships[k]? with
    | some m =>
      let (hub, changed) := m.completeLeave l.hub
      { l with
        hub
        memberships := l.memberships.set k changed
        calls :=
          if m.stage = .leaving then l.calls ++ [(k, .leave m.room m.connection)] else l.calls }
    | none => l
  | .drop k background =>
    match l.memberships[k]? with
    | some m =>
      let (hub, changed) := m.drop l.hub background
      { l with
        hub
        memberships := l.memberships.set k changed
        waiting := if m.stage = .member ∧ background then l.waiting ++ [k] else l.waiting }
    | none => l
  | .runDeparture i =>
    match l.hub.departures[i]?, l.waiting[i]? with
    | some d, some k =>
      { l with
        hub := { l.hub with departures := l.hub.departures.eraseIdx i }.depart d.1 d.2
        waiting := l.waiting.eraseIdx i
        calls := l.calls ++ [(k, .leave d.1 d.2)] }
    | _, _ => l

def isLeaveOf (k : Nat) : Nat × Registry.Call → Bool
  | (j, .leave _ _) => j == k
  | _ => false

/-- How often the registry has executed the leave of a membership. -/
def leaves (l : Ledger) (k : Nat) : Nat :=
  l.calls.countP (isLeaveOf k)

def stage? (l : Ledger) (k : Nat) : Option Stage :=
  l.memberships[k]?.map (·.stage)

def place? (l : Ledger) (k : Nat) : Option (RoomId × Connection) :=
  l.memberships[k]?.map fun m => (m.room, m.connection)

/-- How it stands with a membership and its leave. -/
inductive Standing where
  | inside
  | leaving
  | waiting
  | left
  | abandoned
deriving DecidableEq, Repr

def Standing.stage : Standing → Stage
  | .inside => .member
  | .leaving => .leaving
  | _ => .over

/-- Where a move takes a membership. -/
def Standing.next (l : Ledger) (move : Move) (k : Nat) : Standing → Standing
  | .inside =>
    match move with
    | .beginLeave j => if j = k then .leaving else .inside
    | .drop j background =>
      if j = k then if background then .waiting else .abandoned else .inside
    | _ => .inside
  | .leaving =>
    match move with
    | .completeLeave j => if j = k then .left else .leaving
    | .drop j _ => if j = k then .abandoned else .leaving
    | _ => .leaving
  | .waiting =>
    match move with
    | .runDeparture i => if l.waiting[i]? = some k then .left else .waiting
    | _ => .waiting
  | .left => .left
  | .abandoned => .abandoned

/-- The ledger has a membership in this standing. -/
structure Stands (l : Ledger) (k : Nat) (s : Standing) : Prop where
  stage : l.stage? k = some s.stage
  waiting : l.waiting.count k = if s = .waiting then 1 else 0
  leaves : l.leaves k = if s = .left then 1 else 0

/-- The account agrees with the hub: the leaves that wait are those of the memberships that wait,
the registry is what the calls made of it, and every call is about the place of its membership. -/
structure Sound (l : Ledger) : Prop where
  departures : l.waiting.map l.place? = l.hub.departures.map some
  registry : l.hub.registry = Registry.after (l.calls.map (·.2))
  own : ∀ e ∈ l.calls, ∃ p, l.place? e.1 = some p ∧ (e.2 = .join p.1 p.2 ∨ e.2 = .leave p.1 p.2)

/-! ### The parts of a step -/

/-- A membership has changed its stage. -/
def restage (l : Ledger) (k : Nat) (m : Membership) (stage : Stage) : Ledger :=
  { l with memberships := l.memberships.set k { m with stage } }

/-- The registry has executed the leave of a membership. -/
def execute (l : Ledger) (k : Nat) (p : RoomId × Connection) : Ledger :=
  { l with hub := l.hub.depart p.1 p.2, calls := l.calls ++ [(k, .leave p.1 p.2)] }

/-- The background has got the leave of a membership. -/
def handOver (l : Ledger) (k : Nat) (p : RoomId × Connection) : Ledger :=
  { l with
    hub := { l.hub with departures := l.hub.departures ++ [p] }
    waiting := l.waiting ++ [k] }

/-- The background has taken up a leave that waits. -/
def takeUp (l : Ledger) (i : Nat) : Ledger :=
  { l with
    hub := { l.hub with departures := l.hub.departures.eraseIdx i }
    waiting := l.waiting.eraseIdx i }

section

variable {l : Ledger} {k : Nat} {m : Membership}

theorem stage?_restage (found : l.memberships[k]? = some m) (stage : Stage) (j : Nat) :
    (l.restage k m stage).stage? j = if j = k then some stage else l.stage? j := by
  obtain ⟨hk, -⟩ := List.getElem?_eq_some_iff.mp found
  rcases eq_or_ne j k with rfl | hne
  · simp [stage?, restage, hk]
  · simp [stage?, restage, hne, Ne.symm hne]

theorem place?_restage (found : l.memberships[k]? = some m) (stage : Stage) :
    (l.restage k m stage).place? = l.place? := by
  obtain ⟨hk, rfl⟩ := List.getElem?_eq_some_iff.mp found
  funext j
  rcases eq_or_ne j k with rfl | hne
  · simp [place?, restage, hk]
  · simp [place?, restage, Ne.symm hne]

theorem leaves_execute (p : RoomId × Connection) (j : Nat) :
    (l.execute k p).leaves j = l.leaves j + if k = j then 1 else 0 := by
  simp [leaves, execute, List.countP_append, List.countP_singleton, isLeaveOf]

theorem waiting_handOver (p : RoomId × Connection) (j : Nat) :
    (l.handOver k p).waiting.count j = l.waiting.count j + if k = j then 1 else 0 := by
  simp [handOver, List.count_singleton]

theorem waiting_takeUp {i : Nat} (waits : l.waiting[i]? = some k) (j : Nat) :
    l.waiting.count j = (l.takeUp i).waiting.count j + if k = j then 1 else 0 := by
  obtain ⟨hi, rfl⟩ := List.getElem?_eq_some_iff.mp waits
  rw [← (List.getElem_cons_eraseIdx_perm hi).count_eq j, List.count_cons]
  simp [takeUp]

theorem step_of_none {move : Move} (none : l.memberships[k]? = none)
    (own : move = .beginLeave k ∨ move = .completeLeave k ∨ ∃ b, move = .drop k b) :
    l.step move = l := by
  rcases own with rfl | rfl | ⟨b, rfl⟩ <;> simp [step, none]

theorem step_beginLeave (found : l.memberships[k]? = some m) :
    l.step (.beginLeave k) =
      l.restage k m (if m.stage = .member then .leaving else m.stage) := by
  obtain ⟨room, c, stage⟩ := m
  cases stage <;> simp [step, found, Membership.beginLeave, restage]

theorem step_completeLeave (found : l.memberships[k]? = some m) :
    l.step (.completeLeave k) =
      if m.stage = .leaving then (l.restage k m .over).execute k (m.room, m.connection)
      else l.restage k m m.stage := by
  obtain ⟨room, c, stage⟩ := m
  cases stage <;> simp [step, found, Membership.completeLeave, restage, execute]

theorem step_drop (found : l.memberships[k]? = some m) (background : Bool) :
    l.step (.drop k background) =
      if m.stage = .member ∧ background then
        (l.restage k m .over).handOver k (m.room, m.connection)
      else l.restage k m .over := by
  obtain ⟨room, c, stage⟩ := m
  cases stage <;> cases background <;>
    simp [step, found, Membership.drop, restage, handOver]

theorem step_runDeparture {i : Nat} {d : RoomId × Connection}
    (departs : l.hub.departures[i]? = some d) (waits : l.waiting[i]? = some k) :
    l.step (.runDeparture i) = (l.takeUp i).execute k d := by
  simp [step, departs, waits, takeUp, execute]

/-! ### The account stays sound -/

theorem after_append_singleton (calls : List Registry.Call) (call : Registry.Call) :
    Registry.after (calls ++ [call]) = (Registry.after calls).call call := by
  simp [Registry.after]

theorem Sound.restage (h : l.Sound) (found : l.memberships[k]? = some m) (stage : Stage) :
    (l.restage k m stage).Sound := by
  have hplace := place?_restage found stage
  exact ⟨by rw [hplace]; exact h.departures, h.registry, by rw [hplace]; exact h.own⟩

theorem Sound.execute (h : l.Sound) {p : RoomId × Connection} (place : l.place? k = some p) :
    (l.execute k p).Sound := by
  have halike := Hub.alike_depart l.hub p.1 p.2
  refine ⟨?_, ?_, ?_⟩
  · change l.waiting.map l.place? = (l.hub.depart p.1 p.2).departures.map some
    rw [halike.departures, h.departures]
  · change (l.hub.depart p.1 p.2).registry = _
    rw [halike.registry, h.registry]
    simp only [Ledger.execute, List.map_append, List.map_singleton, after_append_singleton]
    rfl
  · intro e he
    rcases List.mem_append.mp he with hold | hlast
    · exact h.own e hold
    · cases List.mem_singleton.mp hlast
      exact ⟨p, place, Or.inr rfl⟩

theorem Sound.handOver (h : l.Sound) {p : RoomId × Connection} (place : l.place? k = some p) :
    (l.handOver k p).Sound := by
  refine ⟨?_, h.registry, h.own⟩
  change (l.waiting ++ [k]).map l.place? = (l.hub.departures ++ [p]).map some
  rw [List.map_append, List.map_append, h.departures, List.map_singleton, List.map_singleton, place]

theorem Sound.takeUp (h : l.Sound) (i : Nat) : (l.takeUp i).Sound := by
  refine ⟨?_, h.registry, h.own⟩
  change (l.waiting.eraseIdx i).map l.place? = (l.hub.departures.eraseIdx i).map some
  rw [← List.eraseIdx_map, ← List.eraseIdx_map, h.departures]

/-- Whoever waits, waits with the leave of its own place. -/
theorem Sound.exists_departure (h : l.Sound) {i : Nat} (waits : l.waiting[i]? = some k) :
    ∃ d, l.hub.departures[i]? = some d ∧ l.place? k = some d := by
  have hboth := congrArg (·[i]?) h.departures
  simp only [List.getElem?_map, waits, Option.map_some] at hboth
  obtain ⟨d, hd, hplace⟩ := Option.map_eq_some_iff.mp hboth.symm
  exact ⟨d, hd, hplace.symm⟩

theorem place?_of_found (found : l.memberships[k]? = some m) :
    l.place? k = some (m.room, m.connection) := by
  simp [place?, found]

theorem sound_runDeparture (h : l.Sound) (i : Nat) : (l.step (.runDeparture i)).Sound := by
  cases hwaits : l.waiting[i]? with
  | none => simpa [step, hwaits] using h
  | some k =>
      obtain ⟨d, hd, hplace⟩ := h.exists_departure hwaits
      rw [step_runDeparture hd hwaits]
      exact (h.takeUp i).execute hplace

theorem sound_join (h : l.Sound) (room : RoomId) (c : Connection) :
    (l.step (.join room c)).Sound := by
  have halike := Hub.alike_join l.hub room c
  have hplace {j : Nat} {p : RoomId × Connection} (hj : l.place? j = some p) :
      (l.step (.join room c)).place? j = some p := by
    obtain ⟨m, hm, hp⟩ := Option.map_eq_some_iff.mp hj
    obtain ⟨hlength, -⟩ := List.getElem?_eq_some_iff.mp hm
    simp [place?, step, List.getElem?_append_left hlength, hm, hp]
  refine ⟨?_, ?_, ?_⟩
  · change l.waiting.map _ = (l.hub.join room c).1.departures.map some
    rw [halike.departures, ← h.departures]
    apply List.map_congr_left
    intro j hj
    obtain ⟨i, hi⟩ := List.getElem?_of_mem hj
    obtain ⟨d, -, hd⟩ := h.exists_departure hi
    rw [hd, hplace hd]
  · change (l.hub.join room c).1.registry = _
    rw [halike.registry, h.registry]
    simp only [step, List.map_append, List.map_singleton, after_append_singleton]
    rfl
  · intro e he
    rcases List.mem_append.mp he with hold | hlast
    · obtain ⟨p, hp, hcall⟩ := h.own e hold
      exact ⟨p, hplace hp, hcall⟩
    · cases List.mem_singleton.mp hlast
      exact ⟨(room, c), by simp [place?, step, Hub.join], Or.inl rfl⟩

theorem sound_step (h : l.Sound) (move : Move) : (l.step move).Sound := by
  cases move with
  | join room c => exact sound_join h room c
  | runDeparture i => exact sound_runDeparture h i
  | beginLeave k =>
      cases found : l.memberships[k]? with
      | none => rwa [step_of_none found (Or.inl rfl)]
      | some m =>
          rw [step_beginLeave found]
          exact h.restage found _
  | completeLeave k =>
      cases found : l.memberships[k]? with
      | none => rwa [step_of_none found (Or.inr (Or.inl rfl))]
      | some m =>
          rw [step_completeLeave found]
          split
          · refine (h.restage found _).execute ?_
            rw [place?_restage found, place?_of_found found]
          · exact h.restage found _
  | drop k background =>
      cases found : l.memberships[k]? with
      | none => rwa [step_of_none found (Or.inr (Or.inr ⟨background, rfl⟩))]
      | some m =>
          rw [step_drop found]
          split
          · refine (h.restage found _).handOver ?_
            rw [place?_restage found, place?_of_found found]
          · exact h.restage found _

/-! ### The way of one membership -/

theorem Stands.stage_eq {s : Standing} (h : l.Stands k s) (found : l.memberships[k]? = some m) :
    m.stage = s.stage := by
  have hstage := h.stage
  simpa [stage?, found] using hstage

theorem Stands.exists_found {s : Standing} (h : l.Stands k s) :
    ∃ m, l.memberships[k]? = some m := by
  obtain ⟨m, hm, -⟩ := Option.map_eq_some_iff.mp h.stage
  exact ⟨m, hm⟩

theorem Stands.unique {s t : Standing} (h : l.Stands k s) (h' : l.Stands k t) : s = t := by
  have hstage := h.stage.symm.trans h'.stage
  have hwaiting := h.waiting.symm.trans h'.waiting
  have hleaves := h.leaves.symm.trans h'.leaves
  cases s <;> cases t <;> simp [Standing.stage] at hstage hwaiting hleaves ⊢

theorem Stands.restage {s : Standing} (h : l.Stands k s) (found : l.memberships[k]? = some m)
    (t : Standing) (waiting : t = .waiting ↔ s = .waiting) (left : t = .left ↔ s = .left) :
    (l.restage k m t.stage).Stands k t where
  stage := (stage?_restage found t.stage k).trans (if_pos rfl)
  waiting := h.waiting.trans (by simp only [waiting])
  leaves := h.leaves.trans (by simp only [left])

-- A step is made of parts, and between two of them nobody takes care of the leave: the membership
-- is over, and its leave is neither in the background nor executed. So the parts meet at
-- `abandoned`.

theorem Stands.execute (h : l.Stands k .abandoned) (p : RoomId × Connection) :
    (l.execute k p).Stands k .left where
  stage := h.stage
  waiting := h.waiting
  leaves := by simp [leaves_execute, h.leaves]

theorem Stands.handOver (h : l.Stands k .abandoned) (p : RoomId × Connection) :
    (l.handOver k p).Stands k .waiting where
  stage := h.stage
  waiting := by simp [waiting_handOver, h.waiting]
  leaves := h.leaves

theorem Stands.takeUp (h : l.Stands k .waiting) {i : Nat} (waits : l.waiting[i]? = some k) :
    (l.takeUp i).Stands k .abandoned where
  stage := h.stage
  waiting := by
    have hcount := waiting_takeUp waits k
    rw [h.waiting, if_pos rfl, if_pos rfl] at hcount
    exact (Nat.succ.inj hcount).symm
  leaves := h.leaves

/-- Whoever has a leave in the background waits. -/
theorem Stands.eq_waiting {s : Standing} (h : l.Stands k s) {i : Nat}
    (waits : l.waiting[i]? = some k) : s = .waiting := by
  have hpos : 0 < l.waiting.count k := List.count_pos_iff.mpr (List.mem_of_getElem? waits)
  rw [h.waiting] at hpos
  by_contra hne
  simp [hne] at hpos

theorem stands_join {s : Standing} (h : l.Stands k s) (room : RoomId) (c : Connection) :
    (l.step (.join room c)).Stands k s := by
  obtain ⟨m, hm⟩ := h.exists_found
  obtain ⟨hlength, -⟩ := List.getElem?_eq_some_iff.mp hm
  refine ⟨Eq.trans ?_ h.stage, h.waiting, Eq.trans ?_ h.leaves⟩
  · simp [stage?, step, List.getElem?_append_left hlength]
  · simp [Ledger.leaves, step, List.countP_append, isLeaveOf]

/-- There are no leaves of a membership that is yet to be joined. -/
theorem Sound.fresh (sound : l.Sound) (fresh : l.place? k = none) :
    l.waiting.count k = 0 ∧ l.leaves k = 0 := by
  constructor
  · apply List.count_eq_zero.mpr
    intro hmem
    obtain ⟨i, hi⟩ := List.getElem?_of_mem hmem
    obtain ⟨d, -, hd⟩ := sound.exists_departure hi
    rw [fresh] at hd
    cases hd
  · apply List.countP_eq_zero.mpr
    rintro ⟨j, call⟩ he hleave
    obtain ⟨p, hp, -⟩ := sound.own _ he
    cases call with
    | join room c => cases hleave
    | leave room c =>
        have hj : j = k := by simpa [isLeaveOf] using hleave
        rw [hj, fresh] at hp
        cases hp

/-- A membership that was just joined. -/
theorem stands_joined (sound : l.Sound) (room : RoomId) (c : Connection) :
    (l.step (.join room c)).Stands l.memberships.length .inside := by
  obtain ⟨hwaiting, hleaves⟩ := sound.fresh (k := l.memberships.length) (by simp [place?])
  refine ⟨by simp [stage?, step, Hub.join, Standing.stage], hwaiting, Eq.trans ?_ hleaves⟩
  simp [Ledger.leaves, step, List.countP_append, isLeaveOf]

/-- The move of an owner does nothing to other memberships. -/
theorem stands_other {s : Standing} (h : l.Stands k s) {j : Nat} (hne : k ≠ j) {move : Move}
    (own : move = .beginLeave j ∨ move = .completeLeave j ∨ ∃ b, move = .drop j b) :
    (l.step move).Stands k (s.next l move k) := by
  have hnext : s.next l move k = s := by
    rcases own with rfl | rfl | ⟨b, rfl⟩ <;> cases s <;> simp [Standing.next, Ne.symm hne]
  rw [hnext]
  cases found : l.memberships[j]? with
  | none => rwa [step_of_none found own]
  | some m =>
      have hstage (stage : Stage) : (l.restage j m stage).Stands k s :=
        ⟨(stage?_restage found stage k).trans ((if_neg hne).trans h.stage), h.waiting, h.leaves⟩
      rcases own with rfl | rfl | ⟨b, rfl⟩
      · rw [step_beginLeave found]
        exact hstage _
      · rw [step_completeLeave found]
        split
        · refine ⟨(hstage .over).stage, h.waiting, ?_⟩
          rw [leaves_execute, if_neg (Ne.symm hne)]
          exact h.leaves
        · exact hstage _
      · rw [step_drop found]
        split
        · refine ⟨(hstage .over).stage, ?_, h.leaves⟩
          rw [waiting_handOver, if_neg (Ne.symm hne)]
          exact h.waiting
        · exact hstage _

theorem stands_beginLeave {s : Standing} (h : l.Stands k s) (j : Nat) :
    (l.step (.beginLeave j)).Stands k (s.next l (.beginLeave j) k) := by
  rcases eq_or_ne k j with rfl | hne
  · obtain ⟨m, found⟩ := h.exists_found
    rw [step_beginLeave found, h.stage_eq found]
    cases s with
    | inside =>
        have hleaving := h.restage found .leaving (by simp) (by simp)
        simpa [Standing.next, Standing.stage] using hleaving
    | _ => exact h.restage found _ Iff.rfl Iff.rfl
  · exact stands_other h hne (Or.inl rfl)

theorem stands_completeLeave {s : Standing} (h : l.Stands k s) (j : Nat) :
    (l.step (.completeLeave j)).Stands k (s.next l (.completeLeave j) k) := by
  rcases eq_or_ne k j with rfl | hne
  · obtain ⟨m, found⟩ := h.exists_found
    rw [step_completeLeave found, h.stage_eq found]
    cases s with
    | leaving =>
        have hover := h.restage found .abandoned (by simp) (by simp)
        simpa [Standing.next, Standing.stage] using hover.execute _
    | _ => exact h.restage found _ Iff.rfl Iff.rfl
  · exact stands_other h hne (Or.inr (Or.inl rfl))

theorem stands_drop {s : Standing} (h : l.Stands k s) (j : Nat) (background : Bool) :
    (l.step (.drop j background)).Stands k (s.next l (.drop j background) k) := by
  rcases eq_or_ne k j with rfl | hne
  · obtain ⟨m, found⟩ := h.exists_found
    rw [step_drop found, h.stage_eq found]
    cases s with
    | inside =>
        have hover := h.restage found .abandoned (by simp) (by simp)
        cases background with
        | true => simpa [Standing.next, Standing.stage] using hover.handOver _
        | false => simpa [Standing.next, Standing.stage] using hover
    | leaving =>
        have hover := h.restage found .abandoned (by simp) (by simp)
        simpa [Standing.next, Standing.stage] using hover
    | _ => exact h.restage found _ Iff.rfl Iff.rfl
  · exact stands_other h hne (Or.inr (Or.inr ⟨background, rfl⟩))

theorem stands_runDeparture (sound : l.Sound) {s : Standing} (h : l.Stands k s) (i : Nat) :
    (l.step (.runDeparture i)).Stands k (s.next l (.runDeparture i) k) := by
  cases hwaits : l.waiting[i]? with
  | none =>
      have hstep : l.step (.runDeparture i) = l := by simp [step, hwaits]
      rw [hstep]
      cases s <;> simpa [Standing.next, hwaits] using h
  | some j =>
      obtain ⟨d, hd, -⟩ := sound.exists_departure hwaits
      rw [step_runDeparture hd hwaits]
      rcases eq_or_ne j k with rfl | hne
      · cases h.eq_waiting hwaits
        simpa [Standing.next, hwaits] using (h.takeUp hwaits).execute d
      · have hnext : s.next l (.runDeparture i) k = s := by
          cases s <;> simp [Standing.next, hwaits, hne]
        have hcount := waiting_takeUp hwaits k
        rw [if_neg hne, h.waiting] at hcount
        rw [hnext]
        refine ⟨h.stage, hcount.symm, ?_⟩
        rw [leaves_execute, if_neg hne]
        exact h.leaves

/-- A step takes every membership where the move takes it. -/
theorem stands_step (sound : l.Sound) {s : Standing} (h : l.Stands k s) (move : Move) :
    (l.step move).Stands k (s.next l move k) := by
  cases move with
  | join room c =>
      have hnext : s.next l (.join room c) k = s := by cases s <;> rfl
      rw [hnext]
      exact stands_join h room c
  | beginLeave j => exact stands_beginLeave h j
  | completeLeave j => exact stands_completeLeave h j
  | drop j background => exact stands_drop h j background
  | runDeparture i => exact stands_runDeparture sound h i

end

end Ledger

end RoomRelay
