import RoomRelay.Proofs.Hub.Agreement
import RoomRelay.Proofs.Hub.Authorization
import RoomRelay.Proofs.Hub.World

/-!
What a delay changes and what it does not. A relay answers as it would without a delay, and what is
to be sent, and to whom, is fixed when it is made. Only the attempts to send it come later, at the
time that was fixed with it, whatever has become of its targets; and they come in the order of the
relays. Lists of members and requests to close are not held back. So, unless an outbox is touched
otherwise while something is held back, all outboxes come to the same as without a delay as soon as
nothing is held back any more.

A delay longer than thirty years counts as one of thirty years.
-/

namespace RoomRelay

/-- The outbox after one attempt for each of these deliveries. -/
def Outbox.postEach (q : Outbox) (ds : List Delivery) : Outbox :=
  ds.foldl (fun q d => q.post d.frame) q

theorem Outbox.postEach_append (q : Outbox) (ds es : List Delivery) :
    q.postEach (ds ++ es) = (q.postEach ds).postEach es := List.foldl_append

theorem Outbox.postEach_filter_cons (q : Outbox) (test : Delivery → Bool) (d : Delivery)
    (ds : List Delivery) :
    q.postEach ((d :: ds).filter test) =
      (if test d then q.post d.frame else q).postEach (ds.filter test) := by
  rw [List.filter_cons]
  split <;> rfl

/-- In a list that is sorted by time, what is due comes before what is not. -/
theorem Delivery.filter_due_append {ds : List Delivery} (sorted : ds.Pairwise (·.due ≤ ·.due))
    (time : Nat) :
    (ds.filter (·.due ≤ time)) ++ ds.filter (time < ·.due) = ds := by
  induction ds with
  | nil => rfl
  | cons d rest ih =>
      obtain ⟨hfirst, hrest⟩ := List.pairwise_cons.mp sorted
      rcases Nat.lt_or_ge time d.due with hlater | hdue
      · have hall : ∀ e ∈ d :: rest, time < e.due := by
          intro e he
          rcases List.mem_cons.mp he with rfl | hmem
          · exact hlater
          · exact Nat.lt_of_lt_of_le hlater (hfirst e hmem)
        have hnone : (d :: rest).filter (·.due ≤ time) = [] := by
          rw [List.filter_eq_nil_iff]
          intro e he
          simpa using hall e he
        have hsame : (d :: rest).filter (time < ·.due) = d :: rest := by
          rw [List.filter_eq_self]
          intro e he
          simpa using hall e he
        rw [hnone, hsame, List.nil_append]
      · have hnot : ¬ time < d.due := Nat.not_lt_of_le hdue
        rw [List.filter_cons_of_pos (by simpa using hdue),
          List.filter_cons_of_neg (by simpa using hnot), List.cons_append, ih hrest]

namespace Hub

/-- What may happen. A join and a leave are taken apart, and the members may be told at any time
after. An outbox may be touched by its receiving end, or by a handle that sends or closes by
itself. -/
inductive Action where
  | enter (room : RoomId) (c : Connection)
  | exit (room : RoomId) (c : Connection)
  | announce (notice : Notice)
  | relay (room : RoomId) (c : Connection) (u : Uplink)
  | touch (c : Connection) (change : Outbox → Outbox)
  | advance (milliseconds : Nat)

def touch (h : Hub) (c : Connection) (change : Outbox → Outbox) : Hub :=
  h.setOutbox c (change (h.outbox c))

def step (h : Hub) : Action → Hub
  | .enter room c => (h.enter room c).1
  | .exit room c => (h.exit room c).1
  | .announce notice => notice.announce h
  | .relay room c u => (h.relay room c u).1
  | .touch c change => h.touch c change
  | .advance milliseconds => h.advance milliseconds

def run (h : Hub) (actions : List Action) : Hub :=
  actions.foldl step h

/-- Nobody is in any room yet. -/
def opening (outboxes : Array Outbox) (delay : Nat) : Hub := { outboxes, delay }

/-- The calls on the registry. -/
def Action.calls : Action → List Registry.Call
  | .enter room c => [.join room c]
  | .exit room c => [.leave room c]
  | _ => []

/-- What a relay that succeeds is to deliver. -/
def makes (h : Hub) : Action → List Delivery
  | .relay room c u =>
    match (u.relayed c.peer).encode, h.registry.members? room with
    | .ok frame, some ms =>
      if ms.isHeldBy c then [⟨h.nextDue, c.peer, resolve ms c.peer u.targets, frame⟩] else []
    | _, _ => []
  | _ => []

/-- All that is to be delivered because of a run, in the order of the relays. -/
def scheduled (h : Hub) : List Action → List Delivery
  | [] => []
  | a :: rest => h.makes a ++ (h.step a).scheduled rest

theorem scheduled_append (h : Hub) (as bs : List Action) :
    h.scheduled (as ++ bs) = h.scheduled as ++ (h.run as).scheduled bs := by
  induction as generalizing h with
  | nil => rfl
  | cons a rest ih =>
      rw [List.cons_append, scheduled, scheduled, ih, List.append_assoc]
      rfl

/-! ### Relays -/

/-- A delivery is dispatched with the time of this state, once the relay has been reported. -/
def forward (h : Hub) (room : RoomId) (u : Uplink) (d : Delivery) : Hub :=
  (h.record (.relaying d.sender room u.action d.frame.isBinary d.targets.length)).dispatch
    { d with due := h.nextDue }

/-- What becomes of a relay, in any state with the same registry. -/
inductive Outcome (h : Hub) (room : RoomId) (c : Connection) (u : Uplink) : Prop where
  | passes (d : Delivery) (ms : Members) (makes : h.makes (.relay room c u) = [d])
    (due : d.due = h.nextDue) (sender : d.sender = c.peer)
    (encodes : (u.relayed c.peer).encode = .ok d.frame)
    (members : h.registry.members? room = some ms)
    (targets : d.targets = resolve ms c.peer u.targets)
    (relays : ∀ k : Hub, k.registry = h.registry →
      k.relay room c u = (k.forward room u d, .ok d.targets.length))
  | fails (e : RelayError) (makes : h.makes (.relay room c u) = [])
    (relays : ∀ k : Hub, k.registry = h.registry →
      k.relay room c u = (e.request?.elim k (k.close c), .error e))

theorem outcome_relay (h : Hub) (room : RoomId) (c : Connection) (u : Uplink) :
    h.Outcome room c u := by
  cases hencode : (u.relayed c.peer).encode with
  | error e =>
      refine .fails (.codec e) (by simp only [makes, hencode]) ?_
      intro k _
      simp only [relay, hencode, RelayError.request?, Option.elim_none]
  | ok frame =>
      cases hms : h.registry.members? room with
      | none =>
          refine .fails (.roomNotFound room) (by simp only [makes, hencode, hms]) ?_
          intro k hk
          simp only [relay, hencode, hk, hms]
          rfl
      | some ms =>
          cases hheld : ms.isHeldBy c with
          | false =>
              refine .fails (.staleSession room c.peer)
                (by simp [makes, hencode, hms, hheld]) ?_
              intro k hk
              simp only [relay, hencode, hk, hms, hheld, Bool.false_eq_true, if_false]
              rfl
          | true =>
              refine .passes ⟨h.nextDue, c.peer, resolve ms c.peer u.targets, frame⟩ ms
                (by simp [makes, hencode, hms, hheld]) rfl rfl hencode hms rfl ?_
              intro k hk
              simp only [relay, hencode, hk, hms, hheld, if_true]
              rfl

/-- What an action adds is for members that a relay has resolved. -/
theorem of_mem_makes {h : Hub} {a : Action} {d : Delivery} (hd : d ∈ h.makes a) :
    d.due = h.nextDue ∧ ∃ room ms sender targets,
      h.registry.members? room = some ms ∧ d.targets = resolve ms sender targets := by
  cases a with
  | relay room c u =>
      cases h.outcome_relay room c u with
      | fails e makes _ =>
          rw [makes] at hd
          cases hd
      | passes d' ms makes due _ _ members targets _ =>
          rw [makes] at hd
          obtain rfl := List.mem_singleton.mp hd
          exact ⟨due, room, ms, c.peer, u.targets, members, targets⟩
  | _ => cases hd

/-! ### Time -/

def Action.elapsed : Action → Nat
  | .advance milliseconds => milliseconds
  | _ => 0

/-- Nothing moves the clock but the passing of time; the delay and the outboxes stay as many. -/
theorem clock_step (h : Hub) (a : Action) :
    (h.step a).now = h.now + a.elapsed ∧ (h.step a).delay = h.delay ∧
      (h.step a).outboxes.size = h.outboxes.size := by
  have hsame {k : Hub} (halike : h.Alike k) :
      k.now = h.now ∧ k.delay = h.delay ∧ k.outboxes.size = h.outboxes.size :=
    ⟨halike.now, halike.delay, halike.size⟩
  cases a with
  | enter room c => exact ⟨rfl, rfl, rfl⟩
  | exit room c => exact ⟨rfl, rfl, rfl⟩
  | announce notice => exact hsame (notice.alike_announce h)
  | touch c change => exact hsame (alike_setOutbox h c _)
  | relay room c u =>
      have hrelay : (h.step (.relay room c u)) = (h.relay room c u).1 := rfl
      rw [hrelay]
      cases h.outcome_relay room c u with
      | fails e _ relays =>
          rw [relays h rfl]
          cases e.request? with
          | none => exact ⟨rfl, rfl, rfl⟩
          | some request => exact hsame (alike_close h c request true)
      | passes d ms _ _ _ _ _ _ relays =>
          rw [relays h rfl, forward, dispatch]
          split
          · exact hsame ((alike_record h _).trans (alike_deliver _ _))
          · exact ⟨rfl, rfl, rfl⟩
  | advance milliseconds =>
      have hadvance : h.step (.advance milliseconds) =
          (h.dueBy (h.now + milliseconds)).foldl deliver (h.later (h.now + milliseconds)) :=
        advance_eq h milliseconds
      have halike := alike_foldl_deliver (h.later (h.now + milliseconds))
        (h.dueBy (h.now + milliseconds))
      rw [hadvance]
      exact ⟨halike.now, halike.delay, halike.size⟩

theorem now_lt_nextDue {h : Hub} (held : 0 < h.delay) : h.now < h.nextDue := by
  have hhold : 0 < min h.delay longestHold := Nat.lt_min.mpr ⟨held, by decide⟩
  rw [nextDue]
  omega

theorem forward_of_held {h : Hub} {d : Delivery} (held : 0 < h.delay) (due : d.due = h.nextDue)
    (room : RoomId) (u : Uplink) :
    h.forward room u d =
      { h.record (.relaying d.sender room u.action d.frame.isBinary d.targets.length) with
        deliveries := h.deliveries ++ [d] } := by
  rw [forward, dispatch, if_neg, ← due]
  · rfl
  · exact Nat.ne_of_gt held

theorem forward_of_immediate {h : Hub} (immediate : h.delay = 0) (room : RoomId) (u : Uplink)
    (d : Delivery) :
    h.forward room u d =
      (h.record (.relaying d.sender room u.action d.frame.isBinary d.targets.length)).deliver
        { d with due := h.nextDue } := by
  rw [forward, dispatch, if_pos]
  exact immediate

theorem deliveries_of_fails {h : Hub} {room : RoomId} {c : Connection} {u : Uplink}
    {e : RelayError} (relays : h.relay room c u = (e.request?.elim h (h.close c), .error e)) :
    (h.relay room c u).1.deliveries = h.deliveries := by
  rw [relays]
  cases e.request? <;> rfl

/-- A relay adds what it is to deliver, and with time what has become due is no longer held back. -/
theorem deliveries_step {h : Hub} (held : 0 < h.delay)
    (waiting : ∀ d ∈ h.deliveries, h.now < d.due) (a : Action) :
    (h.step a).deliveries = (h.deliveries ++ h.makes a).filter ((h.step a).now < ·.due) := by
  have hall {ds : List Delivery} (hds : ∀ d ∈ ds, h.now < d.due) :
      ds.filter (h.now < ·.due) = ds := by
    rw [List.filter_eq_self]
    intro d hd
    simpa using hds d hd
  have hidle {b : Action} (makes : h.makes b = []) (time : b.elapsed = 0)
      (same : (h.step b).deliveries = h.deliveries) :
      (h.step b).deliveries = (h.deliveries ++ h.makes b).filter ((h.step b).now < ·.due) := by
    rw [makes, List.append_nil, (h.clock_step b).1, time, Nat.add_zero, hall waiting, same]
  cases a with
  | enter room c => exact hidle rfl rfl rfl
  | exit room c => exact hidle rfl rfl rfl
  | announce notice => exact hidle rfl rfl (notice.alike_announce h).deliveries
  | touch c change => exact hidle rfl rfl rfl
  | relay room c u =>
      cases h.outcome_relay room c u with
      | fails e makes relays => exact hidle makes rfl (deliveries_of_fails (relays h rfl))
      | passes d ms makes due _ _ _ _ relays =>
          have hlast : ∀ d' ∈ h.deliveries ++ [d], h.now < d'.due := by
            intro d' hd'
            rcases List.mem_append.mp hd' with hbefore | hnew
            · exact waiting d' hbefore
            · rw [List.mem_singleton.mp hnew, due]
              exact now_lt_nextDue held
          have hrelay : (h.step (.relay room c u)).deliveries = h.deliveries ++ [d] := by
            rw [step, relays h rfl, forward_of_held held due]
          rw [makes, (h.clock_step _).1, hrelay]
          exact (hall hlast).symm
  | advance milliseconds =>
      have hmakes : h.makes (.advance milliseconds) = [] := rfl
      have hlater : (h.step (.advance milliseconds)).deliveries =
          (h.later (h.now + milliseconds)).deliveries := by
        rw [step, advance_eq]
        exact (alike_foldl_deliver _ _).deliveries
      rw [hlater, hmakes, List.append_nil, (h.clock_step _).1, later]
      apply List.filter_congr
      intro d _
      rw [← decide_not, decide_eq_decide, Nat.not_le]
      rfl

/-- What is held back is what has been scheduled and is not due yet, and it is in order. -/
structure Keeps (h : Hub) (ds : List Delivery) : Prop where
  pending : h.deliveries = ds.filter (h.now < ·.due)
  sorted : ds.Pairwise (·.due ≤ ·.due)
  bounded : ∀ d ∈ ds, d.due ≤ h.nextDue

theorem makes_sorted (h : Hub) (a : Action) : (h.makes a).Pairwise (·.due ≤ ·.due) := by
  refine List.pairwise_of_forall_mem_list ?_
  intro d hd e he
  rw [(of_mem_makes hd).1, (of_mem_makes he).1]

namespace Keeps

variable {h : Hub} {ds : List Delivery}

theorem waiting (keeps : h.Keeps ds) : ∀ d ∈ h.deliveries, h.now < d.due := by
  intro d hd
  rw [keeps.pending] at hd
  simpa using (List.mem_filter.mp hd).2

theorem step (keeps : h.Keeps ds) (held : 0 < h.delay) (a : Action) :
    (h.step a).Keeps (ds ++ h.makes a) := by
  obtain ⟨hnow, hdelay, -⟩ := h.clock_step a
  have hmonotone : h.nextDue ≤ (h.step a).nextDue := by
    rw [nextDue, nextDue, hnow, hdelay]
    omega
  refine ⟨?_, ?_, ?_⟩
  · rw [deliveries_step held keeps.waiting, List.filter_append, List.filter_append, keeps.pending,
      List.filter_filter]
    congr 1
    apply List.filter_congr
    intro d _
    rw [hnow, ← Bool.decide_and, decide_eq_decide]
    omega
  · refine List.pairwise_append.mpr ⟨keeps.sorted, h.makes_sorted a, ?_⟩
    intro d hd e he
    rw [(of_mem_makes he).1]
    exact keeps.bounded d hd
  · intro d hd
    refine Nat.le_trans ?_ hmonotone
    rcases List.mem_append.mp hd with hbefore | hnew
    · exact keeps.bounded d hbefore
    · exact Nat.le_of_eq (of_mem_makes hnew).1

theorem run (keeps : h.Keeps ds) (held : 0 < h.delay) (actions : List Action) :
    (h.run actions).Keeps (ds ++ h.scheduled actions) := by
  induction actions generalizing h ds with
  | nil =>
      rw [scheduled, List.append_nil]
      exact keeps
  | cons a rest ih =>
      have hdelay := (h.clock_step a).2.1
      rw [scheduled, ← List.append_assoc]
      exact ih (keeps.step held a) (hdelay ▸ held)

end Keeps

/-! ### Deliveries -/

/-- Every target of the delivery is told apart from the others by its number. -/
def Apart (d : Delivery) : Prop :=
  (d.targets.map (·.number)).Nodup

theorem outbox_deliver (h : Hub) {d : Delivery} (apart : Apart d) (c : Connection) :
    (h.deliver d).outbox c =
      if d.isFor c.number then (h.outbox c).post d.frame else h.outbox c := by
  have hfor : d.isFor c.number = true ↔ c.number ∈ d.targets.map (·.number) := by
    simp [Delivery.isFor]
  rw [deliver, outbox_sendEach h d.frame (.frameNotSent d.sender) apart c]
  simp only [hfor]

theorem outbox_forward {h : Hub} (immediate : h.delay = 0) {d : Delivery} (apart : Apart d)
    (room : RoomId) (u : Uplink) (c : Connection) :
    (h.forward room u d).outbox c =
      if d.isFor c.number then (h.outbox c).post d.frame else h.outbox c := by
  rw [forward_of_immediate immediate]
  exact outbox_deliver (h.record _) (d := { d with due := h.nextDue }) apart c

theorem outbox_foldl_deliver {ds : List Delivery} (apart : ∀ d ∈ ds, Apart d) (h : Hub)
    (c : Connection) :
    (ds.foldl deliver h).outbox c = (h.outbox c).postEach (ds.filter (·.isFor c.number)) := by
  induction ds generalizing h with
  | nil => rfl
  | cons d rest ih =>
      rw [Outbox.postEach_filter_cons, ← outbox_deliver h (apart d List.mem_cons_self)]
      exact ih (fun e he => apart e (List.mem_cons_of_mem d he)) (h.deliver d)

/-- The outbox of a connection once all that is held back for it has been delivered. -/
def owed (h : Hub) (c : Connection) : Outbox :=
  (h.outbox c).postEach (h.deliveries.filter (·.isFor c.number))

theorem owed_of_nothing {h : Hub} (nothing : h.deliveries = []) (c : Connection) :
    h.owed c = h.outbox c := by
  rw [owed, nothing]
  rfl

/-- What is held back now is owed from now on. -/
theorem owed_forward {h : Hub} {d : Delivery} (held : 0 < h.delay) (due : d.due = h.nextDue)
    (room : RoomId) (u : Uplink) (c : Connection) :
    (h.forward room u d).owed c =
      if d.isFor c.number then (h.owed c).post d.frame else h.owed c := by
  rw [forward_of_held held due, owed, List.filter_append, Outbox.postEach_append,
    Outbox.postEach_filter_cons]
  rfl

/-- With time no more and no less is owed. -/
theorem Keeps.owed_advance {h : Hub} {ds : List Delivery} (keeps : h.Keeps ds) (held : 0 < h.delay)
    (apart : ∀ d ∈ ds, Apart d) (milliseconds : Nat) (c : Connection) :
    (h.advance milliseconds).owed c = h.owed c := by
  have hapart : ∀ d ∈ h.dueBy (h.now + milliseconds), Apart d := by
    intro d hd
    rw [dueBy, keeps.pending] at hd
    exact apart d (List.mem_of_mem_filter (List.mem_of_mem_filter hd))
  have hsorted : h.deliveries.Pairwise (·.due ≤ ·.due) := by
    rw [keeps.pending]
    exact keeps.sorted.filter _
  have houtbox : (h.advance milliseconds).outbox c =
      (h.outbox c).postEach ((h.dueBy (h.now + milliseconds)).filter (·.isFor c.number)) := by
    rw [advance_eq]
    exact outbox_foldl_deliver hapart _ c
  have hleft : (h.advance milliseconds).deliveries =
      h.deliveries.filter (h.now + milliseconds < ·.due) := by
    have hstep := deliveries_step held keeps.waiting (.advance milliseconds)
    rw [(h.clock_step _).1] at hstep
    exact hstep.trans (congrArg (List.filter _) (List.append_nil _))
  rw [owed, owed, houtbox, hleft, ← Outbox.postEach_append, ← List.filter_append, dueBy,
    Delivery.filter_due_append hsorted]

theorem deliver_later (h : Hub) (time : Nat) (d : Delivery) :
    (h.later time).deliver d = (h.deliver d).later time := by
  have hattempt (g : Hub) (c : Connection) :
      (g.later time).attempt d.frame (.frameNotSent d.sender) c =
        (g.attempt d.frame (.frameNotSent d.sender) c).later time := by
    rw [attempt_eq, attempt_eq]
    have hsame : (g.later time).outbox c = g.outbox c := rfl
    rw [hsame]
    split <;> rfl
  have heach (g : Hub) (cs : List Connection) :
      (g.later time).sendEach d.frame (.frameNotSent d.sender) cs =
        (g.sendEach d.frame (.frameNotSent d.sender) cs).later time := by
    induction cs generalizing g with
    | nil => rfl
    | cons c rest ih =>
        change ((g.later time).attempt d.frame (.frameNotSent d.sender) c).sendEach _ _ rest = _
        rw [hattempt]
        exact ih (g.attempt d.frame (.frameNotSent d.sender) c)
  exact heach h d.targets

theorem foldl_deliver_later (h : Hub) (time : Nat) (ds : List Delivery) :
    ds.foldl deliver (h.later time) = (ds.foldl deliver h).later time := by
  induction ds generalizing h with
  | nil => rfl
  | cons d rest ih =>
      rw [List.foldl_cons, List.foldl_cons, deliver_later]
      exact ih (h.deliver d)

theorem later_later (h : Hub) {first last : Nat} (ordered : first ≤ last) :
    (h.later first).later last = h.later last := by
  have hdeliveries : ((h.later first).later last).deliveries = (h.later last).deliveries := by
    simp only [later, List.filter_filter]
    apply List.filter_congr
    intro d _
    rw [← decide_not, ← decide_not, ← Bool.decide_and, decide_eq_decide]
    omega
  exact congrArg (fun ds => { h with now := last, deliveries := ds }) hdeliveries

/-- It makes no difference whether time passes at once or in two steps. -/
theorem advance_add {h : Hub} (sorted : h.deliveries.Pairwise (·.due ≤ ·.due)) (a b : Nat) :
    h.advance (a + b) = (h.advance a).advance b := by
  let first := h.now + a
  let last := h.now + (a + b)
  have hnow : (h.advance a).now = first := by
    rw [advance_eq]
    exact (alike_foldl_deliver _ _).now
  have hlast : first + b = last := Nat.add_assoc h.now a b
  have hordered : first ≤ last := by omega
  have hdue : h.dueBy first ++ (h.later first).dueBy last = h.dueBy last := by
    have hsorted := Delivery.filter_due_append (sorted.filter (·.due ≤ last)) first
    rw [List.filter_filter, List.filter_filter] at hsorted
    rw [dueBy, dueBy, dueBy, later, List.filter_filter, ← hsorted]
    congr 1
    · apply List.filter_congr
      intro d _
      rw [← Bool.decide_and, decide_eq_decide]
      omega
    · apply List.filter_congr
      intro d _
      rw [← decide_not, ← Bool.decide_and, ← Bool.decide_and, decide_eq_decide]
      omega
  have hadvanced : (h.advance a).dueBy last = (h.later first).dueBy last := by
    rw [dueBy, dueBy, advance_eq, (alike_foldl_deliver _ _).deliveries]
  calc h.advance (a + b)
      = (h.dueBy last).foldl deliver (h.later last) := advance_eq h (a + b)
    _ = ((h.later first).dueBy last).foldl deliver
          ((h.dueBy first).foldl deliver ((h.later first).later last)) := by
        rw [← hdue, List.foldl_append, later_later h hordered]
    _ = ((h.advance a).dueBy last).foldl deliver ((h.advance a).later last) := by
        rw [hadvanced, foldl_deliver_later, advance_eq]
    _ = (h.advance a).advance b := by rw [advance_eq (h.advance a), hnow, hlast]

/-- As time passes, what becomes due meanwhile is delivered, in the order in which it was scheduled,
and nothing else. -/
structure Punctual (h : Hub) (ds : List Delivery) : Prop where
  pending : h.deliveries = ds.filter (h.now < ·.due)
  sorted : ds.Pairwise (·.due ≤ ·.due)
  advance : ∀ milliseconds, h.advance milliseconds =
    (ds.filter fun d => h.now < d.due ∧ d.due ≤ h.now + milliseconds).foldl deliver
      (h.later (h.now + milliseconds))
  attempts : ∀ milliseconds c, (h.advance milliseconds).outbox c =
    (h.outbox c).postEach ((ds.filter fun d => h.now < d.due ∧
      d.due ≤ h.now + milliseconds).filter (·.isFor c.number))
  steps : ∀ a b, h.advance (a + b) = (h.advance a).advance b

theorem Keeps.punctual {h : Hub} {ds : List Delivery} (keeps : h.Keeps ds)
    (apart : ∀ d ∈ ds, Apart d) : h.Punctual ds := by
  have hdue (milliseconds : Nat) : h.dueBy (h.now + milliseconds) =
      ds.filter fun d => h.now < d.due ∧ d.due ≤ h.now + milliseconds := by
    rw [dueBy, keeps.pending, List.filter_filter]
    apply List.filter_congr
    intro d _
    rw [← Bool.decide_and, decide_eq_decide, and_comm]
  have hadvance (milliseconds : Nat) : h.advance milliseconds =
      (ds.filter fun d => h.now < d.due ∧ d.due ≤ h.now + milliseconds).foldl deliver
        (h.later (h.now + milliseconds)) := by
    rw [advance_eq, hdue]
  refine ⟨keeps.pending, keeps.sorted, hadvance, ?_, ?_⟩
  · intro milliseconds c
    rw [hadvance]
    exact outbox_foldl_deliver (fun d hd => apart d (List.mem_of_mem_filter hd)) _ c
  · apply advance_add
    rw [keeps.pending]
    exact keeps.sorted.filter _

/-! ### What is never held back -/

section

variable {h k : Hub}

theorem outbox_close_congr (same : ∀ c, k.outbox c = h.outbox c) (c : Connection)
    (request : Close) (d : Connection) :
    (k.close c request).outbox d = (h.close c request).outbox d := by
  rcases eq_or_ne c.number d.number with hsame | hne
  · rw [outbox_congr _ hsame.symm, outbox_congr (h.close c request) hsame.symm,
      outbox_close_self, outbox_close_self, same]
  · rw [outbox_close_of_ne hne, outbox_close_of_ne hne, same]

theorem outbox_broadcastPeers_congr (same : ∀ c, k.outbox c = h.outbox c) (room : RoomId)
    (members : List Connection) (d : Connection) :
    (k.broadcastPeers room members).outbox d = (h.broadcastPeers room members).outbox d := by
  unfold broadcastPeers
  rw [encode_peerList]
  exact outbox_sendEach_congr (same d) _ _ _ members

/-- What an announcement does to the outboxes depends on nothing but the outboxes. -/
theorem outbox_announce_congr (same : ∀ c, k.outbox c = h.outbox c) (notice : Notice)
    (d : Connection) : (notice.announce k).outbox d = (notice.announce h).outbox d := by
  cases notice with
  | joined room c answer =>
      apply outbox_broadcastPeers_congr
      cases answer.superseded with
      | none => exact same
      | some previous => exact outbox_close_congr same previous superseded
  | left room c answer =>
      cases answer with
      | remaining members => exact outbox_broadcastPeers_congr same room members d
      | _ => exact same d

theorem outbox_touch (h : Hub) (c : Connection) (change : Outbox → Outbox) (d : Connection) :
    (h.touch c change).outbox d =
      if d.number = c.number ∧ c.number < h.outboxes.size then change (h.outbox d)
      else h.outbox d := by
  rcases eq_or_ne c.number d.number with hsame | hne
  · rcases Nat.lt_or_ge c.number h.outboxes.size with hmade | hunmade
    · rw [if_pos ⟨hsame.symm, hmade⟩, outbox_congr _ hsame.symm, outbox_congr h hsame.symm]
      exact outbox_setOutbox_self hmade _
    · have hnone : h.outboxes[d.number]? = none := Array.getElem?_eq_none (hsame ▸ hunmade)
      have htouched : (h.touch c change).outboxes[d.number]? = none := by
        simp [touch, setOutbox, Array.getElem?_modify, hnone]
      rw [if_neg (fun hmade => Nat.not_lt_of_le hunmade hmade.2), outbox, outbox, hnone, htouched]
  · rw [if_neg (fun hmade => hne hmade.1.symm)]
    exact outbox_setOutbox_of_ne hne h _

end

/-! ### A run with a delay and one without -/

/-- The registry has come about by calls, and there are others to come; connections are told apart
by their numbers in all of them. -/
def Reached (h : Hub) (actions : List Action) : Prop :=
  ∃ calls, h.registry = Registry.after calls ∧
    Registry.Identified (calls ++ actions.flatMap (·.calls))

theorem registry_step (h : Hub) (a : Action) :
    (h.step a).registry = a.calls.foldl Registry.call h.registry := by
  cases a with
  | enter room c => rfl
  | exit room c => rfl
  | announce notice => exact (notice.alike_announce h).registry
  | relay room c u => exact registry_relay h room c u
  | touch c change => rfl
  | advance milliseconds => exact registry_advance h milliseconds

namespace Reached

variable {h : Hub} {a : Action} {actions : List Action}

theorem step (reached : h.Reached (a :: actions)) : (h.step a).Reached actions := by
  obtain ⟨calls, hregistry, hidentified⟩ := reached
  refine ⟨calls ++ a.calls, ?_, ?_⟩
  · rw [registry_step, hregistry, Registry.after, Registry.after, List.foldl_append]
  · rw [List.flatMap_cons, ← List.append_assoc] at hidentified
    exact hidentified

theorem tidy (reached : h.Reached actions) : h.registry.Tidy := by
  obtain ⟨calls, hregistry, -⟩ := reached
  rw [hregistry]
  exact Registry.tidy_after calls

theorem distinct (reached : h.Reached actions) (room : RoomId) : h.registry.Distinct room := by
  obtain ⟨calls, hregistry, hidentified⟩ := reached
  rw [hregistry]
  apply Registry.distinct_after
  intro c hc d hd
  rw [Registry.Identified, List.map_append] at hidentified
  exact hidentified c (List.mem_append_left _ hc) d (List.mem_append_left _ hd)

theorem apart (reached : h.Reached actions) {b : Action} {d : Delivery} (hd : d ∈ h.makes b) :
    Apart d := by
  obtain ⟨-, room, ms, sender, targets, hmembers, htargets⟩ := of_mem_makes hd
  rw [Apart, htargets]
  exact (reached.tidy.intended_resolve hmembers sender targets).numbers_nodup
    (reached.distinct room)

theorem apart_scheduled (reached : h.Reached actions) :
    ∀ d ∈ h.scheduled actions, Apart d := by
  induction actions generalizing h with
  | nil => exact fun d hd => nomatch hd
  | cons a rest ih =>
      intro d hd
      rcases List.mem_append.mp hd with hfirst | hrest
      · exact reached.apart hfirst
      · exact ih reached.step d hrest

end Reached

/-- Something comes into an outbox, or is taken out of it, that has not been held back. -/
def Disturbs (h : Hub) : Action → Prop
  | .announce _ | .touch _ _ => True
  | .relay room c u => isRefusal (h.relay room c u).2 = true
  | _ => False

/-- The outboxes are disturbed only when nothing is held back. -/
def Calm (h : Hub) : List Action → Prop
  | [] => True
  | a :: rest => (h.Disturbs a → h.deliveries = []) ∧ (h.step a).Calm rest

/-- The second state is that of a run without a delay, and the first one is like it but for what it
holds back. -/
structure Trails (h k : Hub) : Prop where
  registry : k.registry = h.registry
  size : k.outboxes.size = h.outboxes.size
  immediate : k.delay = 0
  nothing : k.deliveries = []
  outbox : ∀ c, k.outbox c = h.owed c

namespace Trails

variable {h k : Hub} {ds : List Delivery}

theorem caught_up (trails : h.Trails k) (nothing : h.deliveries = []) (c : Connection) :
    k.outbox c = h.outbox c := by
  rw [trails.outbox, owed_of_nothing nothing]

theorem nothing_step (trails : h.Trails k) (a : Action) : (k.step a).deliveries = [] := by
  cases a with
  | announce notice => exact (notice.alike_announce k).deliveries.trans trails.nothing
  | relay room c u =>
      cases h.outcome_relay room c u with
      | fails e _ relays =>
          exact (deliveries_of_fails (relays k trails.registry)).trans trails.nothing
      | passes d ms _ _ _ _ _ _ relays =>
          rw [step, relays k trails.registry, forward_of_immediate trails.immediate]
          exact (alike_deliver _ _).deliveries.trans trails.nothing
  | advance milliseconds =>
      rw [step, advance_eq, (alike_foldl_deliver _ _).deliveries, later, trails.nothing]
      rfl
  | _ => exact trails.nothing

theorem outbox_step (trails : h.Trails k) (held : 0 < h.delay) {a : Action} {rest : List Action}
    (reached : h.Reached (a :: rest)) (keeps : h.Keeps ds) (apart : ∀ d ∈ ds, Apart d)
    (calm : h.Disturbs a → h.deliveries = []) (c : Connection) :
    (k.step a).outbox c = (h.step a).owed c := by
  -- An action that disturbs the outboxes does the same to both, and nothing is held back then.
  have hboth {h' k' : Hub} (deliveries : h'.deliveries = h.deliveries)
      (nothing : h.deliveries = []) (same : k'.outbox c = h'.outbox c) :
      k'.outbox c = h'.owed c := by
    rw [same, owed_of_nothing (deliveries.trans nothing)]
  cases a with
  | enter room d => exact trails.outbox c
  | exit room d => exact trails.outbox c
  | announce notice =>
      have hnothing := calm trivial
      exact hboth (notice.alike_announce h).deliveries hnothing
        (outbox_announce_congr (trails.caught_up hnothing) notice c)
  | touch d change =>
      have hnothing := calm trivial
      refine hboth rfl hnothing ?_
      rw [step, step, outbox_touch, outbox_touch, trails.size, trails.caught_up hnothing]
  | relay room d u =>
      cases h.outcome_relay room d u with
      | fails e _ relays =>
          have hh := relays h rfl
          have hk := relays k trails.registry
          cases hrequest : e.request? with
          | none =>
              rw [step, step, hh, hk, hrequest]
              exact trails.outbox c
          | some request =>
              have hrefusal : isRefusal (h.relay room d u).2 = true := by
                rw [hh]
                cases e with
                | roomNotFound room => rfl
                | staleSession room peer => rfl
                | _ => cases hrequest
              have hnothing := calm hrefusal
              refine hboth (deliveries_of_fails hh) hnothing ?_
              rw [step, step, hh, hk, hrequest]
              exact outbox_close_congr (trails.caught_up hnothing) d request c
      | passes d' ms makes due _ _ _ _ relays =>
          have hapart : Apart d' := reached.apart (makes ▸ List.mem_singleton_self d')
          rw [step, step, relays h rfl, relays k trails.registry, owed_forward held due,
            outbox_forward trails.immediate hapart, trails.outbox c]
  | advance milliseconds =>
      have hk : (k.step (.advance milliseconds)).outbox c = k.outbox c := by
        rw [step, advance_eq, dueBy, trails.nothing]
        rfl
      rw [hk, trails.outbox c, step, keeps.owed_advance held apart]

theorem step (trails : h.Trails k) (held : 0 < h.delay) {a : Action} {rest : List Action}
    (reached : h.Reached (a :: rest)) (keeps : h.Keeps ds) (apart : ∀ d ∈ ds, Apart d)
    (calm : h.Disturbs a → h.deliveries = []) : (h.step a).Trails (k.step a) where
  registry := by rw [registry_step, registry_step, trails.registry]
  size := by rw [(h.clock_step a).2.2, (k.clock_step a).2.2, trails.size]
  immediate := (k.clock_step a).2.1.trans trails.immediate
  nothing := trails.nothing_step a
  outbox := trails.outbox_step held reached keeps apart calm

/-- A run whose outboxes are disturbed only when nothing is held back trails the one without a
delay. -/
theorem run (trails : h.Trails k) (held : 0 < h.delay) {actions : List Action}
    (reached : h.Reached actions) (keeps : h.Keeps ds) (apart : ∀ d ∈ ds, Apart d)
    (calm : h.Calm actions) : (h.run actions).Trails (k.run actions) := by
  induction actions generalizing h k ds with
  | nil => exact trails
  | cons a rest ih =>
      have hapart : ∀ d ∈ ds ++ h.makes a, Apart d := by
        intro d hd
        rcases List.mem_append.mp hd with hbefore | hnew
        · exact apart d hbefore
        · exact reached.apart hnew
      have hheld : 0 < (h.step a).delay := (h.clock_step a).2.1 ▸ held
      exact ih (trails.step held reached keeps apart calm.1) hheld reached.step
        (keeps.step held a) hapart calm.2

end Trails

theorem reached_opening (outboxes : Array Outbox) (delay : Nat) {actions : List Action}
    (identified : Registry.Identified (actions.flatMap (·.calls))) :
    (opening outboxes delay).Reached actions := ⟨[], rfl, identified⟩

theorem keeps_opening (outboxes : Array Outbox) (delay : Nat) :
    (opening outboxes delay).Keeps [] :=
  ⟨rfl, List.Pairwise.nil, fun _ hd => nomatch hd⟩

theorem trails_opening (outboxes : Array Outbox) (delay : Nat) :
    (opening outboxes delay).Trails (opening outboxes 0) :=
  ⟨rfl, rfl, rfl, rfl, fun _ => rfl⟩

/-! ### What a relay does with a delay and without -/

/-- The delivery is what a relay that is made now asks for. -/
structure Decides (h : Hub) (room : RoomId) (c : Connection) (u : Uplink) (d : Delivery) :
    Prop where
  due : d.due = h.now + min h.delay (30 * 365 * 24 * 60 * 60 * 1000)
  sender : d.sender = c.peer
  encodes : (u.relayed c.peer).encode = .ok d.frame
  intended : h.registry.Intended room c.peer u.targets d.targets
  apart : (d.targets.map (·.number)).Nodup

/-- A relay in a state with a delay is answered as in one without. If it succeeds, the one comes to
no outbox yet and the other to those of the targets; if it fails, nothing is scheduled. -/
structure Defers (h k : Hub) (room : RoomId) (c : Connection) (u : Uplink) : Prop where
  answer : (h.relay room c u).2 = (k.relay room c u).2
  success : ∀ count, (h.relay room c u).2 = .ok count → ∃ d, h.Decides room c u d ∧
    d.targets.length = count ∧
    h.makes (.relay room c u) = [d] ∧
    (h.relay room c u).1.deliveries = h.deliveries ++ [d] ∧
    (∀ e, (h.relay room c u).1.outbox e = h.outbox e) ∧
    ∀ e, (k.relay room c u).1.outbox e =
      if d.isFor e.number then (k.outbox e).post d.frame else k.outbox e
  failure : ∀ e, (h.relay room c u).2 = .error e →
    h.makes (.relay room c u) = [] ∧ h.FailsFor (h.relay room c u).1 c e.request?

theorem defers_relay {h k : Hub} (held : 0 < h.delay) (immediate : k.delay = 0)
    (same : k.registry = h.registry) (reached : h.Reached []) (room : RoomId) (c : Connection)
    (u : Uplink) : h.Defers k room c u := by
  cases h.outcome_relay room c u with
  | fails e makes relays =>
      have hh := relays h rfl
      refine ⟨by rw [hh, relays k same], ?_, ?_⟩
      · intro count hcount
        rw [hh] at hcount
        cases hcount
      · intro e' he'
        rw [hh] at he' ⊢
        cases he'
        refine ⟨makes, ?_⟩
        cases e.request? with
        | none => exact failsFor_none h c
        | some request => exact failsFor_close h c request
  | passes d ms makes due sender encodes members targets relays =>
      have hh := relays h rfl
      have hintended : h.registry.Intended room c.peer u.targets d.targets :=
        targets ▸ reached.tidy.intended_resolve members c.peer u.targets
      have hapart : Apart d := hintended.numbers_nodup (reached.distinct room)
      refine ⟨by rw [hh, relays k same], ?_, ?_⟩
      · intro count hcount
        rw [hh] at hcount
        cases hcount
        rw [hh, relays k same, forward_of_held held due]
        exact ⟨d, ⟨due, sender, encodes, hintended, hapart⟩, rfl, makes, rfl, fun _ => rfl,
          outbox_forward immediate hapart room u⟩
      · intro e he
        rw [hh] at he
        cases he

/-- An announcement goes out at once and as it would with no delay and nothing held back. What is
held back stays so. -/
structure GoesOut (h : Hub) (notice : Notice) : Prop where
  outbox : ∀ c, (notice.announce h).outbox c =
    (notice.announce { h with delay := 0, deliveries := [] }).outbox c
  deliveries : (notice.announce h).deliveries = h.deliveries

theorem goesOut (h : Hub) (notice : Notice) : h.GoesOut notice where
  outbox := outbox_announce_congr (h := { h with delay := 0, deliveries := [] }) (k := h)
    (fun _ => rfl) notice
  deliveries := (notice.alike_announce h).deliveries

theorem registry_run (h : Hub) (actions : List Action) :
    (h.run actions).registry = (actions.flatMap (·.calls)).foldl Registry.call h.registry := by
  induction actions generalizing h with
  | nil => rfl
  | cons a rest ih =>
      rw [List.flatMap_cons, List.foldl_append, ← registry_step]
      exact ih (h.step a)

theorem delay_run (h : Hub) (actions : List Action) : (h.run actions).delay = h.delay := by
  induction actions generalizing h with
  | nil => rfl
  | cons a rest ih => exact (ih (h.step a)).trans (h.clock_step a).2.1

theorem reached_run (outboxes : Array Outbox) (delay : Nat) {actions : List Action}
    (identified : Registry.Identified (actions.flatMap (·.calls))) :
    ((opening outboxes delay).run actions).Reached [] := by
  refine ⟨actions.flatMap (·.calls), registry_run _ actions, ?_⟩
  rw [List.flatMap_nil, List.append_nil]
  exact identified

/-- At every point of a run with a delay, a relay is answered as in the same run without one, and
what it is to deliver, and to whom, is fixed and remains scheduled whatever comes after. What is
scheduled is delivered when it is due, but not later than thirty years after its relay; what is
announced is not held back. If the outboxes are disturbed only when nothing is held back, they are
at last what they are without the delay. -/
theorem delay_shifts_deliveries {outboxes : Array Outbox} {delay : Nat} (held : 0 < delay)
    {actions : List Action} (identified : Registry.Identified (actions.flatMap (·.calls))) :
    let h := (opening outboxes delay).run actions
    let k := (opening outboxes 0).run actions
    h.registry = k.registry ∧
      (∀ room c u, h.Defers k room c u) ∧
      (∀ later, (opening outboxes delay).scheduled (actions ++ later) =
        (opening outboxes delay).scheduled actions ++ h.scheduled later) ∧
      h.Punctual ((opening outboxes delay).scheduled actions) ∧
      (∀ notice, h.GoesOut notice) ∧
      ((opening outboxes delay).Calm actions → h.deliveries = [] →
        ∀ c, h.outbox c = k.outbox c) := by
  intro h k
  have hdelay : 0 < h.delay := (delay_run (opening outboxes delay) actions).symm ▸ held
  have himmediate : k.delay = 0 := delay_run (opening outboxes 0) actions
  have hregistry : k.registry = h.registry := by
    rw [registry_run, registry_run]
    rfl
  have hreached := reached_opening outboxes delay identified
  have hkeeps : h.Keeps ((opening outboxes delay).scheduled actions) :=
    (keeps_opening outboxes delay).run held actions
  refine ⟨hregistry.symm, ?_, scheduled_append _ actions,
    hkeeps.punctual hreached.apart_scheduled, h.goesOut, ?_⟩
  · exact defers_relay hdelay himmediate hregistry (reached_run outboxes delay identified)
  · intro hcalm hnothing c
    have htrails : h.Trails k := (trails_opening outboxes delay).run held hreached
      (keeps_opening outboxes delay) (fun _ hd => nomatch hd) hcalm
    exact (htrails.caught_up hnothing c).symm

/-- The second `b` takes the place of the first one while something is on its way to that one. -/
def changeover : List Action :=
  [.enter "r" ⟨0, "a"⟩, .enter "r" ⟨1, "b"⟩, .relay "r" ⟨0, "a"⟩ { action := "hi" }, .advance 20,
    .enter "r" ⟨2, "b"⟩, .relay "r" ⟨0, "a"⟩ { action := "ho" }, .advance 100]

def mailboxes : Array Outbox := #[{ capacity := 4 }, { capacity := 4 }, { capacity := 4 }]

theorem delay_shifts_deliveries_changeover :
    let h := (opening mailboxes 50).run changeover
    let k := (opening mailboxes 0).run changeover
    h.registry = k.registry ∧
      h.Punctual ((opening mailboxes 50).scheduled changeover) ∧
      ((opening mailboxes 50).scheduled changeover).map (·.due) = [50, 70] ∧
      (∀ c, h.outbox c = k.outbox c) ∧
      (h.outbox ⟨1, "b"⟩).queued.length = 1 ∧ (h.outbox ⟨2, "b"⟩).queued.length = 1 := by
  intro h k
  have hidentified : Registry.Identified (changeover.flatMap (·.calls)) := by decide
  obtain ⟨hregistry, -, -, hpunctual, -, hcaught_up⟩ :=
    @delay_shifts_deliveries mailboxes 50 (by decide) changeover hidentified
  have hnothing : h.deliveries = [] := by decide +kernel
  have hcalm : (opening mailboxes 50).Calm changeover := by
    simp only [changeover, Calm, Disturbs]
    decide +kernel
  exact ⟨hregistry, hpunctual, by decide +kernel, hcaught_up hcalm hnothing, by decide +kernel,
    by decide +kernel⟩

/-- With a delay that is longer than thirty years by a millisecond, what was relayed at the
beginning is delivered before the delay is over. -/
theorem delivered_before_delay :
    let h := (opening mailboxes 946080000001).run
      [.enter "r" ⟨0, "a"⟩, .enter "r" ⟨1, "b"⟩, .relay "r" ⟨0, "a"⟩ { action := "m1" }]
    h.now = 0 ∧ h.delay = 946080000001 ∧
      ¬ ∀ milliseconds < h.delay, ∀ c, (h.advance milliseconds).outbox c = h.outbox c := by
  intro h
  refine ⟨by decide +kernel, by decide +kernel, ?_⟩
  intro hclaim
  have hsame := hclaim 946080000000 (by decide +kernel) ⟨1, "b"⟩
  revert hsame
  decide +kernel

end Hub

end RoomRelay
