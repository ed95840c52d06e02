import RoomRelay.Proofs.Hub.Unwinding

/-!
What a session makes of its inbound stream. While it goes on, a frame that can be decoded comes to
one relay of the message in it and any other item to nothing. The first item that ends the stream,
or whose relay finds the sender without its place, comes to one leave after that, and whatever
follows to nothing. Others may do what they like in between. Items that come to nothing can as well
be left out, which nobody notices but in the log.
-/

namespace RoomRelay

/-- The message in an item, if there is one that can be decoded. -/
def Inbound.uplink? : Inbound → Option Uplink
  | .frame f => (Uplink.decode f.isBinary f.bytes).toOption
  | _ => none

/-- The item ends the stream, whatever else happens. -/
def Inbound.isEnd : Inbound → Bool
  | .close _ | .failure _ | .ended => true
  | _ => false

/-- The event is one that a session reports by itself. -/
def Event.isOfSession : Event → Bool
  | .undecodable .. | .unprocessed .. | .sessionRefused .. | .closedUnexpectedly ..
  | .transportFailed .. => true
  | _ => false

namespace Session

/-- The item is the last one that the session takes notice of. -/
def stops (s : Session) (h : Hub) (item : Inbound) : Bool :=
  item.isEnd || item.uplink?.any fun u => isRefusal (h.relay s.room s.connection u).2

/-- The message of an item is relayed, if it has one. -/
def passOn (s : Session) (h : Hub) (item : Inbound) : Hub :=
  item.uplink?.elim h fun u => (h.relay s.room s.connection u).1

/-- The session when it has left. -/
def gone (s : Session) : Session :=
  { membership := { s.membership with stage := .over }, running := false }

/-- The session goes on, and has not begun to leave. -/
structure Active (s : Session) : Prop where
  running : s.running = true
  member : s.membership.stage = .member

theorem finish_of_active {s : Session} (active : s.Active) (h : Hub) :
    s.finish h = (h.depart s.room s.connection, s.gone) := by
  obtain ⟨⟨room, c, stage⟩, running⟩ := s
  obtain ⟨hrunning, hmember⟩ := active
  cases hrunning
  cases hmember
  rfl

/-- An item is passed on if it has a message, and the session leaves if it is the last one. It may
report something in between. -/
def heed (s : Session) (h : Hub) (item : Inbound) (report? : Option Event) : Hub × Session :=
  let h' := report?.elim (s.passOn h item) (s.passOn h item).record
  if s.stops h item then (h'.depart s.room s.connection, s.gone) else (h', s)

section

variable {s : Session}

theorem heed_of_end {item : Inbound} (ends : item.isEnd = true) (silent : item.uplink? = none)
    (h : Hub) (report? : Option Event) :
    s.heed h item report? = ((report?.elim h h.record).depart s.room s.connection, s.gone) := by
  simp [heed, stops, passOn, ends, silent]

theorem heed_of_idle {item : Inbound} (open_ended : item.isEnd = false)
    (silent : item.uplink? = none) (h : Hub) (report? : Option Event) :
    s.heed h item report? = (report?.elim h h.record, s) := by
  simp [heed, stops, passOn, open_ended, silent]

theorem heed_of_uplink {f : Frame} {u : Uplink}
    (decodes : Uplink.decode f.isBinary f.bytes = .ok u) {h g : Hub}
    {answer : Except RelayError Nat} (relays : h.relay s.room s.connection u = (g, answer))
    (report? : Option Event) :
    s.heed h (.frame f) report? =
      if isRefusal answer then ((report?.elim g g.record).depart s.room s.connection, s.gone)
      else (report?.elim g g.record, s) := by
  have huplink : (Inbound.frame f).uplink? = some u := by
    simp [Inbound.uplink?, decodes, Except.toOption]
  simp [heed, stops, passOn, Inbound.isEnd, huplink, relays]

/-- A session that goes on heeds every item. What it may report is its own. -/
theorem receive_of_active (active : s.Active) (h : Hub) (item : Inbound) :
    ∃ report?, (∀ e ∈ report?, e.isOfSession = true) ∧
      s.receive h item = s.heed h item report? := by
  have hsilent : ∀ e ∈ (none : Option Event), e.isOfSession = true := fun _ he => nomatch he
  have hown {e : Event} (he : e.isOfSession = true) : ∀ e' ∈ some e, e'.isOfSession = true := by
    intro e' he'
    cases he'
    exact he
  have hquiet {item : Inbound} (ends : item.isEnd = true) (silent : item.uplink? = none) :
      s.finish h = s.heed h item none := by
    rw [heed_of_end ends silent, finish_of_active active]
    rfl
  have hreported {item : Inbound} (ends : item.isEnd = true) (silent : item.uplink? = none)
      (e : Event) : s.finish (h.record e) = s.heed h item (some e) := by
    rw [heed_of_end ends silent, finish_of_active active]
    rfl
  unfold receive
  rw [if_pos active.running]
  cases item with
  | frame f =>
      simp only [receiveFrame]
      cases hdecode : Uplink.decode f.isBinary f.bytes with
      | error e =>
          have hundecoded : (Inbound.frame f).uplink? = none := by
            simp [Inbound.uplink?, hdecode, Except.toOption]
          refine ⟨some (.undecodable s.peer f.isBinary e), hown rfl, ?_⟩
          rw [heed_of_idle rfl hundecoded]
          rfl
      | ok u =>
          rcases hrelay : h.relay s.room s.connection u with ⟨g, answer⟩
          simp only [hrelay]
          cases answer with
          | ok count =>
              refine ⟨none, hsilent, ?_⟩
              rw [heed_of_uplink hdecode hrelay]
              rfl
          | error e =>
              have hrefused (refusal : isRefusal (.error e) = true) :
                  s.finish (g.record (.sessionRefused s.peer e)) =
                    s.heed h (.frame f) (some (.sessionRefused s.peer e)) := by
                rw [heed_of_uplink hdecode hrelay, finish_of_active active, if_pos refusal]
                rfl
              have hpassed (tolerated : ¬ isRefusal (.error e) = true) :
                  (g.record (.unprocessed s.peer e), s) =
                    s.heed h (.frame f) (some (.unprocessed s.peer e)) := by
                rw [heed_of_uplink hdecode hrelay, if_neg tolerated]
                rfl
              cases e with
              | roomNotFound room => exact ⟨_, hown rfl, hrefused rfl⟩
              | staleSession room peer => exact ⟨_, hown rfl, hrefused rfl⟩
              | codec e => exact ⟨_, hown rfl, hpassed Bool.false_ne_true⟩
              | queueFull peer => exact ⟨_, hown rfl, hpassed Bool.false_ne_true⟩
              | peerGone peer => exact ⟨_, hown rfl, hpassed Bool.false_ne_true⟩
  | ping payload => exact ⟨none, hsilent, (heed_of_idle rfl rfl h none).symm⟩
  | pong payload => exact ⟨none, hsilent, (heed_of_idle rfl rfl h none).symm⟩
  | close request =>
      cases request with
      | none => exact ⟨none, hsilent, hquiet rfl rfl⟩
      | some c =>
          simp only
          split
          · exact ⟨none, hsilent, hquiet rfl rfl⟩
          · exact ⟨_, hown rfl, hreported rfl rfl _⟩
  | failure reason => exact ⟨_, hown rfl, hreported rfl rfl _⟩
  | ended => exact ⟨none, hsilent, hquiet rfl rfl⟩

/-- A session that goes on is over after the last item, and is the same after any other. -/
theorem receive_snd_of_active (active : s.Active) (h : Hub) (item : Inbound) :
    (s.receive h item).2 = if s.stops h item then s.gone else s := by
  obtain ⟨report?, -, hreceive⟩ := receive_of_active active h item
  rw [hreceive, heed]
  split <;> rfl

end

end Session

namespace Exchange

theorem covers_everything (x : Exchange) (a : Action) : x.Covers .everything a := by
  cases a with
  | advance milliseconds => trivial
  | deed c d =>
      cases d with
      | receive k item => exact ⟨rfl, fun _ _ => rfl⟩
      | abort k => exact ⟨rfl, fun _ _ => rfl⟩
      | _ => exact ⟨rfl, rfl⟩

/-- The item that an action gives to the session of a connection. -/
def Action.itemFor? (c : Connection) (k : Nat) : Action → Option Inbound
  | .deed d (.receive m item) => if d = c ∧ m = k then some item else none
  | _ => none

/-- The action gives the session nothing, or an item that comes to something. -/
def Action.matters (c : Connection) (k : Nat) (a : Action) : Bool :=
  (a.itemFor? c k).all fun item => item.isEnd || item.uplink?.isSome

/-! ### Sessions that go on -/

/-- A session that goes on has not begun to leave. -/
def Lively (x : Exchange) : Prop :=
  ∀ c k s, x.sessions c k = some s → s.running = true → s.Active

theorem lively_put {x : Exchange} (lively : x.Lively) (h : Hub) (c : Connection) (k : Nat)
    {s : Session} (active : s.running = true → s.Active) :
    ({ x with hub := h }.put c k s).Lively := by
  intro d m t ht hrunning
  simp only [put] at ht
  split at ht
  · cases ht
    exact active hrunning
  · exact lively d m t ht hrunning

theorem Lively.step {x : Exchange} (lively : x.Lively) (a : Action) : (x.step a).Lively := by
  have hleads := x.leads_step a
  generalize x.step a = y at hleads ⊢
  cases hleads with
  | joins c k room fresh => exact lively_put lively _ c k fun _ => ⟨rfl, rfl⟩
  | receives c k item s found =>
      apply lively_put lively
      intro hrunning
      cases hbefore : s.running with
      | false =>
          have hsame : (s.receive x.hub item).2 = s := by simp [Session.receive, hbefore]
          rw [hsame, hbefore] at hrunning
          cases hrunning
      | true =>
          have hactive := lively c k s found hbefore
          rw [Session.receive_snd_of_active hactive] at hrunning ⊢
          split at hrunning
          · cases hrunning
          · rename_i hgoes
            rw [if_neg hgoes]
            exact hactive
  | aborts c k s found =>
      apply lively_put lively
      intro hrunning
      cases hbefore : s.running <;> simp [Session.abort, hbefore] at hrunning
  | idle => exact lively
  | departs c room => exact lively
  | relays c room u => exact lively
  | uses c u => exact lively
  | advances milliseconds => exact lively

theorem lively_run {outboxes : Array Outbox} {delay : Nat} (actions : List Action) :
    ((start outboxes delay).run actions).Lively :=
  run_rule (I := Lively) (fun _ a _ lively => lively.step a) fun _ _ _ hs => nomatch hs

/-! ### What a stream comes to -/

/-- What others do, or what is called for a session. -/
inductive Turn where
  | other (a : Action)
  | relay (u : Uplink)
  | leave

section

variable (c : Connection) (k : Nat) (s : Session)

/-- The calls are made with the room and the connection of the session, which is over when it has
left. -/
def turn (x : Exchange) : Turn → Exchange
  | .other a => x.step a
  | .relay u => { x with hub := (x.hub.relay s.room s.connection u).1 }
  | .leave => { x with hub := x.hub.depart s.room s.connection }.put c k s.gone

/-- These turns, one after another, lead from one state to the other. In between the session may
have reported something. -/
inductive Comes : Exchange → List Turn → Exchange → Prop where
  | done (x : Exchange) : Comes x [] x
  | next {x y : Exchange} (t : Turn) {rest : List Turn} (later : Comes (turn c k s x t) rest y) :
    Comes x (t :: rest) y
  | reports {x y : Exchange} (e : Event) {turns : List Turn} (own : e.isOfSession = true)
    (later : Comes { x with hub := x.hub.record e } turns y) : Comes x turns y

/-- What an action comes to while the session goes on: one relay of the message in an item, if there
is one. -/
def Action.heeded (a : Action) : List Turn :=
  match a.itemFor? c k with
  | some item => (item.uplink?.map .relay).toList
  | none => [.other a]

/-- What an action comes to when the session is over. -/
def Action.unheeded (a : Action) : List Turn :=
  match a.itemFor? c k with
  | some _ => []
  | none => [.other a]

/-- The session finds no reason to end among these actions, at the moment when each happens. -/
def Unstopped (x : Exchange) (actions : List Action) : Prop :=
  ∀ before item after, actions = before ++ .deed c (.receive k item) :: after →
    s.stops (x.run before).hub item = false

/-- What a session has made of its stream during a run. Either it goes on, and every message that it
could decode was relayed once and in its order; or some item was the last one, and it left right
after that. Nothing else was called for it. -/
inductive Loops (x : Exchange) (actions : List Action) : Prop where
  | goes_on (unstopped : Unstopped c k s x actions)
      (calls : Comes c k s x (actions.flatMap (·.heeded c k)) (x.run actions))
      (session : (x.run actions).sessions c k = some s) : Loops x actions
  | ended (before after : List Action) (last : Inbound)
      (split : actions = before ++ .deed c (.receive k last) :: after)
      (unstopped : Unstopped c k s x before)
      (stopped : s.stops (x.run before).hub last = true)
      (calls : Comes c k s x (before.flatMap (·.heeded c k) ++
        ((last.uplink?.map .relay).toList ++ [.leave]) ++
        after.flatMap (·.unheeded c k)) (x.run actions))
      (session : (x.run actions).sessions c k = some s.gone) : Loops x actions

end

section

variable {c : Connection} {k : Nat} {s : Session} {x y : Exchange}

theorem Comes.trans {z : Exchange} {ts us : List Turn} (first : Comes c k s x ts y)
    (second : Comes c k s y us z) : Comes c k s x (ts ++ us) z := by
  induction first with
  | done => exact second
  | next t _ ih => exact .next t (ih second)
  | reports e own _ ih => exact .reports e own (ih second)

/-- Passing an item on is one relay or none. -/
theorem comes_passOn (x : Exchange) (item : Inbound) :
    Comes c k s x ((item.uplink?.map .relay).toList) { x with hub := s.passOn x.hub item } := by
  unfold Session.passOn
  cases item.uplink? with
  | none => exact .done x
  | some u => exact .next (.relay u) (.done _)

theorem comes_report (x : Exchange) {report? : Option Event}
    (own : ∀ e ∈ report?, e.isOfSession = true) :
    Comes c k s x [] { x with hub := report?.elim x.hub x.hub.record } := by
  cases report? with
  | none => exact .done x
  | some e => exact .reports e (own e rfl) (.done _)

theorem itemFor?_eq_some_iff {a : Action} {item : Inbound} :
    a.itemFor? c k = some item ↔ a = .deed c (.receive k item) := by
  constructor
  · intro h
    cases a with
    | advance milliseconds => cases h
    | deed d deed =>
        cases deed with
        | receive m other =>
            simp only [Action.itemFor?] at h
            split at h
            · rename_i hown
              obtain ⟨rfl, rfl⟩ := hown
              cases h
              rfl
            · cases h
        | _ => cases h
  · rintro rfl
    simp [Action.itemFor?]

theorem put_eq_self (found : x.sessions c k = some s) (h : Hub) :
    { x with hub := h }.put c k s = { x with hub := h } := by
  have hsessions : ({ x with hub := h }.put c k s).sessions = x.sessions := by
    funext d m
    simp only [put]
    split
    · rename_i hown
      rw [hown.1, hown.2, found]
    · rfl
  exact congrArg (Exchange.mk h) hsessions

/-- What others do leaves a session as it is. -/
theorem sessions_step_of_other {a : Action} (found : x.sessions c k = some s)
    (other : a.itemFor? c k = none) (not_aborted : a ≠ .deed c (.abort k)) :
    (x.step a).sessions c k = some s := by
  have hleads := x.leads_step a
  generalize x.step a = z at hleads ⊢
  have hput (h : Hub) {d : Connection} {m : Nat} (t : Session) (hne : ¬ (c = d ∧ k = m)) :
      ({ x with hub := h }.put d m t).sessions c k = some s := by
    simp only [put, if_neg hne, found]
  cases hleads with
  | joins d m room fresh =>
      apply hput
      rintro ⟨rfl, rfl⟩
      rw [found] at fresh
      cases fresh
  | receives d m item t ht =>
      apply hput
      rintro ⟨rfl, rfl⟩
      simp [Action.itemFor?] at other
  | aborts d m t ht =>
      apply hput
      rintro ⟨rfl, rfl⟩
      exact not_aborted rfl
  | idle => exact found
  | departs d room => exact found
  | relays d room u => exact found
  | uses d u => exact found
  | advances milliseconds => exact found

theorem step_receive (found : x.sessions c k = some s) (item : Inbound) :
    x.step (.deed c (.receive k item)) =
      { x with hub := (s.receive x.hub item).1 }.put c k (s.receive x.hub item).2 := by
  simp only [step, act, perform, found]

/-- As long as an item is not the last one, it comes to a relay or to nothing. -/
theorem comes_receive (found : x.sessions c k = some s) (active : s.Active) {item : Inbound}
    (goes : s.stops x.hub item = false) :
    Comes c k s x ((item.uplink?.map .relay).toList) (x.step (.deed c (.receive k item))) := by
  obtain ⟨report?, hown, hreceive⟩ := Session.receive_of_active active x.hub item
  rw [step_receive found, hreceive, Session.heed, goes, if_neg Bool.false_ne_true]
  simp only [put_eq_self found]
  have hcalls := (comes_passOn (c := c) (k := k) (s := s) x item).trans (comes_report _ hown)
  rw [List.append_nil] at hcalls
  exact hcalls

/-- The last item comes to a leave, after a relay if it has a message. -/
theorem comes_receive_last (found : x.sessions c k = some s) (active : s.Active) {last : Inbound}
    (stopped : s.stops x.hub last = true) :
    Comes c k s x ((last.uplink?.map .relay).toList ++ [.leave])
      (x.step (.deed c (.receive k last))) := by
  obtain ⟨report?, hown, hreceive⟩ := Session.receive_of_active active x.hub last
  rw [step_receive found, hreceive, Session.heed, if_pos stopped]
  have hreport := comes_report (c := c) (k := k) (s := s) { x with hub := s.passOn x.hub last } hown
  exact (comes_passOn x last).trans (hreport.trans (.next .leave (.done _)))

theorem unstopped_cons_iff {a : Action} {rest : List Action} :
    Unstopped c k s x (a :: rest) ↔
      (∀ item, a.itemFor? c k = some item → s.stops x.hub item = false) ∧
        Unstopped c k s (x.step a) rest := by
  constructor
  · intro h
    refine ⟨?_, ?_⟩
    · intro item hitem
      exact h [] item rest (by rw [itemFor?_eq_some_iff.mp hitem]; rfl)
    · intro before item after hsplit
      exact h (a :: before) item after (by rw [hsplit]; rfl)
  · rintro ⟨hfirst, hrest⟩ before item after hsplit
    cases before with
    | nil =>
        obtain ⟨rfl, -⟩ := List.cons.inj hsplit
        exact hfirst item (itemFor?_eq_some_iff.mpr rfl)
    | cons b before =>
        obtain ⟨rfl, hlater⟩ := List.cons.inj hsplit
        exact hrest before item after hlater

/-- Either no item ends the session, or there is a first one that does. -/
theorem unstopped_or_stopped (x : Exchange) (actions : List Action) :
    Unstopped c k s x actions ∨
      ∃ before last after, actions = before ++ .deed c (.receive k last) :: after ∧
        Unstopped c k s x before ∧ s.stops (x.run before).hub last = true := by
  have hnone (x : Exchange) : Unstopped c k s x [] := by
    intro before item after hsplit
    simp at hsplit
  induction actions generalizing x with
  | nil => exact Or.inl (hnone x)
  | cons a rest ih =>
      by_cases hfirst : ∀ item, a.itemFor? c k = some item → s.stops x.hub item = false
      · rcases ih (x.step a) with hrest | ⟨before, last, after, rfl, hbefore, hlast⟩
        · exact Or.inl (unstopped_cons_iff.mpr ⟨hfirst, hrest⟩)
        · refine Or.inr ⟨a :: before, last, after, rfl, ?_, hlast⟩
          exact unstopped_cons_iff.mpr ⟨hfirst, hbefore⟩
      · push Not at hfirst
        obtain ⟨item, hitem, hstops⟩ := hfirst
        refine Or.inr ⟨[], item, rest, ?_, hnone x, Bool.eq_true_of_not_eq_false hstops⟩
        rw [itemFor?_eq_some_iff.mp hitem]
        rfl

/-- As long as the session finds no reason to end, it relays and does nothing else. -/
theorem comes_of_unstopped {actions : List Action} (found : x.sessions c k = some s)
    (active : s.Active) (not_aborted : .deed c (.abort k) ∉ actions)
    (unstopped : Unstopped c k s x actions) :
    Comes c k s x (actions.flatMap (·.heeded c k)) (x.run actions) ∧
      (x.run actions).sessions c k = some s := by
  induction actions generalizing x with
  | nil => exact ⟨.done x, found⟩
  | cons a rest ih =>
      obtain ⟨hfirst, hrest⟩ := unstopped_cons_iff.mp unstopped
      obtain ⟨haborted, hlater⟩ := List.ne_and_not_mem_of_not_mem_cons not_aborted
      rw [List.flatMap_cons, Action.heeded]
      cases hitem : a.itemFor? c k with
      | none =>
          obtain ⟨hcalls, hsession⟩ :=
            ih (sessions_step_of_other found hitem (Ne.symm haborted)) hlater hrest
          exact ⟨.next (.other a) hcalls, hsession⟩
      | some item =>
          have hgoes := hfirst item hitem
          obtain rfl := itemFor?_eq_some_iff.mp hitem
          have hsame : (x.step (.deed c (.receive k item))).sessions c k = some s := by
            rw [step_receive found, Session.receive_snd_of_active active, hgoes]
            simp [put]
          obtain ⟨hcalls, hsession⟩ := ih hsame hlater hrest
          exact ⟨(comes_receive found active hgoes).trans hcalls, hsession⟩

/-- When the session is over, what comes to it is not noticed. -/
theorem comes_of_gone {actions : List Action} (found : x.sessions c k = some s.gone)
    (not_aborted : .deed c (.abort k) ∉ actions) :
    Comes c k s x (actions.flatMap (·.unheeded c k)) (x.run actions) ∧
      (x.run actions).sessions c k = some s.gone := by
  induction actions generalizing x with
  | nil => exact ⟨.done x, found⟩
  | cons a rest ih =>
      obtain ⟨haborted, hlater⟩ := List.ne_and_not_mem_of_not_mem_cons not_aborted
      rw [List.flatMap_cons, Action.unheeded]
      cases hitem : a.itemFor? c k with
      | none =>
          obtain ⟨hcalls, hsession⟩ :=
            ih (sessions_step_of_other found hitem (Ne.symm haborted)) hlater
          exact ⟨.next (.other a) hcalls, hsession⟩
      | some item =>
          obtain rfl := itemFor?_eq_some_iff.mp hitem
          have hidle : x.step (.deed c (.receive k item)) = x := by
            rw [step_receive found]
            exact put_eq_self found x.hub
          have hrun : x.run (.deed c (.receive k item) :: rest) = x.run rest :=
            congrArg (·.run rest) hidle
          rw [hrun]
          exact ih found hlater

theorem loops_of_active {actions : List Action} (found : x.sessions c k = some s)
    (active : s.Active) (not_aborted : .deed c (.abort k) ∉ actions) :
    Loops c k s x actions := by
  rcases unstopped_or_stopped (c := c) (k := k) (s := s) x actions with
    hunstopped | ⟨before, last, after, rfl, hbefore, hlast⟩
  · obtain ⟨hcalls, hsession⟩ := comes_of_unstopped found active not_aborted hunstopped
    exact .goes_on hunstopped hcalls hsession
  · have hnever : .deed c (.abort k) ∉ before ∧ .deed c (.abort k) ∉ after := by
      simp only [List.mem_append, List.mem_cons, not_or] at not_aborted
      exact ⟨not_aborted.1, not_aborted.2.2⟩
    obtain ⟨hcalls, hsession⟩ := comes_of_unstopped found active hnever.1 hbefore
    have hgone : ((x.run before).step (.deed c (.receive k last))).sessions c k = some s.gone := by
      rw [step_receive hsession, Session.receive_snd_of_active active, hlast]
      simp [put]
    obtain ⟨hafter, hend⟩ := comes_of_gone hgone hnever.2
    refine .ended before after last rfl hbefore hlast ?_ ?_
    · rw [run_append]
      exact (hcalls.trans (comes_receive_last hsession active hlast)).trans hafter
    · rw [run_append]
      exact hend

/-! ### What comes to nothing -/

/-- An item that comes to nothing makes no difference but to the log. -/
theorem agrees_step_of_idle (lively : x.Lively) {a : Action} (idle : a.matters c k = false) :
    x.Agrees .everything (x.step a) := by
  obtain ⟨item, hitem, hidle⟩ : ∃ item, a.itemFor? c k = some item ∧
      (item.isEnd || item.uplink?.isSome) = false := by
    unfold Action.matters at idle
    cases hitem : a.itemFor? c k with
    | none => simp [hitem] at idle
    | some item => exact ⟨item, rfl, by simpa [hitem] using idle⟩
  obtain ⟨hends, hsilent⟩ := Bool.or_eq_false_iff.mp hidle
  rw [Option.isSome_eq_false_iff, Option.isNone_iff_eq_none] at hsilent
  obtain rfl := itemFor?_eq_some_iff.mp hitem
  cases hfound : x.sessions c k with
  | none =>
      have hsame : x.step (.deed c (.receive k item)) = x := by
        simp only [step, act, perform, hfound]
      rw [hsame]
      exact Agrees.refl x
  | some s =>
      rw [step_receive hfound]
      cases hrunning : s.running with
      | false =>
          have hsame : s.receive x.hub item = (x.hub, s) := by simp [Session.receive, hrunning]
          rw [hsame, put_eq_self hfound]
          exact Agrees.refl x
      | true =>
          obtain ⟨report?, -, hreceive⟩ :=
            Session.receive_of_active (lively c k s hfound hrunning) x.hub item
          rw [hreceive, Session.heed_of_idle hends hsilent]
          simp only [put_eq_self hfound]
          cases report? with
          | none => exact Agrees.refl x
          | some e => exact ⟨Hub.agrees_record x.hub e, fun _ _ => rfl⟩

/-- Leaving actions out of a run makes no difference, at its end and in what came into the outboxes
meanwhile. What is kept is answered alike. -/
structure Dispensable (x : Exchange) (keep : Action → Bool) (actions : List Action) : Prop where
  registry : (x.run actions).hub.registry = (x.run (actions.filter keep)).hub.registry
  outbox : ∀ d, (x.run actions).hub.outbox d = (x.run (actions.filter keep)).hub.outbox d
  sessions : (x.run actions).sessions = (x.run (actions.filter keep)).sessions
  answers : (x.answers actions).filter (keep ·.1) = x.answers (actions.filter keep)
  intake : ∀ d, x.intake d actions = x.intake d (actions.filter keep)

theorem Lively.dispensable (lively : x.Lively) (c : Connection) (k : Nat)
    (actions : List Action) : x.Dispensable (Action.matters c k) actions := by
  obtain ⟨hagrees, hanswers, hintake⟩ :=
    unwind_of_agrees (Action.matters c k) Lively
      (fun _ a _ hx => hx.step a) (fun y a (_ : a ∈ actions) _ _ => y.covers_everything a)
      (fun _ a _ hx hidle => agrees_step_of_idle hx hidle) lively (Agrees.refl x)
  exact {
    registry := hagrees.hub.registry_eq fun _ => rfl
    outbox := fun d => hagrees.hub.outbox d rfl
    sessions := funext fun d => hagrees.sessions d rfl
    answers := hanswers
    intake := fun d => hintake d rfl }

end

/-- A session that goes on makes of its stream one relay for each message in it, in their order and
up to the item that ends it, and then one leave; whatever others do meanwhile. Items without a
message, other than the last one, make no difference to anybody. -/
theorem receive_loop_folds {outboxes : Array Outbox} {delay : Nat} {pre : List Action}
    {c : Connection} {k : Nat} {s : Session}
    (found : ((start outboxes delay).run pre).sessions c k = some s) (running : s.running = true)
    {actions : List Action} (not_aborted : .deed c (.abort k) ∉ actions) :
    Loops c k s ((start outboxes delay).run pre) actions ∧
      ((start outboxes delay).run pre).Dispensable (Action.matters c k) actions := by
  have hlively : ((start outboxes delay).run pre).Lively := lively_run pre
  exact ⟨loops_of_active found (hlively c k s found running) not_aborted,
    hlively.dispensable c k actions⟩

/-- `a` says something twice, and gets its place taken in between. -/
def chatter : List Action :=
  [.deed ⟨0, "a"⟩ (.receive 0 (.frame (.text "hello"))),
    .deed ⟨0, "a"⟩ (.receive 0 (.ping [1])),
    .deed ⟨0, "a"⟩ (.receive 0 (.frame (.text "\x7b\x7d"))),
    .deed ⟨2, "a"⟩ (.join 0 "r"),
    .deed ⟨0, "a"⟩ (.receive 0 (.frame (.text "\x7b\x7d"))),
    .deed ⟨0, "a"⟩ (.receive 0 .ended)]

theorem receive_loop_folds_chatter :
    let x := start #[{ capacity := 4 }, { capacity := 4 }, { capacity := 4 }] 0
    let a : Connection := ⟨0, "a"⟩
    let s : Session := { membership := ⟨"r", a, .member⟩ }
    let pre : List Action := [.deed a (.join 0 "r"), .deed ⟨1, "b"⟩ (.join 0 "r")]
    (x.run pre).sessions a 0 = some s ∧
      Loops a 0 s (x.run pre) chatter ∧
      (x.run pre).Dispensable (Action.matters a 0) chatter ∧
      ¬ Unstopped a 0 s (x.run pre) chatter ∧
      chatter.countP (Action.matters a 0) = 4 ∧
      ((x.run pre).run chatter).running a 0 = false := by
  intro x a s pre
  have hfound : (x.run pre).sessions a 0 = some s := by decide +kernel
  have hpatient : .deed a (.abort 0) ∉ chatter := by simp [chatter]
  obtain ⟨hloops, hdispensable⟩ := receive_loop_folds hfound rfl hpatient
  refine ⟨hfound, hloops, hdispensable, ?_, by decide +kernel, by decide +kernel⟩
  intro hunstopped
  have hstops := hunstopped (chatter.take 4) _ (chatter.drop 5) rfl
  revert hstops
  decide +kernel

end Exchange

end RoomRelay
