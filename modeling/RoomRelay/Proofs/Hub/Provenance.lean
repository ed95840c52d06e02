import Mathlib.Data.List.Induction
import Mathlib.Data.List.Forall2
import RoomRelay.Proofs.Hub.Effect
import RoomRelay.Proofs.Hub.Updates

/-!
Where the frames come from. In every run each frame that was ever queued to a connection goes back
to a step of its own: a relay in the connection's room, made by another peer whose connection held
its place while this connection held its own, or a join or leave of that room, after which the
frame lists the members.

What was decided on at one step may be sent at another, so the account is kept of both: of the
frames in each outbox, and of what is pending. No step is the origin of two of them.
-/

namespace RoomRelay

namespace World

/-- All frames that come into a connection's outbox during a run, in their order. -/
def queuedFrom (w : World) (c : Connection) : List Action → List Frame
  | [] => []
  | a :: rest =>
    (w.hub.outbox c).given ((w.step a).hub.outbox c) ++ (w.step a).queuedFrom c rest

def queued (actions : List Action) (c : Connection) : List Frame :=
  queuedFrom {} c actions

/-- The step relays this frame in the room, where it reads as what its sender said, and the
connection is among its targets. -/
inductive RelaysTo (w : World) (a : Action) (room : RoomId) (c : Connection) (frame : Frame) :
    Prop where
  | intro (s : Session) (f : Frame) (u : Uplink) (count : Nat) (present : s ∈ w.sessions)
    (running : s.running = true) (own_room : s.room = room)
    (own : a = .receive s.connection.number (.frame f))
    (decodes : Uplink.decode f.isBinary f.bytes = .ok u)
    (succeeds : (w.hub.relay room s.connection u).2 = .ok count)
    (encodes : (u.relayed s.peer).encode = .ok frame)
    (conveys : frame.Conveys
      { action := u.action, data := u.data, sender := s.peer, metadata := u.metadata })
    (sender_holds : w.hub.registry.holder? room s.peer = some s.connection)
    (holds : w.hub.registry.holder? room c.peer = some c) (other : c.peer ≠ s.peer)
    (meant : ∀ named, u.targets = some named → c.peer ∈ named.ids)

/-- The step is the connection's join of the room, or its leave, and the leave takes effect. -/
def Moves (w : World) (a : Action) (room : RoomId) (d : Connection) : Prop :=
  (a.Joins w room d ∧ (w.step a).hub.registry = (w.hub.registry.join room d).1) ∨
    (a.Leaves d ∧ w.hub.registry.isHeldBy room d = true ∧
      (w.step a).hub.registry = (w.hub.registry.leave room d).1)

/-- Somebody joins or leaves the room, and the frame tells the connection who the members are
right after. -/
inductive AnnouncesTo (w : World) (a : Action) (room : RoomId) (c : Connection) (frame : Frame) :
    Prop where
  | intro (ids : List PeerId) (d : Connection) (moves : w.Moves a room d)
    (encodes : (Downlink.peerList ids).encode = .ok frame) (lists : frame.Lists ids)
    (nodup : ids.Nodup)
    (mem_iff : ∀ peer, peer ∈ ids ↔ ∃ e, (w.step a).hub.registry.holder? room peer = some e)
    (holds : (w.step a).hub.registry.holder? room c.peer = some c) (listed : c.peer ∈ ids)

def Gives (w : World) (a : Action) (room : RoomId) (c : Connection) (frame : Frame) : Prop :=
  w.RelaysTo a room c frame ∨ w.AnnouncesTo a room c frame

/-! ### Who is in the rooms -/

/-- Every connection has joined one room once, and the places are held by such as have joined. -/
structure Settled (w : World) : Prop where
  tidy : w.hub.registry.Tidy
  numbers_nodup : (w.roster.map (·.2.number)).Nodup
  numbers_lt : ∀ seat ∈ w.roster, seat.2.number < w.hub.outboxes.size
  seated : ∀ room c, w.hub.registry.holder? room c.peer = some c → (room, c) ∈ w.roster

section

variable {w k : World} {a : Action}

theorem Settled.of_same (h : w.Settled) (size : w.hub.outboxes.size ≤ k.hub.outboxes.size)
    (registry : k.hub.registry = w.hub.registry) (roster : k.roster = w.roster) : k.Settled where
  tidy := registry ▸ h.tidy
  numbers_nodup := roster ▸ h.numbers_nodup
  numbers_lt := by
    intro seat hseat
    rw [roster] at hseat
    exact Nat.lt_of_lt_of_le (h.numbers_lt seat hseat) size
  seated := by
    intro room c hc
    rw [registry] at hc
    rw [roster]
    exact h.seated room c hc

theorem Settled.of_makes (h : w.Settled) (size : w.hub.outboxes.size ≤ k.hub.outboxes.size)
    {made : Option Post} (makes : w.Makes a k made) : k.Settled := by
  cases makes with
  | nothing registry roster => exact h.of_same size registry roster
  | relayed s item u frame ms present own passes registry roster =>
      exact h.of_same size registry roster
  | joined room c own made registry roster =>
      refine ⟨registry ▸ h.tidy.join room c, ?_, ?_, ?_⟩
      · rw [roster, List.map_cons, List.nodup_cons]
        refine ⟨?_, h.numbers_nodup⟩
        intro hmem
        obtain ⟨seat, hseat, hnumber⟩ := List.mem_map.mp hmem
        exact Nat.ne_of_lt (h.numbers_lt seat hseat) (hnumber.trans own.1)
      · intro seat hseat
        rw [roster] at hseat
        rcases List.mem_cons.mp hseat with rfl | hold
        · exact made
        · exact Nat.lt_of_lt_of_le (h.numbers_lt seat hold) size
      · intro other d hd
        rw [registry, Registry.holder?_join] at hd
        rw [roster]
        split at hd
        · rename_i hslot
          cases hd
          rw [hslot.1]
          exact List.mem_cons_self
        · exact List.mem_cons_of_mem _ (h.seated other d hd)
  | left room c own registry roster =>
      refine ⟨registry ▸ h.tidy.leave room c, roster ▸ h.numbers_nodup, ?_, ?_⟩
      · intro seat hseat
        rw [roster] at hseat
        exact Nat.lt_of_lt_of_le (h.numbers_lt seat hseat) size
      · intro other d hd
        rw [registry, Registry.holder?_leave] at hd
        rw [roster]
        split at hd
        · cases hd
        · exact h.seated other d hd

theorem roster_subset_of_makes {made : Option Post} (makes : w.Makes a k made) :
    w.roster ⊆ k.roster := by
  cases makes with
  | nothing registry roster => rw [roster]; exact List.Subset.refl _
  | relayed s item u frame ms present own passes registry roster =>
      rw [roster]; exact List.Subset.refl _
  | joined room c own made registry roster =>
      rw [roster]; exact List.subset_cons_self _ _
  | left room c own registry roster => rw [roster]; exact List.Subset.refl _

/-- A connection is known by its number, and so is the room that it joined. -/
theorem Settled.eq_of_number (h : w.Settled) {x y : RoomId × Connection} (hx : x ∈ w.roster)
    (hy : y ∈ w.roster) (same : x.2.number = y.2.number) : x = y :=
  List.inj_on_of_nodup_map h.numbers_nodup hx hy same

theorem Settled.distinct (h : w.Settled) (room : RoomId) : w.hub.registry.Distinct room := by
  intro c d hc hd hsame
  cases h.eq_of_number (h.seated room c hc) (h.seated room d hd) hsame
  rfl

/-! ### What a step decides on -/

/-- Whom a leave is announced to: those who are in the room after it, provided that it took
effect. -/
theorem leave_members {r : Registry} (h : r.Tidy) (room : RoomId) (c : Connection) :
    (r.leave room c).2.members = [] ∨ (r.isHeldBy room c = true ∧
      (r.leave room c).1.slots.Lists room (r.leave room c).2.members) := by
  cases hheld : r.isHeldBy room c with
  | false =>
      rw [Registry.leave_of_not_held hheld]
      exact Or.inl rfl
  | true =>
      obtain ⟨d, hd, -⟩ := Registry.isHeldBy_iff.mp hheld
      obtain ⟨ms, hms, -⟩ := Option.bind_eq_some_iff.mp hd
      rcases Registry.leave_of_held hms hheld with ⟨-, hanswer⟩ | ⟨-, hanswer, hmembers⟩
      · rw [hanswer]
        exact Or.inl rfl
      · rw [hanswer]
        exact Or.inr ⟨rfl, (h.leave room c).lists hmembers⟩

theorem announcesTo_of_lists {room : RoomId} {d : Connection} {ms : List Connection}
    (moves : w.Moves a room d) (lists : (w.step a).hub.registry.slots.Lists room ms)
    {t : Connection} (ht : t ∈ ms) : w.AnnouncesTo a room t (listPost ms).frame := by
  have hencodes := encode_listPost ms
  have hholds : (w.step a).hub.registry.holder? room t.peer = some t := (lists.mem_iff t).mp ht
  have hids (peer : PeerId) : peer ∈ ms.map (·.peer) ↔
      ∃ e, (w.step a).hub.registry.holder? room peer = some e := by
    rw [List.mem_map]
    constructor
    · rintro ⟨e, he, rfl⟩
      exact ⟨e, (lists.mem_iff e).mp he⟩
    · rintro ⟨e, he⟩
      have hpeer := Registry.peer_of_holder? he
      subst hpeer
      exact ⟨e, (lists.mem_iff e).mpr he, rfl⟩
  exact .intro _ d moves hencodes (lists_listFrame _) lists.peers_nodup hids hholds
    (List.mem_map_of_mem ht)

/-- The post is for distinct connections, all of which have joined, and the step gives its frame to
each of them. -/
def GivesPost (w : World) (a : Action) (p : Post) : Prop :=
  (p.targets.map (·.number)).Nodup ∧
    ∀ t ∈ p.targets, ∃ room, (room, t) ∈ (w.step a).roster ∧ w.Gives a room t p.frame

theorem givesPost_of_lists (after : (w.step a).Settled) {room : RoomId} {d : Connection}
    {ms : List Connection} (moves : w.Moves a room d)
    (lists : (w.step a).hub.registry.slots.Lists room ms) : w.GivesPost a (listPost ms) := by
  have hholders (t : Connection) (ht : t ∈ ms) :
      (w.step a).hub.registry.holder? room t.peer = some t := (lists.mem_iff t).mp ht
  refine ⟨(after.distinct room).numbers_nodup lists.peers_nodup hholders, ?_⟩
  intro t ht
  exact ⟨room, after.seated room t (hholders t ht), Or.inr (announcesTo_of_lists moves lists ht)⟩

/-- The connection that holds the place of a session under its number is that of the session. -/
theorem Settled.sender_holds (h : w.Settled) {s : Session} (present : s ∈ w.sessions)
    (held : w.hub.registry.isHeldBy s.room s.connection = true) :
    w.hub.registry.holder? s.room s.peer = some s.connection := by
  obtain ⟨d, hd, hsame⟩ := Registry.isHeldBy_iff.mp held
  have hpeer := Registry.peer_of_holder? hd
  have hseat : (s.room, s.connection) ∈ w.roster := List.mem_map_of_mem present
  cases h.eq_of_number (h.seated s.room d (hpeer ▸ hd)) hseat hsame
  exact hd

theorem givesPost_of_passes (h : w.Settled) {s : Session} {item : Inbound} {u : Uplink}
    {frame : Frame} {ms : Members} (present : s ∈ w.sessions)
    (own : a = .receive s.connection.number item) (passes : s.Passes w.hub item u frame ms)
    (roster : (w.step a).roster = w.roster) :
    w.GivesPost a ⟨frame, resolve ms s.peer u.targets⟩ := by
  obtain ⟨f, rfl, hdecodes⟩ := passes.decodes
  have hintended := h.tidy.intended_resolve passes.members s.peer u.targets
  refine ⟨hintended.numbers_nodup (h.distinct s.room), ?_⟩
  intro t ht
  obtain ⟨hholds, hother, hmeant⟩ := (hintended.mem_iff t).mp ht
  refine ⟨s.room, roster ▸ h.seated s.room t hholds, Or.inl ?_⟩
  exact .intro s f u _ present passes.running rfl own hdecodes passes.succeeds passes.encodes
    (Uplink.conveys_relayed hdecodes passes.encodes) (h.sender_holds present passes.held) hholds
    hother hmeant

/-- Whatever a step decides on, it gives. -/
theorem givesPost_of_makes (h : w.Settled) (after : (w.step a).Settled) {p : Post}
    (makes : w.Makes a (w.step a) (some p)) : w.GivesPost a p := by
  generalize hmade : some p = made at makes
  cases makes with
  | nothing registry roster => cases hmade
  | joined room c own made registry roster =>
      cases hmade
      apply givesPost_of_lists after (Or.inl ⟨own, registry⟩)
      rw [registry]
      exact (h.tidy.join room c).lists (Registry.members?_join_self _ room c)
  | left room c own registry roster =>
      cases hmade
      rcases leave_members h.tidy room c with hnone | ⟨hheld, hlists⟩
      · simp [GivesPost, listPost, hnone]
      · apply givesPost_of_lists after (Or.inr ⟨own, hheld, registry⟩)
        rw [registry]
        exact hlists
  | relayed s item u frame ms present own passes registry roster =>
      cases hmade
      exact givesPost_of_passes h present own passes roster

end

/-! ### The account of a run -/

theorem run_concat (actions : List Action) (a : Action) :
    run (actions ++ [a]) = (run actions).step a := by
  rw [run, List.foldl_concat, run]

theorem queued_concat (actions : List Action) (a : Action) (c : Connection) :
    queued (actions ++ [a]) c = queued actions c ++
      ((run actions).hub.outbox c).given (((run actions).step a).hub.outbox c) := by
  have hfrom (w : World) : w.queuedFrom c (actions ++ [a]) = w.queuedFrom c actions ++
      ((actions.foldl step w).hub.outbox c).given
        (((actions.foldl step w).step a).hub.outbox c) := by
    induction actions generalizing w with
    | nil => simp [queuedFrom]
    | cons first rest ih =>
        rw [List.cons_append, queuedFrom, ih, queuedFrom, List.append_assoc]
        rfl
  exact hfrom {}

/-- The step of this number gives the frame to a connection that has joined. -/
def Origin (actions : List Action) (k : Nat) (c : Connection) (frame : Frame) : Prop :=
  ∃ a room, actions[k]? = some a ∧ (room, c) ∈ (run actions).roster ∧
    (run (actions.take k)).Gives a room c frame

theorem Origin.lt_length {actions : List Action} {k : Nat} {c : Connection} {frame : Frame}
    (h : Origin actions k c frame) : k < actions.length := by
  obtain ⟨a, room, ha, -⟩ := h
  exact (List.getElem?_eq_some_iff.mp ha).1

/-- Later steps change nothing about what an earlier one gave. -/
theorem Origin.concat {actions : List Action} {k : Nat} {c : Connection} {frame : Frame}
    (h : Origin actions k c frame) {b : Action}
    (grows : (run actions).roster ⊆ (run (actions ++ [b])).roster) :
    Origin (actions ++ [b]) k c frame := by
  have hlt := h.lt_length
  obtain ⟨a, room, ha, hroster, hgives⟩ := h
  refine ⟨a, room, ?_, grows hroster, ?_⟩
  · rw [List.getElem?_append_left hlt, ha]
  · rw [List.take_append_of_le_length (Nat.le_of_lt hlt)]
    exact hgives

/-- These are frames with their origins, and no step is the origin of two, or of one and of what is
still planned. -/
structure Trace (actions : List Action) (plans : List (Nat × Post)) (c : Connection)
    (trace : List (Nat × Frame)) : Prop where
  nodup : (trace.map (·.1) ++ plans.map (·.1)).Nodup
  origin : ∀ s ∈ trace, ∃ t, t.number = c.number ∧ Origin actions s.1 t s.2

/-- The number of the next step is that of no earlier one. -/
theorem Trace.fresh {actions : List Action} {plans : List (Nat × Post)} {c : Connection}
    {trace : List (Nat × Frame)} (h : Trace actions plans c trace)
    (bounded : ∀ j ∈ plans, j.1 < actions.length) :
    actions.length ∉ trace.map (·.1) ++ plans.map (·.1) := by
  intro hmem
  rcases List.mem_append.mp hmem with htrace | hplans
  · obtain ⟨s, hs, heq⟩ := List.mem_map.mp htrace
    obtain ⟨t, -, horigin⟩ := h.origin s hs
    exact Nat.ne_of_lt horigin.lt_length heq
  · obtain ⟨j, hj, heq⟩ := List.mem_map.mp hplans
    exact Nat.ne_of_lt (bounded j hj) heq

/-- Every plan goes back to a step that gives its frame to each of its targets, and the frames of
every connection can be traced. -/
structure Accounts (actions : List Action) (plans : List (Nat × Post))
    (frames : Connection → List Frame) : Prop where
  bounded : ∀ j ∈ plans, j.1 < actions.length
  targets_nodup : ∀ j ∈ plans, (j.2.targets.map (·.number)).Nodup
  origin : ∀ j ∈ plans, ∀ t ∈ j.2.targets, Origin actions j.1 t j.2.frame
  traced : ∀ c, ∃ trace, trace.map (·.2) = frames c ∧ Trace actions plans c trace

section

variable {actions : List Action} {plans : List (Nat × Post)} {frames : Connection → List Frame}

/-- What a further step decides on is planned under the number of that step. -/
theorem Accounts.concat (h : Accounts actions plans frames) {a : Action}
    (grows : (run actions).roster ⊆ (run (actions ++ [a])).roster) {made : Option Post}
    (gives : ∀ p ∈ made, (run actions).GivesPost a p) :
    Accounts (actions ++ [a]) (made.toList.map (fun p => (actions.length, p)) ++ plans)
      frames where
  bounded := by
    intro j hj
    rw [List.length_append, List.length_singleton]
    rcases List.mem_append.mp hj with hnew | hold
    · obtain ⟨p, -, rfl⟩ := List.mem_map.mp hnew
      exact Nat.lt_succ_self _
    · exact Nat.lt_succ_of_lt (h.bounded j hold)
  targets_nodup := by
    intro j hj
    rcases List.mem_append.mp hj with hnew | hold
    · obtain ⟨p, hp, rfl⟩ := List.mem_map.mp hnew
      exact (gives p (Option.mem_toList.mp hp)).1
    · exact h.targets_nodup j hold
  origin := by
    intro j hj t ht
    rcases List.mem_append.mp hj with hnew | hold
    · obtain ⟨p, hp, rfl⟩ := List.mem_map.mp hnew
      obtain ⟨room, hroster, hgives⟩ := (gives p (Option.mem_toList.mp hp)).2 t ht
      rw [← run_concat] at hroster
      refine ⟨a, room, by simp, hroster, ?_⟩
      rw [List.take_left]
      exact hgives
    · exact (h.origin j hold t ht).concat grows
  traced := by
    intro c
    obtain ⟨trace, hframes, htrace⟩ := h.traced c
    refine ⟨trace, hframes, ?_, ?_⟩
    · cases made with
      | none => exact htrace.nodup
      | some p =>
          have hcons := List.nodup_cons.mpr ⟨htrace.fresh h.bounded, htrace.nodup⟩
          exact (List.perm_middle.nodup_iff).mpr hcons
    · intro s hs
      obtain ⟨t, hnumber, horigin⟩ := htrace.origin s hs
      exact ⟨t, hnumber, horigin.concat grows⟩

/-- A plan that is carried out gives its frame to some of its targets, once. -/
theorem Accounts.send {before after : List (Nat × Post)} {k : Nat} {p : Post}
    (h : Accounts actions (before ++ (k, p) :: after) frames) {sent : Connection → List Frame}
    (flows : ∀ c, sent c = frames c ∨
      c.number ∈ p.targets.map (·.number) ∧ sent c = frames c ++ [p.frame]) :
    Accounts actions (before ++ after) sent := by
  have hrest : before ++ after ⊆ before ++ (k, p) :: after :=
    ((List.sublist_cons_self (k, p) after).append_left before).subset
  refine ⟨fun j hj => h.bounded j (hrest hj), fun j hj => h.targets_nodup j (hrest hj),
    fun j hj => h.origin j (hrest hj), ?_⟩
  intro c
  obtain ⟨trace, hframes, htrace⟩ := h.traced c
  have hmiddle : (k :: (trace.map (·.1) ++ (before ++ after).map (·.1))).Nodup := by
    have hperm : (trace.map (·.1) ++ (before ++ (k, p) :: after).map (·.1)).Perm
        (k :: (trace.map (·.1) ++ (before ++ after).map (·.1))) := by
      simp only [List.map_append, List.map_cons, ← List.append_assoc]
      exact List.perm_middle
    exact hperm.nodup_iff.mp htrace.nodup
  rcases flows c with hsame | ⟨htarget, hsent⟩
  · refine ⟨trace, by rw [hframes, hsame], ?_, htrace.origin⟩
    exact (List.nodup_cons.mp hmiddle).2
  · obtain ⟨t, ht, hnumber⟩ := List.mem_map.mp htarget
    have hadded : (trace ++ [(k, p.frame)]).map (·.2) = sent c := by
      rw [List.map_append, hframes, hsent]
      rfl
    refine ⟨trace ++ [(k, p.frame)], hadded, ?_, ?_⟩
    · rw [List.map_append, List.append_assoc]
      exact (List.perm_middle.nodup_iff).mpr hmiddle
    · intro s hs
      rcases List.mem_append.mp hs with hold | hlast
      · exact htrace.origin s hold
      · cases List.mem_singleton.mp hlast
        exact ⟨t, hnumber, h.origin (k, p) (by simp) t ht⟩

/-- What a further step sends is taken off the plans. -/
theorem Accounts.flow (h : Accounts actions plans frames) {a : Action} {made sent : Option Post}
    {w k : World} (effect : w.Effect a k made sent)
    (planned : (plans.map (·.2)).Perm (made.toList ++ w.pending)) :
    w.hub.Flows k.hub sent ∧ ∃ rest, (rest.map (·.2)).Perm k.pending ∧
      Accounts actions rest fun c =>
        frames c ++ (w.hub.outbox c).given (k.hub.outbox c) := by
  have hperm := planned.trans effect.pending
  cases sent with
  | none =>
      have hflows := effect.flows (by simp)
      refine ⟨hflows, plans, hperm, ?_⟩
      have hsame : (fun c => frames c ++ (w.hub.outbox c).given (k.hub.outbox c)) = frames := by
        funext c
        rcases (hflows c).2 with hnil | ⟨p, hp, -⟩
        · rw [hnil, List.append_nil]
        · cases hp
      rw [hsame]
      exact h
  | some p =>
      have hmem : p ∈ plans.map (·.2) := hperm.mem_iff.mpr List.mem_cons_self
      obtain ⟨⟨n, q⟩, hplan, rfl⟩ := List.mem_map.mp hmem
      obtain ⟨before, after, rfl⟩ := List.append_of_mem hplan
      have hflows := effect.flows (by
        rintro _ ⟨⟩
        exact h.targets_nodup _ hplan)
      refine ⟨hflows, before ++ after, ?_, ?_⟩
      · rw [List.map_append, List.map_cons] at hperm
        rw [List.map_append]
        exact (List.perm_middle.symm.trans hperm).cons_inv
      · apply h.send
        intro c
        rcases (hflows c).2 with hnil | ⟨_, ⟨⟩, htarget, hone⟩
        · exact Or.inl (by rw [hnil, List.append_nil])
        · exact Or.inr ⟨htarget, by rw [hone]⟩

end

/-- In every run all frames are accounted for, and none is in an outbox that did not come in. -/
theorem accounts_run (actions : List Action) :
    (run actions).Settled ∧
      (∀ c, ((run actions).hub.outbox c).frames <:+ queued actions c) ∧
      ∃ plans, (plans.map (·.2)).Perm (run actions).pending ∧
        Accounts actions plans (queued actions) := by
  induction actions using List.reverseRecOn with
  | nil =>
      refine ⟨⟨Registry.tidy_empty, List.nodup_nil, by simp [run, roster], ?_⟩, ?_, [], ?_, ?_⟩
      · intro room c hc
        cases hc
      · intro c
        exact List.suffix_refl _
      · exact List.Perm.refl _
      · exact ⟨by simp, by simp, by simp, fun c => ⟨[], rfl, List.nodup_nil, by simp⟩⟩
  | append_singleton actions a ih =>
      obtain ⟨hsettled, hsuffix, plans, hplans, haccounts⟩ := ih
      obtain ⟨made, sent, heffect⟩ := (run actions).effect_step a
      have hafter : ((run actions).step a).Settled := hsettled.of_makes heffect.size heffect.makes
      have hgrows : (run actions).roster ⊆ (run (actions ++ [a])).roster := by
        rw [run_concat]
        exact roster_subset_of_makes heffect.makes
      have hgives : ∀ p ∈ made, (run actions).GivesPost a p := by
        rintro p ⟨⟩
        exact givesPost_of_makes hsettled hafter heffect.makes
      have hplanned : ((made.toList.map (fun p => (actions.length, p)) ++ plans).map (·.2)).Perm
          (made.toList ++ (run actions).pending) := by
        have hmade : (made.toList.map (fun p => (actions.length, p))).map (·.2) = made.toList := by
          simp
        rw [List.map_append, hmade]
        exact hplans.append_left _
      obtain ⟨hflows, rest, hrest, haccounts⟩ :=
        (haccounts.concat hgrows hgives).flow heffect hplanned
      have hqueued : queued (actions ++ [a]) = fun c => queued actions c ++
          ((run actions).hub.outbox c).given (((run actions).step a).hub.outbox c) :=
        funext (queued_concat actions a)
      rw [run_concat, hqueued]
      refine ⟨hafter, ?_, rest, hrest, haccounts⟩
      intro c
      exact (hflows c).1.trans (List.suffix_append_self_iff.mpr (hsuffix c))

/-- Every frame that was ever queued to a connection goes back to a step of its own, which relayed
it in the connection's room or announced who is there. No two of its frames go back to one step. -/
theorem queued_originates (actions : List Action) {room : RoomId} {c : Connection}
    (joined : (room, c) ∈ (run actions).roster) :
    ((run actions).hub.outbox c).frames <:+ queued actions c ∧
      ∃ origins : List Nat, origins.Nodup ∧
        List.Forall₂ (fun k frame => ∃ a, actions[k]? = some a ∧
            ((run (actions.take k)).RelaysTo a room c frame ∨
              (run (actions.take k)).AnnouncesTo a room c frame))
          origins (queued actions c) := by
  obtain ⟨hsettled, hsuffix, plans, -, haccounts⟩ := accounts_run actions
  obtain ⟨trace, hframes, htrace⟩ := haccounts.traced c
  refine ⟨hsuffix c, trace.map (·.1), htrace.nodup.of_append_left, ?_⟩
  rw [← hframes, List.forall₂_map_left_iff, List.forall₂_map_right_iff, List.forall₂_same]
  intro s hs
  obtain ⟨t, hnumber, a, other, ha, hroster, hgives⟩ := htrace.origin s hs
  cases hsettled.eq_of_number hroster joined hnumber
  exact ⟨a, ha, hgives⟩

/-- A frame for `b` is held back, and before it is delivered another connection takes over from
`b`. -/
def takeover : List Action :=
  [.start "r" "a" 4, .start "r" "b" 4, .hold 50,
    .receive 0 (.frame (.text "\x7b\"targetPeers\":[\"b\",\"b\"]\x7d")),
    .start "r" "b" 4, .deliver 0]

theorem queued_originates_takeover :
    ("r", ⟨1, "b"⟩) ∈ (run takeover).roster ∧
      queued takeover ⟨1, "b"⟩ =
        [.text ("\x7b\"action\":\"__update_peers__\"," ++
          "\"data\":[\"a\",\"b\"],\"peerId\":\"server\"\x7d"),
          .text "\x7b\"action\":\"\",\"peerId\":\"a\"\x7d"] ∧
      (queued takeover ⟨2, "b"⟩).length = 1 ∧
      ∃ origins : List Nat, origins.Nodup ∧
        List.Forall₂ (fun k frame => ∃ a, takeover[k]? = some a ∧
            ((run (takeover.take k)).RelaysTo a "r" ⟨1, "b"⟩ frame ∨
              (run (takeover.take k)).AnnouncesTo a "r" ⟨1, "b"⟩ frame))
          origins (queued takeover ⟨1, "b"⟩) := by
  have hjoined : ("r", ⟨1, "b"⟩) ∈ (run takeover).roster := by decide +kernel
  refine ⟨hjoined, by decide +kernel, by decide +kernel, ?_⟩
  exact (queued_originates takeover hjoined).2

end World

end RoomRelay
