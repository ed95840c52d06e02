import RoomRelay.Proofs.Hub.Seats
import RoomRelay.Proofs.Hub.Shadows

/-!
What becomes of a connection when another one takes its place. It has lost the place for good, and
so it is inert from that moment on. Until then it is not asked to close. That its place was taken
is announced to it at some time after that moment, and until then a relay of its own may ask it to
close as well.
-/

namespace RoomRelay

/-- Whom a join supersedes is asked to close, and gets nothing else if it is not a member. -/
theorem Hub.outbox_announceJoin_superseded {h : Hub} {room : RoomId} {c d : Connection}
    {joined : Joined} (replaced : joined.superseded = some c)
    (others : ∀ m ∈ joined.members, m.number ≠ c.number) :
    (h.announceJoin room d joined).outbox c = (h.outbox c).requestClose true superseded := by
  simp only [announceJoin, replaced, broadcastPeers, encode_peerList]
  rw [outbox_sendEach_of_not_mem others]
  exact outbox_close_self _ c superseded true

namespace World

variable {w : World} {n : Nat}

/-- A request to close is of one of two kinds. -/
theorem Requests.eq_or {a : Action} {r : Close} (requests : w.Requests n a r) :
    r = superseded ∨ r = roomGone := by
  cases requests with
  | started => exact Or.inl rfl
  | announced => exact Or.inl rfl
  | relayed f s r present same refuses =>
      cases refuses with
      | gone => exact Or.inr rfl
      | stale => exact Or.inl rfl

/-- The step makes the announcement of the connection's join. -/
inductive Tells (w : World) (d : Connection) : Action → Prop where
  | started (room : RoomId) (capacity : Nat) (new : d.number = w.hub.outboxes.size) :
    Tells w d (.start room d.peer capacity)
  | announced (k : Nat) (room : RoomId) (answer : Joined)
    (notice : w.notices[k]? = some (.joined room d answer)) : Tells w d (.announce k)

/-! ### The moment of being superseded -/

theorem run_append (before after : List Action) :
    run (before ++ after) = (run before).runFrom after := List.foldl_append

/-- The connection holds the place, and after the next action another connection does. -/
structure Supersedes (pre : List Action) (a : Action) (room : RoomId) (c d : Connection) :
    Prop where
  before : (run pre).hub.registry.holder? room c.peer = some c
  after : (run (pre ++ [a])).hub.registry.holder? room c.peer = some d
  other : d ≠ c

section

variable {pre post : List Action} {a : Action} {room : RoomId} {c d : Connection}

namespace Supersedes

theorem joined (s : Supersedes pre a room c d) : (room, c) ∈ (run pre).roster :=
  (noted_run pre).settled.seated room c s.before

theorem held (s : Supersedes pre a room c d) :
    (run pre).hub.registry.isHeldBy room c = true :=
  Registry.isHeldBy_iff.mpr ⟨c, s.before, rfl⟩

/-- The place is taken by a connection that joins. -/
theorem joins (s : Supersedes pre a room c d) : d.peer = c.peer ∧ a.Joins (run pre) room d := by
  obtain ⟨made, sent, heffect⟩ := (run pre).effect_step a
  have hmakes := heffect.makes
  have hafter := s.after
  rw [run_concat] at hafter
  have hbefore (same : (run pre).hub.registry.holder? room c.peer = some d) : False := by
    rw [s.before] at same
    exact s.other (Option.some.inj same).symm
  generalize (run pre).step a = k at hmakes hafter
  cases hmakes with
  | nothing registry roster => exact (hbefore (registry ▸ hafter)).elim
  | relayed s' item u frame ms present own passes registry roster =>
      exact (hbefore (registry ▸ hafter)).elim
  | joined other e own made registry roster =>
      rw [registry, Registry.holder?_join] at hafter
      split at hafter
      · rename_i hslot
        cases hafter
        exact ⟨hslot.2.symm, hslot.1 ▸ own⟩
      · exact (hbefore hafter).elim
  | left other e own registry roster =>
      rw [registry, Registry.holder?_leave] at hafter
      split at hafter
      · cases hafter
      · exact (hbefore hafter).elim

theorem displaced (s : Supersedes pre a room c d) : (run (pre ++ [a])).Displaced c.number := by
  obtain ⟨hsettled, -, plans, hplans, haccounts⟩ := accounts_run (pre ++ [a])
  have hjoined : (room, c) ∈ (run (pre ++ [a])).roster := by
    rw [run_concat]
    exact roster_step _ a s.joined
  refine ⟨hsettled, ?_, hsettled.numbers_lt _ hjoined, ?_⟩
  · intro p hp
    obtain ⟨plan, hplan, rfl⟩ := List.mem_map.mp (hplans.mem_iff.mpr hp)
    exact haccounts.targets_nodup plan hplan
  · intro other peer e he hnumber
    have hpeer := Registry.peer_of_holder? he
    subst hpeer
    cases hsettled.eq_of_number (hsettled.seated other e he) hjoined hnumber
    have hafter := s.after
    rw [he] at hafter
    exact s.other (Option.some.inj hafter).symm

/-- None of its leaves is to be announced, for it has not left. -/
theorem announced (s : Supersedes pre a room c d) :
    ∀ notice ∈ (run (pre ++ [a])).notices, notice.isVain c.number = false := by
  intro notice hnotice
  rw [run_concat] at hnotice
  cases (run pre).notes_step a notice hnotice with
  | kept notice waits =>
      cases notice with
      | joined other e answer => rfl
      | left other e answer =>
          cases answer with
          | notMember =>
              have hne : e.number ≠ c.number := by
                intro hnumber
                obtain ⟨hroster, hnot⟩ := (noted_run pre).ousted _ waits (other, e) rfl
                cases (noted_run pre).settled.eq_of_number hroster s.joined hnumber
                exact absurd s.held (by simp [hnot])
              simpa [Notice.isVain] using hne
          | _ => rfl
  | entered other e own => rfl
  | departed other e waits own registry =>
      obtain ⟨-, -, capacity, hstart | henter⟩ := s.joins
      · rw [hstart] at own
        cases own
      · rw [henter] at own
        cases own

/-- As long as it holds the place the connection is not asked to close. -/
theorem unasked (s : Supersedes pre a room c d) {before after : List Action} {b : Action}
    (split : pre = before ++ b :: after) {r : Close}
    (requests : (run before).Requests c.number b r) : False := by
  have hjoined := s.joined
  have hheld := s.held
  rw [split, ← List.singleton_append, ← List.append_assoc, run_append] at hjoined hheld
  have hnoted := noted_run (before ++ [b])
  obtain ⟨seat, hseat, hnumber, hnot⟩ := (noted_run before).not_held_of_requests requests
  rw [← run_concat] at hnot
  have hroster : seat ∈ (run (before ++ [b])).roster := by
    rw [run_concat]
    exact roster_step _ b hseat
  have hlater := hnoted.settled.not_held_run hroster hnot after
  have hsettled := (noted_run (before ++ [b] ++ after)).settled
  rw [run_append] at hsettled
  cases hsettled.eq_of_number (roster_run _ after hroster) hjoined hnumber
  rw [hlater] at hheld
  cases hheld

/-- What the join that takes the place is answered: whom it supersedes, and members among whom that
one is not. -/
theorem answer (s : Supersedes pre a room c d) :
    ((run pre).hub.registry.join room d).2.superseded = some c ∧
      ∀ m ∈ ((run pre).hub.registry.join room d).2.members, m.number ≠ c.number := by
  obtain ⟨hpeer, hown⟩ := s.joins
  have hdisplaced := s.displaced
  rw [run_concat] at hdisplaced
  refine ⟨?_, ?_⟩
  · rw [superseded_join, hpeer]
    exact s.before
  · intro m hm
    have hlists := ((noted_run pre).settled.tidy.join room d).lists
      (Registry.members?_join_self (run pre).hub.registry room d)
    refine hdisplaced.unseated room m.peer m ?_
    rw [(step_of_joins hown).2]
    exact (hlists.mem_iff m).mp hm

/-- So it is in the announcement, as long as that is still to be made. -/
theorem notice_run (s : Supersedes pre a room c d) (actions : List Action) :
    (room, d) ∈ (run (pre ++ a :: actions)).roster ∧
      ∀ other answer, .joined other d answer ∈ (run (pre ++ a :: actions)).notices →
        answer.superseded = some c ∧ ∀ m ∈ answer.members, m.number ≠ c.number := by
  obtain ⟨-, hown⟩ := s.joins
  have hnoted := noted_run pre
  have hafter := s.displaced.settled
  rw [run_concat] at hafter
  have hstart (w : World) (settled : w.Settled) (joined : (room, d) ∈ w.roster)
      (pending : ∀ other answer, .joined other d answer ∈ w.notices →
        answer.superseded = some c ∧ ∀ m ∈ answer.members, m.number ≠ c.number) :
      (room, d) ∈ (w.runFrom actions).roster ∧
        ∀ other answer, .joined other d answer ∈ (w.runFrom actions).notices →
          answer.superseded = some c ∧ ∀ m ∈ answer.members, m.number ≠ c.number := by
    induction actions generalizing w with
    | nil => exact ⟨joined, pending⟩
    | cons b rest ih =>
        refine ih (w.step b) (settled.step b) (w.roster_step b joined) ?_
        intro other answer hnotice
        generalize hjoined : Notice.joined other d answer = notice at hnotice
        cases w.notes_step b notice hnotice with
        | kept notice waits => exact pending other answer (hjoined ▸ waits)
        | entered place e own =>
            cases hjoined
            exact absurd own.1 (Nat.ne_of_lt (settled.numbers_lt _ joined))
        | departed place e waits own registry => cases hjoined
  have hsplit : run (pre ++ a :: actions) = ((run pre).step a).runFrom actions :=
    run_append pre (a :: actions)
  rw [hsplit]
  refine hstart _ hafter ((step_of_joins hown).1 ▸ List.mem_cons_self) ?_
  intro other answer hnotice
  generalize hjoined : Notice.joined other d answer = notice at hnotice
  cases (run pre).notes_step a notice hnotice with
  | kept notice waits =>
      have hroster := hnoted.joined other d answer (hjoined ▸ waits)
      exact absurd hown.1 (Nat.ne_of_lt (hnoted.settled.numbers_lt _ hroster))
  | entered place e own =>
      cases hjoined
      have hroom : other = room := by
        obtain ⟨-, capacity, rfl | rfl⟩ := hown
        · obtain ⟨-, capacity', h | h⟩ := own <;> cases h
          rfl
        · obtain ⟨-, capacity', h | h⟩ := own <;> cases h
          rfl
      subst hroom
      exact s.answer
  | departed place e waits own registry => cases hjoined

/-- The connection that took the place has announced its join at once, or has yet to do so. -/
theorem tells (s : Supersedes pre a room c d) :
    (run pre).Tells d a ∨
      ∃ (k : Nat) (answer : Joined),
        (run (pre ++ [a])).notices[k]? = some (.joined room d answer) := by
  obtain ⟨-, hnumber, capacity, rfl | rfl⟩ := s.joins
  · exact Or.inl (.started room capacity hnumber)
  · obtain ⟨number, peer⟩ := d
    cases hnumber
    refine Or.inr ⟨(run pre).notices.length,
      ((run pre).hub.registry.join room ⟨(run pre).hub.outboxes.size, peer⟩).2, ?_⟩
    rw [run_concat]
    exact List.getElem?_concat_length

/-- The announcement asks the connection to close, and it gets nothing else then. -/
theorem outbox_tells (s : Supersedes pre a room c d) {mid rest : List Action} {b : Action}
    (split : a :: post = mid ++ b :: rest) (tells : (run (pre ++ mid)).Tells d b) :
    (run (pre ++ mid ++ [b])).hub.outbox c =
      ((run (pre ++ mid)).hub.outbox c).requestClose true superseded := by
  rw [run_concat]
  cases mid with
  | nil =>
      obtain rfl : a = b := (List.cons.inj split).1
      rw [List.append_nil] at tells ⊢
      obtain ⟨hreplaced, hothers⟩ := s.answer
      obtain ⟨-, hnumber, capacity, rfl | rfl⟩ := s.joins
      · have hmade := (noted_run pre).settled.numbers_lt _ s.joined
        obtain ⟨number, peer⟩ := d
        cases hnumber
        have hkept : ((run pre).hub.connect peer capacity).1.outbox c =
            (run pre).hub.outbox c := by
          simp only [Hub.connect, Hub.outbox, Array.getElem?_push, if_neg (Nat.ne_of_lt hmade)]
        rw [← hkept]
        exact Hub.outbox_announceJoin_superseded hreplaced hothers
      · cases tells
  | cons first mid =>
      obtain ⟨rfl, -⟩ := List.cons.inj split
      obtain ⟨hroster, hnotices⟩ := s.notice_run mid
      have hsettled := (noted_run (pre ++ a :: mid)).settled
      cases tells with
      | started other capacity new =>
          exact absurd new (Nat.ne_of_lt (hsettled.numbers_lt _ hroster))
      | announced k other answer notice =>
          obtain ⟨hreplaced, hothers⟩ := hnotices other answer (List.mem_of_getElem? notice)
          simp only [World.step, notice]
          exact Hub.outbox_announceJoin_superseded hreplaced hothers

end Supersedes

/-! ### Requests to close -/

theorem intake_append (w : World) (c : Connection) (before after : List Action) :
    w.intake c (before ++ after) = w.intake c before ++ (w.runFrom before).intake c after := by
  induction before generalizing w with
  | nil => rfl
  | cons b rest ih =>
      rw [List.cons_append, intake, ih, intake, List.append_assoc]
      rfl

/-- The requests to close in the outbox are those of the steps. -/
theorem closes_intake {p : Close → Prop} {actions : List Action} (w : World) (c : Connection)
    (asks : ∀ before b after r, actions = before ++ b :: after →
      (w.runFrom before).Requests c.number b r → p r) :
    ∀ r ∈ (w.intake c actions).filterMap Outbound.close?, p r := by
  induction actions generalizing w with
  | nil => simp [intake]
  | cons b rest ih =>
      intro r hr
      rw [intake, List.filterMap_append] at hr
      rcases List.mem_append.mp hr with hnow | hlater
      · exact asks [] b rest r rfl (w.requests_step b c r hnow)
      · refine ih (w.step b) ?_ r hlater
        intro before b' after r' hsplit
        exact asks (b :: before) b' after r' (by rw [hsplit, List.cons_append])

/-- What the connection whose place was taken is asked: nothing before that moment, then to close
for one of two reasons. The first request is that of the announcement, unless a relay of its own
finds its room gone before. -/
structure Warned (pre : List Action) (a : Action) (post : List Action) (room : RoomId)
    (c d : Connection) : Prop where
  unasked : (intake {} c pre).filterMap Outbound.close? = []
  reasons : ∀ r ∈ (intake {} c (pre ++ a :: post)).filterMap Outbound.close?,
    r = ⟨4000, "superseded by a newer connection"⟩ ∨ r = ⟨4001, "room not found"⟩
  tells : (run pre).Tells d a ∨
    ∃ (k : Nat) (answer : Joined),
      (run (pre ++ [a])).notices[k]? = some (.joined room d answer)
  asked : ∀ mid b rest, a :: post = mid ++ b :: rest → (run (pre ++ mid)).Tells d b →
    (run (pre ++ mid ++ [b])).hub.outbox c =
      ((run (pre ++ mid)).hub.outbox c).requestClose true
        ⟨4000, "superseded by a newer connection"⟩
  first : ∀ mid b rest, a :: post = mid ++ b :: rest → (run (pre ++ mid)).Tells d b →
    ((run (pre ++ mid)).hub.outbox c).receiver = .listening →
    (∀ before f after, mid = before ++ .receive c.number (.frame f) :: after →
      (run (pre ++ before)).hub.registry.members? room ≠ none) →
    ((intake {} c (pre ++ a :: post)).filterMap Outbound.close?).head? =
      some ⟨4000, "superseded by a newer connection"⟩

/-- What asks the connection to close for the other reason is a relay of its own in a room that is
gone. -/
theorem Supersedes.superseded_of_requests (s : Supersedes pre a room c d)
    {mid before after : List Action} {b : Action} (split : mid = before ++ b :: after)
    (present : ∀ before f after, mid = before ++ .receive c.number (.frame f) :: after →
      (run (pre ++ before)).hub.registry.members? room ≠ none) {r : Close}
    (requests : (run (pre ++ before)).Requests c.number b r) : r = superseded := by
  cases requests with
  | started => rfl
  | announced => rfl
  | relayed f t r found same refuses =>
      have hsettled := (noted_run (pre ++ before)).settled
      have hjoined : (room, c) ∈ (run (pre ++ before)).roster := by
        rw [run_append]
        exact roster_run _ before s.joined
      have hseat : t.seat = (room, c) :=
        hsettled.eq_of_number (List.mem_map_of_mem found) hjoined same
      cases refuses with
      | gone missing =>
          rw [(Prod.mk.inj hseat).1] at missing
          exact absurd missing (present before f after split)
      | stale => rfl

/-- A connection whose place is taken by another one is inert from then on. It is asked to close
when that one announces that it has joined. -/
theorem superseded_inert (s : Supersedes pre a room c d) :
    (run (pre ++ [a])).Inert c post ∧ Warned pre a post room c d := by
  have hunasked : (intake {} c pre).filterMap Outbound.close? = [] := by
    rw [List.eq_nil_iff_forall_not_mem]
    exact closes_intake {} c fun before b after r hsplit requests => s.unasked hsplit requests
  refine ⟨s.displaced.inert s.announced post, hunasked, ?_, s.tells, ?_, ?_⟩
  · exact closes_intake {} c fun before b after r _ requests => requests.eq_or
  · intro mid b rest hsplit htells
    exact s.outbox_tells hsplit htells
  · intro mid b rest hsplit htells hlistening hpresent
    have hmid : ∀ r ∈ ((run pre).intake c mid).filterMap Outbound.close?, r = superseded := by
      refine closes_intake (run pre) c ?_
      intro before b' after r hsplit' requests
      rw [← run_append] at requests
      exact s.superseded_of_requests hsplit' hpresent requests
    have hgained : ((run (pre ++ mid)).hub.outbox c).gained
        ((run (pre ++ mid ++ [b])).hub.outbox c) = [.close superseded] := by
      rw [s.outbox_tells hsplit htells, Outbox.gained,
        Outbox.contents_requestClose _ _ hlistening, List.drop_left]
    rw [run_concat] at hgained
    have hwhole : intake {} c (pre ++ a :: post) = intake {} c pre ++
        ((run pre).intake c mid ++ (run (pre ++ mid)).intake c (b :: rest)) := by
      rw [hsplit, intake_append, intake_append, run_append]
      rfl
    rw [hwhole, List.filterMap_append, hunasked, List.nil_append, List.filterMap_append, intake,
      hgained]
    generalize ((run pre).intake c mid).filterMap Outbound.close? = requested at hmid
    cases requested with
    | nil => rfl
    | cons r others => exact congrArg some (hmid r List.mem_cons_self)

end

/-- `a` and `b` are in a room, and `b` relays something that is held back. -/
def company : List Action :=
  [.hold 50, .start "r" "a" 4, .start "r" "b" 4, .receive 1 (.frame (.text "\x7b\x7d"))]

/-- The second `a` leaves again before it announces that it has joined. The first one gets what was
held back and relays once more, in a room in which `a` has no place. -/
def aftermath : List Action :=
  [.receive 2 .ended, .deliver 0, .receive 0 (.frame (.text "\x7b\x7d")), .announce 0, .abort 1]

theorem superseded_inert_aftermath :
    let a : Connection := ⟨0, "a"⟩
    let takeover : Action := .enter "r" "a" 4
    Supersedes company takeover "r" a ⟨2, "a"⟩ ∧
      (run (company ++ [takeover])).Inert a aftermath ∧
      (run (company ++ [takeover])).running 0 = true ∧
      (run (company ++ takeover :: aftermath)).running 0 = false ∧
      ((run (company ++ [takeover])).intake a aftermath).filterMap Outbound.frame? =
        [.text "\x7b\"action\":\"\",\"peerId\":\"b\"\x7d"] ∧
      ((intake {} a (company ++ takeover :: aftermath)).filterMap Outbound.close?).head? =
        some ⟨4000, "superseded by a newer connection"⟩ := by
  intro a takeover
  have hsupersedes : Supersedes company takeover "r" a ⟨2, "a"⟩ :=
    ⟨by decide +kernel, by decide +kernel, by decide⟩
  obtain ⟨hinert, hwarned⟩ : (run (company ++ [takeover])).Inert a aftermath ∧
      Warned company takeover aftermath "r" a ⟨2, "a"⟩ := superseded_inert hsupersedes
  refine ⟨hsupersedes, hinert, by decide +kernel, by decide +kernel, by decide +kernel, ?_⟩
  refine hwarned.first (takeover :: aftermath.take 3) (.announce 0) [.abort 1] rfl
    (.announced 0 "r" ⟨[⟨2, "a"⟩, ⟨1, "b"⟩], some a⟩ (by decide +kernel)) (by decide +kernel) ?_
  -- The room is there when the relay of the first `a` comes, for `b` is in it.
  rintro (_ | ⟨_, _ | ⟨_, _ | ⟨_, _ | ⟨_, before⟩⟩⟩⟩) f after hsplit <;>
    simp [aftermath, takeover, a] at hsplit
  obtain ⟨rfl, rfl, rfl, -⟩ := hsplit
  decide +kernel

/-- The third `a` takes the place of the second one and leaves, and the first one relays in a room
that is gone, all before the second one announces that it has joined. -/
def lateAnnouncement : List Action :=
  [.start "r" "a" 4, .receive 2 .ended, .receive 0 (.frame (.text "\x7b\x7d")), .announce 0]

theorem roomGone_asked_first :
    let a : Connection := ⟨0, "a"⟩
    let takeover : Action := .enter "r" "a" 4
    Supersedes [.start "r" "a" 4] takeover "r" a ⟨1, "a"⟩ ∧
      ((run (.start "r" "a" 4 :: takeover :: lateAnnouncement)).hub.outbox a).receiver =
        .listening ∧
      (intake {} a (.start "r" "a" 4 :: takeover :: lateAnnouncement)).filterMap
        Outbound.close? =
        [⟨4001, "room not found"⟩, ⟨4000, "superseded by a newer connection"⟩] :=
  ⟨⟨by decide +kernel, by decide +kernel, by decide⟩, by decide +kernel, by decide +kernel⟩

end World

end RoomRelay
