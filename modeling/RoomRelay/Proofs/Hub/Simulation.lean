import RoomRelay.Proofs.Hub.Exchange
import RoomRelay.Proofs.Hub.Seats

/-!
Exchanges are worlds. A run of an exchange in which every connection joins once, in the order of
the numbers and with an outbox of its own, and relays by its session only, is a run of a world in
which a join or a leave is announced right after it is made (`World.step_start`,
`World.step_runDeparture`). The world does not have the outboxes yet of those who are still to join.
-/

namespace RoomRelay

namespace Hub

/-- The state with more outboxes, which belong to nobody yet. -/
def extend (h : Hub) (rest : List Outbox) : Hub :=
  { h with outboxes := h.outboxes ++ rest.toArray }

/-- Everybody who may be sent something has an outbox. -/
structure Enclosed (h : Hub) : Prop where
  tidy : h.registry.Tidy
  holders : ∀ room peer d, h.registry.holder? room peer = some d → d.number < h.outboxes.size
  targets : ∀ d ∈ h.deliveries, ∀ t ∈ d.targets, t.number < h.outboxes.size

variable {h : Hub}

namespace Enclosed

theorem of_alike (enclosed : h.Enclosed) {k : Hub} (alike : h.Alike k) : k.Enclosed where
  tidy := alike.registry ▸ enclosed.tidy
  holders := by
    rw [alike.registry, alike.size]
    exact enclosed.holders
  targets := by
    rw [alike.deliveries, alike.size]
    exact enclosed.targets

theorem connect (enclosed : h.Enclosed) (peer : PeerId) (capacity : Nat) :
    (h.connect peer capacity).1.Enclosed := by
  have hsize : h.outboxes.size < (h.connect peer capacity).1.outboxes.size := by
    simp [Hub.connect]
  refine ⟨enclosed.tidy, ?_, ?_⟩
  · intro room peer' d hd
    exact Nat.lt_trans (enclosed.holders room peer' d hd) hsize
  · intro d hd t ht
    exact Nat.lt_trans (enclosed.targets d hd t ht) hsize

theorem members (enclosed : h.Enclosed) {room : RoomId} {ms : Members}
    (found : h.registry.members? room = some ms) : ∀ d ∈ ms, d.number < h.outboxes.size := by
  intro d hd
  exact enclosed.holders room d.peer d (((enclosed.tidy.lists found).mem_iff d).mp hd)

theorem leave (enclosed : h.Enclosed) (room : RoomId) (c : Connection) :
    (h.exit room c).1.Enclosed where
  tidy := enclosed.tidy.leave room c
  holders := by
    intro other peer d hd
    rw [show (h.exit room c).1.registry = (h.registry.leave room c).1 from rfl,
      Registry.holder?_leave] at hd
    split at hd
    · cases hd
    · exact enclosed.holders other peer d hd
  targets := enclosed.targets

theorem depart (enclosed : h.Enclosed) (room : RoomId) (c : Connection) :
    (h.depart room c).Enclosed :=
  (enclosed.leave room c).of_alike (alike_depart h room c)

theorem dispatch (enclosed : h.Enclosed) {d : Delivery}
    (made : ∀ t ∈ d.targets, t.number < h.outboxes.size) : (h.dispatch d).Enclosed := by
  unfold Hub.dispatch
  split
  · exact enclosed.of_alike (alike_deliver h d)
  · refine ⟨enclosed.tidy, enclosed.holders, ?_⟩
    intro e he
    rcases List.mem_append.mp he with hold | hnew
    · exact enclosed.targets e hold
    · exact List.mem_singleton.mp hnew ▸ made

theorem relay (enclosed : h.Enclosed) (room : RoomId) (c : Connection) (u : Uplink) :
    (h.relay room c u).1.Enclosed := by
  refine relay_rule enclosed (fun request => enclosed.of_alike (alike_close h c request true)) ?_ u
  intro e ms d hms _ htargets
  refine (enclosed.of_alike (alike_record h e)).dispatch ?_
  intro t ht
  exact enclosed.members hms t (htargets t ht)

end Enclosed

section

variable (rest : List Outbox) {c : Connection}

theorem outbox_extend (made : c.number < h.outboxes.size) :
    (h.extend rest).outbox c = h.outbox c := by
  simp only [extend, outbox, Array.getElem?_append_left made]

theorem setOutbox_extend (made : c.number < h.outboxes.size) (q : Outbox) :
    (h.extend rest).setOutbox c q = (h.setOutbox c q).extend rest := by
  have houtboxes : (h.outboxes ++ rest.toArray).modify c.number (fun _ => q) =
      h.outboxes.modify c.number (fun _ => q) ++ rest.toArray := by
    apply Array.ext_getElem?
    intro i
    simp only [Array.getElem?_modify, Array.getElem?_append, Array.size_modify]
    split_ifs with hsame hlt
    · rfl
    · exact absurd (hsame ▸ made) hlt
    · rfl
    · rfl
  simp only [setOutbox, extend, houtboxes]

theorem attempt_extend (made : c.number < h.outboxes.size) (f : Frame)
    (failed : PeerId → RelayError → Event) :
    (h.extend rest).attempt f failed c = (h.attempt f failed c).extend rest := by
  have hrefused : (h.extend rest).refused c = h.refused c := by
    rw [refused, outbox_extend rest made, refused]
  rw [attempt_eq, attempt_eq, outbox_extend rest made, hrefused]
  split
  · exact setOutbox_extend rest made _
  · rfl

theorem sendEach_extend (f : Frame) (failed : PeerId → RelayError → Event) {cs : List Connection}
    (made : ∀ d ∈ cs, d.number < h.outboxes.size) :
    (h.extend rest).sendEach f failed cs = (h.sendEach f failed cs).extend rest := by
  induction cs generalizing h with
  | nil => rfl
  | cons d others ih =>
      have hsize := (alike_attempt h f failed d).size
      change ((h.extend rest).attempt f failed d).sendEach f failed others =
        ((h.attempt f failed d).sendEach f failed others).extend rest
      rw [attempt_extend rest (made d List.mem_cons_self)]
      apply ih
      rw [hsize]
      exact fun e he => made e (List.mem_cons_of_mem d he)

theorem close_extend (made : c.number < h.outboxes.size) (request : Close) :
    (h.extend rest).close c request = (h.close c request).extend rest := by
  rw [close, outbox_extend rest made, setOutbox_extend rest made, close]

theorem broadcastPeers_extend (room : RoomId) {members : List Connection}
    (made : ∀ d ∈ members, d.number < h.outboxes.size) :
    (h.extend rest).broadcastPeers room members = (h.broadcastPeers room members).extend rest := by
  simp only [broadcastPeers, encode_peerList]
  exact sendEach_extend rest _ _ made

theorem announceJoin_extend (room : RoomId) (d : Connection) {joined : Joined}
    (made : ∀ e ∈ joined.members, e.number < h.outboxes.size)
    (made' : ∀ e ∈ joined.superseded, e.number < h.outboxes.size) :
    (h.extend rest).announceJoin room d joined = (h.announceJoin room d joined).extend rest := by
  unfold announceJoin
  cases hprevious : joined.superseded with
  | none => exact broadcastPeers_extend (h := h.record _) rest room made
  | some previous =>
      let closed : Hub := (h.record (.peerReplaced room d.peer)).close previous superseded
      have hsize : closed.outboxes.size = h.outboxes.size := (alike_close _ _ _ _).size
      have hclosed : ((h.extend rest).record (.peerReplaced room d.peer)).close previous
          superseded = closed.extend rest :=
        close_extend (h := h.record _) rest (made' previous hprevious) superseded
      simp only [hclosed]
      apply broadcastPeers_extend (h := closed.record _) rest room
      change ∀ e ∈ joined.members, e.number < closed.outboxes.size
      rw [hsize]
      exact made

theorem announceLeave_extend (room : RoomId) (d : Connection) {departure : Departure}
    (made : ∀ e ∈ departure.members, e.number < h.outboxes.size) :
    (h.extend rest).announceLeave room d departure =
      (h.announceLeave room d departure).extend rest := by
  cases departure with
  | notMember => rfl
  | roomEmpty => rfl
  | remaining members =>
      exact congrArg (·.record (.peerLeft room d.peer)) (broadcastPeers_extend rest room made)

theorem join_extend (enclosed : h.Enclosed) (room : RoomId) (made : c.number < h.outboxes.size) :
    (h.extend rest).join room c = ((h.join room c).1.extend rest, (h.join room c).2) := by
  have hmembers : ∀ e ∈ ((h.registry.members? room).getD []), e.number < h.outboxes.size := by
    cases hms : h.registry.members? room with
    | none => exact fun e he => absurd he List.not_mem_nil
    | some ms => exact enclosed.members hms
  have hseated : ∀ e ∈ (h.enter room c).2.members, e.number < h.outboxes.size :=
    fun e he => (Members.mem_seat he).elim (fun hsame => hsame ▸ made) (hmembers e)
  have hreplaced : ∀ e ∈ (h.enter room c).2.superseded, e.number < h.outboxes.size :=
    fun e he => hmembers e (Members.mem_of_find? he).1
  exact congrArg (·, Membership.mk room c .member)
    (announceJoin_extend (h := (h.enter room c).1) rest room c hseated hreplaced)

theorem depart_extend (enclosed : h.Enclosed) (room : RoomId) (d : Connection) :
    (h.extend rest).depart room d = (h.depart room d).extend rest := by
  apply announceLeave_extend (h := (h.exit room d).1) rest room d
  intro e he
  obtain ⟨ms, hms, hmem⟩ := Registry.mem_members_leave he
  exact enclosed.members hms e hmem

theorem carryOut_extend (enclosed : h.Enclosed) (room : RoomId) (d : Connection) :
    (h.extend rest).carryOut room d = (h.carryOut room d).extend rest := by
  have hdepartures : (h.extend rest).departures = h.departures := rfl
  unfold carryOut
  rw [hdepartures]
  split
  · exact depart_extend (h := { h with departures := h.departures.erase (room, d) }) rest
      ⟨enclosed.tidy, enclosed.holders, enclosed.targets⟩ room d
  · rfl

theorem deliver_extend {d : Delivery} (made : ∀ t ∈ d.targets, t.number < h.outboxes.size) :
    (h.extend rest).deliver d = (h.deliver d).extend rest :=
  sendEach_extend rest _ _ made

theorem dispatch_extend {d : Delivery} (made : ∀ t ∈ d.targets, t.number < h.outboxes.size) :
    (h.extend rest).dispatch d = (h.dispatch d).extend rest := by
  have hdelay : (h.extend rest).delay = h.delay := rfl
  unfold dispatch
  rw [hdelay]
  split
  · exact deliver_extend rest made
  · rfl

theorem relay_extend (enclosed : h.Enclosed) (room : RoomId) (made : c.number < h.outboxes.size)
    (u : Uplink) :
    (h.extend rest).relay room c u = ((h.relay room c u).1.extend rest, (h.relay room c u).2) := by
  have hregistry : (h.extend rest).registry = h.registry := rfl
  unfold relay
  rw [hregistry]
  cases (u.relayed c.peer).encode with
  | error e => rfl
  | ok frame =>
      cases hms : h.registry.members? room with
      | none => exact congrArg (·, _) (close_extend rest made roomGone)
      | some ms =>
          simp only
          split
          · refine congrArg (·, _) (dispatch_extend (h := h.record _) rest ?_)
            intro t ht
            exact enclosed.members hms t (mem_of_mem_resolve ht)
          · exact congrArg (·, _) (close_extend rest made superseded)

theorem advance_extend (enclosed : h.Enclosed) (milliseconds : Nat) :
    (h.extend rest).advance milliseconds = (h.advance milliseconds).extend rest := by
  have hdeliver (ds : List Delivery) (g : Hub)
      (made : ∀ d ∈ ds, ∀ t ∈ d.targets, t.number < g.outboxes.size) :
      ds.foldl deliver (g.extend rest) = (ds.foldl deliver g).extend rest := by
    induction ds generalizing g with
    | nil => rfl
    | cons d others ih =>
        rw [List.foldl_cons, List.foldl_cons, deliver_extend rest (made d List.mem_cons_self)]
        apply ih
        rw [(alike_deliver g d).size]
        exact fun e he => made e (List.mem_cons_of_mem d he)
  rw [advance_eq, advance_eq]
  exact hdeliver (h.dueBy (h.now + milliseconds)) (h.later (h.now + milliseconds))
    fun d hd => enclosed.targets d (List.mem_of_mem_filter hd)

end

end Hub

namespace Hub

theorem size_dispatch (h : Hub) (d : Delivery) :
    (h.dispatch d).outboxes.size = h.outboxes.size := by
  unfold dispatch
  split
  · exact (alike_deliver h d).size
  · rfl

theorem size_relay (h : Hub) (room : RoomId) (c : Connection) (u : Uplink) :
    (h.relay room c u).1.outboxes.size = h.outboxes.size :=
  relay_rule (P := (·.outboxes.size = h.outboxes.size)) rfl
    (fun request => (alike_close h c request true).size)
    (fun _ _ _ _ _ _ => size_dispatch _ _) u

end Hub

namespace Session

theorem size_receive (s : Session) (h : Hub) (item : Inbound) :
    (s.receive h item).1.outboxes.size = h.outboxes.size := by
  apply receive_rule (P := fun g => g.outboxes.size = h.outboxes.size)
    (Q := fun g => g.outboxes.size = h.outboxes.size)
  · intro g e hg
    exact hg
  · intro g hg
    exact hg
  · intro g hg
    rw [(Hub.alike_depart g s.room s.connection).size, hg]
  · rfl
  · exact h.size_relay s.room s.connection

theorem receive_extend {h : Hub} (rest : List Outbox) (enclosed : h.Enclosed) {s : Session}
    (made : s.connection.number < h.outboxes.size) (item : Inbound) :
    s.receive (h.extend rest) item =
      ((s.receive h item).1.extend rest, (s.receive h item).2) := by
  obtain ⟨⟨hhub, -⟩, hsession⟩ := receive_related
    (R := fun g g' => g' = g.extend rest ∧ g.Enclosed)
    (fun g g' e hg => ⟨by rw [hg.1]; rfl, hg.2.of_alike (Hub.alike_record g e)⟩)
    (fun g g' hg => ⟨by rw [hg.1, Hub.depart_extend rest hg.2], hg.2.depart s.room s.connection⟩)
    ⟨rfl, enclosed⟩
    (fun u => ⟨⟨by rw [Hub.relay_extend rest enclosed s.room made],
      enclosed.relay s.room s.connection u⟩, by rw [Hub.relay_extend rest enclosed s.room made]⟩)
    item
  exact Prod.ext hhub hsession.symm

theorem abort_extend (h : Hub) (rest : List Outbox) (s : Session) :
    s.abort (h.extend rest) = ((s.abort h).1.extend rest, (s.abort h).2) := by
  obtain ⟨⟨room, c, stage⟩, running⟩ := s
  cases running with
  | false => rfl
  | true => cases stage <;> rfl

end Session

namespace World

/-- In every run there is an outbox for everybody who may be sent something. -/
theorem enclosed_run (actions : List Action) : (run actions).hub.Enclosed := by
  obtain ⟨hsettled, -, plans, hplans, haccounts⟩ := accounts_run actions
  refine ⟨hsettled.tidy, ?_, ?_⟩
  · intro room peer d hd
    have hpeer := Registry.peer_of_holder? hd
    exact hsettled.numbers_lt _ (hsettled.seated room d (hpeer ▸ hd))
  · intro d hd t ht
    have hpost : d.post ∈ (run actions).pending :=
      List.mem_append_left _ (List.mem_map_of_mem hd)
    obtain ⟨plan, hplan, hsame⟩ := List.mem_map.mp (hplans.mem_iff.mpr hpost)
    obtain ⟨a, room, -, hroster, -⟩ := haccounts.origin plan hplan t (by rw [hsame]; exact ht)
    exact hsettled.numbers_lt _ hroster

section

variable {w : World}

theorem Settled.onSession (settled : w.Settled) {s : Session} (present : s ∈ w.sessions)
    (f : Session → Hub → Hub × Session) :
    w.onSession s.connection.number f =
      { w with
        hub := (f s w.hub).1
        sessions := w.sessions.map fun t => if t = s then (f s w.hub).2 else t } := by
  have hfind : w.sessions.find? (·.connection.number == s.connection.number) = some s := by
    cases hfound : w.sessions.find? (·.connection.number == s.connection.number) with
    | none =>
        have hnone := List.find?_eq_none.mp hfound s present
        simp at hnone
    | some t =>
        have hnodup : (w.sessions.map (·.connection.number)).Nodup := by
          simpa [roster, Session.seat, Function.comp_def] using settled.numbers_nodup
        have hnumber : t.connection.number = s.connection.number := by
          simpa using List.find?_some hfound
        rw [List.inj_on_of_nodup_map hnodup (List.mem_of_find?_eq_some hfound) present hnumber]
  unfold World.onSession
  rw [hfind]

/-- A leave that waits in the background is the only one of its connection. -/
theorem Noted.runDeparture (noted : w.Noted) {room : RoomId} {c : Connection}
    (waits : (room, c) ∈ w.hub.departures) :
    w.hub.runDeparture c.number = w.hub.carryOut room c := by
  unfold Hub.runDeparture Hub.carryOut
  rw [if_pos waits]
  cases hfind : w.hub.departures.find? (·.2.number == c.number) with
  | none =>
      have hnone := List.find?_eq_none.mp hfind (room, c) waits
      simp at hnone
  | some d =>
      obtain ⟨hmem, hnumber⟩ := Hub.departure_of_find? hfind
      obtain rfl : d = (room, c) := noted.settled.eq_of_number (noted.departing d hmem)
        (noted.departing (room, c) waits) hnumber
      rfl

end

end World

namespace Exchange

/-! ### The number of outboxes -/

theorem size_step (x : Exchange) (a : Action) :
    (x.step a).hub.outboxes.size = x.hub.outboxes.size := by
  have hleads := x.leads_step a
  generalize x.step a = y at hleads ⊢
  cases hleads with
  | idle => rfl
  | joins c k room fresh => exact (Hub.alike_join x.hub room c).size
  | receives c k item s found => exact s.size_receive x.hub item
  | aborts c k s found => exact congrArg Array.size (s.abort_quiet x.hub).2.2.1
  | departs c room => exact (Hub.alike_depart _ room c).size
  | relays c room u => exact x.hub.size_relay room c u
  | uses c u => exact (Hub.alike_use x.hub c u).size
  | advances milliseconds =>
      change (x.hub.advance milliseconds).outboxes.size = x.hub.outboxes.size
      rw [Hub.advance_eq]
      exact (Hub.alike_foldl_deliver _ _).size

/-! ### The world of an exchange -/

/-- The exchange is the world, with outboxes for those who are still to join. Its sessions are those
of the world, one for each connection. -/
structure Mirrors (x : Exchange) (w : World) (rest : List Outbox) : Prop where
  hub : x.hub = w.hub.extend rest
  sessions : ∀ s, s ∈ w.sessions ↔ ∃ c k, x.sessions c k = some s
  owned : x.Owned
  single : ∀ c k m, (x.sessions c k).isSome → (x.sessions c m).isSome → k = m

/-- Every connection joins once, in the order of the numbers from this one on. It uses its outbox
after that, and relays by its session only. -/
inductive Sessional (total : Nat) : Nat → List Action → Prop where
  | nil (n : Nat) : Sessional total n []
  | join (c : Connection) (k : Nat) (room : RoomId) (actions : List Action)
    (outbox : c.number < total) (later : Sessional total (c.number + 1) actions) :
    Sessional total c.number (.deed c (.join k room) :: actions)
  | receive (n : Nat) (c : Connection) (k : Nat) (item : Inbound) (actions : List Action)
    (later : Sessional total n actions) : Sessional total n (.deed c (.receive k item) :: actions)
  | abort (n : Nat) (c : Connection) (k : Nat) (actions : List Action)
    (later : Sessional total n actions) : Sessional total n (.deed c (.abort k) :: actions)
  | carryOut (n : Nat) (c : Connection) (room : RoomId) (actions : List Action)
    (later : Sessional total n actions) : Sessional total n (.deed c (.carryOut room) :: actions)
  | use (n : Nat) (c : Connection) (u : Outbox.Use) (actions : List Action) (joined : c.number < n)
    (later : Sessional total n actions) : Sessional total n (.deed c (.use u) :: actions)
  | advance (n milliseconds : Nat) (actions : List Action) (later : Sessional total n actions) :
    Sessional total n (.advance milliseconds :: actions)

namespace Mirrors

variable {x : Exchange} {w : World} {rest : List Outbox}

theorem of_hub (mirrors : x.Mirrors w rest) (h : Hub) :
    Mirrors { x with hub := h.extend rest } { w with hub := h } rest :=
  ⟨rfl, mirrors.sessions, mirrors.owned, mirrors.single⟩

theorem present (mirrors : x.Mirrors w rest) {c : Connection} {k : Nat} {s : Session}
    (found : x.sessions c k = some s) : s ∈ w.sessions :=
  (mirrors.sessions s).mpr ⟨c, k, found⟩

/-- A session that goes on is put in its place on both sides. -/
theorem put (mirrors : x.Mirrors w rest) {c : Connection} {k : Nat} {s t : Session}
    (found : x.sessions c k = some s) (same : t.connection = s.connection) (h : Hub) :
    Mirrors ({ x with hub := h.extend rest }.put c k t)
      { w with hub := h, sessions := w.sessions.map fun r => if r = s then t else r } rest where
  hub := rfl
  sessions := by
    intro r
    rw [List.mem_map]
    constructor
    · rintro ⟨r', hr', rfl⟩
      split
      · exact ⟨c, k, sessions_put_self _ c k t⟩
      · rename_i hne
        obtain ⟨d, m, hd⟩ := (mirrors.sessions r').mp hr'
        refine ⟨d, m, (sessions_put_of_ne _ ?_ t).trans hd⟩
        rintro ⟨rfl, rfl⟩
        rw [found] at hd
        exact hne (Option.some.inj hd).symm
    · rintro ⟨d, m, hd⟩
      rcases cases_sessions_put hd with ⟨-, rfl⟩ | ⟨hother, hbefore⟩
      · exact ⟨s, mirrors.present found, if_pos rfl⟩
      · refine ⟨r, mirrors.present hbefore, if_neg ?_⟩
        rintro rfl
        obtain rfl : d = c := (mirrors.owned d m r hbefore).symm.trans (mirrors.owned c k r found)
        exact hother ⟨rfl, mirrors.single d m k (Option.isSome_of_eq_some hbefore)
          (Option.isSome_of_eq_some found)⟩
  owned := by
    intro d m r hr
    rcases cases_sessions_put hr with ⟨⟨rfl, rfl⟩, rfl⟩ | ⟨-, hr⟩
    · exact same.trans (mirrors.owned d m s found)
    · exact mirrors.owned d m r hr
  single := by
    have hbefore (d : Connection) (m : Nat)
        (hd : (({ x with hub := h.extend rest }.put c k t).sessions d m).isSome) :
        (x.sessions d m).isSome := by
      obtain ⟨r, hr⟩ := Option.isSome_iff_exists.mp hd
      rcases cases_sessions_put hr with ⟨⟨rfl, rfl⟩, -⟩ | ⟨-, hr⟩
      · exact Option.isSome_of_eq_some found
      · exact Option.isSome_of_eq_some hr
    intro d m m' hm hm'
    exact mirrors.single d m m' (hbefore d m hm) (hbefore d m' hm')

/-- So is one that begins. -/
theorem begin (mirrors : x.Mirrors w rest) {c : Connection} {k : Nat} {s : Session}
    (fresh : ∀ m, x.sessions c m = none) (own : s.connection = c) (h : Hub) (others : List Outbox) :
    Mirrors ({ x with hub := h.extend others }.put c k s)
      { w with hub := h, sessions := s :: w.sessions } others where
  hub := rfl
  sessions := by
    intro r
    rw [List.mem_cons]
    constructor
    · rintro (rfl | hr)
      · exact ⟨c, k, sessions_put_self _ c k r⟩
      · obtain ⟨d, m, hd⟩ := (mirrors.sessions r).mp hr
        refine ⟨d, m, (sessions_put_of_ne _ ?_ s).trans hd⟩
        rintro ⟨rfl, -⟩
        rw [fresh] at hd
        cases hd
    · rintro ⟨d, m, hd⟩
      rcases cases_sessions_put hd with ⟨-, rfl⟩ | ⟨-, hd⟩
      · exact Or.inl rfl
      · exact Or.inr (mirrors.present hd)
  owned := by
    intro d m r hr
    rcases cases_sessions_put hr with ⟨⟨rfl, rfl⟩, rfl⟩ | ⟨-, hr⟩
    · exact own
    · exact mirrors.owned d m r hr
  single := by
    -- A connection has its new session only, or only what it had before.
    have hplace (d : Connection) (m : Nat)
        (hd : (({ x with hub := h.extend others }.put c k s).sessions d m).isSome) :
        d = c ∧ m = k ∨ d ≠ c ∧ (x.sessions d m).isSome := by
      obtain ⟨r, hr⟩ := Option.isSome_iff_exists.mp hd
      rcases cases_sessions_put hr with ⟨hsame, -⟩ | ⟨-, hbefore⟩
      · exact Or.inl hsame
      · refine Or.inr ⟨?_, Option.isSome_of_eq_some hbefore⟩
        rintro rfl
        exact absurd ((fresh m).symm.trans hbefore) (by simp)
    intro d m m' hm hm'
    rcases hplace d m hm with ⟨hd, rfl⟩ | ⟨hne, hbefore⟩
    · rcases hplace d m' hm' with ⟨-, rfl⟩ | ⟨hne, -⟩
      · rfl
      · exact absurd hd hne
    · rcases hplace d m' hm' with ⟨hd, -⟩ | ⟨-, hbefore'⟩
      · exact absurd hd hne
      · exact mirrors.single d m m' hbefore hbefore'

/-! ### What a step becomes -/

/-- A session acts, on the hub with more outboxes as on the one without. -/
theorem acts (mirrors : x.Mirrors w rest) (settled : w.Settled) {c : Connection} {k : Nat}
    {s : Session} (found : x.sessions c k = some s) {f : Session → Hub → Hub × Session}
    (same : (f s w.hub).2.connection = s.connection)
    (widens : f s (w.hub.extend rest) = ((f s w.hub).1.extend rest, (f s w.hub).2)) :
    Mirrors ({ x with hub := (f s x.hub).1 }.put c k (f s x.hub).2)
      (w.onSession c.number f) rest := by
  rw [← mirrors.owned c k s found, settled.onSession (mirrors.present found), mirrors.hub, widens,
    mirrors.owned c k s found]
  exact mirrors.put found same (f s w.hub).1

theorem receive (mirrors : x.Mirrors w rest) (settled : w.Settled) (enclosed : w.hub.Enclosed)
    (c : Connection) (k : Nat) (item : Inbound) :
    ∃ steps, (x.step (.deed c (.receive k item))).Mirrors (w.runFrom steps) rest := by
  simp only [Exchange.step, act, perform]
  cases hs : x.sessions c k with
  | none => exact ⟨[], mirrors⟩
  | some s =>
      have hmade := settled.numbers_lt s.seat (List.mem_map_of_mem (mirrors.present hs))
      have hsame : (s.receive w.hub item).2.connection = s.connection :=
        congrArg Prod.snd (s.takes_receive w.hub item).1
      have hacts := mirrors.acts (f := fun s h => s.receive h item) settled hs hsame
        (Session.receive_extend rest enclosed hmade item)
      exact ⟨[.receive c.number item], hacts⟩

theorem abort (mirrors : x.Mirrors w rest) (settled : w.Settled) (c : Connection) (k : Nat) :
    ∃ steps, (x.step (.deed c (.abort k))).Mirrors (w.runFrom steps) rest := by
  simp only [Exchange.step, act, perform]
  cases hs : x.sessions c k with
  | none => exact ⟨[], mirrors⟩
  | some s =>
      have hsame : (s.abort w.hub).2.connection = s.connection :=
        congrArg Prod.snd (s.abort_quiet w.hub).1
      have hacts := mirrors.acts (f := fun s h => s.abort h) settled hs hsame
        (Session.abort_extend w.hub rest s)
      exact ⟨[.abort c.number], hacts⟩

theorem carryOut (mirrors : x.Mirrors w rest) (noted : w.Noted) (enclosed : w.hub.Enclosed)
    (c : Connection) (room : RoomId) :
    ∃ steps, (x.step (.deed c (.carryOut room))).Mirrors (w.runFrom steps) rest := by
  have hstep : x.step (.deed c (.carryOut room)) =
      { x with hub := (w.hub.carryOut room c).extend rest } := by
    rw [← Hub.carryOut_extend rest enclosed, ← mirrors.hub]
    rfl
  rw [hstep]
  by_cases waits : (room, c) ∈ w.hub.departures
  · have hmirrors := mirrors.of_hub (w.hub.carryOut room c)
    rw [← noted.runDeparture waits] at hmirrors ⊢
    exact ⟨[.runDeparture c.number], hmirrors⟩
  · have hidle : w.hub.carryOut room c = w.hub := if_neg waits
    rw [hidle]
    exact ⟨[], mirrors.of_hub w.hub⟩

theorem use (mirrors : x.Mirrors w rest) (c : Connection) (u : Outbox.Use)
    (made : c.number < w.hub.outboxes.size) :
    ∃ steps, (x.step (.deed c (.use u))).Mirrors (w.runFrom steps) rest := by
  have hstep : x.step (.deed c (.use u)) = { x with hub := (w.hub.use c u).extend rest } := by
    have huse : (w.hub.extend rest).use c u = (w.hub.use c u).extend rest := by
      rw [Hub.use, Hub.outbox_extend rest made, Hub.setOutbox_extend rest made, Hub.use]
    rw [← huse, ← mirrors.hub]
    rfl
  rw [hstep]
  exact ⟨[.use c.number u], mirrors.of_hub (w.hub.use c u)⟩

theorem advance (mirrors : x.Mirrors w rest) (enclosed : w.hub.Enclosed) (milliseconds : Nat) :
    ∃ steps, (x.step (.advance milliseconds)).Mirrors (w.runFrom steps) rest := by
  have hstep : x.step (.advance milliseconds) =
      { x with hub := (w.hub.advance milliseconds).extend rest } := by
    rw [← Hub.advance_extend rest enclosed, ← mirrors.hub]
    rfl
  obtain ⟨steps, hsteps⟩ := w.exists_advance milliseconds
  refine ⟨steps, ?_⟩
  rw [hstep, World.runFrom, hsteps]
  exact mirrors.of_hub (w.hub.advance milliseconds)

/-- The next connection joins with the first of the outboxes that belong to nobody yet. -/
theorem join {capacity : Nat} (mirrors : x.Mirrors w ({ capacity } :: rest)) (settled : w.Settled)
    (enclosed : w.hub.Enclosed) {c : Connection} (next : c.number = w.hub.outboxes.size) (k : Nat)
    (room : RoomId) :
    (x.step (.deed c (.join k room))).Mirrors (w.step (.start room c.peer capacity)) rest := by
  have hfresh (m : Nat) : x.sessions c m = none := by
    cases hs : x.sessions c m with
    | none => rfl
    | some s =>
        have hlt := settled.numbers_lt s.seat (List.mem_map_of_mem (mirrors.present hs))
        have hnumber : s.connection.number = c.number := by rw [mirrors.owned c m s hs]
        exact absurd (hnumber.trans next) (Nat.ne_of_lt hlt)
  let connected : Hub := (w.hub.connect c.peer capacity).1
  have hmade : c.number < connected.outboxes.size := by simp [connected, Hub.connect, next]
  have hhub : x.hub = connected.extend rest := by
    rw [mirrors.hub]
    simp [connected, Hub.extend, Hub.connect]
  have hjoin : (connected.extend rest).join room c =
      ((connected.join room c).1.extend rest, (connected.join room c).2) :=
    Hub.join_extend rest (enclosed.connect c.peer capacity) room hmade
  have hmirrors := mirrors.begin (k := k) (s := { membership := ⟨room, c, .member⟩ }) hfresh rfl
    (connected.join room c).1 rest
  have hstep : x.step (.deed c (.join k room)) =
      { x with hub := (connected.join room c).1.extend rest }.put c k
        { membership := ⟨room, c, .member⟩ } := by
    simp only [Exchange.step, act, perform, hfresh, Hub.startSession, hhub, hjoin]
    rfl
  have hworld : w.step (.start room c.peer capacity) =
      { w with
        hub := (connected.join room c).1
        sessions := { membership := ⟨room, c, .member⟩ } :: w.sessions } := by
    have hc : (w.hub.connect c.peer capacity).2 = c := by rw [Hub.connect, ← next]
    simp only [World.step, hc]
    rfl
  rw [hstep, hworld]
  exact hmirrors

/-- Who has joined has the same outbox on both sides. -/
theorem outbox (mirrors : x.Mirrors w rest) (settled : w.Settled) {c : Connection} {k : Nat}
    {s : Session} (found : x.sessions c k = some s) : x.hub.outbox c = w.hub.outbox c := by
  have hmade := settled.numbers_lt s.seat (List.mem_map_of_mem (mirrors.present found))
  have hnumber : s.connection.number = c.number := by rw [mirrors.owned c k s found]
  rw [mirrors.hub]
  exact Hub.outbox_extend rest (hnumber ▸ hmade)

end Mirrors

/-! ### Whole runs -/

/-- An outbox that nothing has been put into. -/
def unused (capacity : Nat) : Outbox := { capacity }

/-- The exchange is a run of a world in which this many connections have joined, and has as many
outboxes as there are for all of them and those who are still to join. -/
def Tracked (total n : Nat) (x : Exchange) : Prop :=
  ∃ (steps : List World.Action) (capacities : List Nat),
    x.Mirrors (World.run steps) (capacities.map unused) ∧
      (World.run steps).hub.outboxes.size = n ∧ n + capacities.length = total

namespace Tracked

variable {total n : Nat} {x : Exchange} {a : Action}

/-- A step that the world can follow without a new connection. -/
theorem of_step (tracked : x.Tracked total n)
    (follows : ∀ w rest, w.Noted → w.hub.Enclosed → w.hub.outboxes.size = n → x.Mirrors w rest →
      ∃ steps, (x.step a).Mirrors (w.runFrom steps) rest) :
    (x.step a).Tracked total n := by
  obtain ⟨steps, capacities, hmirrors, hjoined, hcount⟩ := tracked
  obtain ⟨more, hmore⟩ := follows (World.run steps) _ (World.noted_run steps)
    (World.enclosed_run steps) hjoined hmirrors
  rw [World.runFrom, World.run, ← List.foldl_append] at hmore
  refine ⟨steps ++ more, capacities, hmore, ?_, hcount⟩
  have hsize := x.size_step a
  rw [hmore.hub, hmirrors.hub] at hsize
  simp only [Hub.extend, Array.size_append, Nat.add_right_cancel_iff] at hsize
  exact hsize.trans hjoined

theorem step_join (c : Connection) (tracked : x.Tracked total c.number) (outbox : c.number < total)
    (k : Nat) (room : RoomId) :
    (x.step (.deed c (.join k room))).Tracked total (c.number + 1) := by
  obtain ⟨steps, capacities, hmirrors, hjoined, hcount⟩ := tracked
  cases capacities with
  | nil => exact absurd hcount (Nat.ne_of_lt outbox)
  | cons capacity others =>
      have hafter := hmirrors.join (World.noted_run steps).settled (World.enclosed_run steps)
        hjoined.symm k room
      have hrun : (World.run steps).step (.start room c.peer capacity) =
          World.run (steps ++ [.start room c.peer capacity]) := by
        simp [World.run]
      rw [hrun] at hafter
      refine ⟨steps ++ [.start room c.peer capacity], others, hafter, ?_, ?_⟩
      · have hsize := x.size_step (.deed c (.join k room))
        rw [hafter.hub, hmirrors.hub] at hsize
        simp only [Hub.extend, Array.size_append, List.size_toArray, List.map_cons,
          List.length_cons] at hsize
        omega
      · rw [List.length_cons] at hcount
        omega

theorem run {actions : List Action} (sessional : Sessional total n actions)
    (tracked : x.Tracked total n) : ∃ m, (x.run actions).Tracked total m := by
  induction sessional generalizing x with
  | nil n => exact ⟨n, tracked⟩
  | join c k room actions outbox later ih => exact ih (step_join c tracked outbox k room)
  | receive n c k item actions later ih =>
      exact ih (tracked.of_step fun w rest noted enclosed _ mirrors =>
        mirrors.receive noted.settled enclosed c k item)
  | abort n c k actions later ih =>
      exact ih (tracked.of_step fun w rest noted _ _ mirrors => mirrors.abort noted.settled c k)
  | carryOut n c room actions later ih =>
      exact ih (tracked.of_step fun w rest noted enclosed _ mirrors =>
        mirrors.carryOut noted enclosed c room)
  | use n c u actions joined later ih =>
      exact ih (tracked.of_step fun w rest _ _ size mirrors => mirrors.use c u (size ▸ joined))
  | advance n milliseconds actions later ih =>
      exact ih (tracked.of_step fun w rest _ enclosed _ mirrors =>
        mirrors.advance enclosed milliseconds)

end Tracked

/-- Every such run of an exchange is a run of a world. -/
theorem exists_world {capacities : List Nat} {actions : List Action}
    (sessional : Sessional capacities.length 0 actions) (delay : Nat) :
    ∃ steps rest, Mirrors ((start (capacities.map unused).toArray delay).run actions)
      (World.run steps) rest := by
  have hstart : (start (capacities.map unused).toArray delay).Tracked capacities.length 0 := by
    refine ⟨[.hold delay], capacities, ⟨?_, ?_, owned_start _ delay, ?_⟩, rfl, Nat.zero_add _⟩
    · simp [start, World.run, World.step, Hub.extend]
    · simp [start, World.run, World.step]
    · intro c k m hk
      cases hk
  obtain ⟨m, steps, others, hmirrors, -⟩ := hstart.run sessional
  exact ⟨steps, others.map unused, hmirrors⟩

end Exchange

end RoomRelay
