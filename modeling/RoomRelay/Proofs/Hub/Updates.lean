import RoomRelay.Proofs.Hub.Post
import RoomRelay.Proofs.Hub.Relay
import RoomRelay.Proofs.Message.RoundTrip

/-!
What the members of a room learn of it. A join sends one and the same peer list to everybody who is
in the room afterwards, and asks the connection that was replaced to close. A leave that takes
effect sends one to those who remain, and a leave that does not is noticed by nobody. Read again,
such a list names the members of the room, each once.
-/

namespace RoomRelay

open Json

/-! ### Reading a peer list -/

theorem allStrings?_strings (ids : List PeerId) : allStrings? (ids.map .string) = some ids := by
  unfold allStrings?
  induction ids with
  | nil => rfl
  | cons id rest ih => simp [ih]

theorem legible_peerList (ids : List PeerId) :
    Legible (Downlink.peerList ids).data (Downlink.peerList ids).metadata :=
  List.forall_mem_singleton.mpr (itemsExact_strings ids)

theorem depth_peerList (ids : List PeerId) :
    (Value.object (Downlink.peerList ids).fields).depth ≤ maxDepth :=
  Downlink.depth_fields (List.forall_mem_singleton.mpr
    (by simp [Value.depth, itemsDepth_strings, maxDepth]))

/-- A peer list is read as what was written, whatever the ids are. -/
theorem decode_listFrame (ids : List PeerId) :
    Downlink.decode (listFrame ids).isBinary (listFrame ids).bytes =
      .ok (Downlink.peerList ids) :=
  Downlink.decode_encode (legible_peerList ids) (depth_peerList ids) (encode_peerList ids)

theorem peerIds?_peerList (ids : List PeerId) : (Downlink.peerList ids).peerIds? = some ids := by
  have hlist : (Downlink.peerList ids).isPeerList = true := rfl
  rw [Downlink.peerIds?, hlist, if_pos rfl]
  exact allStrings?_strings ids

/-- The frame reads as the peer list of these ids, and as nothing besides. -/
structure Frame.Lists (f : Frame) (ids : List PeerId) : Prop where
  kind : f.isBinary = false
  message : Downlink.decode f.isBinary f.bytes = .ok
    { action := "__update_peers__"
      data := some (.json (.array (ids.map .string)))
      sender := "server" }

theorem lists_listFrame (ids : List PeerId) : (listFrame ids).Lists ids :=
  ⟨rfl, decode_listFrame ids⟩

/-- The frame reads as a peer list that names the members of a room, each once. -/
def Frame.Names (f : Frame) (r : Registry) (room : RoomId) : Prop :=
  ∃ d ids, Downlink.decode f.isBinary f.bytes = .ok d ∧ d.peerIds? = some ids ∧ ids.Nodup ∧
    ∀ peer, peer ∈ ids ↔ ∃ c, r.holder? room peer = some c

theorem names_listFrame {r : Registry} {room : RoomId} {ms : Members}
    (lists : r.slots.Lists room ms) : (listFrame (ms.map (·.peer))).Names r room := by
  refine ⟨_, ms.map (·.peer), decode_listFrame _, peerIds?_peerList _, lists.peers_nodup, ?_⟩
  intro peer
  rw [List.mem_map]
  constructor
  · rintro ⟨c, hc, rfl⟩
    exact ⟨c, (lists.mem_iff c).mp hc⟩
  · rintro ⟨c, hc⟩
    have hpeer : c.peer = peer := Registry.peer_of_holder? hc
    subst hpeer
    exact ⟨c, (lists.mem_iff c).mpr hc, rfl⟩

namespace Hub

/-- Everybody who is in the room afterwards gets one and the same list of its members, once. An
outbox that does not take the list stays as it is. -/
structure Informs (h k : Hub) (room : RoomId) (frame : Frame) : Prop where
  names : frame.Names k.registry room
  taken : ∀ c, k.registry.holder? room c.peer = some c → (h.outbox c).Accepts →
    k.outbox c = { h.outbox c with queued := (h.outbox c).queued ++ [.frame frame] }
  refused : ∀ c, k.registry.holder? room c.peer = some c → ¬ (h.outbox c).Accepts →
    k.outbox c = h.outbox c

/-- The connection is not one of those in the room. -/
def Outside (h : Hub) (room : RoomId) (d : Connection) : Prop :=
  ∀ c, h.registry.holder? room c.peer = some c → c.number ≠ d.number

/-- The members after a join get the new list, the connection that was replaced is asked to close,
and nobody else is sent anything. -/
structure TellsJoin (h k : Hub) (room : RoomId) (c : Connection) : Prop where
  registry : k.registry = (h.registry.join room c).1
  informs : ∃ frame, h.Informs k room frame
  superseded : ∀ previous, h.registry.holder? room c.peer = some previous →
    k.outbox previous =
      (h.outbox previous).requestClose true ⟨4000, "superseded by a newer connection"⟩
  once : ∀ previous, h.registry.holder? room c.peer = some previous →
    (h.outbox previous).receiver = .listening →
    (k.outbox previous).contents =
      (h.outbox previous).contents ++ [.close ⟨4000, "superseded by a newer connection"⟩]
  others : ∀ d, k.Outside room d →
    (∀ previous, h.registry.holder? room c.peer = some previous → previous.number ≠ d.number) →
    k.outbox d = h.outbox d

/-- Those who remain after a leave get the new list, and nobody else is sent anything. Nobody at
all is, and the registry stays as it is, if the place was not held by the connection that leaves. -/
structure TellsLeave (h k : Hub) (room : RoomId) (c : Connection) : Prop where
  registry : k.registry = (h.registry.leave room c).1
  informs : h.registry.holder? room c.peer = some c → k.registry.contains room = true →
    ∃ frame, h.Informs k room frame
  others : ∀ d, k.Outside room d → k.outbox d = h.outbox d
  emptied : k.registry.contains room = false → ∀ d, k.outbox d = h.outbox d
  replaced : h.registry.holder? room c.peer ≠ some c →
    k.registry = h.registry ∧ ∀ d, k.outbox d = h.outbox d

/-- What a leave tells depends on the registry and the outboxes alone. -/
theorem TellsLeave.of_same {g h k : Hub} {room : RoomId} {c : Connection}
    (tells : g.TellsLeave k room c) (registry : g.registry = h.registry)
    (outbox : ∀ d, g.outbox d = h.outbox d) : h.TellsLeave k room c := by
  obtain ⟨hregistry, hinforms, hothers, hemptied, hreplaced⟩ := tells
  simp only [registry, outbox] at hregistry hinforms hothers hemptied hreplaced
  refine ⟨hregistry, ?_, hothers, hemptied, hreplaced⟩
  intro hholds hcontains
  obtain ⟨frame, hnames, htaken, hrefused⟩ := hinforms hholds hcontains
  simp only [outbox] at htaken hrefused
  exact ⟨frame, hnames, htaken, hrefused⟩

/-! ### What is sent -/

theorem outbox_broadcastPeers (h : Hub) (room : RoomId) {members : List Connection}
    (nodup : (members.map (·.number)).Nodup) (d : Connection) :
    (h.broadcastPeers room members).outbox d =
      if d.number ∈ members.map (·.number) then
        (h.outbox d).post (listFrame (members.map (·.peer)))
      else h.outbox d := by
  rw [broadcastPeers, encode_peerList]
  exact outbox_sendEach h _ _ nodup d

theorem outbox_announceJoin (h : Hub) (room : RoomId) (c : Connection) {joined : Joined}
    (nodup : (joined.members.map (·.number)).Nodup) (d : Connection) :
    (h.announceJoin room c joined).outbox d =
      if d.number ∈ joined.members.map (·.number) then
        ((joined.superseded.elim h fun p => h.close p superseded).outbox d).post
          (listFrame (joined.members.map (·.peer)))
      else (joined.superseded.elim h fun p => h.close p superseded).outbox d := by
  unfold announceJoin
  cases joined.superseded with
  | none => exact outbox_broadcastPeers _ room nodup d
  | some p => exact outbox_broadcastPeers _ room nodup d

/-- Posting a list to everybody in a room informs them. -/
theorem informs_of_posted {h k : Hub} {room : RoomId} {ms : Members}
    (lists : k.registry.slots.Lists room ms)
    (posted : ∀ c ∈ ms, k.outbox c = (h.outbox c).post (listFrame (ms.map (·.peer)))) :
    h.Informs k room (listFrame (ms.map (·.peer))) where
  names := names_listFrame lists
  taken := by
    intro c hc haccepts
    rw [posted c ((lists.mem_iff c).mpr hc), Outbox.post_of_accepts haccepts]
  refused := by
    intro c hc hrefuses
    rw [posted c ((lists.mem_iff c).mpr hc), Outbox.post_of_not_accepts hrefuses]

theorem not_mem_of_outside {k : Hub} {room : RoomId} {ms : Members}
    (lists : k.registry.slots.Lists room ms) {d : Connection} (outside : k.Outside room d) :
    d.number ∉ ms.map (·.number) := by
  intro hmem
  obtain ⟨e, he, hsame⟩ := List.mem_map.mp hmem
  exact outside e ((lists.mem_iff e).mp he) hsame

section

variable {h : Hub} {room : RoomId} {c : Connection}

/-- No member of the room has the number of the connection, unless it is the connection itself. -/
def Recognized (h : Hub) (room : RoomId) (c : Connection) : Prop :=
  ∀ d, h.registry.holder? room d.peer = some d → d.number = c.number → d = c

theorem isHeldBy_iff_holds (recognized : h.Recognized room c) :
    h.registry.isHeldBy room c = true ↔ h.registry.holder? room c.peer = some c := by
  rw [Registry.isHeldBy_iff]
  constructor
  · rintro ⟨d, hd, hsame⟩
    have hpeer : d.peer = c.peer := Registry.peer_of_holder? hd
    cases recognized d (hpeer ▸ hd) hsame
    exact hd
  · intro hholds
    exact ⟨c, hholds, rfl⟩

theorem distinct_join (distinct : h.registry.Distinct room) (recognized : h.Recognized room c) :
    (h.registry.join room c).1.Distinct room := by
  have hcases (d : Connection) (hd : (h.registry.join room c).1.holder? room d.peer = some d) :
      d = c ∨ h.registry.holder? room d.peer = some d := by
    rw [Registry.holder?_join] at hd
    split at hd
    · exact Or.inl (Option.some.inj hd).symm
    · exact Or.inr hd
  intro d e hd he hsame
  rcases hcases d hd with heq | hold <;> rcases hcases e he with heq' | hold'
  · rw [heq, heq']
  · subst heq
    exact (recognized e hold' hsame.symm).symm
  · subst heq'
    exact recognized d hold hsame
  · exact distinct d e hold hold' hsame

theorem distinct_leave (distinct : h.registry.Distinct room) :
    (h.registry.leave room c).1.Distinct room := by
  have hbefore (d : Connection) (hd : (h.registry.leave room c).1.holder? room d.peer = some d) :
      h.registry.holder? room d.peer = some d := by
    rw [Registry.holder?_leave] at hd
    split at hd
    · cases hd
    · exact hd
  intro d e hd he
  exact distinct d e (hbefore d hd) (hbefore e he)

/-- The connection that is replaced has nobody of its number in the room afterwards. -/
theorem outside_of_replaced (distinct : h.registry.Distinct room)
    (recognized : h.Recognized room c) (new : h.registry.holder? room c.peer ≠ some c)
    {previous : Connection} (replaced : h.registry.holder? room c.peer = some previous) :
    (h.join room c).1.Outside room previous := by
  have hpeer : previous.peer = c.peer := Registry.peer_of_holder? replaced
  have hprevious : h.registry.holder? room previous.peer = some previous := hpeer ▸ replaced
  intro d hd hsame
  rw [(alike_join h room c).registry, Registry.holder?_join] at hd
  split at hd
  · cases hd
    cases recognized previous hprevious hsame.symm
    exact new replaced
  · rename_i hother
    cases distinct d previous hd hprevious hsame
    exact hother ⟨rfl, hpeer⟩

theorem tellsJoin_join (tidy : h.registry.Tidy) (distinct : h.registry.Distinct room)
    (recognized : h.Recognized room c) (new : h.registry.holder? room c.peer ≠ some c) :
    h.TellsJoin (h.join room c).1 room c := by
  have hregistry : (h.join room c).1.registry = (h.registry.join room c).1 :=
    (alike_join h room c).registry
  have hlists : (h.join room c).1.registry.slots.Lists room (h.registry.join room c).2.members := by
    rw [hregistry]
    exact (tidy.join room c).lists (Registry.members?_join_self _ room c)
  have hsuperseded : (h.registry.join room c).2.superseded = h.registry.holder? room c.peer :=
    (tidy.answersJoin room c).superseded
  have hnodup : ((h.registry.join room c).2.members.map (·.number)).Nodup := by
    apply (distinct_join distinct recognized).numbers_nodup hlists.peers_nodup
    intro d hd
    rw [← hregistry]
    exact (hlists.mem_iff d).mp hd
  have houtbox := outbox_announceJoin (h.enter room c).1 room c hnodup
  rw [hsuperseded] at houtbox
  -- Whoever is not replaced gets no request to close.
  have hkept (d : Connection)
      (other : ∀ p, h.registry.holder? room c.peer = some p → p.number ≠ d.number) :
      ((h.registry.holder? room c.peer).elim (h.enter room c).1 fun p =>
        (h.enter room c).1.close p superseded).outbox d = h.outbox d := by
    cases hprevious : h.registry.holder? room c.peer with
    | none => rfl
    | some p => exact outbox_close_of_ne (other p hprevious) _ _ _
  have hposted (d : Connection) (hd : d ∈ (h.registry.join room c).2.members) :
      (h.join room c).1.outbox d =
        (h.outbox d).post (listFrame ((h.registry.join room c).2.members.map (·.peer))) := by
    have hother (p : Connection) (hp : h.registry.holder? room c.peer = some p) :
        p.number ≠ d.number := fun hsame =>
      not_mem_of_outside hlists (outside_of_replaced distinct recognized new hp)
        (hsame ▸ List.mem_map_of_mem hd)
    refine (houtbox d).trans ?_
    rw [if_pos (List.mem_map_of_mem hd), hkept d hother]
  have hreplaced (p : Connection) (hp : h.registry.holder? room c.peer = some p) :
      (h.join room c).1.outbox p = (h.outbox p).requestClose true superseded := by
    refine (houtbox p).trans ?_
    have houtside := outside_of_replaced distinct recognized new hp
    rw [if_neg (not_mem_of_outside hlists houtside), hp]
    exact outbox_close_self _ p superseded true
  refine ⟨hregistry, ⟨_, informs_of_posted hlists hposted⟩, hreplaced, ?_, ?_⟩
  · intro p hp hlistening
    rw [hreplaced p hp]
    exact Outbox.contents_requestClose _ superseded hlistening
  · intro d houtside hother
    refine (houtbox d).trans ?_
    rw [if_neg (not_mem_of_outside hlists houtside), hkept d hother]

/-- A leave after which there is nobody to tell changes no outbox. -/
theorem outbox_depart_of_members_eq_nil (nobody : (h.registry.leave room c).2.members = [])
    (d : Connection) : (h.depart room c).outbox d = h.outbox d := by
  have hmembers : (h.exit room c).2.members = [] := nobody
  rw [outbox_depart, hmembers]
  rfl

theorem tellsLeave_depart (tidy : h.registry.Tidy) (distinct : h.registry.Distinct room)
    (recognized : h.Recognized room c) : h.TellsLeave (h.depart room c) room c := by
  have hregistry : (h.depart room c).registry = (h.registry.leave room c).1 :=
    (alike_depart h room c).registry
  have hanswers := tidy.answersLeave room c
  have hheld := isHeldBy_iff_holds recognized
  have hnotMember : (h.registry.leave room c).2 = .notMember ↔
      h.registry.holder? room c.peer ≠ some c := by
    rw [hanswers.notMember_iff, Registry.isHeldBy_slots, ← Bool.not_eq_true, hheld]
  have hremaining : (∃ ms, (h.registry.leave room c).2 = .remaining ms) ↔
      h.registry.holder? room c.peer = some c ∧
        (h.depart room c).registry.contains room = true := by
    rw [hanswers.remaining_iff, Registry.isHeldBy_slots, hheld, hregistry,
      (tidy.leave room c).simulates.contains_iff, Registry.slots_leave]
  rcases hanswer : (h.registry.leave room c).2 with _ | _ | ms
  · have hquiet := outbox_depart_of_members_eq_nil (by rw [hanswer]; rfl)
    exact
      { registry := hregistry
        informs := fun hholds => absurd hholds (hnotMember.mp hanswer)
        others := fun d _ => hquiet d
        emptied := fun _ => hquiet
        replaced := fun _ => ⟨hregistry.trans (hanswers.unchanged hanswer), hquiet⟩ }
  · have hquiet := outbox_depart_of_members_eq_nil (by rw [hanswer]; rfl)
    refine ⟨hregistry, ?_, fun d _ => hquiet d, fun _ => hquiet, ?_⟩
    · intro hholds hcontains
      obtain ⟨ms, hms⟩ := hremaining.mpr ⟨hholds, hcontains⟩
      rw [hanswer] at hms
      cases hms
    · intro hreplaced
      rw [hnotMember.mpr hreplaced] at hanswer
      cases hanswer
  · obtain ⟨hholds, hcontains⟩ := hremaining.mp ⟨ms, hanswer⟩
    have hlists : (h.depart room c).registry.slots.Lists room ms := by
      rw [hregistry, Registry.slots_leave]
      exact hanswers.remaining ms hanswer
    have hdistinct : (h.depart room c).registry.Distinct room := by
      rw [hregistry]
      exact distinct_leave distinct
    have hnodup : (ms.map (·.number)).Nodup :=
      hdistinct.numbers_nodup hlists.peers_nodup fun d hd => (hlists.mem_iff d).mp hd
    have hmembers : (h.exit room c).2.members = ms := by
      change (h.registry.leave room c).2.members = ms
      rw [hanswer]
      rfl
    have hbroadcast (d : Connection) : (h.depart room c).outbox d =
        if d.number ∈ ms.map (·.number) then (h.outbox d).post (listFrame (ms.map (·.peer)))
        else h.outbox d := by
      rw [outbox_depart, hmembers]
      exact outbox_broadcastPeers _ room hnodup d
    refine ⟨hregistry, ?_, ?_, ?_, ?_⟩
    · intro _ _
      refine ⟨_, informs_of_posted hlists ?_⟩
      intro d hd
      rw [hbroadcast, if_pos (List.mem_map_of_mem hd)]
    · intro d houtside
      rw [hbroadcast, if_neg (not_mem_of_outside hlists houtside)]
    · intro hgone
      rw [hgone] at hcontains
      cases hcontains
    · intro hreplaced
      exact absurd hholds hreplaced

end

/-! ### Leaves in the background -/

/-- The same state with other leaves waiting. -/
def awaiting (h : Hub) (ds : List (RoomId × Connection)) : Hub := { h with departures := ds }

section

variable (h : Hub) (ds : List (RoomId × Connection))

theorem attempt_awaiting (f : Frame) (failed : PeerId → RelayError → Event) (c : Connection) :
    (h.awaiting ds).attempt f failed c = (h.attempt f failed c).awaiting ds := by
  have houtbox : (h.awaiting ds).outbox c = h.outbox c := rfl
  rw [attempt_eq, attempt_eq, houtbox]
  split <;> rfl

theorem sendEach_awaiting (f : Frame) (failed : PeerId → RelayError → Event)
    (cs : List Connection) :
    (h.awaiting ds).sendEach f failed cs = (h.sendEach f failed cs).awaiting ds := by
  induction cs generalizing h with
  | nil => rfl
  | cons c rest ih =>
      change ((h.awaiting ds).attempt f failed c).sendEach f failed rest =
        ((h.attempt f failed c).sendEach f failed rest).awaiting ds
      rw [attempt_awaiting, ih]

/-- A leave does not look at the leaves that wait. -/
theorem depart_awaiting (room : RoomId) (c : Connection) :
    (h.awaiting ds).depart room c = (h.depart room c).awaiting ds := by
  let entered : Hub := { h with registry := (h.registry.leave room c).1 }
  change (entered.awaiting ds).announceLeave room c (h.registry.leave room c).2 =
    (entered.announceLeave room c (h.registry.leave room c).2).awaiting ds
  cases (h.registry.leave room c).2 with
  | notMember => rfl
  | roomEmpty => rfl
  | remaining members =>
      simp only [announceLeave, broadcastPeers, encode_peerList, sendEach_awaiting]
      rfl

theorem carryOut_awaiting (room : RoomId) (c : Connection) :
    (h.awaiting ((room, c) :: ds)).carryOut room c = (h.depart room c).awaiting ds := by
  have hfirst : (room, c) ∈ (h.awaiting ((room, c) :: ds)).departures := List.mem_cons_self
  have hrest : ((room, c) :: ds).erase (room, c) = ds := List.erase_cons_head ..
  rw [carryOut, if_pos hfirst, ← depart_awaiting]
  change (h.awaiting (((room, c) :: ds).erase (room, c))).depart room c = _
  rw [hrest]

end

/-- All leaves that wait are carried out one by one, in their order. -/
theorem runDepartures_eq (h : Hub) :
    h.runDepartures = h.departures.foldl (fun g d => g.carryOut d.1 d.2) h := by
  have hrun (ds : List (RoomId × Connection)) (g : Hub) :
      ds.foldl (fun g d => g.depart d.1 d.2) (g.awaiting []) =
        ds.foldl (fun g d => g.carryOut d.1 d.2) (g.awaiting ds) := by
    induction ds generalizing g with
    | nil => rfl
    | cons d rest ih =>
        obtain ⟨room, c⟩ := d
        rw [List.foldl_cons, List.foldl_cons, depart_awaiting, ih, carryOut_awaiting]
  exact hrun h.departures h

/-- A join tells the members of the room and the connection that it replaces, and nobody else. A
leave tells those who remain if it takes effect, and nobody otherwise; so does the leave of a
membership that was dropped, once the background carries it out, as it does with all that wait. -/
theorem updates_exact {h : Hub} {calls : List Registry.Call}
    (reached : h.registry = Registry.after calls) {room : RoomId} {c : Connection}
    (identified : Registry.Identified (.join room c :: calls)) :
    (h.registry.holder? room c.peer ≠ some c → h.TellsJoin (h.join room c).1 room c) ∧
      h.TellsLeave ((⟨room, c, .member⟩ : Membership).leave h).1 room c ∧
      ((room, c) ∈ ((⟨room, c, .member⟩ : Membership).drop h).1.departures ∧
        ((⟨room, c, .member⟩ : Membership).drop h).1.registry = h.registry ∧
        ∀ d, ((⟨room, c, .member⟩ : Membership).drop h).1.outbox d = h.outbox d) ∧
      ((room, c) ∈ h.departures → h.TellsLeave (h.carryOut room c) room c) ∧
      h.runDepartures = h.departures.foldl (fun g d => g.carryOut d.1 d.2) h := by
  have htidy : h.registry.Tidy := reached ▸ Registry.tidy_after calls
  have hcalls : Registry.Identified calls := by
    intro d hd e he
    exact identified d (List.mem_cons_of_mem _ hd) e (List.mem_cons_of_mem _ he)
  have hdistinct : h.registry.Distinct room := reached ▸ Registry.distinct_after hcalls room
  have hrecognized : h.Recognized room c := by
    intro d hd
    rw [reached] at hd
    have hmem : d ∈ calls.map (·.connection) := Registry.mem_calls_of_holder? hd
    exact identified d (List.mem_cons_of_mem _ hmem) c List.mem_cons_self
  refine ⟨tellsJoin_join htidy hdistinct hrecognized,
    tellsLeave_depart htidy hdistinct hrecognized, ⟨?_, rfl, fun _ => rfl⟩, ?_, runDepartures_eq h⟩
  · exact List.mem_append_right _ List.mem_cons_self
  · intro hpending
    rw [carryOut, if_pos hpending]
    let rest : Hub := { h with departures := h.departures.erase (room, c) }
    have hrest : rest.TellsLeave (rest.depart room c) room c :=
      tellsLeave_depart htidy hdistinct hrecognized
    exact hrest.of_same rfl fun _ => rfl

def loungeCalls : List Registry.Call :=
  [.join "r" ⟨0, "a"⟩, .join "r" ⟨1, "b"⟩, .join "q" ⟨2, "a"⟩]

/-- Two rooms with an `a` in each. In the first the `b` has no free place and is about to leave. -/
def lounge : Hub where
  registry := Registry.after loungeCalls
  outboxes := #[{ capacity := 2 }, { capacity := 1, queued := [.frame (.text "x")] },
    { capacity := 2 }, { capacity := 2 }]
  departures := [("r", ⟨1, "b"⟩)]

theorem updates_exact_lounge :
    lounge.TellsJoin (lounge.join "r" ⟨3, "a"⟩).1 "r" ⟨3, "a"⟩ ∧
      lounge.TellsLeave ((⟨"r", ⟨3, "a"⟩, .member⟩ : Membership).leave lounge).1 "r" ⟨3, "a"⟩ ∧
      lounge.TellsLeave (lounge.carryOut "r" ⟨1, "b"⟩) "r" ⟨1, "b"⟩ := by
  have hreached : lounge.registry = Registry.after loungeCalls := rfl
  have hnewcomer : Registry.Identified (.join "r" ⟨3, "a"⟩ :: loungeCalls) := by decide
  have hmember : Registry.Identified (.join "r" ⟨1, "b"⟩ :: loungeCalls) := by decide
  have hpending : ("r", ⟨1, "b"⟩) ∈ lounge.departures := by decide
  obtain ⟨hjoin, hleave, -, -⟩ := updates_exact hreached hnewcomer
  obtain ⟨-, -, -, hdeparture, -⟩ := updates_exact hreached hmember
  exact ⟨hjoin (by decide), hleave, hdeparture hpending⟩

end Hub

end RoomRelay
