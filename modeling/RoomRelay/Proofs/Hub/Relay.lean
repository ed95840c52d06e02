import RoomRelay.Proofs.Hub.Sending
import RoomRelay.Proofs.Message.RoundTrip
import RoomRelay.Proofs.Room.Slots

/-!
Whom an uplink reaches, and what relaying it does. The targets are given by what they are: members
of the room other than the sender, and named if anybody is named, each once and in the order of
first mention. Relaying for a sender that holds its place makes one attempt at each of them with
one and the same frame, and does nothing else.
-/

namespace RoomRelay

/-- Keeping what satisfies a test and then dropping repetitions leaves the first mentions in their
order. -/
theorem eraseDups_filter_ordered {α : Type} [BEq α] [LawfulBEq α] (test : α → Bool) (l : List α) :
    (l.filter test).eraseDups.Pairwise fun x y => l.idxOf x < l.idxOf y := by
  induction l generalizing test with
  | nil => exact List.Pairwise.nil
  | cons first rest ih =>
      -- What comes after the head differs from it, and so stands one place further on.
      have hlater {p : α → Bool} (hp : ∀ x, p x = true → x ≠ first) :
          (rest.filter p).eraseDups.Pairwise fun x y =>
            (first :: rest).idxOf x < (first :: rest).idxOf y := by
        refine (ih p).imp_of_mem ?_
        intro x y hx hy hlt
        have hxne := hp x (List.mem_filter.mp (List.mem_eraseDups.mp hx)).2
        have hyne := hp y (List.mem_filter.mp (List.mem_eraseDups.mp hy)).2
        rw [List.idxOf_cons_ne _ (Ne.symm hxne), List.idxOf_cons_ne _ (Ne.symm hyne)]
        omega
      cases hfirst : test first with
      | true =>
          rw [List.filter_cons_of_pos hfirst, List.eraseDups_cons, List.filter_filter]
          have hne {y : α} (hy : (!y == first && test y) = true) : y ≠ first := by
            rintro rfl
            simp at hy
          refine List.Pairwise.cons ?_ (hlater fun _ => hne)
          intro y hy
          have hyne := hne (List.mem_filter.mp (List.mem_eraseDups.mp hy)).2
          rw [List.idxOf_cons_self, List.idxOf_cons_ne _ (Ne.symm hyne)]
          omega
      | false =>
          rw [List.filter_cons_of_neg (by simp [hfirst])]
          apply hlater
          rintro x hx rfl
          rw [hfirst] at hx
          cases hx

namespace Registry

/-- The connections that an uplink is meant for: other members of the sender's room, and only
those who are named if anybody is, in the order in which they are first named. -/
structure Intended (r : Registry) (room : RoomId) (sender : PeerId) (targets : Option Targets)
    (ts : List Connection) : Prop where
  peers_nodup : (ts.map (·.peer)).Nodup
  mem_iff : ∀ c, c ∈ ts ↔ r.holder? room c.peer = some c ∧ c.peer ≠ sender ∧
    ∀ named, targets = some named → c.peer ∈ named.ids
  ordered : ∀ named, targets = some named →
    (ts.map (·.peer)).Pairwise fun p q => named.ids.idxOf p < named.ids.idxOf q

theorem peers_filterMap_find? (ms : Members) (ids : List PeerId) :
    ((ids.filterMap ms.find?).map (·.peer)).Sublist ids := by
  induction ids with
  | nil => exact List.Sublist.slnil
  | cons id rest ih =>
      cases hfind : ms.find? id with
      | none =>
          rw [List.filterMap_cons_none hfind]
          exact ih.cons id
      | some c =>
          rw [List.filterMap_cons_some hfind, List.map_cons, (Members.mem_of_find? hfind).2]
          exact ih.cons_cons id

/-- In a tidy registry `resolve` finds the intended connections, on both of its paths. -/
theorem Tidy.intended_resolve {r : Registry} (h : r.Tidy) {room : RoomId} {ms : Members}
    (hms : r.members? room = some ms) (sender : PeerId) (targets : Option Targets) :
    r.Intended room sender targets (resolve ms sender targets) := by
  have hnodup := h.members_nodup hms
  have hholder (c : Connection) : r.holder? room c.peer = some c ↔ c ∈ ms := by
    rw [holder?_eq_find? hms, Members.find?_eq_some_iff hnodup]
    simp
  cases targets with
  | none =>
      refine ⟨hnodup.sublist (List.Sublist.map _ List.filter_sublist), ?_, by simp⟩
      intro c
      rw [hholder]
      simp [resolve]
  | some named =>
      have hordered := eraseDups_filter_ordered (· != sender) named.ids
      have hsub := peers_filterMap_find? ms ((named.ids.filter (· != sender)).eraseDups)
      have hpeers := hordered.sublist hsub
      refine ⟨hpeers.imp ?_, ?_, ?_⟩
      · rintro p q hlt rfl
        exact Nat.lt_irrefl _ hlt
      · intro c
        rw [hholder]
        simp only [resolve, List.mem_filterMap, List.mem_eraseDups, List.mem_filter, bne_iff_ne]
        constructor
        · rintro ⟨id, ⟨hid, hne⟩, hfind⟩
          obtain ⟨hmem, rfl⟩ := Members.mem_of_find? hfind
          refine ⟨hmem, hne, ?_⟩
          rintro _ ⟨⟩
          exact hid
        · rintro ⟨hmem, hne, hnamed⟩
          exact ⟨c.peer, ⟨hnamed named rfl, hne⟩, Members.find?_of_mem hnodup hmem⟩
      · rintro _ ⟨⟩
        exact hpeers

/-- The members of a room are told apart by their numbers. -/
def Distinct (r : Registry) (room : RoomId) : Prop :=
  ∀ c d, r.holder? room c.peer = some c → r.holder? room d.peer = some d →
    c.number = d.number → c = d

theorem Distinct.numbers_nodup {r : Registry} {room : RoomId} {ts : List Connection}
    (h : r.Distinct room) (peers_nodup : (ts.map (·.peer)).Nodup)
    (holders : ∀ t ∈ ts, r.holder? room t.peer = some t) : (ts.map (·.number)).Nodup := by
  refine List.Nodup.map_on ?_ (peers_nodup.of_map _)
  intro c hc d hd hsame
  exact h c d (holders c hc) (holders d hd) hsame

theorem Intended.numbers_nodup {r : Registry} {room : RoomId} {sender : PeerId}
    {targets : Option Targets} {ts : List Connection} (h : r.Intended room sender targets ts)
    (distinct : r.Distinct room) : (ts.map (·.number)).Nodup :=
  distinct.numbers_nodup h.peers_nodup fun t ht => ((h.mem_iff t).mp ht).1

/-- A sender that holds its place is not told apart from a target by its peer id alone. -/
theorem Intended.sender_not_mem {r : Registry} {room : RoomId} {sender : Connection}
    {targets : Option Targets} {ts : List Connection} (h : r.Intended room sender.peer targets ts)
    (distinct : r.Distinct room) (holds : r.holder? room sender.peer = some sender) :
    sender.number ∉ ts.map (·.number) := by
  intro hmem
  obtain ⟨t, ht, hsame⟩ := List.mem_map.mp hmem
  obtain ⟨hholder, hne, -⟩ := (h.mem_iff t).mp ht
  exact hne (distinct t sender hholder holds hsame ▸ rfl)

/-- Connections under one number are clones of one another. -/
def Identified (calls : List Call) : Prop :=
  ∀ c ∈ calls.map (·.connection), ∀ d ∈ calls.map (·.connection), c.number = d.number → c = d

instance (calls : List Call) : Decidable (Identified calls) :=
  inferInstanceAs (Decidable (∀ c ∈ _, ∀ d ∈ _, _ → _))

theorem distinct_after {calls : List Call} (h : Identified calls) (room : RoomId) :
    (after calls).Distinct room := by
  intro c d hc hd
  exact h c (mem_calls_of_holder? hc) d (mem_calls_of_holder? hd)

end Registry

/-- A relay was answered that the sender has no place. -/
def isRefusal : Except RelayError Nat → Bool
  | .error (.roomNotFound _) | .error (.staleSession _ _) => true
  | _ => false

namespace Hub

theorem relay_of_held {h : Hub} {room : RoomId} {sender : Connection} {u : Uplink} {frame : Frame}
    {ms : Members} (encodes : (u.relayed sender.peer).encode = .ok frame)
    (members : h.registry.members? room = some ms)
    (held : h.registry.isHeldBy room sender = true) :
    h.relay room sender u =
      ((h.record (.relaying sender.peer room u.action frame.isBinary
          (resolve ms sender.peer u.targets).length)).dispatch
        ⟨h.nextDue, sender.peer, resolve ms sender.peer u.targets, frame⟩,
        .ok (resolve ms sender.peer u.targets).length) := by
  rw [Registry.isHeldBy_of_members? members] at held
  simp only [relay, encodes, members, held, if_true]
  rfl

/-- The ways in which relaying can end. -/
theorem relay_cases (h : Hub) (room : RoomId) (sender : Connection) (u : Uplink) :
    (∃ e, (u.relayed sender.peer).encode = .error e ∧
      h.relay room sender u = (h, .error (.codec e))) ∨
    (∃ frame, (u.relayed sender.peer).encode = .ok frame ∧
      ((h.registry.members? room = none ∧
        h.relay room sender u = (h.close sender roomGone, .error (.roomNotFound room))) ∨
      (∃ ms, h.registry.members? room = some ms ∧ h.registry.isHeldBy room sender = false ∧
        h.relay room sender u =
          (h.close sender superseded, .error (.staleSession room sender.peer))) ∨
      (∃ ms, h.registry.members? room = some ms ∧ h.registry.isHeldBy room sender = true ∧
        h.relay room sender u =
          ((h.record (.relaying sender.peer room u.action frame.isBinary
              (resolve ms sender.peer u.targets).length)).dispatch
            ⟨h.nextDue, sender.peer, resolve ms sender.peer u.targets, frame⟩,
            .ok (resolve ms sender.peer u.targets).length)))) := by
  cases hencode : (u.relayed sender.peer).encode with
  | error e => exact Or.inl ⟨e, rfl, by simp only [relay, hencode]⟩
  | ok frame =>
      refine Or.inr ⟨frame, rfl, ?_⟩
      cases hms : h.registry.members? room with
      | none => exact Or.inl ⟨rfl, by simp only [relay, hencode, hms]⟩
      | some ms =>
          refine Or.inr ?_
          cases hheld : h.registry.isHeldBy room sender with
          | true => exact Or.inr ⟨ms, rfl, rfl, relay_of_held hencode hms hheld⟩
          | false =>
              refine Or.inl ⟨ms, rfl, rfl, ?_⟩
              rw [Registry.isHeldBy_of_members? hms] at hheld
              simp [relay, hencode, hms, hheld]

/-- Each of these connections gets one attempt to queue the frame, no other outbox is touched, and
the log gets the relay itself and one event for each connection that did not take the frame. -/
structure Reaches (h after : Hub) (sender : PeerId) (relaying : Event) (frame : Frame)
    (ts : List Connection) : Prop where
  taken : ∀ c ∈ ts, (h.outbox c).Accepts →
    after.outbox c = { h.outbox c with queued := (h.outbox c).queued ++ [.frame frame] }
  refused : ∀ c ∈ ts, ¬ (h.outbox c).Accepts → after.outbox c = h.outbox c
  others : ∀ c, c.number ∉ ts.map (·.number) → after.outbox c = h.outbox c
  events : after.events =
    (h.complaints (.frameNotSent sender) ts).reverse ++ relaying :: h.events
  alike : h.Alike after

theorem reaches_deliver (h : Hub) (relaying : Event) (d : Delivery)
    (nodup : (d.targets.map (·.number)).Nodup) :
    h.Reaches ((h.record relaying).deliver d) d.sender relaying d.frame d.targets := by
  have houtbox (c : Connection) :
      ((h.record relaying).deliver d).outbox c =
        if c.number ∈ d.targets.map (·.number) then (h.outbox c).post d.frame else h.outbox c :=
    outbox_sendEach (h.record relaying) d.frame _ nodup c
  have hmem {c : Connection} (hc : c ∈ d.targets) : c.number ∈ d.targets.map (·.number) :=
    List.mem_map_of_mem hc
  refine ⟨?_, ?_, ?_, ?_, ?_⟩
  · intro c hc haccepts
    rw [houtbox, if_pos (hmem hc), Outbox.post_of_accepts haccepts]
  · intro c hc hrefuses
    rw [houtbox, if_pos (hmem hc), Outbox.post_of_not_accepts hrefuses]
  · intro c hc
    rw [houtbox, if_neg hc]
  · have hcomplaints : (h.record relaying).complaints (.frameNotSent d.sender) d.targets =
        h.complaints (.frameNotSent d.sender) d.targets := complaints_congr _ (fun _ _ => rfl)
    rw [← hcomplaints]
    exact events_sendEach (h.record relaying) d.frame _ nodup
  · exact (alike_record h relaying).trans (alike_sendEach _ _ _ d.targets)

/-- Relaying for a sender that holds its place, with nothing held back, reaches the intended
connections and says how many they are. They read what the uplink says under the name of the
sender, unless it is nested too deeply. Nobody else notices: not the sender, and of the members
nobody who is left out of a list of targets. -/
theorem relay_exact {h : Hub} {calls : List Registry.Call}
    (reached : h.registry = Registry.after calls) (identified : Registry.Identified calls)
    (immediate : h.delay = 0) {room : RoomId} {sender : Connection}
    (holds : h.registry.holder? room sender.peer = some sender) {u : Uplink} {frame : Frame}
    (encodes : (u.relayed sender.peer).encode = .ok frame) :
    ∃ ts : List Connection,
      h.registry.Intended room sender.peer u.targets ts ∧
      (ts.map (·.number)).Nodup ∧
      (h.relay room sender u).2 = .ok ts.length ∧
      h.Reaches (h.relay room sender u).1 sender.peer
        (.relaying sender.peer room u.action frame.isBinary ts.length) frame ts ∧
      ((∀ v ∈ jsonValues u.data u.metadata, 1 + v.depth ≤ Json.maxDepth) →
        frame.Conveys
          { action := u.action, data := u.data, sender := sender.peer, metadata := u.metadata }) ∧
      (h.relay room sender u).1.outbox sender = h.outbox sender ∧
      ∀ named, u.targets = some named → ∀ c, h.registry.holder? room c.peer = some c →
        c.peer ∉ named.ids → (h.relay room sender u).1.outbox c = h.outbox c := by
  have htidy : h.registry.Tidy := reached ▸ Registry.tidy_after calls
  have hdistinct : h.registry.Distinct room := reached ▸ Registry.distinct_after identified room
  have hheld : h.registry.isHeldBy room sender = true :=
    Registry.isHeldBy_iff.mpr ⟨sender, holds, rfl⟩
  obtain ⟨ms, hms, -⟩ := (Registry.holder?_eq_some_iff htidy).mp holds
  have hrelay : h.relay room sender u =
      ((h.record (.relaying sender.peer room u.action frame.isBinary
          (resolve ms sender.peer u.targets).length)).deliver
        ⟨h.nextDue, sender.peer, resolve ms sender.peer u.targets, frame⟩,
        .ok (resolve ms sender.peer u.targets).length) := by
    rw [relay_of_held encodes hms hheld, dispatch, if_pos]
    exact immediate
  have hintended := htidy.intended_resolve hms sender.peer u.targets
  have hnodup := hintended.numbers_nodup hdistinct
  have hreaches := reaches_deliver h
    (.relaying sender.peer room u.action frame.isBinary (resolve ms sender.peer u.targets).length)
    ⟨h.nextDue, sender.peer, resolve ms sender.peer u.targets, frame⟩ hnodup
  rw [hrelay]
  refine ⟨resolve ms sender.peer u.targets, hintended, hnodup, rfl, hreaches, ?_, ?_, ?_⟩
  · exact fun hdepth => Downlink.conveys_encode hdepth encodes
  · exact hreaches.others sender (hintended.sender_not_mem hdistinct holds)
  · intro named hnamed c hc hunnamed
    apply hreaches.others
    intro hmem
    obtain ⟨t, ht, hsame⟩ := List.mem_map.mp hmem
    obtain ⟨hholder, -, hids⟩ := (hintended.mem_iff t).mp ht
    cases hdistinct t c hholder hc hsame
    exact hunnamed (hids named hnamed)

def crowdCalls : List Registry.Call :=
  [.join "r" ⟨0, "a"⟩, .join "r" ⟨1, "b"⟩, .join "r" ⟨2, "c"⟩]

/-- Three members, of whom the second has no free place. -/
def crowd : Hub where
  registry := Registry.after crowdCalls
  outboxes := #[{ capacity := 2 }, { capacity := 1, queued := [.frame (.text "x")] },
    { capacity := 2 }]

theorem relay_exact_crowd :
    let sender : Connection := ⟨0, "a"⟩
    let u : Uplink :=
      { action := "hi"
        data := some (.json (.string "x"))
        targets := some (.many ["c", "z", "b", "a", "c"]) }
    let frame : Frame := .text "\x7b\"action\":\"hi\",\"data\":\"x\",\"peerId\":\"a\"\x7d"
    ∃ ts : List Connection, crowd.registry.Intended "r" sender.peer u.targets ts ∧
      (crowd.relay "r" sender u).2 = .ok ts.length ∧
      crowd.Reaches (crowd.relay "r" sender u).1 sender.peer
        (.relaying sender.peer "r" u.action false ts.length) frame ts ∧
      frame.Conveys { action := "hi", data := some (.json (.string "x")), sender := "a" } := by
  intro sender u frame
  have hreached : crowd.registry = Registry.after crowdCalls := rfl
  have hidentified : Registry.Identified crowdCalls := by decide
  have hholds : crowd.registry.holder? "r" sender.peer = some sender := by decide
  have hframe : Frame.text (objectText (u.relayed sender.peer).fields) = frame := by
    decide +kernel
  have hencodes : (u.relayed sender.peer).encode = .ok frame := congrArg Except.ok hframe
  obtain ⟨ts, hintended, -, hcount, hreaches, hconveys, -⟩ :=
    relay_exact hreached hidentified rfl hholds hencodes
  exact ⟨ts, hintended, hcount, hreaches, hconveys (by decide)⟩

end Hub

end RoomRelay
