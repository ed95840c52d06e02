import Mathlib.Data.List.Nodup
import RoomRelay.Proofs.Hub.Updates
import RoomRelay.Proofs.Hub.World

/-!
What the members of a room end up believing. A join or a leave changes the registry first and tells
the members afterwards, by a list that it took along with the change, and any number of other calls
may take either of their steps in between. So the list that a member gets last is that of the call
which told it last. It names the members of the room if that call was also the last to change the
room, as it is when the calls tell the members in the order of their changes.
-/

namespace RoomRelay

/-- Who is told of a change. -/
def Notice.members : Notice → List Connection
  | .joined _ _ answer => answer.members
  | .left _ _ answer => answer.members

theorem Notice.post_eq (notice : Notice) : notice.post = listPost notice.members := by
  cases notice <;> rfl

/-- A call on one room that has changed the registry, with its place in the order of the changes. -/
structure Turn where
  number : Nat
  notice : Notice
deriving DecidableEq, Repr

def Turn.members (t : Turn) : List Connection :=
  t.notice.members

def Turn.tells (t : Turn) (c : Connection) : Bool :=
  decide (c.number ∈ t.members.map (·.number))

structure Gathering where
  hub : Hub := {}
  /-- The calls that are yet to tell the members. -/
  pending : List Turn := []
  /-- The calls that have told them, the first first. -/
  finished : List Turn := []

namespace Gathering

/-- A call takes its first step or its second. -/
inductive Move where
  | enter (c : Connection)
  | exit (c : Connection)
  | announce (k : Nat)
deriving DecidableEq, Repr

def turns (g : Gathering) : List Turn :=
  g.finished ++ g.pending

/-- A call has changed the registry. -/
def change (g : Gathering) (hub : Hub) (notice : Notice) : Gathering :=
  { g with hub, pending := g.pending ++ [⟨g.turns.length, notice⟩] }

def step (room : RoomId) (g : Gathering) : Move → Gathering
  | .enter c =>
    let (hub, joined) := g.hub.enter room c
    g.change hub (.joined room c joined)
  | .exit c =>
    let (hub, departure) := g.hub.exit room c
    g.change hub (.left room c departure)
  | .announce k =>
    match g.pending[k]? with
    | some t =>
      { hub := t.notice.announce g.hub
        pending := g.pending.eraseIdx k
        finished := g.finished ++ [t] }
    | none => g

/-- A call whose steps come one right after the other is a whole join. -/
theorem hub_join (g : Gathering) (room : RoomId) (c : Connection) :
    ((g.step room (.enter c)).step room (.announce g.pending.length)).hub =
      (g.hub.join room c).1 := by
  simp only [step, change, List.getElem?_concat_length]
  rfl

/-- Or a whole leave. -/
theorem hub_leave (g : Gathering) (room : RoomId) (c : Connection) :
    ((g.step room (.exit c)).step room (.announce g.pending.length)).hub =
      g.hub.depart room c := by
  simp only [step, change, List.getElem?_concat_length]
  rfl

def run (outboxes : Array Outbox) (room : RoomId) (moves : List Move) : Gathering :=
  moves.foldl (step room) { hub := { outboxes } }

def Move.call? (room : RoomId) : Move → Option Registry.Call
  | .enter c => some (.join room c)
  | .exit c => some (.leave room c)
  | .announce _ => none

/-- The calls on the registry, in the order in which they change it. -/
def calls (room : RoomId) (moves : List Move) : List Registry.Call :=
  moves.filterMap (Move.call? room)

end Gathering

/-! ### The last list -/

/-- The frame reads as a peer list. -/
def Frame.isList (f : Frame) : Bool :=
  match Downlink.decode f.isBinary f.bytes with
  | .ok d => d.peerIds?.isSome
  | .error _ => false

theorem isList_listFrame (ids : List PeerId) : (listFrame ids).isList = true := by
  rw [Frame.isList, decode_listFrame]
  simp only [peerIds?_peerList, Option.isSome_some]

/-- The last peer list in an outbox. -/
def Outbox.lastList? (q : Outbox) : Option Frame :=
  (q.frames.filter Frame.isList).getLast?

namespace Gathering

section

variable {room : RoomId} {g : Gathering}

/-- The list that a call sends. -/
def frame (t : Turn) : Frame :=
  listFrame (t.members.map (·.peer))

theorem tells_iff {t : Turn} {c : Connection} :
    t.tells c = true ↔ c.number ∈ t.members.map (·.number) :=
  decide_eq_true_iff

/-- An outbox that has not become full by it has taken the frame. -/
theorem feeds_of_free {q r : Outbox} {f : Frame} (quiet : q.Feeds r [])
    (free : (r.post f).Accepts) :
    q.Feeds (r.post f) [f] := by
  have haccepts : r.Accepts := by
    by_contra hrefuses
    rw [Outbox.post_of_not_accepts hrefuses] at free
    exact hrefuses free
  exact quiet.trans (Outbox.feeds_post haccepts f)

/-- A connection whose outbox does not become full gets the list of a call that tells it. -/
theorem feeds_announce {h : Hub} {t : Turn} {c : Connection}
    (nodup : (t.members.map (·.number)).Nodup) (told : t.tells c = true)
    (free : ((t.notice.announce h).outbox c).Accepts) :
    (h.outbox c).Feeds ((t.notice.announce h).outbox c) [frame t] := by
  obtain ⟨number, notice⟩ := t
  have hmem := tells_iff.mp told
  cases notice with
  | joined room d answer =>
      have houtbox := (Hub.outbox_announceJoin h room d nodup c).trans (if_pos hmem)
      change (h.outbox c).Feeds ((h.announceJoin room d answer).outbox c) _
      change ((h.announceJoin room d answer).outbox c).Accepts at free
      rw [houtbox] at free ⊢
      -- The request to close comes first, and may take the last free place.
      refine feeds_of_free ?_ free
      cases answer.superseded with
      | none => exact Outbox.Feeds.refl _
      | some previous => exact (Hub.carries_close h previous superseded true).feeds_nil c
  | left room d answer =>
      have houtbox := (Hub.outbox_announceLeave h room d answer c).trans
        ((Hub.outbox_broadcastPeers h room nodup c).trans (if_pos hmem))
      change (h.outbox c).Feeds ((h.announceLeave room d answer).outbox c) _
      change ((h.announceLeave room d answer).outbox c).Accepts at free
      rw [houtbox] at free ⊢
      exact feeds_of_free (Outbox.Feeds.refl _) free

/-- A call that does not tell a connection sends it no list. -/
theorem feeds_announce_of_not_told {h : Hub} {t : Turn} {c : Connection}
    (nodup : (t.members.map (·.number)).Nodup) (untold : t.tells c ≠ true) :
    (h.outbox c).Feeds ((t.notice.announce h).outbox c) [] := by
  have hpost := t.notice.post_eq
  have hcarries := t.notice.carries_announce h (by rw [hpost]; exact nodup)
  rcases hcarries c with hquiet | ⟨p, hp, hmem, -⟩
  · exact hquiet
  · cases hp
    rw [hpost] at hmem
    exact absurd (tells_iff.mpr hmem) untold

/-! ### What a step preserves -/

/-- The calls have taken the turns of their changes. Each of them tells connections that differ,
and the latest that tells anybody at all names the members of the room as they are. -/
structure Sound (room : RoomId) (g : Gathering) : Prop where
  tidy : g.hub.registry.Tidy
  numbers : (g.turns.map (·.number)).Perm (List.range g.turns.length)
  nodup : ∀ t ∈ g.turns, (t.members.map (·.number)).Nodup
  newest : ∀ c, g.hub.registry.holder? room c.peer = some c →
    ∃ t ∈ g.turns, g.hub.registry.slots.Lists room t.members ∧
      ∀ s ∈ g.turns, s.members ≠ [] → s.number ≤ t.number

theorem Sound.number_lt (h : g.Sound room) {t : Turn} (ht : t ∈ g.turns) :
    t.number < g.turns.length :=
  List.mem_range.mp (h.numbers.mem_iff.mp (List.mem_map_of_mem ht))

theorem turns_change (hub : Hub) (notice : Notice) :
    (g.change hub notice).turns = g.turns ++ [⟨g.turns.length, notice⟩] := by
  simp [turns, change]

/-- A change after which the members are those that are told of it, or which is none at all. -/
theorem Sound.change (h : g.Sound room) (hub : Hub) (notice : Notice) (tidy : hub.registry.Tidy)
    (nodup : (notice.members.map (·.number)).Nodup)
    (told : (notice.members = [] ∧
        (hub.registry = g.hub.registry ∨ ¬ hub.registry.slots.Occupied room)) ∨
      hub.registry.slots.Lists room notice.members) :
    (g.change hub notice).Sound room where
  tidy := tidy
  numbers := by
    rw [turns_change, List.map_append, List.length_append, List.length_singleton, List.range_succ]
    exact h.numbers.append_right _
  nodup := by
    rw [turns_change]
    intro t ht
    rcases List.mem_append.mp ht with hold | hlast
    · exact h.nodup t hold
    · cases List.mem_singleton.mp hlast
      exact nodup
  newest := by
    rw [turns_change]
    intro c hc
    change hub.registry.holder? room c.peer = some c at hc
    rcases told with ⟨hnobody, hsame | hempty⟩ | hlists
    · rw [hsame] at hc
      obtain ⟨t, ht, hlists, hlatest⟩ := h.newest c hc
      refine ⟨t, List.mem_append_left _ ht, hsame.symm ▸ hlists, ?_⟩
      intro s hs htells
      rcases List.mem_append.mp hs with hold | hlast
      · exact hlatest s hold htells
      · cases List.mem_singleton.mp hlast
        exact absurd hnobody htells
    · exact absurd ⟨c.peer, c, hc⟩ hempty
    · refine ⟨_, List.mem_append_right _ (List.mem_singleton_self _), hlists, ?_⟩
      intro s hs _
      rcases List.mem_append.mp hs with hold | hlast
      · exact Nat.le_of_lt (h.number_lt hold)
      · cases List.mem_singleton.mp hlast
        exact Nat.le_refl _

/-- The answer to a leave tells all who are left in the room, or it tells nobody since nothing has
changed or nobody is left. -/
theorem told_leave {r : Registry} (tidy : r.Tidy) (room : RoomId) (c : Connection) :
    ((r.leave room c).2.members = [] ∧
        ((r.leave room c).1 = r ∨ ¬ (r.leave room c).1.slots.Occupied room)) ∨
      (r.leave room c).1.slots.Lists room (r.leave room c).2.members := by
  have hanswers := tidy.answersLeave room c
  cases hanswer : (r.leave room c).2 with
  | notMember => exact Or.inl ⟨rfl, Or.inl (hanswers.unchanged hanswer)⟩
  | roomEmpty =>
      obtain ⟨hheld, halone⟩ := hanswers.roomEmpty_iff.mp hanswer
      rw [Registry.slots_leave]
      exact Or.inl ⟨rfl, Or.inr (Registry.not_occupied_leave halone hheld)⟩
  | remaining ms =>
      rw [Registry.slots_leave]
      exact Or.inr (hanswers.remaining ms hanswer)

/-- The members of a room differ in their numbers as long as no two connections share one. -/
theorem numbers_nodup {r : Registry} (distinct : r.Distinct room) {ms : Members}
    (lists : r.slots.Lists room ms) : (ms.map (·.number)).Nodup :=
  distinct.numbers_nodup lists.peers_nodup fun d hd => (lists.mem_iff d).mp hd

theorem Sound.enter (h : g.Sound room) {c : Connection}
    (distinct : (g.hub.registry.join room c).1.Distinct room) :
    (g.step room (.enter c)).Sound room := by
  have hlists : (g.hub.registry.join room c).1.slots.Lists room
      (g.hub.registry.join room c).2.members :=
    (h.tidy.join room c).lists (Registry.members?_join_self _ room c)
  exact h.change _ (.joined room c _) (h.tidy.join room c) (numbers_nodup distinct hlists)
    (Or.inr hlists)

theorem Sound.exit (h : g.Sound room) {c : Connection}
    (distinct : (g.hub.registry.leave room c).1.Distinct room) :
    (g.step room (.exit c)).Sound room := by
  have htold := told_leave h.tidy room c
  refine h.change _ (.left room c _) (h.tidy.leave room c) ?_ htold
  change ((g.hub.registry.leave room c).2.members.map (·.number)).Nodup
  rcases htold with ⟨hnobody, -⟩ | hlists
  · rw [hnobody]
    exact List.nodup_nil
  · exact numbers_nodup distinct hlists

theorem perm_turns (room : RoomId) {k : Nat} {t : Turn} (found : g.pending[k]? = some t) :
    (g.step room (.announce k)).turns.Perm g.turns := by
  obtain ⟨hk, rfl⟩ := List.getElem?_eq_some_iff.mp found
  have hperm := (List.getElem_cons_eraseIdx_perm hk).append_left g.finished
  simpa [turns, step, found] using hperm

theorem Sound.announce (h : g.Sound room) (k : Nat) : (g.step room (.announce k)).Sound room := by
  cases found : g.pending[k]? with
  | none => simpa [step, found] using h
  | some t =>
      have hperm := perm_turns room found
      have hregistry : (g.step room (.announce k)).hub.registry = g.hub.registry := by
        simp only [step, found]
        exact (t.notice.alike_announce g.hub).registry
      refine ⟨hregistry ▸ h.tidy, ?_, ?_, ?_⟩
      · rw [hperm.length_eq]
        exact (hperm.map _).trans h.numbers
      · exact fun s hs => h.nodup s (hperm.mem_iff.mp hs)
      · rw [hregistry]
        intro c hc
        obtain ⟨s, hs, hlists, hlatest⟩ := h.newest c hc
        exact ⟨s, hperm.mem_iff.mpr hs, hlists, fun t ht => hlatest t (hperm.mem_iff.mp ht)⟩

end

/-! ### Runs -/

section

variable {outboxes : Array Outbox} {room : RoomId} {moves : List Move}

theorem run_append_singleton (outboxes : Array Outbox) (room : RoomId) (moves : List Move)
    (move : Move) :
    run outboxes room (moves ++ [move]) = (run outboxes room moves).step room move := by
  simp [run]

theorem calls_append_singleton (room : RoomId) (moves : List Move) (move : Move) :
    calls room (moves ++ [move]) = calls room moves ++ (move.call? room).toList := by
  cases move <;> simp [calls, Move.call?]

theorem registry_run (outboxes : Array Outbox) (room : RoomId) (moves : List Move) :
    (run outboxes room moves).hub.registry = Registry.after (calls room moves) := by
  induction moves using List.reverseRecOn with
  | nil => rfl
  | append_singleton moves move ih =>
      rw [run_append_singleton, calls_append_singleton]
      cases move with
      | enter c => simp [step, change, Hub.enter, ih, Move.call?, Registry.after, Registry.call]
      | exit c => simp [step, change, Hub.exit, ih, Move.call?, Registry.after, Registry.call]
      | announce k =>
          simp only [step, Move.call?, Option.toList_none, List.append_nil]
          split
          · rename_i t _
            exact (t.notice.alike_announce _).registry.trans ih
          · exact ih

theorem identified_of_append {move : Move}
    (identified : Registry.Identified (calls room (moves ++ [move]))) :
    Registry.Identified (calls room moves) := by
  rw [calls_append_singleton] at identified
  intro c hc d hd
  refine identified c ?_ d ?_
  · exact List.map_append ▸ List.mem_append_left _ hc
  · exact List.map_append ▸ List.mem_append_left _ hd

theorem sound_run (identified : Registry.Identified (calls room moves)) :
    (run outboxes room moves).Sound room := by
  induction moves using List.reverseRecOn with
  | nil =>
      refine ⟨Registry.tidy_empty, .nil, by simp [turns, run], ?_⟩
      simp [run, Registry.holder?, Registry.members?]
  | append_singleton moves move ih =>
      have hbefore := identified_of_append identified
      have hdistinct := Registry.distinct_after identified room
      rw [← registry_run outboxes, run_append_singleton] at hdistinct
      rw [run_append_singleton]
      cases move with
      | enter c => exact (ih hbefore).enter hdistinct
      | exit c => exact (ih hbefore).exit hdistinct
      | announce k => exact (ih hbefore).announce k

variable (outboxes room moves) in
/-- At every moment of the run the outbox of a connection has a receiver and a free place. -/
def Free (c : Connection) : Prop :=
  ∀ before, before <+: moves → ((run outboxes room before).hub.outbox c).Accepts

theorem Free.of_append {move : Move} {c : Connection}
    (free : Free outboxes room (moves ++ [move]) c) : Free outboxes room moves c :=
  fun before hbefore => free before (hbefore.trans (List.prefix_append moves [move]))

/-- What a connection with room in its outbox gets are the lists of the calls that tell it, in the
order in which they do. -/
theorem feeds_run (identified : Registry.Identified (calls room moves)) {c : Connection}
    (free : Free outboxes room moves c) :
    ((run outboxes room []).hub.outbox c).Feeds ((run outboxes room moves).hub.outbox c)
      (((run outboxes room moves).finished.filter (·.tells c)).map frame) := by
  induction moves using List.reverseRecOn with
  | nil => exact Outbox.Feeds.refl _
  | append_singleton moves move ih =>
      have hbefore := identified_of_append identified
      have hfeeds := ih hbefore free.of_append
      have hafter := free _ (List.prefix_refl _)
      rw [run_append_singleton] at hafter ⊢
      cases move with
      | enter d => exact hfeeds
      | exit d => exact hfeeds
      | announce k =>
          cases found : (run outboxes room moves).pending[k]? with
          | none => simpa [step, found] using hfeeds
          | some t =>
              have hturn : t ∈ (run outboxes room moves).turns :=
                List.mem_append_right _ (List.mem_of_getElem? found)
              have hnodup := (sound_run hbefore).nodup t hturn
              simp only [step, found] at hafter ⊢
              rw [List.filter_append, List.map_append]
              refine hfeeds.trans ?_
              cases htells : t.tells c with
              | true => simpa [htells] using feeds_announce hnodup htells hafter
              | false => simpa [htells] using feeds_announce_of_not_told hnodup (by simp [htells])

theorem lastList?_of_feeds {q r : Outbox} {ts : List Turn} {t : Turn}
    (feeds : q.Feeds r ((ts ++ [t]).map frame)) : r.lastList? = some (frame t) := by
  have hlist : (frame t).isList = true := isList_listFrame _
  rw [Outbox.lastList?, feeds.frames_eq]
  simp [hlist]

variable (outboxes room) in
/-- When the calls tell the members in the order of their changes, they stay in that order. -/
theorem numbers_of_ordered (ordered : ∀ k, .announce k ∈ moves → k = 0) :
    (run outboxes room moves).turns.map (·.number) =
      List.range (run outboxes room moves).turns.length := by
  induction moves using List.reverseRecOn with
  | nil => rfl
  | append_singleton moves move ih =>
      have hnumbers := ih fun k hk => ordered k (List.mem_append_left _ hk)
      rw [run_append_singleton]
      cases move with
      | enter c =>
          simp only [step]
          rw [turns_change, List.map_append, hnumbers, List.length_append, List.length_singleton,
            List.range_succ]
          rfl
      | exit c =>
          simp only [step]
          rw [turns_change, List.map_append, hnumbers, List.length_append, List.length_singleton,
            List.range_succ]
          rfl
      | announce k =>
          cases ordered k (List.mem_append_right _ (List.mem_singleton_self _))
          cases found : (run outboxes room moves).pending with
          | nil => simpa [step, found] using hnumbers
          | cons t rest => simpa [step, found, turns] using hnumbers

/-- The newest list names the members of the room. -/
theorem names_of_newest (sound : (run outboxes room moves).Sound room)
    (done : (run outboxes room moves).pending = []) {c : Connection}
    (holds : (run outboxes room moves).hub.registry.holder? room c.peer = some c) :
    ∃ t ∈ (run outboxes room moves).finished.filter (·.tells c),
      (frame t).Names (run outboxes room moves).hub.registry room ∧
        ∀ s ∈ (run outboxes room moves).finished.filter (·.tells c), s.number ≤ t.number := by
  obtain ⟨t, ht, hlists, hlatest⟩ := sound.newest c holds
  rw [turns, done, List.append_nil] at ht hlatest
  have htells : t.tells c = true :=
    tells_iff.mpr (List.mem_map_of_mem ((hlists.mem_iff c).mpr holds))
  refine ⟨t, List.mem_filter.mpr ⟨ht, htells⟩, names_listFrame hlists, ?_⟩
  intro s hs
  obtain ⟨hturn, hstells⟩ := List.mem_filter.mp hs
  refine hlatest s hturn fun hnobody => ?_
  rw [tells_iff, hnobody] at hstells
  cases hstells

variable (outboxes room) in
/-- When the calls tell the members in the order of their changes, each list is newer than those
before. -/
theorem ascending_of_ordered (ordered : ∀ k, .announce k ∈ moves → k = 0)
    (done : (run outboxes room moves).pending = []) (c : Connection) :
    ((run outboxes room moves).finished.filter (·.tells c)).Pairwise
      fun s t => s.number < t.number := by
  have hnumbers := numbers_of_ordered outboxes room ordered
  rw [turns, done, List.append_nil] at hnumbers
  have hascending : ((run outboxes room moves).finished.map (·.number)).Pairwise (· < ·) :=
    hnumbers ▸ List.pairwise_lt_range
  exact (List.pairwise_map.mp hascending).sublist List.filter_sublist

/-- Once all calls are done, the last list of a member with room in its outbox is that of the call
which told it last. It names the members of the room if no call that had told the member before was
later to change the room, and so it does whenever the calls tell the members in the order in which
they changed the room. -/
theorem lists_converge (identified : Registry.Identified (calls room moves))
    (done : (run outboxes room moves).pending = []) {c : Connection}
    (holds : (run outboxes room moves).hub.registry.holder? room c.peer = some c)
    (free : Free outboxes room moves c) :
    (∃ earlier last, (run outboxes room moves).finished.filter (·.tells c) = earlier ++ [last] ∧
      ((run outboxes room moves).hub.outbox c).lastList? = some (frame last) ∧
      ((∀ t ∈ earlier, t.number < last.number) →
        (frame last).Names (run outboxes room moves).hub.registry room)) ∧
    ((∀ k, .announce k ∈ moves → k = 0) →
      ∃ f, ((run outboxes room moves).hub.outbox c).lastList? = some f ∧
        f.Names (run outboxes room moves).hub.registry room) := by
  obtain ⟨newest, hnewest, hnames, hlatest⟩ := names_of_newest (sound_run identified) done holds
  obtain ⟨earlier, last, hsplit⟩ : ∃ earlier last,
      (run outboxes room moves).finished.filter (·.tells c) = earlier ++ [last] := by
    rcases List.eq_nil_or_concat' ((run outboxes room moves).finished.filter (·.tells c)) with
      hnil | ⟨earlier, last, hconcat⟩
    · rw [hnil] at hnewest
      cases hnewest
    · exact ⟨earlier, last, hconcat⟩
  have hlast : ((run outboxes room moves).hub.outbox c).lastList? = some (frame last) :=
    lastList?_of_feeds (hsplit ▸ feeds_run identified free)
  have hinTurn (inTurn : ∀ t ∈ earlier, t.number < last.number) :
      (frame last).Names (run outboxes room moves).hub.registry room := by
    rw [hsplit] at hnewest hlatest
    rcases List.mem_append.mp hnewest with hearlier | hsame
    · have hbefore := inTurn newest hearlier
      have hafter := hlatest last (List.mem_append_right _ (List.mem_singleton_self _))
      omega
    · cases List.mem_singleton.mp hsame
      exact hnames
  refine ⟨⟨earlier, last, hsplit, hlast, hinTurn⟩, ?_⟩
  intro ordered
  have hascending := ascending_of_ordered outboxes room ordered done c
  rw [hsplit, List.pairwise_append] at hascending
  exact ⟨frame last, hlast,
    hinTurn fun t ht => hascending.2.2 t ht last (List.mem_singleton_self _)⟩

end

theorem free_iff {outboxes : Array Outbox} {room : RoomId} {moves : List Move} {c : Connection} :
    Free outboxes room moves c ↔
      ∀ before ∈ moves.inits, ((run outboxes room before).hub.outbox c).Accepts := by
  simp only [Free, List.mem_inits]

def places : Array Outbox := #[{ capacity := 8 }, { capacity := 8 }]

/-- One leaves while the join of the other is yet to be told, and all is told in order. -/
def inOrder : List Move :=
  [.enter ⟨0, "a"⟩, .enter ⟨1, "b"⟩, .announce 0, .exit ⟨1, "b"⟩, .announce 0, .announce 0]

theorem lists_converge_inOrder :
    (run places "r" inOrder).pending = [] ∧
      ∃ f, ((run places "r" inOrder).hub.outbox ⟨0, "a"⟩).lastList? = some f ∧
        f.Names (run places "r" inOrder).hub.registry "r" := by
  have hidentified : Registry.Identified (calls "r" inOrder) := by decide
  have hholds : (run places "r" inOrder).hub.registry.holder? "r" "a" = some ⟨0, "a"⟩ := by
    decide +kernel
  have hfree : Free places "r" inOrder ⟨0, "a"⟩ := free_iff.mpr (by decide +kernel)
  have hordered : ∀ k, .announce k ∈ inOrder → k = 0 := by simp [inOrder]
  have hdone : (run places "r" inOrder).pending = [] := by decide +kernel
  exact ⟨hdone, (lists_converge hidentified hdone hholds hfree).2 hordered⟩

/-- Two join, and the second tells the members before the first does. -/
def overtaken : List Move :=
  [.enter ⟨0, "a"⟩, .enter ⟨1, "b"⟩, .announce 1, .announce 0]

/-- All calls are done and the outboxes have room, and yet one member is left with a list that does
not name the other. -/
theorem stale_list_remains :
    (run places "r" overtaken).pending = [] ∧
      (run places "r" overtaken).hub.registry.holder? "r" "a" = some ⟨0, "a"⟩ ∧
      Free places "r" overtaken ⟨0, "a"⟩ ∧
      ((run places "r" overtaken).hub.outbox ⟨0, "a"⟩).lastList? = some (listFrame ["a"]) ∧
      ¬ (listFrame ["a"]).Names (run places "r" overtaken).hub.registry "r" := by
  have hidentified : Registry.Identified (calls "r" overtaken) := by decide
  have hfree : Free places "r" overtaken ⟨0, "a"⟩ := free_iff.mpr (by decide +kernel)
  refine ⟨by decide +kernel, by decide +kernel, hfree, ?_, ?_⟩
  · have htold : (run places "r" overtaken).finished.filter (·.tells ⟨0, "a"⟩) =
        [⟨1, .joined "r" ⟨1, "b"⟩ ⟨[⟨0, "a"⟩, ⟨1, "b"⟩], none⟩⟩] ++
          [⟨0, .joined "r" ⟨0, "a"⟩ ⟨[⟨0, "a"⟩], none⟩⟩] := by
      decide +kernel
    have hfeeds := feeds_run hidentified hfree
    rw [htold] at hfeeds
    have hlast := lastList?_of_feeds hfeeds
    exact hlast
  · rintro ⟨d, ids, hdecode, hids, -, hnames⟩
    rw [decode_listFrame] at hdecode
    cases hdecode
    rw [peerIds?_peerList] at hids
    cases hids
    have hother : (run places "r" overtaken).hub.registry.holder? "r" "b" = some ⟨1, "b"⟩ := by
      decide +kernel
    exact absurd ((hnames "b").mpr ⟨_, hother⟩) (by decide)

end Gathering

end RoomRelay
