import RoomRelay.Proofs.Hub.Sending
import RoomRelay.Proofs.Room.Tidy

/-!
Memberships that come and go in any order. A connection joins once; later its owner leaves, which
takes effect some time after it was begun, or drops the membership, and then the leave is carried
out whenever the background gets to it. However these steps are interleaved, a slot is held by the
connection that joined it last, for as long as that connection has not executed its leave, and by
nobody afterwards.
-/

namespace RoomRelay

structure Lobby where
  hub : Hub := {}
  /-- The memberships, the latest first. -/
  memberships : List Membership := []

namespace Lobby

/-- What may happen next. The numbers are those of connections. -/
inductive Move where
  | join (room : RoomId) (c : Connection)
  | beginLeave (n : Nat)
  | completeLeave (n : Nat)
  | drop (n : Nat)
  | runDeparture (n : Nat)
deriving DecidableEq, Repr

def find? (l : Lobby) (n : Nat) : Option Membership :=
  l.memberships.find? (·.connection.number == n)

def onMembership (l : Lobby) (n : Nat) (f : Membership → Hub → Hub × Membership) : Lobby :=
  match l.find? n with
  | some m =>
    let (hub, changed) := f m l.hub
    { hub, memberships := l.memberships.map fun k =>
        if k.connection.number = n then changed else k }
  | none => l

/-- No connection joins twice, and a leave that was begun is not dropped. -/
def step (l : Lobby) : Move → Lobby
  | .join room c =>
    if (l.find? c.number).isSome then l
    else
      let (hub, m) := l.hub.join room c
      { hub, memberships := m :: l.memberships }
  | .beginLeave n => l.onMembership n fun m h => (h, m.beginLeave)
  | .completeLeave n => l.onMembership n fun m h => m.completeLeave h
  | .drop n => l.onMembership n fun m h => if m.stage = .leaving then (h, m) else m.drop h
  | .runDeparture n => { l with hub := l.hub.runDeparture n }

def run (outboxes : Array Outbox) (moves : List Move) : Lobby :=
  moves.foldl step { hub := { outboxes } }

/-- Who joined which room, the latest first. -/
def joined (l : Lobby) : List (RoomId × Connection) :=
  l.memberships.map fun m => (m.room, m.connection)

/-- The connection that joined a slot last. -/
def latest? (l : Lobby) (room : RoomId) (peer : PeerId) : Option Connection :=
  (l.joined.find? fun j => j.1 == room && j.2.peer == peer).map (·.2)

/-- The membership of a connection is over, and its leave does not wait in the background. -/
def HasLeft (l : Lobby) (c : Connection) : Prop :=
  (∃ m ∈ l.memberships, m.connection = c ∧ m.stage = .over) ∧
    ∀ d ∈ l.hub.departures, d.2.number ≠ c.number

instance (l : Lobby) (c : Connection) : Decidable (l.HasLeft c) :=
  inferInstanceAs (Decidable (_ ∧ _))

/-! ### What a step does -/

/-- A step does nothing to the slots, or a connection enters one, or a connection leaves. -/
inductive Change (l : Lobby) (move : Move) (k : Lobby) : Prop where
  | idle (joined : k.joined = l.joined) (left : ∀ c, k.HasLeft c ↔ l.HasLeft c)
    (registry : k.hub.registry = l.hub.registry)
  | entered (room : RoomId) (c : Connection) (own : move = .join room c)
    (fresh : c.number ∉ l.joined.map (·.2.number))
    (joined : k.joined = (room, c) :: l.joined) (left : ∀ d, k.HasLeft d ↔ l.HasLeft d)
    (registry : k.hub.registry = (l.hub.registry.join room c).1)
  | gone (room : RoomId) (c : Connection) (present : (room, c) ∈ l.joined)
    (before : ¬ l.HasLeft c) (own : move = .completeLeave c.number ∨ move = .runDeparture c.number)
    (joined : k.joined = l.joined) (left : ∀ d, k.HasLeft d ↔ l.HasLeft d ∨ d = c)
    (registry : k.hub.registry = (l.hub.registry.leave room c).1)

/-- Each connection has one membership and hands over one leave at most, after which its
membership is over. -/
structure Orderly (l : Lobby) : Prop where
  numbers_nodup : (l.memberships.map (·.connection.number)).Nodup
  pending_nodup : (l.hub.departures.map (·.2.number)).Nodup
  pending : ∀ d ∈ l.hub.departures,
    ∃ m ∈ l.memberships, (m.room, m.connection) = d ∧ m.stage = .over

theorem numbers_joined (l : Lobby) :
    l.joined.map (·.2.number) = l.memberships.map (·.connection.number) := by
  simp [joined]

section

variable {l : Lobby}

theorem find?_eq_some_iff (h : l.Orderly) {n : Nat} {m : Membership} :
    l.find? n = some m ↔ m ∈ l.memberships ∧ m.connection.number = n := by
  constructor
  · intro hfind
    have hnumber := List.find?_some hfind
    exact ⟨List.mem_of_find?_eq_some hfind, by simpa using hnumber⟩
  · rintro ⟨hmem, rfl⟩
    have hsome : (l.find? m.connection.number).isSome := by
      rw [find?, List.find?_isSome]
      exact ⟨m, hmem, by simp⟩
    obtain ⟨k, hk⟩ := Option.isSome_iff_exists.mp hsome
    have hnumber : k.connection.number = m.connection.number := by
      simpa using List.find?_some hk
    have hkm := List.inj_on_of_nodup_map h.numbers_nodup (List.mem_of_find?_eq_some hk) hmem hnumber
    rw [hk, hkm]

/-- Two memberships of one connection are the same membership. -/
theorem Orderly.eq_of_number (h : l.Orderly) {m k : Membership} (hm : m ∈ l.memberships)
    (hk : k ∈ l.memberships) (hsame : m.connection.number = k.connection.number) : m = k :=
  List.inj_on_of_nodup_map h.numbers_nodup hm hk hsame

/-- The lobby after one membership has changed its stage. -/
def restage (l : Lobby) (n : Nat) (stage : Stage) : List Membership :=
  l.memberships.map fun k => if k.connection.number = n then { k with stage } else k

theorem onMembership_eq (h : l.Orderly) {m : Membership} (hm : m ∈ l.memberships)
    {f : Membership → Hub → Hub × Membership} (hub : Hub) (stage : Stage)
    (hf : f m l.hub = (hub, { m with stage })) :
    l.onMembership m.connection.number f =
      { hub, memberships := l.restage m.connection.number stage } := by
  have hfind : l.find? m.connection.number = some m := (find?_eq_some_iff h).mpr ⟨hm, rfl⟩
  simp only [onMembership, hfind, hf, restage, mk.injEq, true_and]
  apply List.map_congr_left
  intro k hk
  split
  · rename_i hsame
    rw [h.eq_of_number hk hm hsame]
  · rfl

theorem onMembership_unchanged (h : l.Orderly) {m : Membership} (hm : m ∈ l.memberships)
    {f : Membership → Hub → Hub × Membership} (hf : f m l.hub = (l.hub, m)) :
    l.onMembership m.connection.number f = l := by
  rw [onMembership_eq h hm l.hub m.stage hf]
  have hself : l.restage m.connection.number m.stage = l.memberships.map id := by
    apply List.map_congr_left
    intro k hk
    rcases eq_or_ne k.connection.number m.connection.number with hsame | hne
    · rw [h.eq_of_number hk hm hsame]
      simp
    · simp [hne]
  rw [hself, List.map_id]

theorem onMembership_of_none {n : Nat} (h : l.find? n = none)
    (f : Membership → Hub → Hub × Membership) : l.onMembership n f = l := by
  simp [onMembership, h]

theorem joined_restage (hub : Hub) (n : Nat) (stage : Stage) :
    ({ hub, memberships := l.restage n stage } : Lobby).joined = l.joined := by
  simp only [joined, restage, List.map_map]
  apply List.map_congr_left
  intro k _
  simp only [Function.comp_apply]
  split <;> rfl

theorem mem_restage (h : l.Orderly) {m : Membership} (hm : m ∈ l.memberships) {stage : Stage}
    {k : Membership} :
    k ∈ l.restage m.connection.number stage ↔
      k = { m with stage } ∨ (k ∈ l.memberships ∧ k ≠ m) := by
  simp only [restage, List.mem_map]
  constructor
  · rintro ⟨j, hj, rfl⟩
    split
    · rename_i hsame
      rw [h.eq_of_number hj hm hsame]
      exact Or.inl rfl
    · rename_i hne
      refine Or.inr ⟨hj, ?_⟩
      rintro rfl
      exact hne rfl
  · rintro (rfl | ⟨hk, hne⟩)
    · exact ⟨m, hm, by simp⟩
    · refine ⟨k, hk, ?_⟩
      have hdiff : k.connection.number ≠ m.connection.number := fun hsame =>
        hne (h.eq_of_number hk hm hsame)
      simp [hdiff]

/-- Whoever is over after a change of stage was over before, or is the one whose stage changed. -/
theorem exists_over_restage (h : l.Orderly) {m : Membership} (hm : m ∈ l.memberships)
    {stage : Stage} {c : Connection} (hne : c ≠ m.connection) :
    (∃ k ∈ l.restage m.connection.number stage, k.connection = c ∧ k.stage = .over) ↔
      ∃ k ∈ l.memberships, k.connection = c ∧ k.stage = .over := by
  constructor
  · rintro ⟨k, hk, rfl, hover⟩
    rcases (mem_restage h hm).mp hk with rfl | ⟨hold, -⟩
    · exact absurd rfl hne
    · exact ⟨k, hold, rfl, hover⟩
  · rintro ⟨k, hk, rfl, hover⟩
    refine ⟨k, (mem_restage h hm).mpr (Or.inr ⟨hk, ?_⟩), rfl, hover⟩
    rintro rfl
    exact hne rfl

theorem exists_over_restage_self (h : l.Orderly) {m : Membership} (hm : m ∈ l.memberships)
    {stage : Stage} :
    (∃ k ∈ l.restage m.connection.number stage, k.connection = m.connection ∧ k.stage = .over) ↔
      stage = .over := by
  constructor
  · rintro ⟨k, hk, hsame, hover⟩
    rcases (mem_restage h hm).mp hk with rfl | ⟨hold, hne⟩
    · exact hover
    · exact absurd (h.eq_of_number hold hm (hsame ▸ rfl)) hne
  · intro hover
    exact ⟨{ m with stage }, (mem_restage h hm).mpr (Or.inl rfl), rfl, hover⟩

theorem numbers_restage (n : Nat) (stage : Stage) :
    (l.restage n stage).map (·.connection.number) = l.memberships.map (·.connection.number) := by
  simp only [restage, List.map_map]
  apply List.map_congr_left
  intro k _
  simp only [Function.comp_apply]
  split <;> rfl

theorem exists_over_iff (h : l.Orderly) {m : Membership} (hm : m ∈ l.memberships) :
    (∃ k ∈ l.memberships, k.connection = m.connection ∧ k.stage = .over) ↔ m.stage = .over := by
  constructor
  · rintro ⟨k, hk, hsame, hover⟩
    rw [← h.eq_of_number hk hm (hsame ▸ rfl)]
    exact hover
  · intro hover
    exact ⟨m, hm, rfl, hover⟩

/-- A connection that has left is told by its number from every other that has joined. -/
theorem number_ne (h : l.Orderly) {m : Membership} (hm : m ∈ l.memberships) {c : Connection}
    (hne : c ≠ m.connection) (hover : ∃ k ∈ l.memberships, k.connection = c ∧ k.stage = .over) :
    c.number ≠ m.connection.number := by
  obtain ⟨k, hk, rfl, -⟩ := hover
  intro hsame
  exact hne (h.eq_of_number hk hm hsame ▸ rfl)

theorem orderly_restage (h : l.Orderly) {m : Membership} (hm : m ∈ l.memberships) {hub : Hub}
    {stage : Stage} (keeps : m.stage = .over → stage = .over)
    (nodup : (hub.departures.map (·.2.number)).Nodup)
    (pending : ∀ d ∈ hub.departures,
      d ∈ l.hub.departures ∨ (d = (m.room, m.connection) ∧ stage = .over)) :
    Orderly { hub, memberships := l.restage m.connection.number stage } where
  numbers_nodup := by
    rw [numbers_restage]
    exact h.numbers_nodup
  pending_nodup := nodup
  pending := by
    intro d hd
    rcases pending d hd with hold | ⟨rfl, hover⟩
    · obtain ⟨k, hk, hkd, hover⟩ := h.pending d hold
      rcases eq_or_ne k m with rfl | hkm
      · exact ⟨_, (mem_restage h hk).mpr (Or.inl rfl), hkd, keeps hover⟩
      · exact ⟨k, (mem_restage h hm).mpr (Or.inr ⟨hk, hkm⟩), hkd, hover⟩
    · exact ⟨_, (mem_restage h hm).mpr (Or.inl rfl), rfl, hover⟩

/-- A change of stage that ends no membership, with nothing else changed. -/
theorem idle_restage (h : l.Orderly) (move : Move) {m : Membership} (hm : m ∈ l.memberships)
    {stage : Stage} (same : stage = .over ↔ m.stage = .over) :
    Orderly { hub := l.hub, memberships := l.restage m.connection.number stage } ∧
      Change l move { hub := l.hub, memberships := l.restage m.connection.number stage } := by
  refine ⟨orderly_restage h hm same.mpr h.pending_nodup (fun d hd => Or.inl hd), ?_⟩
  refine .idle (joined_restage _ _ _) ?_ rfl
  intro c
  apply and_congr_left
  intro _
  rcases eq_or_ne c m.connection with rfl | hc
  · rw [exists_over_restage_self h hm, exists_over_iff h hm, same]
  · exact exists_over_restage h hm hc

theorem idle_self (h : l.Orderly) (move : Move) : l.Orderly ∧ Change l move l :=
  ⟨h, .idle rfl (fun _ => Iff.rfl) rfl⟩

/-- A leave that waits in the background is that of a membership which is over. -/
theorem Orderly.not_pending (h : l.Orderly) {m : Membership} (hm : m ∈ l.memberships)
    (active : m.stage ≠ .over) : ∀ d ∈ l.hub.departures, d.2.number ≠ m.connection.number := by
  intro d hd hsame
  obtain ⟨k, hk, rfl, hover⟩ := h.pending d hd
  rw [h.eq_of_number hk hm hsame] at hover
  exact active hover

theorem change_onMembership (h : l.Orderly) {move : Move} {n : Nat}
    {f : Membership → Hub → Hub × Membership}
    (each : ∀ m ∈ l.memberships, m.connection.number = n →
      (l.onMembership n f).Orderly ∧ Change l move (l.onMembership n f)) :
    (l.onMembership n f).Orderly ∧ Change l move (l.onMembership n f) := by
  cases hfind : l.find? n with
  | none =>
      rw [onMembership_of_none hfind]
      exact idle_self h move
  | some m =>
      obtain ⟨hm, hnumber⟩ := (find?_eq_some_iff h).mp hfind
      exact each m hm hnumber

theorem change_join (h : l.Orderly) (room : RoomId) (c : Connection) :
    (l.step (.join room c)).Orderly ∧ Change l (.join room c) (l.step (.join room c)) := by
  simp only [step]
  split
  · exact idle_self h _
  · rename_i hnew
    have halike := Hub.alike_join l.hub room c
    have hfresh : c.number ∉ l.memberships.map (·.connection.number) := by
      intro hmem
      obtain ⟨m, hm, hnumber⟩ := List.mem_map.mp hmem
      exact hnew (by rw [(find?_eq_some_iff h).mpr ⟨hm, hnumber⟩]; rfl)
    constructor
    · exact
        { numbers_nodup := List.nodup_cons.mpr ⟨hfresh, h.numbers_nodup⟩
          pending_nodup := by
            rw [halike.departures]
            exact h.pending_nodup
          pending := by
            intro d hd
            rw [halike.departures] at hd
            obtain ⟨m, hm, hmd, hover⟩ := h.pending d hd
            exact ⟨m, List.mem_cons_of_mem _ hm, hmd, hover⟩ }
    · refine .entered room c rfl (by rwa [numbers_joined]) rfl ?_ halike.registry
      intro d
      simp only [HasLeft, halike.departures, List.mem_cons]
      apply and_congr_left
      intro _
      constructor
      · rintro ⟨m, rfl | hm, hmd, hover⟩
        · cases hover
        · exact ⟨m, hm, hmd, hover⟩
      · rintro ⟨m, hm, hmd, hover⟩
        exact ⟨m, Or.inr hm, hmd, hover⟩

theorem change_beginLeave (h : l.Orderly) (n : Nat) :
    (l.step (.beginLeave n)).Orderly ∧ Change l (.beginLeave n) (l.step (.beginLeave n)) := by
  rw [step]
  apply change_onMembership h
  rintro m hm rfl
  cases hstage : m.stage with
  | member =>
      rw [onMembership_eq h hm l.hub .leaving (by simp only [Membership.beginLeave, hstage])]
      exact idle_restage h _ hm (by simp [hstage])
  | leaving =>
      rw [onMembership_unchanged h hm (by simp only [Membership.beginLeave, hstage])]
      exact idle_self h _
  | _ =>
      rw [onMembership_unchanged h hm (by simp only [Membership.beginLeave, hstage])]
      exact idle_self h _

/-- A leave takes effect at once and ends the membership. -/
theorem gone_of_depart (h : l.Orderly) {m : Membership} (hm : m ∈ l.memberships)
    (active : m.stage ≠ .over) :
    let k : Lobby :=
      { hub := l.hub.depart m.room m.connection
        memberships := l.restage m.connection.number .over }
    k.Orderly ∧ Change l (.completeLeave m.connection.number) k := by
  have halike := Hub.alike_depart l.hub m.room m.connection
  constructor
  · refine orderly_restage h hm (fun _ => rfl) ?_ ?_
    · rw [halike.departures]
      exact h.pending_nodup
    · intro d hd
      rw [halike.departures] at hd
      exact Or.inl hd
  · refine .gone m.room m.connection (List.mem_map_of_mem hm) ?_ (Or.inl rfl)
      (joined_restage _ _ _) ?_ halike.registry
    · rintro ⟨hover, -⟩
      exact active ((exists_over_iff h hm).mp hover)
    · intro c
      simp only [HasLeft, halike.departures]
      rcases eq_or_ne c m.connection with rfl | hc
      · simpa [exists_over_restage_self h hm] using h.not_pending hm active
      · rw [exists_over_restage h hm hc]
        simp [hc]

theorem change_completeLeave (h : l.Orderly) (n : Nat) :
    (l.step (.completeLeave n)).Orderly ∧
      Change l (.completeLeave n) (l.step (.completeLeave n)) := by
  rw [step]
  apply change_onMembership h
  rintro m hm rfl
  cases hstage : m.stage with
  | leaving =>
      rw [onMembership_eq h hm (l.hub.depart m.room m.connection) .over
        (by simp only [Membership.completeLeave, hstage])]
      exact gone_of_depart h hm (by simp [hstage])
  | member =>
      rw [onMembership_unchanged h hm (by simp only [Membership.completeLeave, hstage])]
      exact idle_self h _
  | _ =>
      rw [onMembership_unchanged h hm (by simp only [Membership.completeLeave, hstage])]
      exact idle_self h _

/-- A membership that is dropped is over, but its connection has not left as long as the leave
waits. -/
theorem idle_of_drop (h : l.Orderly) {m : Membership} (hm : m ∈ l.memberships)
    (active : m.stage ≠ .over) (move : Move) :
    let k : Lobby :=
      { hub := { l.hub with departures := l.hub.departures ++ [(m.room, m.connection)] }
        memberships := l.restage m.connection.number .over }
    k.Orderly ∧ Change l move k := by
  constructor
  · refine orderly_restage h hm (fun _ => rfl) ?_ ?_
    · have hnew : m.connection.number ∉ l.hub.departures.map (·.2.number) := by
        intro hmem
        obtain ⟨d, hd, hsame⟩ := List.mem_map.mp hmem
        exact h.not_pending hm active d hd hsame
      rw [List.map_append]
      simpa using h.pending_nodup.concat hnew
    · intro d hd
      rcases List.mem_append.mp hd with hold | hlast
      · exact Or.inl hold
      · exact Or.inr ⟨List.mem_singleton.mp hlast, rfl⟩
  · refine .idle (joined_restage _ _ _) ?_ rfl
    intro c
    rcases eq_or_ne c m.connection with rfl | hc
    · constructor
      · rintro ⟨-, hnone⟩
        exact absurd rfl (hnone (m.room, m.connection) (by simp))
      · rintro ⟨hover, -⟩
        exact absurd ((exists_over_iff h hm).mp hover) active
    · simp only [HasLeft, exists_over_restage h hm hc]
      apply and_congr_right
      intro hover
      have hne := number_ne h hm hc hover
      simp [or_imp, forall_and, Ne.symm hne]

theorem change_drop (h : l.Orderly) (n : Nat) :
    (l.step (.drop n)).Orderly ∧ Change l (.drop n) (l.step (.drop n)) := by
  rw [step]
  apply change_onMembership h
  rintro m hm rfl
  cases hstage : m.stage with
  | leaving =>
      rw [onMembership_unchanged h hm (by simp [hstage])]
      exact idle_self h _
  | member =>
      rw [onMembership_eq h hm
        { l.hub with departures := l.hub.departures ++ [(m.room, m.connection)] } .over
        (by simp [hstage, Membership.drop])]
      exact idle_of_drop h hm (by simp [hstage]) _
  | _ =>
      rw [onMembership_eq h hm l.hub .over (by simp [hstage, Membership.drop])]
      exact idle_restage h _ hm (by simp [hstage])

/-- When a leave no longer waits, its connection has left, and nothing changes for the others. -/
theorem hasLeft_erase (h : l.Orderly) {k : Lobby} {m : Membership} (hm : m ∈ l.memberships)
    (waits : (m.room, m.connection) ∈ l.hub.departures) (hover : m.stage = .over)
    (memberships : k.memberships = l.memberships)
    (departures : k.hub.departures = l.hub.departures.erase (m.room, m.connection))
    (c : Connection) : k.HasLeft c ↔ l.HasLeft c ∨ c = m.connection := by
  have hnodup : l.hub.departures.Nodup := h.pending_nodup.of_map _
  simp only [HasLeft, memberships, departures, hnodup.mem_erase_iff]
  rcases eq_or_ne c m.connection with rfl | hc
  · simp only [or_true, iff_true, exists_over_iff h hm]
    refine ⟨hover, ?_⟩
    rintro e ⟨hne, he⟩ hsame
    exact hne (List.inj_on_of_nodup_map h.pending_nodup he waits hsame)
  · simp only [hc, or_false]
    apply and_congr_right
    intro hcover
    have hne := number_ne h hm hc hcover
    constructor
    · intro hrest e he hsame
      apply hrest e ⟨?_, he⟩ hsame
      rintro rfl
      exact hne hsame.symm
    · intro hall e he
      exact hall e he.2

theorem change_runDeparture (h : l.Orderly) (n : Nat) :
    (l.step (.runDeparture n)).Orderly ∧
      Change l (.runDeparture n) (l.step (.runDeparture n)) := by
  simp only [step, Hub.runDeparture]
  cases hfind : l.hub.departures.find? (·.2.number == n) with
  | none => exact idle_self h _
  | some d =>
      obtain ⟨hd, rfl⟩ := Hub.departure_of_find? hfind
      obtain ⟨m, hm, rfl, hover⟩ := h.pending d hd
      have halike := Hub.alike_depart
        { l.hub with departures := l.hub.departures.erase (m.room, m.connection) }
        m.room m.connection
      constructor
      · exact
          { numbers_nodup := h.numbers_nodup
            pending_nodup := by
              rw [halike.departures]
              exact h.pending_nodup.sublist (List.Sublist.map _ List.erase_sublist)
            pending := by
              intro e he
              rw [halike.departures] at he
              exact h.pending e (List.mem_of_mem_erase he) }
      · refine .gone m.room m.connection (List.mem_map_of_mem hm) ?_ (Or.inr rfl) rfl
          (hasLeft_erase h hm hd hover rfl halike.departures) halike.registry
        rintro ⟨-, hnone⟩
        exact hnone _ hd rfl

/-- Every move keeps a lobby orderly and is one of the three changes. -/
theorem change_step (h : l.Orderly) (move : Move) :
    (l.step move).Orderly ∧ Change l move (l.step move) := by
  cases move with
  | join room c => exact change_join h room c
  | beginLeave n => exact change_beginLeave h n
  | completeLeave n => exact change_completeLeave h n
  | drop n => exact change_drop h n
  | runDeparture n => exact change_runDeparture h n

/-! ### Who holds the slots -/

theorem latest?_of_cons {k : Lobby} {room : RoomId} {c : Connection}
    (joined : k.joined = (room, c) :: l.joined) (other : RoomId) (peer : PeerId) :
    k.latest? other peer =
      if other = room ∧ peer = c.peer then some c else l.latest? other peer := by
  unfold latest?
  rw [joined, List.find?_cons]
  have hfirst : (room == other && c.peer == peer) = true ↔ other = room ∧ peer = c.peer := by
    rw [Bool.and_eq_true, beq_iff_eq, beq_iff_eq]
    exact and_congr eq_comm eq_comm
  split
  · rename_i heq
    rw [if_pos (hfirst.mp heq)]
    rfl
  · rename_i heq
    rw [if_neg]
    intro hslot
    rw [hfirst.mpr hslot] at heq
    cases heq

theorem mem_of_latest? {room : RoomId} {peer : PeerId} {c : Connection}
    (h : l.latest? room peer = some c) : (room, c) ∈ l.joined ∧ c.peer = peer := by
  obtain ⟨j, hj, rfl⟩ := Option.map_eq_some_iff.mp h
  obtain ⟨rfl, rfl⟩ : j.1 = room ∧ j.2.peer = peer := by simpa using List.find?_some hj
  exact ⟨List.mem_of_find?_eq_some hj, rfl⟩

/-- Who has left has joined before. -/
theorem HasLeft.number_mem {c : Connection} (h : l.HasLeft c) :
    c.number ∈ l.joined.map (·.2.number) := by
  obtain ⟨⟨m, hm, rfl, -⟩, -⟩ := h
  rw [numbers_joined]
  exact List.mem_map_of_mem (f := fun m : Membership => m.connection.number) hm

/-- Every slot is held by the connection that joined it last, unless that has left. -/
def Seated (l : Lobby) : Prop :=
  ∀ room peer c, l.hub.registry.holder? room peer = some c ↔
    l.latest? room peer = some c ∧ ¬ l.HasLeft c

theorem Orderly.eq_of_joined (h : l.Orderly) {j k : RoomId × Connection} (hj : j ∈ l.joined)
    (hk : k ∈ l.joined) (hsame : j.2.number = k.2.number) : j = k := by
  have hnodup : (l.joined.map (·.2.number)).Nodup := by
    rw [numbers_joined]
    exact h.numbers_nodup
  exact List.inj_on_of_nodup_map hnodup hj hk hsame

/-- A connection that leaves while a newer one holds its slot finds it not its own; one that
leaves its own slot was the last to join it. -/
theorem seated_of_gone (h : l.Orderly) (hs : l.Seated) {k : Lobby} {room : RoomId}
    {c : Connection} (present : (room, c) ∈ l.joined) (before : ¬ l.HasLeft c)
    (joined : k.joined = l.joined) (left : ∀ d, k.HasLeft d ↔ l.HasLeft d ∨ d = c)
    (registry : k.hub.registry = (l.hub.registry.leave room c).1) : k.Seated := by
  intro other peer d
  have hlatest : k.latest? other peer = l.latest? other peer := by
    unfold latest?
    rw [joined]
  rw [registry, Registry.holder?_leave, hlatest, left]
  have hheld : l.hub.registry.isHeldBy room c = true ↔ l.latest? room c.peer = some c := by
    rw [Registry.isHeldBy_iff]
    constructor
    · rintro ⟨e, he, hsame⟩
      obtain ⟨hlast, -⟩ := (hs room c.peer e).mp he
      obtain ⟨hmem, -⟩ := mem_of_latest? hlast
      cases h.eq_of_joined hmem present hsame
      exact hlast
    · intro hlast
      exact ⟨c, (hs room c.peer c).mpr ⟨hlast, before⟩, rfl⟩
  split
  · rename_i hslot
    obtain ⟨rfl, rfl, hown⟩ := hslot
    have hlast := hheld.mp hown
    rw [hlast]
    simp only [reduceCtorEq, Option.some.injEq, false_iff, not_and, not_not]
    exact fun hcd => Or.inr hcd.symm
  · rename_i hslot
    rw [hs other peer d, not_or]
    constructor
    · rintro ⟨hlast, hactive⟩
      refine ⟨hlast, hactive, ?_⟩
      rintro rfl
      obtain ⟨hmem, hpeer⟩ := mem_of_latest? hlast
      cases h.eq_of_joined hmem present rfl
      exact hslot ⟨rfl, hpeer.symm, hheld.mpr (hpeer ▸ hlast)⟩
    · rintro ⟨hlast, hactive, -⟩
      exact ⟨hlast, hactive⟩

theorem seated_of_change (h : l.Orderly) (hs : l.Seated) {move : Move} {k : Lobby}
    (change : Change l move k) : k.Seated := by
  cases change with
  | idle joined left registry =>
      intro room peer c
      unfold latest?
      rw [registry, joined, left]
      exact hs room peer c
  | entered room c own fresh joined left registry =>
      intro other peer d
      rw [registry, Registry.holder?_join, latest?_of_cons joined, left]
      split
      · constructor
        · rintro hcd
          cases hcd
          exact ⟨rfl, fun hleft => fresh hleft.number_mem⟩
        · exact fun hlast => hlast.1
      · exact hs other peer d
  | gone room c present before own joined left registry =>
      exact seated_of_gone h hs present before joined left registry

theorem tidy_of_change {move : Move} {k : Lobby} (tidy : l.hub.registry.Tidy)
    (change : Change l move k) : k.hub.registry.Tidy := by
  cases change with
  | idle joined left registry => exact registry ▸ tidy
  | entered room c own fresh joined left registry => exact registry ▸ tidy.join room c
  | gone room c present before own joined left registry => exact registry ▸ tidy.leave room c

/-- A leave of one connection takes no slot from another. -/
theorem holder?_of_change (h : l.Orderly) {n : Nat} {move : Move}
    (own : move = .completeLeave n ∨ move = .runDeparture n) {room : RoomId} {peer : PeerId}
    {c : Connection} (hc : l.hub.registry.holder? room peer = some c) (hne : c.number ≠ n) :
    (l.step move).hub.registry.holder? room peer = some c := by
  cases (change_step h move).2 with
  | idle joined left registry => rw [registry, hc]
  | entered other d joins fresh joined left registry =>
      subst joins
      rcases own with hmove | hmove <;> cases hmove
  | gone other d present before leaves joined left registry =>
      have hd : d.number = n := by
        rcases own with rfl | rfl <;> simpa [eq_comm] using leaves
      rw [registry, Registry.holder?_leave, if_neg, hc]
      rintro ⟨rfl, rfl, hheld⟩
      obtain ⟨e, he, hsame⟩ := Registry.isHeldBy_iff.mp hheld
      rw [hc] at he
      cases he
      exact hne (hsame.trans hd)

theorem orderly_run (outboxes : Array Outbox) (moves : List Move) :
    (run outboxes moves).Orderly ∧ (run outboxes moves).hub.registry.Tidy ∧
      (run outboxes moves).Seated := by
  have hrun (l : Lobby) (h : l.Orderly) (tidy : l.hub.registry.Tidy) (hs : l.Seated) :
      (moves.foldl step l).Orderly ∧ (moves.foldl step l).hub.registry.Tidy ∧
        (moves.foldl step l).Seated := by
    induction moves generalizing l with
    | nil => exact ⟨h, tidy, hs⟩
    | cons move rest ih =>
        obtain ⟨hnext, hchange⟩ := change_step h move
        exact ih (l.step move) hnext (tidy_of_change tidy hchange) (seated_of_change h hs hchange)
  refine hrun _ ?_ Registry.tidy_empty ?_
  · exact ⟨List.nodup_nil, List.nodup_nil, by simp⟩
  · simp [Seated, Registry.holder?, Registry.members?, latest?, joined]

end

/-- In whatever order connections join, leave and have their leaves carried out, a slot is held by
the connection that joined it last exactly as long as that has not executed its leave. So no leave
takes a slot from another connection, and once all have left there is no room. -/
theorem held_by_latest (outboxes : Array Outbox) (moves : List Move) :
    let l := run outboxes moves
    (∀ room peer c, l.hub.registry.holder? room peer = some c ↔
      l.latest? room peer = some c ∧ ¬ l.HasLeft c) ∧
    (∀ n move, move = .completeLeave n ∨ move = .runDeparture n → ∀ room peer c,
      l.hub.registry.holder? room peer = some c → c.number ≠ n →
        (l.step move).hub.registry.holder? room peer = some c) ∧
    ((∀ m ∈ l.memberships, l.HasLeft m.connection) → l.hub.registry.rooms = []) := by
  intro l
  obtain ⟨horderly, htidy, hseated⟩ := orderly_run outboxes moves
  refine ⟨hseated, ?_, ?_⟩
  · intro n move own room peer c hc hne
    exact holder?_of_change horderly own hc hne
  · intro hall
    apply List.eq_nil_iff_forall_not_mem.mpr
    rintro ⟨room, ms⟩ hentry
    obtain ⟨c, hc⟩ := List.exists_mem_of_ne_nil ms (htidy.occupied _ hentry)
    have hholder : l.hub.registry.holder? room c.peer = some c :=
      (Registry.holder?_eq_some_iff htidy).mpr ⟨ms, htidy.members?_of_mem hentry, hc, rfl⟩
    obtain ⟨hlast, hactive⟩ := (hseated room c.peer c).mp hholder
    obtain ⟨hjoined, -⟩ := mem_of_latest? hlast
    obtain ⟨m, hm, heq⟩ := List.mem_map.mp hjoined
    cases heq
    exact hactive (hall m hm)

/-- The leave of a connection that was dropped comes after another has taken its place. -/
def lateLeave : List Move :=
  [.join "r" ⟨0, "a"⟩, .drop 0, .join "r" ⟨1, "a"⟩, .runDeparture 0]

theorem held_by_latest_lateLeave :
    (run #[] lateLeave).HasLeft ⟨0, "a"⟩ ∧
      (run #[] lateLeave).hub.registry.holder? "r" "a" = some ⟨1, "a"⟩ ∧
      (run #[] (lateLeave ++ [.beginLeave 1, .completeLeave 1])).hub.registry.rooms = [] := by
  have hlatest : (run #[] lateLeave).latest? "r" "a" = some ⟨1, "a"⟩ := by decide +kernel
  have hactive : ¬ (run #[] lateLeave).HasLeft ⟨1, "a"⟩ := by decide +kernel
  have hall : ∀ m ∈ (run #[] (lateLeave ++ [.beginLeave 1, .completeLeave 1])).memberships,
      (run #[] (lateLeave ++ [.beginLeave 1, .completeLeave 1])).HasLeft m.connection := by
    decide +kernel
  refine ⟨by decide +kernel, ?_, ?_⟩
  · exact ((held_by_latest #[] lateLeave).1 "r" "a" ⟨1, "a"⟩).mpr ⟨hlatest, hactive⟩
  · exact (held_by_latest #[] (lateLeave ++ [.beginLeave 1, .completeLeave 1])).2.2 hall

end Lobby

end RoomRelay
