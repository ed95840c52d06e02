import RoomRelay.Settings.Arguments
import Mathlib.Data.Nat.Digits.Lemmas
import Mathlib.Logic.Function.Basic

/-!
What a text makes of a setting. The settings that have been given are looked at as a function of the
setting, so that taking a value is an update of that function at one place, and what a number of
updates makes of them is said for one setting at a time.
-/

namespace RoomRelay

/-! ### Numbers -/

/-- At least one decimal digit, and the number that the digits stand for. -/
def IsDecimal (cs : List Char) (n : Nat) : Prop :=
  ∃ ds : List Nat, ds ≠ [] ∧ (∀ d ∈ ds, d < 10) ∧ cs = ds.map Nat.digitChar ∧
    n = Nat.ofDigits 10 ds.reverse

/-- A text that says a number, with or without a plus sign. -/
inductive Denotes (text : String) (n : Nat) : Prop where
  | unsigned (digits : IsDecimal text.toList n)
  | signed (cs : List Char) (written : text.toList = '+' :: cs) (digits : IsDecimal cs n)

theorem digitChar_digit {d : Nat} (digit : d < 10) :
    (Nat.digitChar d).isDigit = true ∧ (Nat.digitChar d).toNat - '0'.toNat = d := by
  interval_cases d <;> decide

theorem digitChar_sub {c : Char} (digit : c.isDigit = true) :
    c.toNat - '0'.toNat < 10 ∧ Nat.digitChar (c.toNat - '0'.toNat) = c := by
  have hrange : 48 ≤ c.toNat ∧ c.toNat ≤ 57 := by
    simpa [Char.isDigit, UInt32.le_iff_toNat_le] using digit
  have hsmall : c.toNat - '0'.toNat < 10 := by
    change c.toNat - 48 < 10
    omega
  refine ⟨hsmall, Char.toNat_inj.mp ?_⟩
  rw [Nat.toNat_digitChar_of_lt_ten hsmall]
  change 48 + (c.toNat - 48) = c.toNat
  omega

theorem exists_digits {cs : List Char} (digits : ∀ c ∈ cs, c.isDigit = true) :
    ∃ ds : List Nat, (∀ d ∈ ds, d < 10) ∧ cs = ds.map Nat.digitChar := by
  induction cs with
  | nil => exact ⟨[], by simp, rfl⟩
  | cons c cs ih =>
      obtain ⟨hsmall, hchar⟩ := digitChar_sub (digits c List.mem_cons_self)
      obtain ⟨ds, hds, hcs⟩ := ih fun c hc => digits c (List.mem_cons_of_mem _ hc)
      exact ⟨_ :: ds, List.forall_mem_cons.mpr ⟨hsmall, hds⟩, by rw [List.map_cons, hchar, hcs]⟩

theorem foldl_digitChar {ds : List Nat} (digits : ∀ d ∈ ds, d < 10) :
    (ds.map Nat.digitChar).foldl (fun n c => 10 * n + (c.toNat - '0'.toNat)) 0 =
      Nat.ofDigits 10 ds.reverse := by
  rw [List.foldl_map, Nat.ofDigits_eq_foldr, List.foldr_reverse]
  refine List.foldl_ext _ _ 0 fun n d hd => ?_
  rw [(digitChar_digit (digits d hd)).2]
  simp [Nat.add_comm]

theorem isDecimal_iff {cs : List Char} {n : Nat} :
    IsDecimal cs n ↔ (cs ≠ [] ∧ cs.all (·.isDigit) = true) ∧
      cs.foldl (fun n c => 10 * n + (c.toNat - '0'.toNat)) 0 = n := by
  constructor
  · rintro ⟨ds, hne, hdigits, rfl, rfl⟩
    refine ⟨⟨by simpa using hne, ?_⟩, foldl_digitChar hdigits⟩
    simpa using fun d hd => (digitChar_digit (hdigits d hd)).1
  · rintro ⟨⟨hne, hall⟩, rfl⟩
    have hdigit : ∀ c ∈ cs, c.isDigit = true := by simpa using hall
    obtain ⟨ds, hds, rfl⟩ := exists_digits hdigit
    exact ⟨ds, by simpa using hne, hds, rfl, foldl_digitChar hds⟩

theorem readNumber?_eq_some {text : String} {n : Nat} :
    readNumber? text = some n ↔ Denotes text n := by
  have hread (cs : List Char) :
      (if cs ≠ [] ∧ cs.all (·.isDigit) then
        some (cs.foldl (fun n c => 10 * n + (c.toNat - '0'.toNat)) 0)
      else none) = some n ↔ IsDecimal cs n := by
    rw [isDecimal_iff]
    split <;> simp_all
  have hsign {cs : List Char} : ¬ IsDecimal ('+' :: cs) n := by
    rw [isDecimal_iff]
    simp [show '+'.isDigit = false by decide]
  unfold readNumber?
  split
  case h_1 cs hcs =>
      rw [hread]
      constructor
      · exact .signed cs hcs
      · rintro (hdigits | ⟨cs', hwritten, hdigits⟩)
        · exact absurd (hcs ▸ hdigits) hsign
        · cases hcs.symm.trans hwritten
          exact hdigits
  case h_2 hcs =>
      rw [hread]
      constructor
      · exact .unsigned
      · rintro (hdigits | ⟨cs', hwritten, -⟩)
        · exact hdigits
        · exact absurd hwritten (hcs cs')

/-! ### The value of a setting -/

theorem bind_eq_ok_iff {ε α β : Type} {x : Except ε α} {f : α → Except ε β} {b : β} :
    x >>= f = .ok b ↔ ∃ a, x = .ok a ∧ f a = .ok b := by
  cases x with
  | error e => simp [bind, Except.bind]
  | ok a => simp [bind, Except.bind]

/-- A value of whichever setting. -/
inductive Entry where
  | number (n : Nat)
  | text (s : String)
deriving DecidableEq, Repr

def Settings.entry (s : Settings) : Setting → Entry
  | .port => .number s.port
  | .hostname => .text s.hostname
  | .delay => .number s.delay
  | .logLevel => .text s.logLevel

/-- The value of a setting that nothing sets. -/
def Setting.default (k : Setting) : Entry :=
  ({} : Settings).entry k

/-- What a text makes of a setting. A port or a delay has to be said in digits and within its
range; a host name or a log level is the text itself. -/
inductive Setting.Takes : Setting → String → Entry → Prop where
  | port {text : String} {n : Nat} (number : Denotes text n) (range : 1 ≤ n ∧ n ≤ 65535) :
      Takes .port text (.number n)
  | hostname (text : String) : Takes .hostname text (.text text)
  | delay {text : String} {n : Nat} (number : Denotes text n) (range : n < 2 ^ 64) :
      Takes .delay text (.number n)
  | logLevel (text : String) : Takes .logLevel text (.text text)

/-- The range of a setting. -/
def Setting.Allows : Setting → Entry → Prop
  | .port, .number n => 1 ≤ n ∧ n ≤ 65535
  | .delay, .number n => n < 2 ^ 64
  | .hostname, .text _ => True
  | .logLevel, .text _ => True
  | _, _ => False

theorem Setting.Takes.allows {k : Setting} {text : String} {e : Entry} (takes : k.Takes text e) :
    k.Allows e := by
  cases takes with
  | port _ range => exact range
  | delay _ range => exact range
  | hostname | logLevel => trivial

/-- Every default is within the range of its setting. -/
theorem Setting.allows_default (k : Setting) : k.Allows k.default := by
  cases k <;> simp [Allows, default, Settings.entry]

theorem Settings.ext_entry {s s' : Settings} (h : ∀ k, s.entry k = s'.entry k) : s = s' := by
  have hport := h .port; have hhostname := h .hostname
  have hdelay := h .delay; have hlogLevel := h .logLevel
  cases s; cases s'
  simp_all [entry]

namespace Given

/-- What has been given for a setting. -/
def lookup? (g : Given) : Setting → Option Entry
  | .port => g.port.map .number
  | .hostname => g.hostname.map .text
  | .delay => g.delay.map .number
  | .logLevel => g.logLevel.map .text

@[simp]
theorem lookup?_empty (k : Setting) : ({} : Given).lookup? k = none := by
  cases k <;> rfl

theorem has_eq (g : Given) (k : Setting) : g.has k = (g.lookup? k).isSome := by
  cases k <;> simp [has, lookup?]

theorem lookup?_injective : Function.Injective lookup? := by
  intro g g' h
  have hport := congrFun h .port; have hhostname := congrFun h .hostname
  have hdelay := congrFun h .delay; have hlogLevel := congrFun h .logLevel
  have hnumber : Function.Injective Entry.number := fun _ _ h => by cases h; rfl
  have htext : Function.Injective Entry.text := fun _ _ h => by cases h; rfl
  cases g; cases g'
  simp_all [lookup?, (Option.map_injective hnumber).eq_iff, (Option.map_injective htext).eq_iff]

/-- Records are the same if they are at one setting and at all others. -/
theorem eq_iff_lookup? {g g' : Given} (k : Setting) :
    g = g' ↔ g'.lookup? k = g.lookup? k ∧ ∀ j ≠ k, g'.lookup? j = g.lookup? j := by
  constructor
  · rintro rfl
    exact ⟨rfl, fun j _ => rfl⟩
  · rintro ⟨hown, hothers⟩
    refine lookup?_injective (funext fun j => ?_)
    rcases eq_or_ne j k with rfl | hne
    · exact hown.symm
    · exact (hothers j hne).symm

theorem entry_toSettings (g : Given) (k : Setting) :
    g.toSettings.entry k = (g.lookup? k).getD k.default := by
  cases k <;> simp only [toSettings, Settings.entry, lookup?, Setting.default, Option.getD_map]

/-- A step that changes at most the one setting that its input is about, and that is possible just
when the input allows what it makes of this setting. -/
def Changes {α : Type} (step : Given → α → Except UsageError Given) (about : α → Setting)
    (allows : α → Option Entry → Option Entry → Prop) : Prop :=
  ∀ g x g', step g x = .ok g' ↔
    allows x (g.lookup? (about x)) (g'.lookup? (about x)) ∧
    ∀ k ≠ about x, g'.lookup? k = g.lookup? k

/-- The one setting of another record. -/
theorem exists_update (g g' : Given) (k : Setting) :
    ∃ g₁ : Given, g₁.lookup? k = g'.lookup? k ∧ ∀ j ≠ k, g₁.lookup? j = g.lookup? j := by
  cases k with
  | port => exact ⟨{ g with port := g'.port }, rfl, fun j hj => by cases j <;> trivial⟩
  | hostname => exact ⟨{ g with hostname := g'.hostname }, rfl, fun j hj => by cases j <;> trivial⟩
  | delay => exact ⟨{ g with delay := g'.delay }, rfl, fun j hj => by cases j <;> trivial⟩
  | logLevel => exact ⟨{ g with logLevel := g'.logLevel }, rfl, fun j hj => by cases j <;> trivial⟩

/-- Steps about different settings do not meet, so each is possible just when its input allows the
change from the first record to the last one. -/
theorem Changes.foldlM_eq_ok_iff {α : Type} {step : Given → α → Except UsageError Given}
    {about : α → Setting} {allows : α → Option Entry → Option Entry → Prop}
    (changes : Changes step about allows) {xs : List α} (nodup : (xs.map about).Nodup)
    {g g' : Given} :
    xs.foldlM step g = .ok g' ↔
      (∀ x ∈ xs, allows x (g.lookup? (about x)) (g'.lookup? (about x))) ∧
      ∀ k ∉ xs.map about, g'.lookup? k = g.lookup? k := by
  induction xs generalizing g with
  | nil =>
      have hsame : (∀ k, g'.lookup? k = g.lookup? k) ↔ g = g' := by
        rw [← lookup?_injective.eq_iff, funext_iff]
        exact forall_congr' fun k => eq_comm
      simp [pure, Except.pure, hsame]
  | cons x xs ih =>
      obtain ⟨hfresh, hnodup⟩ := List.nodup_cons.mp nodup
      rw [List.foldlM_cons, bind_eq_ok_iff]
      simp only [ih hnodup, changes g x]
      have hother : ∀ y ∈ xs, about y ≠ about x := fun y hy heq =>
        hfresh (heq ▸ List.mem_map_of_mem hy)
      constructor
      · rintro ⟨g₁, ⟨hallows, hothers⟩, hrest, hkept⟩
        rw [← hkept _ hfresh] at hallows
        refine ⟨List.forall_mem_cons.mpr ⟨hallows, fun y hy => ?_⟩, fun k hk => ?_⟩
        · rw [← hothers _ (hother y hy)]
          exact hrest y hy
        · obtain ⟨hk, hks⟩ := not_or.mp fun h => hk (List.mem_cons.mpr h)
          rw [hkept k hks, hothers k hk]
      · rintro ⟨hallows, hkept⟩
        obtain ⟨hx, hxs⟩ := List.forall_mem_cons.mp hallows
        obtain ⟨g₁, hown, hothers⟩ := exists_update g g' (about x)
        refine ⟨g₁, ⟨hown ▸ hx, hothers⟩, fun y hy => ?_, fun k hk => ?_⟩
        · rw [hothers _ (hother y hy)]
          exact hxs y hy
        · rcases eq_or_ne k (about x) with rfl | hne
          · exact hown.symm
          · rw [hothers k hne]
            exact hkept k fun h => (List.mem_cons.mp h).elim hne hk

/-! ### Options and variables -/

theorem put_of_takes (g : Given) {k : Setting} {text : String} {e : Entry}
    (takes : k.Takes text e) :
    ∃ g', g.put k text = .ok g' ∧ g'.lookup? k = some e ∧ ∀ j ≠ k, g'.lookup? j = g.lookup? j := by
  cases takes with
  | @port _ n number range =>
      refine ⟨{ g with port := some n }, ?_, rfl, fun j hj => by cases j <;> trivial⟩
      have hrange : 1 ≤ n ∧ n < 65536 := by omega
      simp only [put, readNumber?_eq_some.mpr number, if_pos hrange]
      rfl
  | hostname =>
      exact ⟨{ g with hostname := some text }, rfl, rfl, fun j hj => by cases j <;> trivial⟩
  | @delay _ n number range =>
      refine ⟨{ g with delay := some n }, ?_, rfl, fun j hj => by cases j <;> trivial⟩
      have hrange : n < 18446744073709551616 := by omega
      simp only [put, readNumber?_eq_some.mpr number, if_pos hrange]
      rfl
  | logLevel =>
      exact ⟨{ g with logLevel := some text }, rfl, rfl, fun j hj => by cases j <;> trivial⟩

theorem takes_of_put {g g' : Given} {k : Setting} {text : String} (puts : g.put k text = .ok g') :
    ∃ e, k.Takes text e := by
  cases k with
  | port =>
      rw [put] at puts
      cases hread : readNumber? text with
      | none => simp [hread] at puts
      | some n =>
          simp only [hread] at puts
          split at puts
          · rename_i hrange
            exact ⟨_, .port (readNumber?_eq_some.mp hread) (by omega)⟩
          · cases puts
  | hostname => exact ⟨_, .hostname text⟩
  | delay =>
      rw [put] at puts
      cases hread : readNumber? text with
      | none => simp [hread] at puts
      | some n =>
          simp only [hread] at puts
          split at puts
          · rename_i hrange
            exact ⟨_, .delay (readNumber?_eq_some.mp hread) hrange⟩
          · cases puts
  | logLevel => exact ⟨_, .logLevel text⟩

/-- A value is read if the text suits the setting, and nothing else is touched. -/
theorem put_eq_ok_iff {g g' : Given} {k : Setting} {text : String} :
    g.put k text = .ok g' ↔
      (∃ e, k.Takes text e ∧ g'.lookup? k = some e) ∧ ∀ j ≠ k, g'.lookup? j = g.lookup? j := by
  constructor
  · intro hput
    obtain ⟨e, htakes⟩ := takes_of_put hput
    obtain ⟨g₁, hput₁, hown, hothers⟩ := put_of_takes g htakes
    cases hput.symm.trans hput₁
    exact ⟨⟨e, htakes, hown⟩, hothers⟩
  · rintro ⟨⟨e, htakes, hown⟩, hothers⟩
    obtain ⟨g₁, hput₁, hown₁, hothers₁⟩ := put_of_takes g htakes
    have hsame : g₁ = g' := (eq_iff_lookup? k).mpr
      ⟨hown.trans hown₁.symm, fun j hj => (hothers j hj).trans (hothers₁ j hj).symm⟩
    rw [hput₁, hsame]

/-- An option is taken if the setting was not given before and the text suits it. -/
theorem changes_give : Changes (fun g x => g.give x.1 (some x.2)) Prod.fst fun x before after =>
    before = none ∧ ∃ e, x.1.Takes x.2 e ∧ after = some e := by
  rintro g ⟨k, text⟩ g'
  rw [and_assoc, ← put_eq_ok_iff]
  simp only [give, has_eq]
  cases g.lookup? k <;> simp

/-- Takes one option after the other. -/
def giveAll (g : Given) (xs : List (Setting × String)) : Except UsageError Given :=
  xs.foldlM (fun g x => g.give x.1 (some x.2)) g

/-- Options that are taken one after the other are about different settings, since one that was
given before is refused. -/
theorem nodup_of_give {xs : List (Setting × String)} {g g' : Given}
    (gives : g.giveAll xs = .ok g') :
    (xs.map Prod.fst).Nodup ∧ ∀ x ∈ xs, g.lookup? x.1 = none := by
  induction xs generalizing g with
  | nil => simp
  | cons x xs ih =>
      rw [giveAll, List.foldlM_cons, bind_eq_ok_iff] at gives
      obtain ⟨g₁, hgive, hrest⟩ := gives
      obtain ⟨⟨hopen, e, -, hown⟩, hothers⟩ := (changes_give g x g₁).mp hgive
      obtain ⟨hnodup, hopens⟩ := ih hrest
      have hother : ∀ y ∈ xs, y.1 ≠ x.1 := fun y hy heq => by
        have hclosed := hopens y hy
        rw [heq, hown] at hclosed
        cases hclosed
      refine ⟨List.nodup_cons.mpr ⟨fun hmem => ?_, hnodup⟩, List.forall_mem_cons.mpr ⟨hopen, ?_⟩⟩
      · obtain ⟨y, hy, heq⟩ := List.mem_map.mp hmem
        exact hother y hy heq
      · exact fun y hy => hothers y.1 (hother y hy) ▸ hopens y hy

/-- What a variable does to what its setting had before: nothing if there was a value, else it has
to be one, if it is set. -/
def Filled (env : String → Option String) (k : Setting) (before after : Option Entry) : Prop :=
  match before, env k.envName with
  | some e, _ => after = some e
  | none, some text => ∃ e, k.Takes text e ∧ after = some e
  | none, none => after = none

theorem changes_fill (env : String → Option String) : Changes (fill env) id (Filled env) := by
  intro g k g'
  simp only [id, fill, has_eq, Filled]
  cases hown : g.lookup? k with
  | some e => simp [pure, Except.pure, eq_iff_lookup? k, hown]
  | none =>
      cases env k.envName with
      | none => simp [pure, Except.pure, eq_iff_lookup? k, hown]
      | some text => simp [put_eq_ok_iff]

end Given

end RoomRelay
