import RoomRelay.Proofs.Settings.Values

/-!
Argument lists as lists of options. Every list that is accepted is made of options in one of their
spellings, with a separator at the end or none, and what it gives are the values of these options.
-/

namespace RoomRelay

/-! ### Spellings -/

def Setting.longName : Setting → String
  | .port => "port"
  | .hostname => "hostname"
  | .delay => "manual-delay"
  | .logLevel => "log-level"

/-- An argument that names a setting and leaves its value to the next argument. -/
inductive Setting.Named : Setting → String → Prop where
  | long (k : Setting) : Named k ("--" ++ k.longName)
  | short : Named .port "-p"

/-- An argument that can be the value of the one before: it does not begin with a hyphen, unless it
is nothing else. -/
def IsPlain (text : String) : Prop :=
  text.toList.head? = some '-' → text = "-"

instance (text : String) : Decidable (IsPlain text) :=
  inferInstanceAs (Decidable (_ → _))

/-- The arguments that give a setting a text. -/
inductive Setting.Spelled : Setting → String → List String → Prop where
  | separate {k : Setting} {name : String} (text : String) (named : k.Named name)
      (plain : IsPlain text) : Spelled k text [name, text]
  | joined (k : Setting) (text : String) : Spelled k text ["--" ++ k.longName ++ "=" ++ text]
  | shortJoined (text : String) : Spelled .port text ["-p=" ++ text]
  | shortAttached (text : String) (nonempty : text ≠ "") (noEquals : text.toList.head? ≠ some '=') :
      Spelled .port text ["-p" ++ text]

/-- An option as it is written. -/
structure WrittenOption where
  setting : Setting
  text : String
  args : List String
  spelled : setting.Spelled text args

/-- The arguments of some options, one after the other. -/
def written (options : List WrittenOption) : List String :=
  options.flatMap WrittenOption.args

/-- What may stand after the options. -/
def IsEnd (tail : List String) : Prop :=
  tail = [] ∨ tail = ["--"]

/-! ### Arguments taken by themselves -/

theorem ofLongName?_longName (k : Setting) : Setting.ofLongName? k.longName = some k := by
  cases k <;> rfl

theorem eq_longName_of_ofLongName? {name : String} {k : Setting}
    (h : Setting.ofLongName? name = some k) : name = k.longName := by
  unfold Setting.ofLongName? at h
  split_ifs at h with hport hhostname hdelay hlogLevel
  all_goals cases h; assumption

namespace Argument

theorem ofText_named {k : Setting} {name : String} (named : k.Named name) :
    ofText name = .option k none := by
  cases named with
  | long => cases k <;> rfl
  | short => rfl

theorem ofLong_joined (k : Setting) (value : List Char) :
    ofLong (k.longName.toList ++ '=' :: value) = .option k (some (String.ofList value)) := by
  have hname : (k.longName.toList ++ '=' :: value).takeWhile (· != '=') = k.longName.toList := by
    cases k <;> simp [Setting.longName]
  have hvalue : (k.longName.toList ++ '=' :: value).dropWhile (· != '=') = '=' :: value := by
    cases k <;> simp [Setting.longName]
  simp only [ofLong, hname, hvalue, String.ofList_toList, ofLongName?_longName]

theorem ofText_long {text : String} {body : List Char} (written : text.toList = '-' :: '-' :: body)
    (nonempty : body ≠ []) : ofText text = ofLong body := by
  obtain ⟨c, cs, rfl⟩ := List.exists_cons_of_ne_nil nonempty
  rw [ofText, written]
  rfl

theorem ofText_joined (k : Setting) (text : String) :
    ofText ("--" ++ k.longName ++ "=" ++ text) = .option k (some text) := by
  have hlist : ("--" ++ k.longName ++ "=" ++ text).toList =
      '-' :: '-' :: (k.longName.toList ++ '=' :: text.toList) := by
    simp
  rw [ofText_long hlist (by simp), ofLong_joined, String.ofList_toList]

theorem ofText_shortJoined (text : String) :
    ofText ("-p=" ++ text) = .option .port (some text) := by
  have hlist : ("-p=" ++ text).toList = '-' :: 'p' :: '=' :: text.toList := by simp
  simp [ofText, hlist, ofShort]

theorem ofText_shortAttached {text : String} (nonempty : text ≠ "")
    (noEquals : text.toList.head? ≠ some '=') :
    ofText ("-p" ++ text) = .option .port (some text) := by
  have hlist : ("-p" ++ text).toList = '-' :: 'p' :: text.toList := by simp
  obtain ⟨c, cs, htext⟩ := List.exists_cons_of_ne_nil (mt String.toList_eq_nil_iff.mp nonempty)
  have hc : c ≠ '=' := by simpa [htext] using noEquals
  have hofList : String.ofList (c :: cs) = text := by rw [← htext, String.ofList_toList]
  rw [ofText, hlist, htext]
  simp [ofShort, hc, hofList]

theorem ofText_plain {text : String} (plain : IsPlain text) : ofText text = .word text := by
  unfold ofText
  split
  case h_4 => rfl
  all_goals
    rename_i hlist
    have hyphen := plain (by simp [hlist])
    simp [hyphen] at hlist

/-- What an argument is by itself, with what it has to be written like. -/
inductive Shape : String → Argument → Prop where
  | named {k : Setting} {name : String} (named : k.Named name) : Shape name (.option k none)
  | whole {k : Setting} {arg text : String} (spelled : k.Spelled text [arg]) :
      Shape arg (.option k (some text))
  | separator : Shape "--" .separator
  | plain {text : String} (plain : IsPlain text) : Shape text (.word text)
  | help (arg : String) : Shape arg .help
  | helpWithValue (arg : String) : Shape arg .helpWithValue
  | unknown (arg : String) : Shape arg .unknownOption

theorem shape_ofLong {arg : String} {body : List Char}
    (written : arg.toList = '-' :: '-' :: body) : Shape arg (ofLong body) := by
  have hbody := List.takeWhile_append_dropWhile (p := (· != '=')) (l := body)
  simp only [ofLong]
  split
  case h_1 k hname =>
      have htake := congrArg String.toList (eq_longName_of_ofLongName? hname)
      rw [String.toList_ofList] at htake
      rw [htake] at hbody
      cases hdrop : body.dropWhile (· != '=') with
      | nil =>
          have harg : arg = "--" ++ k.longName := by
            rw [← String.toList_inj, written, ← hbody, hdrop]
            simp
          exact harg ▸ .named (.long k)
      | cons c value =>
          have hc : c = '=' := by
            have hhead := List.head?_dropWhile_not (· != '=') body
            simpa [hdrop] using hhead
          have harg : arg = "--" ++ k.longName ++ "=" ++ String.ofList value := by
            rw [← String.toList_inj, written, ← hbody, hdrop, hc]
            simp
          exact harg ▸ .whole (.joined k _)
  case h_2 =>
      split
      · split
        · exact .helpWithValue arg
        · exact .help arg
      · exact .unknown arg

theorem shape_ofShort {arg : String} {body : List Char} (written : arg.toList = '-' :: body) :
    Shape arg (ofShort body) := by
  unfold ofShort
  split
  case h_1 => 
      have harg : arg = "-p" := by
        rw [← String.toList_inj, written]
        rfl
      exact harg ▸ .named .short
  case h_2 value => 
      have harg : arg = "-p=" ++ String.ofList value := by
        rw [← String.toList_inj, written]
        simp
      exact harg ▸ .whole (.shortJoined _)
  case h_3 value hne hne' =>
      have harg : arg = "-p" ++ String.ofList value := by
        rw [← String.toList_inj, written]
        simp
      refine harg ▸ .whole (.shortAttached _ ?_ ?_)
      · rw [ne_eq, String.ofList_eq_empty_iff]
        rintro rfl
        exact hne rfl
      · rw [String.toList_ofList]
        intro hhead
        obtain ⟨cs, rfl⟩ := List.head?_eq_some_iff.mp hhead
        exact hne' cs rfl
  case h_4 => exact .help arg
  case h_5 => exact .unknown arg

theorem shape_ofText (arg : String) : Shape arg (ofText arg) := by
  unfold ofText
  split
  case h_1 hlist =>
      have harg : arg = "--" := by
        rw [← String.toList_inj, hlist]
        rfl
      exact harg ▸ .separator
  case h_2 body hne hlist => exact shape_ofLong hlist
  case h_3 c body hne hlist => exact shape_ofShort hlist
  case h_4 hone htwo hthree =>
      refine .plain fun hhead => ?_
      obtain ⟨cs, hlist⟩ := List.head?_eq_some_iff.mp hhead
      cases cs with
      | nil =>
          rw [← String.toList_inj, hlist]
          rfl
      | cons c cs => exact absurd hlist (hthree c cs)

end Argument

/-! ### Reading the arguments -/

namespace Reading

/-- What is given once the arguments that are left were read as well. -/
def finish (r : Reading) (args : List String) : Except UsageError Given := do
  let r ← args.foldlM step r
  return (← r.resolve).given

theorem finish_cons (r : Reading) (arg : String) (args : List String) :
    r.finish (arg :: args) = r.step arg >>= fun r => r.finish args := by
  simp [finish]

theorem finish_given (g : Given) : ({ given := g } : Reading).finish [] = .ok g := rfl

/-- Nothing may follow the separator. -/
theorem finish_separated {g g' : Given} {pending : Option (Setting × Option String)}
    {args : List String} :
    ({ given := g, pending, separated := true } : Reading).finish args = .ok g' ↔
      ({ given := g, pending } : Reading).finish [] = .ok g' ∧ args = [] := by
  cases args with
  | nil => cases pending <;> simp [finish, resolve]
  | cons arg args => simp [finish_cons, step, bind_eq_ok_iff]

/-- An option that has its value is taken whatever follows. -/
theorem finish_pending {g g' : Given} {k : Setting} {text : String} {args : List String} :
    ({ given := g, pending := some (k, some text) } : Reading).finish args = .ok g' ↔
      ∃ g₁, g.give k (some text) = .ok g₁ ∧ ({ given := g₁ } : Reading).finish args = .ok g' := by
  have hend : ({ given := g, pending := some (k, some text) } : Reading).finish [] = .ok g' ↔
      g.give k (some text) = .ok g' := by
    simp [finish, resolve, bind_eq_ok_iff, pure, Except.pure]
  cases args with
  | nil => simp [hend, finish_given]
  | cons arg args =>
      simp only [finish_cons, step]
      cases Argument.ofText arg with
      | separator =>
          simp [finish_separated, hend, finish_given, pure, Except.pure, bind_eq_ok_iff]
      | option s value => cases value <;> simp [resolve, bind_eq_ok_iff, pure, Except.pure]
      | help | helpWithValue | unknownOption | word => simp [bind_eq_ok_iff]

/-- An option that awaits its value has it from the next argument. -/
theorem finish_awaiting {g g' : Given} {k : Setting} {args : List String} :
    ({ given := g, pending := some (k, none) } : Reading).finish args = .ok g' ↔
      ∃ text rest, args = text :: rest ∧ IsPlain text ∧
        ∃ g₁, g.give k (some text) = .ok g₁ ∧ ({ given := g₁ } : Reading).finish rest = .ok g' := by
  have hend : ({ given := g, pending := some (k, none) } : Reading).finish [] ≠ .ok g' := by
    simp [finish, resolve, Given.give]
  cases args with
  | nil => simp [hend]
  | cons arg args =>
      constructor
      · intro hfinish
        rw [finish_cons, bind_eq_ok_iff] at hfinish
        obtain ⟨r, hstep, hrest⟩ := hfinish
        have hshape := Argument.shape_ofText arg
        simp only [step] at hstep
        generalize Argument.ofText arg = a at hstep hshape
        cases hshape with
        | separator =>
            cases hstep
            exact absurd (finish_separated.mp hrest).1 hend
        | plain hplain =>
            cases hstep
            exact ⟨arg, args, rfl, hplain, finish_pending.mp hrest⟩
        | named | whole | help | helpWithValue | unknown => cases hstep
      · rintro ⟨text, rest, harg, hplain, htake⟩
        cases harg
        rw [finish_cons, step, Argument.ofText_plain hplain]
        exact finish_pending.mpr htake

theorem finish_option {g g' : Given} {k : Setting} {text : String} {args rest : List String}
    (spelled : k.Spelled text args) :
    ({ given := g } : Reading).finish (args ++ rest) = .ok g' ↔
      ∃ g₁, g.give k (some text) = .ok g₁ ∧ ({ given := g₁ } : Reading).finish rest = .ok g' := by
  have hwhole {arg : String} (whole : Argument.ofText arg = .option k (some text)) :
      ({ given := g } : Reading).finish (arg :: rest) = .ok g' ↔
        ∃ g₁, g.give k (some text) = .ok g₁ ∧
          ({ given := g₁ } : Reading).finish rest = .ok g' := by
    simp [finish_cons, step, whole, resolve, bind_eq_ok_iff, pure, Except.pure]
  cases spelled with
  | @separate _ name _ named plain =>
      have hname : ({ given := g } : Reading).finish ([name, text] ++ rest) =
          ({ given := g, pending := some (k, none) } : Reading).finish (text :: rest) := by
        simp [finish_cons, step, Argument.ofText_named named, resolve]
      rw [hname, finish_awaiting]
      constructor
      · rintro ⟨text', rest', hargs, -, htake⟩
        cases hargs
        exact htake
      · exact fun htake => ⟨text, rest, rfl, plain, htake⟩
  | joined => exact hwhole (Argument.ofText_joined k text)
  | shortJoined => exact hwhole (Argument.ofText_shortJoined text)
  | shortAttached _ nonempty noEquals =>
      exact hwhole (Argument.ofText_shortAttached nonempty noEquals)

/-- What is accepted is made of options. By induction on the arguments, of which an option takes one
or two. -/
theorem exists_written {g g' : Given} {args : List String}
    (finishes : ({ given := g } : Reading).finish args = .ok g') :
    ∃ options tail, IsEnd tail ∧ args = written options ++ tail := by
  induction hlength : args.length using Nat.strongRecOn generalizing g args with
  | ind n ih =>
      -- One option is taken off the front and the rest is made of options too.
      have hcons {k : Setting} {text : String} {front rest : List String}
          (hargs : args = front ++ rest) (hspelled : k.Spelled text front) (hfront : front ≠ []) :
          ∃ options tail, IsEnd tail ∧ args = written options ++ tail := by
        rw [hargs, finish_option hspelled] at finishes
        obtain ⟨g₁, -, hrest⟩ := finishes
        have hshorter : rest.length < n := by
          have := List.length_pos_iff.mpr hfront
          rw [← hlength, hargs, List.length_append]
          omega
        obtain ⟨options, tail, hend, heq⟩ := ih rest.length hshorter hrest rfl
        exact ⟨⟨k, text, front, hspelled⟩ :: options, tail, hend, by simp [written, hargs, heq]⟩
      cases args with
      | nil => exact ⟨[], [], .inl rfl, rfl⟩
      | cons arg args => 
          have hstep := finishes
          rw [finish_cons, bind_eq_ok_iff] at hstep
          obtain ⟨r, hstep, hrest⟩ := hstep
          have hshape := Argument.shape_ofText arg
          simp only [step] at hstep
          generalize Argument.ofText arg = a at hstep hshape
          cases hshape with
          | named hnamed =>
              cases hstep
              obtain ⟨text, rest, rfl, hplain, -⟩ := finish_awaiting.mp hrest
              exact hcons rfl (.separate text hnamed hplain) (by simp)
          | whole hspelled => exact hcons rfl hspelled (by simp)
          | separator =>
              cases hstep
              obtain ⟨-, rfl⟩ := finish_separated.mp hrest
              exact ⟨[], ["--"], .inr rfl, rfl⟩
          | plain | help | helpWithValue | unknown => cases hstep

end Reading

/-- The settings that options are about, with their texts. -/
def WrittenOption.assignment (x : WrittenOption) : Setting × String :=
  (x.setting, x.text)

/-- Options give what they give one after the other, however they are written. -/
theorem Given.ofArguments_written {options : List WrittenOption} {tail : List String}
    (isEnd : IsEnd tail) {g' : Given} :
    Given.ofArguments (written options ++ tail) = .ok g' ↔
      giveAll {} (options.map WrittenOption.assignment) = .ok g' := by
  change ({ given := {} } : Reading).finish _ = .ok g' ↔ _
  generalize ({} : Given) = g
  induction options generalizing g with
  | nil =>
      have htail : ({ given := g } : Reading).finish tail = .ok g := by
        rcases isEnd with rfl | rfl <;> rfl
      rw [written, List.flatMap_nil, List.nil_append, htail]
      rfl
  | cons x options ih =>
      have hargs : written (x :: options) ++ tail = x.args ++ (written options ++ tail) := by
        simp [written]
      rw [hargs, Reading.finish_option x.spelled, giveAll, List.map_cons, List.foldlM_cons,
        bind_eq_ok_iff]
      simp only [ih]
      rfl

end RoomRelay
