import RoomRelay.Proofs.Settings.Options

/-!
Where each setting comes from. Every setting is decided for itself: by its option if it is written,
else by its variable if that is set, else it has its default. Neither the order and the spelling of
the options nor the variables of settings that are written make a difference.
-/

namespace RoomRelay

/-- What decides a setting. -/
inductive Settled (options : List WrittenOption) (env : String → Option String) (k : Setting) :
    Entry → Prop where
  | argument (x : WrittenOption) (e : Entry) (mem : x ∈ options) (own : x.setting = k)
      (takes : k.Takes x.text e) : Settled options env k e
  | environment (text : String) (e : Entry) (unwritten : ∀ x ∈ options, x.setting ≠ k)
      (set : env k.envName = some text) (takes : k.Takes text e) : Settled options env k e
  | default (unwritten : ∀ x ∈ options, x.setting ≠ k) (unset : env k.envName = none) :
      Settled options env k k.default

theorem Setting.mem_all (k : Setting) : k ∈ all := by
  cases k <;> decide

/-- Some of the settings. -/
def Given.ofSettings (s : Settings) (which : Setting → Bool) : Given :=
  { port := if which .port then some s.port else none
    hostname := if which .hostname then some s.hostname else none
    delay := if which .delay then some s.delay else none
    logLevel := if which .logLevel then some s.logLevel else none }

theorem Given.lookup?_ofSettings (s : Settings) (which : Setting → Bool) (k : Setting) :
    (ofSettings s which).lookup? k = if which k then some (s.entry k) else none := by
  cases k <;> simp only [ofSettings, lookup?, Settings.entry] <;> split <;> rfl

theorem map_fst_assignment (options : List WrittenOption) :
    (options.map WrittenOption.assignment).map Prod.fst = options.map WrittenOption.setting := by
  rw [List.map_map]
  rfl

theorem Given.giveAll_eq_ok_iff {options : List WrittenOption} {g : Given} :
    giveAll {} (options.map WrittenOption.assignment) = .ok g ↔
      (options.map WrittenOption.setting).Nodup ∧
      (∀ x ∈ options, ∃ e, x.setting.Takes x.text e ∧ g.lookup? x.setting = some e) ∧
      ∀ k, (∀ x ∈ options, x.setting ≠ k) → g.lookup? k = none := by
  rw [← map_fst_assignment]
  constructor
  · intro hgive
    have hnodup := (nodup_of_give hgive).1
    obtain ⟨hgiven, hkept⟩ := (changes_give.foldlM_eq_ok_iff hnodup).mp hgive
    refine ⟨hnodup, fun x hx => (hgiven x.assignment (List.mem_map_of_mem hx)).2, fun k hk => ?_⟩
    rw [hkept k, lookup?_empty]
    simpa [WrittenOption.assignment] using hk
  · rintro ⟨hnodup, hgiven, hkept⟩
    refine (changes_give.foldlM_eq_ok_iff hnodup).mpr ⟨fun x hx => ?_, fun k hk => ?_⟩
    · obtain ⟨y, hy, rfl⟩ := List.mem_map.mp hx
      exact ⟨lookup?_empty _, hgiven y hy⟩
    · rw [lookup?_empty]
      refine hkept k fun x hx heq => hk ?_
      rw [map_fst_assignment, ← heq]
      exact List.mem_map_of_mem hx

theorem Given.fillAll_eq_ok_iff {env : String → Option String} {g g' : Given} :
    Setting.all.foldlM (fill env) g = .ok g' ↔ ∀ k, Filled env k (g.lookup? k) (g'.lookup? k) := by
  have hnodup : (Setting.all.map id).Nodup := by decide
  rw [(changes_fill env).foldlM_eq_ok_iff hnodup]
  simp [Setting.mem_all]

/-- A setting is written at most once, so what it is comes from whichever option is about it. -/
theorem Settled.takes {options : List WrittenOption} {env : String → Option String}
    {x : WrittenOption} {e : Entry} (settled : Settled options env x.setting e)
    (once : (options.map WrittenOption.setting).Nodup) (mem : x ∈ options) :
    x.setting.Takes x.text e := by
  cases settled with
  | argument y _ hy own takes =>
      obtain rfl := List.inj_on_of_nodup_map once hy mem own
      exact takes
  | environment _ _ unwritten => exact absurd rfl (unwritten x mem)
  | default unwritten => exact absurd rfl (unwritten x mem)

theorem settled_of_filled {options : List WrittenOption} {env : String → Option String}
    {g g' : Given} {k : Setting}
    (given : ∀ x ∈ options, ∃ e, x.setting.Takes x.text e ∧ g.lookup? x.setting = some e)
    (kept : (∀ x ∈ options, x.setting ≠ k) → g.lookup? k = none)
    (filled : Given.Filled env k (g.lookup? k) (g'.lookup? k)) :
    Settled options env k (g'.toSettings.entry k) := by
  rw [Given.entry_toSettings]
  by_cases hwritten : ∃ x ∈ options, x.setting = k
  · obtain ⟨x, hx, rfl⟩ := hwritten
    obtain ⟨e, htakes, hown⟩ := given x hx
    rw [hown] at filled
    rw [show g'.lookup? x.setting = some e from filled]
    exact .argument x e hx rfl htakes
  · have hunwritten : ∀ x ∈ options, x.setting ≠ k := by simpa using hwritten
    rw [kept hunwritten] at filled
    cases hset : env k.envName with
    | some text =>
        simp only [Given.Filled, hset] at filled
        obtain ⟨e, htakes, hown⟩ := filled
        rw [hown]
        exact .environment text e hunwritten hset htakes
    | none =>
        simp only [Given.Filled, hset] at filled
        rw [filled]
        exact .default hunwritten hset

theorem filled_of_settled {options : List WrittenOption} {env : String → Option String}
    {k : Setting} {e : Entry} {isWritten : Bool}
    (iff : isWritten = true ↔ ∃ x ∈ options, x.setting = k) (settled : Settled options env k e) :
    let filled := if isWritten || (env k.envName).isSome then some e else none
    Given.Filled env k (if isWritten then some e else none) filled ∧
      filled.getD k.default = e := by
  have hunwritten (unwritten : ∀ x ∈ options, x.setting ≠ k) : isWritten = false := by
    rw [← Bool.not_eq_true, iff]
    exact fun ⟨x, hx, hown⟩ => unwritten x hx hown
  cases settled with
  | argument x _ mem own =>
      have hwritten := iff.mpr ⟨x, mem, own⟩
      simp [Given.Filled, hwritten]
  | environment text _ unwritten set takes =>
      simpa [Given.Filled, hunwritten unwritten, set] using takes
  | default unwritten unset => simp [Given.Filled, hunwritten unwritten, unset]

theorem Settings.read_eq_ok_iff {options : List WrittenOption} {tail : List String}
    (isEnd : IsEnd tail) {env : String → Option String} {s : Settings} :
    Settings.read (written options ++ tail) env = .ok s ↔
      (options.map WrittenOption.setting).Nodup ∧ ∀ k, Settled options env k (s.entry k) := by
  have hread : Settings.read (written options ++ tail) env = .ok s ↔
      ∃ g g', Given.giveAll {} (options.map WrittenOption.assignment) = .ok g ∧
        Setting.all.foldlM (Given.fill env) g = .ok g' ∧ g'.toSettings = s := by
    simp [Settings.read, bind_eq_ok_iff, Given.ofArguments_written isEnd, pure, Except.pure]
  rw [hread]
  constructor
  · rintro ⟨g, g', hgive, hfill, rfl⟩
    obtain ⟨hnodup, hgiven, hkept⟩ := Given.giveAll_eq_ok_iff.mp hgive
    exact ⟨hnodup, fun k =>
      settled_of_filled hgiven (hkept k) (Given.fillAll_eq_ok_iff.mp hfill k)⟩
  · rintro ⟨hnodup, hsettled⟩
    let isWritten (k : Setting) : Bool := options.any (·.setting == k)
    have hwritten (k : Setting) : isWritten k = true ↔ ∃ x ∈ options, x.setting = k := by
      simp [isWritten]
    have hfilled (k : Setting) := filled_of_settled (hwritten k) (hsettled k)
    refine ⟨.ofSettings s isWritten, .ofSettings s fun k => isWritten k || (env k.envName).isSome,
      Given.giveAll_eq_ok_iff.mpr ⟨hnodup, fun x hx => ?_, fun k hk => ?_⟩,
      Given.fillAll_eq_ok_iff.mpr fun k => ?_, Settings.ext_entry fun k => ?_⟩
    · refine ⟨_, (hsettled x.setting).takes hnodup hx, ?_⟩
      rw [Given.lookup?_ofSettings, (hwritten _).mpr ⟨x, hx, rfl⟩, if_pos rfl]
    · rw [Given.lookup?_ofSettings, if_neg]
      rw [hwritten]
      exact fun ⟨x, hx, hown⟩ => hk x hx hown
    · rw [Given.lookup?_ofSettings, Given.lookup?_ofSettings]
      exact (hfilled k).1
    · rw [Given.entry_toSettings, Given.lookup?_ofSettings]
      exact (hfilled k).2

/-! ### Precedence -/

/-- What options and an environment say about the settings that they make. -/
structure Decided (options : List WrittenOption) (env : String → Option String) (s : Settings) :
    Prop where
  once : (options.map WrittenOption.setting).Nodup
  settled : ∀ k, Settled options env k (s.entry k)
  /-- The variables of settings that are written are not looked at. -/
  overridden : ∀ env' tail, IsEnd tail →
    (∀ k, (∀ x ∈ options, x.setting ≠ k) → env' k.envName = env k.envName) →
    Settings.read (written options ++ tail) env' = .ok s
  /-- Options may change places and be spelled in another way. -/
  rewritten : ∀ options' tail, IsEnd tail →
    (options'.map WrittenOption.assignment).Perm (options.map WrittenOption.assignment) →
    Settings.read (written options' ++ tail) env = .ok s

theorem Settled.congr_env {options : List WrittenOption} {env env' : String → Option String}
    {k : Setting} {e : Entry} (settled : Settled options env k e)
    (agree : (∀ x ∈ options, x.setting ≠ k) → env' k.envName = env k.envName) :
    Settled options env' k e := by
  cases settled with
  | argument x _ mem own takes => exact .argument x e mem own takes
  | environment text _ unwritten set takes =>
      exact .environment text e unwritten ((agree unwritten).trans set) takes
  | default unwritten unset => exact .default unwritten ((agree unwritten).trans unset)

/-- Only the settings and the texts of the options count. -/
theorem Settled.congr_options {options options' : List WrittenOption}
    {env : String → Option String} {k : Setting} {e : Entry} (settled : Settled options env k e)
    (same : ∀ y, y ∈ options'.map WrittenOption.assignment ↔
      y ∈ options.map WrittenOption.assignment) : Settled options' env k e := by
  have hunwritten (unwritten : ∀ x ∈ options, x.setting ≠ k) : ∀ x ∈ options', x.setting ≠ k := by
    intro x' hx' hown
    obtain ⟨x, hx, heq⟩ := List.mem_map.mp ((same _).mp (List.mem_map_of_mem hx'))
    exact unwritten x hx ((congrArg Prod.fst heq).trans hown)
  cases settled with
  | argument x _ mem own takes =>
      obtain ⟨x', hx', heq⟩ := List.mem_map.mp ((same _).mpr (List.mem_map_of_mem mem))
      have hown' : x'.setting = x.setting := congrArg Prod.fst heq
      have htext : x'.text = x.text := congrArg Prod.snd heq
      exact .argument x' e hx' (hown'.trans own) (htext ▸ takes)
  | environment text _ unwritten set takes =>
      exact .environment text e (hunwritten unwritten) set takes
  | default unwritten unset => exact .default (hunwritten unwritten) unset

theorem decided_of_read {options : List WrittenOption} {tail : List String} (isEnd : IsEnd tail)
    {env : String → Option String} {s : Settings}
    (reads : Settings.read (written options ++ tail) env = .ok s) : Decided options env s := by
  obtain ⟨hnodup, hsettled⟩ := (Settings.read_eq_ok_iff isEnd).mp reads
  exact {
    once := hnodup
    settled := hsettled
    overridden := fun env' tail' hend hagree => (Settings.read_eq_ok_iff hend).mpr
      ⟨hnodup, fun k => (hsettled k).congr_env (hagree k)⟩
    rewritten := fun options' tail' hend hperm => by
      have hsettings := hperm.map Prod.fst
      rw [map_fst_assignment, map_fst_assignment] at hsettings
      exact (Settings.read_eq_ok_iff hend).mpr
        ⟨hsettings.nodup_iff.mpr hnodup,
          fun k => (hsettled k).congr_options fun y => hperm.mem_iff⟩ }

/-- Whatever decides a setting, it is within its range. -/
theorem Settled.allows {options : List WrittenOption} {env : String → Option String} {k : Setting}
    {e : Entry} (settled : Settled options env k e) : k.Allows e := by
  cases settled with
  | argument _ _ _ _ takes => exact takes.allows
  | environment _ _ _ _ takes => exact takes.allows
  | default => exact k.allows_default

/-- Settings that can be read are within their ranges, and the arguments are options with nothing
or a separator after them. These options and the environment decide every setting for itself. -/
theorem settings_precedence {args : List String} {env : String → Option String} {s : Settings}
    (reads : Settings.read args env = .ok s) :
    (1 ≤ s.port ∧ s.port ≤ 65535) ∧ s.delay < 2 ^ 64 ∧
    (∃ options tail, IsEnd tail ∧ args = written options ++ tail) ∧
    ∀ options tail, IsEnd tail → args = written options ++ tail → Decided options env s := by
  obtain ⟨g, hgiven, -⟩ := bind_eq_ok_iff.mp reads
  obtain ⟨options, tail, hend, rfl⟩ := Reading.exists_written hgiven
  have hsettled := (decided_of_read hend reads).settled
  have hport : Setting.port.Allows (.number s.port) := (hsettled .port).allows
  have hdelay : Setting.delay.Allows (.number s.delay) := (hsettled .delay).allows
  refine ⟨hport, hdelay, ⟨options, tail, hend, rfl⟩, fun options' tail' hend' hargs => ?_⟩
  exact decided_of_read hend' (hargs ▸ reads)

/-- An attached port, a sign before a delay and a log level that is set to nothing. The port in the
environment is no number, but another one was written. -/
theorem settings_precedence_short :
    let env : String → Option String := fun name =>
      if name = "PORT" then some "none" else if name = "MANUAL_DELAY" then some "+07"
      else if name = "LOG_LEVEL" then some "" else none
    let s : Settings := { port := 9000, hostname := "::", delay := 7, logLevel := "" }
    Settings.read ["-p9000", "--hostname", "::", "--"] env = .ok s ∧
      Settings.read ["--hostname=::", "--port", "9000"] env = .ok s := by
  intro env s
  have hread : Settings.read ["-p9000", "--hostname", "::", "--"] env = .ok s := by decide +kernel
  let port : WrittenOption :=
    ⟨.port, "9000", ["-p9000"], .shortAttached "9000" (by decide) (by decide)⟩
  let port' : WrittenOption :=
    ⟨.port, "9000", ["--port", "9000"], .separate "9000" (.long .port) (by decide)⟩
  let hostname : WrittenOption :=
    ⟨.hostname, "::", ["--hostname", "::"], .separate "::" (.long .hostname) (by decide)⟩
  let hostname' : WrittenOption := ⟨.hostname, "::", ["--hostname=::"], .joined .hostname "::"⟩
  obtain ⟨-, -, -, hdecided⟩ := settings_precedence hread
  have hrewritten := (hdecided [port, hostname] ["--"] (.inr rfl) rfl).rewritten
  exact ⟨hread, hrewritten [hostname', port'] [] (.inl rfl) (.swap _ _ _)⟩

end RoomRelay
