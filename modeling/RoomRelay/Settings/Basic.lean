/-!
The settings of the relay, and what an argument list and an environment make of them.

Each setting is taken from its argument if there is one, else from its environment variable if
that is set, else from its default. A variable whose setting was given as an argument is not
looked at. An option whose value comes as a separate argument stays pending: its value is checked
when the next option is met or the arguments end, and not at all when an unknown argument comes
first.
-/

namespace RoomRelay

structure Settings where
  port : Nat := 8080
  hostname : String := "localhost"
  /-- How many milliseconds a relayed frame is held back. -/
  delay : Nat := 0
  logLevel : String := "info"
deriving DecidableEq, Repr

/-- The address that clients connect to; a host name with a colon in it is bracketed. -/
def Settings.displayAddress (s : Settings) : String :=
  if s.hostname.toList.contains ':' then s!"[{s.hostname}]:{s.port}" else s!"{s.hostname}:{s.port}"

inductive Setting where
  | port
  | hostname
  | delay
  | logLevel
deriving DecidableEq, Repr

namespace Setting

def all : List Setting := [.port, .hostname, .delay, .logLevel]

def envName : Setting → String
  | .port => "PORT"
  | .hostname => "HOST"
  | .delay => "MANUAL_DELAY"
  | .logLevel => "LOG_LEVEL"

/-- The setting of a long option. -/
def ofLongName? (name : String) : Option Setting :=
  if name = "port" then some .port
  else if name = "hostname" then some .hostname
  else if name = "manual-delay" then some .delay
  else if name = "log-level" then some .logLevel
  else none

end Setting

/-- Why an argument list makes no settings. Asking for help is among the reasons. -/
inductive UsageError where
  | help
  | unknownArgument
  | missingValue
  | surplusValue
  | repeated
  | invalidValue
deriving DecidableEq, Repr

def UsageError.exitCode : UsageError → Nat
  | .help => 0
  | _ => 2

/-- What to tell the user. -/
def UsageError.message : UsageError → String
  | .help =>
    "Options: --port PORT, --hostname HOST, --manual-delay MILLISECONDS, --log-level LEVEL"
  | .unknownArgument => "An argument is not known."
  | .missingValue => "An option lacks its value."
  | .surplusValue => "An option that takes no value has one."
  | .repeated => "An option is given twice."
  | .invalidValue => "A value is not valid."

/-- The number that a text of decimal digits stands for, with or without a plus sign. -/
def readNumber? (s : String) : Option Nat :=
  let digits := match s.toList with
    | '+' :: rest => rest
    | cs => cs
  if digits ≠ [] ∧ digits.all (·.isDigit) then
    some (digits.foldl (fun n c => 10 * n + (c.toNat - '0'.toNat)) 0)
  else none

/-- The settings that have been given so far. -/
structure Given where
  port : Option Nat := none
  hostname : Option String := none
  delay : Option Nat := none
  logLevel : Option String := none
deriving DecidableEq, Repr

namespace Given

def has (g : Given) : Setting → Bool
  | .port => g.port.isSome
  | .hostname => g.hostname.isSome
  | .delay => g.delay.isSome
  | .logLevel => g.logLevel.isSome

/-- Reads the value of a setting. A port is a positive 16-bit number, a delay a 64-bit number. -/
def put (g : Given) (s : Setting) (text : String) : Except UsageError Given :=
  match s with
  | .port =>
    match readNumber? text with
    | some n => if 1 ≤ n ∧ n < 65536 then return { g with port := some n } else throw .invalidValue
    | none => throw .invalidValue
  | .hostname => return { g with hostname := some text }
  | .delay =>
    match readNumber? text with
    | some n =>
      if n < 18446744073709551616 then return { g with delay := some n } else throw .invalidValue
    | none => throw .invalidValue
  | .logLevel => return { g with logLevel := some text }

/-- Takes a setting from an option, which may be given once. -/
def give (g : Given) (s : Setting) (value : Option String) : Except UsageError Given :=
  match value with
  | none => throw .missingValue
  | some text => if g.has s then throw .repeated else g.put s text

/-- Takes a setting that was not given from its variable. -/
def fill (env : String → Option String) (g : Given) (s : Setting) : Except UsageError Given :=
  if g.has s then return g
  else match env s.envName with
    | some text => g.put s text
    | none => return g

def toSettings (g : Given) : Settings :=
  let defaults : Settings := {}
  { port := g.port.getD defaults.port
    hostname := g.hostname.getD defaults.hostname
    delay := g.delay.getD defaults.delay
    logLevel := g.logLevel.getD defaults.logLevel }

end Given

end RoomRelay
