import RoomRelay.Settings.Basic

/-!
Reading the settings from command line arguments.

An option is written `--name value` or `--name=value`; the port also `-p value`, `-pvalue` or
`-p=value`. A separate value may not begin with a hyphen unless it is a lone one. No argument
stands for itself, so what is neither an option nor its value is unknown.
-/

namespace RoomRelay

/-- One argument, taken by itself. -/
inductive Argument where
  | option (s : Setting) (value : Option String)
  | help
  | helpWithValue
  | separator
  | unknownOption
  | word (text : String)
deriving DecidableEq, Repr

namespace Argument

/-- What follows `--`: a name, and a value after the first equals sign. -/
def ofLong (body : List Char) : Argument :=
  let name := String.ofList (body.takeWhile (· != '='))
  let value := match body.dropWhile (· != '=') with
    | _ :: value => some (String.ofList value)
    | [] => none
  match Setting.ofLongName? name with
  | some s => .option s value
  | none =>
    if name = "help" then if value.isSome then .helpWithValue else .help
    else .unknownOption

/-- What follows a single hyphen. -/
def ofShort : List Char → Argument
  | 'p' :: [] => .option .port none
  | 'p' :: '=' :: value => .option .port (some (String.ofList value))
  | 'p' :: value => .option .port (some (String.ofList value))
  | 'h' :: _ => .help
  | _ => .unknownOption

def ofText (text : String) : Argument :=
  match text.toList with
  | ['-', '-'] => .separator
  | '-' :: '-' :: body => ofLong body
  | '-' :: c :: body => ofShort (c :: body)
  | _ => .word text

end Argument

/-- The state between two arguments. -/
structure Reading where
  given : Given := {}
  /-- An option with a separate value, and the value once it has come. -/
  pending : Option (Setting × Option String) := none
  separated : Bool := false
deriving DecidableEq, Repr

namespace Reading

/-- Takes the pending option. -/
def resolve (r : Reading) : Except UsageError Reading :=
  match r.pending with
  | some (s, value) => return { r with given := ← r.given.give s value, pending := none }
  | none => return r

/-- One argument. After the separator only words may come, and no word is known. -/
def step (r : Reading) (arg : String) : Except UsageError Reading :=
  if r.separated then throw .unknownArgument
  else match Argument.ofText arg with
    | .separator => return { r with separated := true }
    | .option s none => do return { (← r.resolve) with pending := some (s, none) }
    | .option s (some value) => do
      let r ← r.resolve
      return { r with given := ← r.given.give s (some value) }
    | .help => do
      let _ ← r.resolve
      throw .help
    | .helpWithValue => throw .surplusValue
    | .unknownOption => throw .unknownArgument
    | .word text =>
      match r.pending with
      | some (s, none) => return { r with pending := some (s, some text) }
      | _ => throw .unknownArgument

end Reading

/-- What the arguments give. -/
def Given.ofArguments (args : List String) : Except UsageError Given := do
  let r ← args.foldlM Reading.step {}
  return (← r.resolve).given

/-- The settings that arguments and an environment make. -/
def Settings.read (args : List String) (env : String → Option String) :
    Except UsageError Settings := do
  let given ← Given.ofArguments args
  return (← Setting.all.foldlM (Given.fill env) given).toSettings

end RoomRelay
