import RoomRelay.Settings.Arguments
import RoomRelay.Settings.EnvFile

/-!
The settings of a run: its arguments over its environment, and that over a file of variables.
-/

namespace RoomRelay

/-- Why a run has no settings. -/
inductive LoadError where
  | usage (e : UsageError)
  | unstorable
deriving DecidableEq, Repr

def LoadError.exitCode : LoadError → Nat
  | .usage e => e.exitCode
  | .unstorable => 101

def LoadError.message : LoadError → String
  | .usage e => e.message
  | .unstorable => "A variable in the file has a value that no variable can hold."

/-- Reads the settings; the file, if there is one, sets what the environment leaves open. -/
def Settings.load (args : List String) (env : EnvFile.Environment) (file : Option String) :
    Except LoadError Settings :=
  let env? := match file with
    | some text => EnvFile.extend? env text
    | none => some env
  match env? with
  | some env => (Settings.read args (EnvFile.lookup env)).mapError .usage
  | none => throw .unstorable

end RoomRelay
