import RoomRelay.Settings.Load

/-!
The command line: works out the settings from the arguments and the process environment, and says
at which address clients find the relay.
-/

open RoomRelay

def main (args : List String) : IO UInt32 := do
  let env ← Setting.all.filterMapM fun s =>
    return (← IO.getEnv s.envName).map fun text => (s.envName, text)
  match Settings.load args env none with
  | .ok settings =>
    IO.println s!"ws://{settings.displayAddress}/"
    return 0
  | .error e =>
    if e = .usage .help then IO.println e.message else IO.eprintln e.message
    return UInt32.ofNat e.exitCode
