import RoomRelay.Bytes

/-!
Request targets: the path of a target, its segments, and what a segment says once its percent
escapes are decoded.
-/

namespace RoomRelay.Http

/-- Splits at every slash. -/
def segments : List Char → List (List Char)
  | [] => [[]]
  | '/' :: rest => [] :: segments rest
  | c :: rest =>
    match segments rest with
    | s :: more => (c :: s) :: more
    | [] => [[c]]

/-- What follows the first `://`. -/
def afterScheme? : List Char → Option (List Char)
  | ':' :: '/' :: '/' :: rest => some rest
  | _ :: rest => afterScheme? rest
  | [] => none

/-- The part before a query or a fragment. -/
def withoutQuery (target : List Char) : List Char :=
  target.takeWhile fun c => c != '?' && c != '#'

/-- The path of a request target, which may name a scheme and a host first. -/
def pathOf (target : List Char) : List Char :=
  match target with
  | '/' :: _ => withoutQuery target
  | _ =>
    let shown := withoutQuery target
    match afterScheme? shown with
    | some rest =>
      match rest.dropWhile (· != '/') with
      | [] => ['/']
      | path => path
    | none => if shown = ['*'] then shown else []

/-- The byte that an escape of these three bytes stands for. -/
def escapedByte? (mark high low : UInt8) : Option UInt8 :=
  if mark = 0x25 then
    match hexDigit? high, hexDigit? low with
    | some h, some l => some (UInt8.ofNat (16 * h + l))
    | _, _ => none
  else none

/-- Replaces each escape by the byte it stands for; a percent sign that starts none stays. -/
def percentDecode : Bytes → Bytes
  | mark :: high :: low :: rest =>
    match escapedByte? mark high low with
    | some b => b :: percentDecode rest
    | none => mark :: percentDecode (high :: low :: rest)
  | bytes => bytes

/-- The text that a path segment stands for, if its bytes are one. -/
def segmentText? (segment : List Char) : Option String :=
  textOfBytes? (percentDecode (textBytes (String.ofList segment)))

/-- A letter or digit of the basic alphabet, a low line or a hyphen. -/
def isIdChar (c : Char) : Bool :=
  ('a' ≤ c && c ≤ 'z') || ('A' ≤ c && c ≤ 'Z') || ('0' ≤ c && c ≤ '9') || c == '_' || c == '-'

/-- Whether a text may name a room or a peer. -/
def isValidId (id : String) : Bool :=
  id != "" && id.toList.all isIdChar

end RoomRelay.Http
