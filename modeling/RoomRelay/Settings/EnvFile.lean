import RoomRelay.Text.Alphanumeric

/-!
A file of environment variables.

Each line sets one variable, `NAME=value`, with an optional `export` before it. A value may be
bare, in single quotes, which take everything as it is, or in double quotes; in the bare and the
double-quoted form a backslash escapes, and `$NAME` or a name in braces after the dollar stands for
the value of a variable. A quoted value may run over several lines, and a comment starts at a
number sign after a blank. A malformed line ends the reading, the lines before it count.

No variable can hold the character NUL. To set one so is a fault, and nothing is read then.
-/

namespace RoomRelay.EnvFile

abbrev Environment := List (String × String)

/-- What follows `start` in a text that begins with it. -/
def afterStart? : List Char → List Char → Option (List Char)
  | [], text => some text
  | c :: start, d :: text => if c = d then afterStart? start text else none
  | _ :: _, [] => none

/-- The value of a variable. An environment is a list of texts `NAME=value`, and a name stands for
what follows it and an equals sign in the first text that begins with these two. -/
def lookup (env : Environment) (name : String) : Option String :=
  env.findSome? fun (key, value) =>
    (afterStart? (name.toList ++ ['=']) (key.toList ++ '=' :: value.toList)).map String.ofList

/-- Whether a character is white space. -/
def isSpace (c : Char) : Bool :=
  let n := c.toNat
  (0x09 ≤ n && n ≤ 0x0D) || n == 0x20 || n == 0x85 || n == 0xA0 || n == 0x1680 ||
    (0x2000 ≤ n && n ≤ 0x200A) || n == 0x2028 || n == 0x2029 || n == 0x202F || n == 0x205F ||
    n == 0x3000

/-- What a position in a line is inside of. -/
inductive Quoting where
  | plain
  | blank
  | escape
  | single
  | singleEscape
  | double
  | doubleEscape
deriving DecidableEq, Repr

/-- The state after a character outside of quotes and not after a backslash. -/
def Quoting.afterPlain (c : Char) : Quoting :=
  if c = '\\' then .escape
  else if c = '"' then .double
  else if c = '\'' then .single
  else .plain

/-- The state after a character, `none` where a comment starts. -/
def Quoting.step (q : Quoting) (c : Char) : Option Quoting :=
  match q with
  | .plain =>
    if isSpace c && c != '\n' && c != '\r' then some .blank else some (.afterPlain c)
  | .blank => if c = '#' then none else some (.afterPlain c)
  | .escape => some .plain
  | .single =>
    some (if c = '\\' then .singleEscape else if c = '\'' then .plain else .single)
  | .singleEscape => some .single
  | .double => some (if c = '\\' then .doubleEscape else if c = '"' then .plain else .double)
  | .doubleEscape => some .double

/-- How a stretch of text ends: in a state, or at a comment after some text. -/
inductive Ending where
  | state (q : Quoting)
  | comment (kept : List Char)

def Ending.cons (c : Char) : Ending → Ending
  | .state q => .state q
  | .comment kept => .comment (c :: kept)

def scan (q : Quoting) : List Char → Ending
  | [] => .state q
  | c :: rest =>
    match q.step c with
    | none => .comment []
    | some q => (scan q rest).cons c

/-- The lines of a text, each with its line feed. -/
def physicalLines : List Char → List (List Char)
  | [] => []
  | c :: rest =>
    if c = '\n' then [c] :: physicalLines rest
    else match physicalLines rest with
      | line :: more => (c :: line) :: more
      | [] => [[c]]

def withoutLineFeed (line : List Char) : List Char :=
  match line.reverse with
  | '\n' :: '\r' :: rest => rest.reverse
  | '\n' :: rest => rest.reverse
  | _ => line

/-- The lines that belong together because of quotes, `none` where the text ends inside of
something. -/
def logicalLines (start : List Char) (q : Quoting) : List (List Char) → List (Option (List Char))
  | [] => if q = .plain then [] else [none]
  | line :: rest =>
    let text := start ++ line
    if (text.dropWhile isSpace).head? = some '#' then logicalLines [] .plain rest
    else match scan q line with
      | .comment kept => some (start ++ kept) :: logicalLines [] .plain rest
      | .state .plain => some (withoutLineFeed text) :: logicalLines [] .plain rest
      | .state q => logicalLines text q rest

/-- What a position in a value is inside of. `inDouble` says whether double quotes are open around
it. -/
inductive ValueState where
  | bare
  | afterValue
  | single
  | double
  | escape (inDouble : Bool)
  | name (inDouble : Bool) (read : List Char)
  | braces (inDouble : Bool) (read : List Char)
deriving DecidableEq, Repr

def ValueState.around (inDouble : Bool) : ValueState :=
  if inDouble then .double else .bare

def escaped? (c : Char) : Option Char :=
  if c = 'n' then some '\n'
  else if c = '\\' || c = '\'' || c = '"' || c = '$' || c = ' ' then some c
  else none

def substitute (env : Environment) (name : List Char) : List Char :=
  ((lookup env (String.ofList name)).getD "").toList

/-- A character outside of names, escapes and single quotes. -/
def ValueState.special (inDouble : Bool) (c : Char) : Option ValueState :=
  if c = '$' then some (.name inDouble [])
  else if c = '\\' then some (.escape inDouble)
  else if c = '"' then some (if inDouble then .bare else .double)
  else if inDouble then none
  else if c = '\'' then some .single
  else if c = ' ' || c = '\t' then some .afterValue
  else none

/-- Reads the rest of a value, `none` if it is malformed. What follows a name after a dollar is
taken as it is. -/
def readValue (env : Environment) : ValueState → List Char → Option (List Char)
  | .bare, [] | .afterValue, [] | .escape false, [] => some []
  | .name false read, [] => some (substitute env read)
  | _, [] => none
  | .bare, c :: rest =>
    match ValueState.special false c with
    | some state => readValue env state rest
    | none => (readValue env .bare rest).map (c :: ·)
  | .double, c :: rest =>
    match ValueState.special true c with
    | some state => readValue env state rest
    | none => (readValue env .double rest).map (c :: ·)
  | .single, c :: rest =>
    if c = '\'' then readValue env .bare rest else (readValue env .single rest).map (c :: ·)
  | .afterValue, c :: rest =>
    if c = ' ' || c = '\t' then readValue env .afterValue rest
    else if c = '#' then some []
    else none
  | .escape inDouble, c :: rest =>
    match escaped? c with
    | some c => (readValue env (.around inDouble) rest).map (c :: ·)
    | none => none
  | .name inDouble read, c :: rest =>
    if Text.isAlphanumeric c then readValue env (.name inDouble (read ++ [c])) rest
    else if c = '\x7b' && read.isEmpty then readValue env (.braces inDouble []) rest
    else if c = '$' then
      (readValue env (.name inDouble []) rest).map (substitute env read ++ ·)
    else (readValue env (.around inDouble) rest).map (substitute env read ++ c :: ·)
  | .braces inDouble read, c :: rest =>
    if c = '\x7d' then
      (readValue env (.around inDouble) rest).map (substitute env read ++ ·)
    else readValue env (.braces inDouble (read ++ [c])) rest

def isNameStart (c : Char) : Bool :=
  c.isAlpha || c == '_'

def isNamePart (c : Char) : Bool :=
  c.isAlphanum || c == '_' || c == '.'

/-- A variable name at the start of a text, and what follows it and any white space. -/
def readName (text : List Char) : Option (String × List Char) :=
  match text with
  | c :: _ =>
    if isNameStart c then
      some (String.ofList (text.takeWhile isNamePart),
        (text.dropWhile isNamePart).dropWhile isSpace)
    else none
  | [] => none

/-- What follows an equals sign and any white space. -/
def afterEquals? : List Char → Option (List Char)
  | '=' :: rest => some (rest.dropWhile isSpace)
  | _ => none

/-- The name in front of an equals sign, and what follows that. The word `export` may come
before the name, and may itself be the name. -/
def readAssignment (text : List Char) : Option (String × List Char) := do
  let (name, rest) ← readName text
  match afterEquals? rest with
  | some value => return (name, value)
  | none =>
    if name = "export" then
      let (name, rest) ← readName rest
      return (name, ← afterEquals? rest)
    else none

/-- What a line sets. -/
inductive Line where
  | empty
  | assignment (name value : String)
  | malformed
deriving DecidableEq, Repr

def trimmed (line : List Char) : List Char :=
  ((line.reverse.dropWhile isSpace).reverse).dropWhile isSpace

def readLine (env : Environment) (line : List Char) : Line :=
  match trimmed line with
  | [] | '#' :: _ => .empty
  | text =>
    match readAssignment text with
    | none => .malformed
    | some (name, []) | some (name, '#' :: _) => .assignment name ""
    | some (name, value) =>
      match readValue env .bare value with
      | some value => .assignment name (String.ofList value)
      | none => .malformed

/-- Whether a variable can hold a value. -/
def isStorable (value : String) : Bool :=
  !value.toList.contains '\x00'

/-- Sets variables line by line, leaving alone those that are set already. -/
def applyLines (env : Environment) : List (Option (List Char)) → Option Environment
  | [] | none :: _ => some env
  | some line :: rest =>
    match readLine env line with
    | .empty => applyLines env rest
    | .assignment name value =>
      if (lookup env name).isSome then applyLines env rest
      else if isStorable value then applyLines (env ++ [(name, value)]) rest
      else none
    | .malformed => some env

/-- The environment after the file has been read, without the mark that may open it; `none` if a
variable is to hold what none can. -/
def extend? (env : Environment) (text : String) : Option Environment :=
  let chars := match text.toList with
    | '\ufeff' :: rest => rest
    | cs => cs
  applyLines env (logicalLines [] .plain (physicalLines chars))

end RoomRelay.EnvFile
