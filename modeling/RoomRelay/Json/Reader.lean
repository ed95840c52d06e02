import RoomRelay.Bytes
import RoomRelay.Json.Numeral

/-!
Reading JSON one byte at a time.

The reader is a machine whose state says what it is in the middle of and, as a `Context`, which
arrays and objects are open around it. A byte that the state has no use for is *malformed* input,
an end of the input in any state but a completed document is *truncated* input, so every error is
found at the first byte that cannot belong to a document.

The text of a string is collected as bytes, escapes included as their UTF-8 form, and has to be
valid UTF-8 as a whole when the closing quote arrives.
-/

namespace RoomRelay.Json

inductive ReadError where
  | truncated
  | malformed
deriving DecidableEq, Repr

/-- The open containers around a value, the innermost first, each with what it holds so far:
items with the latest first, fields as a finished object would hold them. -/
inductive Context where
  | top
  | item (before : List Value) (outer : Context)
  | field (before : List (String × Value)) (key : String) (outer : Context)

def Context.depth : Context → Nat
  | .top => 0
  | .item _ outer => outer.depth + 1
  | .field _ _ outer => outer.depth + 1

/-- A document may open this many containers inside each other. -/
def maxDepth : Nat := 127

/-- What a string is read for. -/
inductive Purpose where
  | value (context : Context)
  | key (before : List (String × Value)) (outer : Context)

/-- Where in a string the reader is. The digits of a `\u` escape are four bytes taken as they come
and looked at together; `lead` is a leading surrogate that still needs its other half. -/
inductive TextState where
  | plain
  | escape
  | digits (taken : Bytes) (lead : Option Nat)
  | halfEscape (lead : Nat)
  | halfMark (lead : Nat)

/-- Where in a number the reader is: the numeral so far has its digits latest first. -/
inductive NumberState where
  | minus
  | zero
  | whole
  | point
  | fraction
  | mark
  | sign (negative : Bool)
  | power (negative : Bool) (digits : List Nat)

inductive State where
  | value (context : Context)
  | firstItem (outer : Context)
  | firstKey (outer : Context)
  | key (before : List (String × Value)) (outer : Context)
  | colon (before : List (String × Value)) (key : String) (outer : Context)
  | literal (left : Bytes) (v : Value) (context : Context)
  | text (state : TextState) (read : Bytes) (purpose : Purpose)
  | number (state : NumberState) (numeral : Numeral) (context : Context)
  | after (v : Value) (context : Context)

def isBlank (b : UInt8) : Bool :=
  b == 0x20 || b == 0x09 || b == 0x0A || b == 0x0D

def hexValue? (bs : Bytes) : Option Nat :=
  bs.foldlM (fun n b => (hexDigit? b).map (16 * n + ·)) 0

def isLeadSurrogate (n : Nat) : Bool := 0xD800 ≤ n && n ≤ 0xDBFF

def isTrailSurrogate (n : Nat) : Bool := 0xDC00 ≤ n && n ≤ 0xDFFF

def utf8 (codePoint : Nat) : Bytes :=
  String.utf8EncodeChar (Char.ofNat codePoint)

/-- The byte that a one-letter escape stands for. -/
def escaped? (b : UInt8) : Option UInt8 :=
  if b == 0x22 then some 0x22
  else if b == 0x5C then some 0x5C
  else if b == 0x2F then some 0x2F
  else if b == 0x62 then some 0x08
  else if b == 0x66 then some 0x0C
  else if b == 0x6E then some 0x0A
  else if b == 0x72 then some 0x0D
  else if b == 0x74 then some 0x09
  else none

/-- A string has been read to its closing quote. -/
def Purpose.complete (p : Purpose) (s : String) : State :=
  match p with
  | .value context => .after (.string s) context
  | .key before outer => .colon before s outer

/-- The four digits of a `\u` escape are complete. -/
def afterDigits (bs : Bytes) (lead : Option Nat) (read : Bytes) (p : Purpose) :
    Except ReadError State :=
  match hexValue? bs, lead with
  | none, _ => throw .malformed
  | some n, none =>
    if isTrailSurrogate n then throw .malformed
    else if isLeadSurrogate n then return .text (.halfEscape n) read p
    else return .text .plain ((utf8 n).reverse ++ read) p
  | some n, some lead =>
    if isTrailSurrogate n then
      let codePoint := 0x10000 + (lead - 0xD800) * 0x400 + (n - 0xDC00)
      return .text .plain ((utf8 codePoint).reverse ++ read) p
    else throw .malformed

/-- One byte inside a string; `read` has the latest byte first. -/
def TextState.step (s : TextState) (read : Bytes) (p : Purpose) (b : UInt8) :
    Except ReadError State :=
  match s with
  | .plain =>
    if b == 0x22 then
      match textOfBytes? read.reverse with
      | some text => return p.complete text
      | none => throw .malformed
    else if b == 0x5C then return .text .escape read p
    else if b < 0x20 then throw .malformed
    else return .text .plain (b :: read) p
  | .escape =>
    if b == 0x75 then return .text (.digits [] none) read p
    else match escaped? b with
      | some c => return .text .plain (c :: read) p
      | none => throw .malformed
  | .digits taken lead =>
    let taken := taken ++ [b]
    if taken.length = 4 then afterDigits taken lead read p
    else return .text (.digits taken lead) read p
  | .halfEscape lead =>
    if b == 0x5C then return .text (.halfMark lead) read p else throw .malformed
  | .halfMark lead =>
    if b == 0x75 then return .text (.digits [] (some lead)) read p else throw .malformed

def signed (negative : Bool) (digits : List Nat) : Int :=
  if negative then -(ofDigits digits : Int) else ofDigits digits

/-- The number that ends here: a number is over when a byte comes that does not continue it. -/
def NumberState.finish (s : NumberState) (n : Numeral) : Except ReadError Value :=
  let complete (n : Numeral) : Except ReadError Value :=
    let numeral := { n with whole := n.whole.reverse, fraction := n.fraction.reverse }
    match numeral.number? with
    | some number => return .number number
    | none => throw .malformed
  match s with
  | .zero | .whole | .fraction => complete n
  | .power negative digits => complete { n with exponent := some (signed negative digits.reverse) }
  | .minus | .point | .mark | .sign _ => throw .truncated

/-- How a byte continues a number, `none` if it does not. -/
def NumberState.step (s : NumberState) (n : Numeral) (b : UInt8) :
    Option (NumberState × Numeral) :=
  let isMark := b == 0x65 || b == 0x45
  match s, digit? b with
  | .minus, some d => some (if d = 0 then .zero else .whole, { n with whole := [d] })
  | .whole, some d => some (.whole, { n with whole := d :: n.whole })
  | .point, some d | .fraction, some d => some (.fraction, { n with fraction := d :: n.fraction })
  | .mark, some d => some (.power false [d], n)
  | .sign negative, some d => some (.power negative [d], n)
  | .power negative ds, some d => some (.power negative (d :: ds), n)
  | .zero, none | .whole, none =>
    if b == 0x2E then some (.point, n) else if isMark then some (.mark, n) else none
  | .fraction, none => if isMark then some (.mark, n) else none
  | .mark, none =>
    if b == 0x2B then some (.sign false, n) else if b == 0x2D then some (.sign true, n) else none
  | _, _ => none

/-- Whether a number may end where a byte does not continue it. After a leading zero no digit may
follow, and nothing may end a number that lacks a digit. -/
def NumberState.mayEnd (s : NumberState) (b : UInt8) : Bool :=
  match s with
  | .zero => (digit? b).isNone
  | .whole | .fraction | .power _ _ => true
  | .minus | .point | .mark | .sign _ => false

/-- The byte after a complete value. -/
def afterValue (v : Value) (context : Context) (b : UInt8) : Except ReadError State :=
  if isBlank b then return .after v context
  else match context with
    | .top => throw .malformed
    | .item before outer =>
      if b == 0x2C then return .value (.item (v :: before) outer)
      else if b == 0x5D then return .after (.array (v :: before).reverse) outer
      else throw .malformed
    | .field before key outer =>
      let fields := Fields.insert key v before
      if b == 0x2C then return .key fields outer
      else if b == 0x7D then return .after (.object fields) outer
      else throw .malformed

/-- The byte that a value starts with. -/
def startValue (context : Context) (b : UInt8) : Except ReadError State :=
  if b == 0x6E then return .literal [0x75, 0x6C, 0x6C] .null context
  else if b == 0x74 then return .literal [0x72, 0x75, 0x65] (.bool true) context
  else if b == 0x66 then return .literal [0x61, 0x6C, 0x73, 0x65] (.bool false) context
  else if b == 0x22 then return .text .plain [] (.value context)
  else if b == 0x2D then return .number .minus ⟨true, [], [], none⟩ context
  else if b == 0x5B then
    if context.depth < maxDepth then return .firstItem context else throw .malformed
  else if b == 0x7B then
    if context.depth < maxDepth then return .firstKey context else throw .malformed
  else match digit? b with
    | some d => return .number (if d = 0 then .zero else .whole) ⟨false, [d], [], none⟩ context
    | none => throw .malformed

/-- One byte of the input. -/
def State.step (s : State) (b : UInt8) : Except ReadError State :=
  match s with
  | .value context => if isBlank b then return s else startValue context b
  | .firstItem outer =>
    if isBlank b then return s
    else if b == 0x5D then return .after (.array []) outer
    else startValue (.item [] outer) b
  | .firstKey outer =>
    if isBlank b then return s
    else if b == 0x22 then return .text .plain [] (.key [] outer)
    else if b == 0x7D then return .after (.object []) outer
    else throw .malformed
  | .key before outer =>
    if isBlank b then return s
    else if b == 0x22 then return .text .plain [] (.key before outer)
    else throw .malformed
  | .colon before name outer =>
    if isBlank b then return s
    else if b == 0x3A then return .value (.field before name outer)
    else throw .malformed
  | .literal [] v context => afterValue v context b
  | .literal [last] v context => if b == last then return .after v context else throw .malformed
  | .literal (next :: left) v context =>
    if b == next then return .literal left v context else throw .malformed
  | .text state read purpose => state.step read purpose b
  | .number state numeral context =>
    match state.step numeral b with
    | some (state, numeral) => return .number state numeral context
    | none =>
      if state.mayEnd b then do afterValue (← state.finish numeral) context b
      else throw .malformed
  | .after v context => afterValue v context b

/-- The end of the input. -/
def State.finish : State → Except ReadError Value
  | .after v .top => return v
  | .number state numeral context => do
    let v ← state.finish numeral
    match context with
    | .top => return v
    | _ => throw .truncated
  | _ => throw .truncated

/-- The value that a document stands for. -/
def parse (input : Bytes) : Except ReadError Value := do
  (← input.foldlM State.step (.value .top)).finish

end RoomRelay.Json
