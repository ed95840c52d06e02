import RoomRelay.Json.Value
import RoomRelay.Decimal.Layout

/-!
The compact text of a JSON value: no blanks, object fields in their stored order, and in strings
an escape only for the quote, the backslash and the control characters.
-/

namespace RoomRelay.Json

/-- The escape letter of a character that has one. -/
def escapeLetter? (c : Char) : Option Char :=
  if c = '"' then some '"'
  else if c = '\\' then some '\\'
  else if c = '\x08' then some 'b'
  else if c = '\x0c' then some 'f'
  else if c = '\n' then some 'n'
  else if c = '\r' then some 'r'
  else if c = '\t' then some 't'
  else none

def escapeChar (c : Char) : List Char :=
  match escapeLetter? c with
  | some letter => ['\\', letter]
  | none =>
    if c.toNat < 0x20 then
      ['\\', 'u', '0', '0', Nat.digitChar (c.toNat / 16), Nat.digitChar (c.toNat % 16)]
    else [c]

def quoted (s : String) : List Char :=
  '"' :: (s.toList.flatMap escapeChar ++ ['"'])

/-- Doubles are in plain notation from `0.00001` up to sixteen digits before the point. -/
def doubleLayout : Decimal.Layout := ⟨-5, 15⟩

/-- The text of a number. A reader never produces an infinity or a NaN, which have no text. -/
def Number.chars : Number → List Char
  | .word n _ => (toString n).toList
  | .double x => (doubleLayout.writeDouble? x).getD "null".toList

mutual

def Value.chars : Value → List Char
  | .null => "null".toList
  | .bool true => "true".toList
  | .bool false => "false".toList
  | .number n => n.chars
  | .string s => quoted s
  | .array items => '[' :: (itemsChars items ++ [']'])
  | .object fields => '\x7b' :: (fieldsChars fields ++ ['\x7d'])

/-- Items, separated by commas. -/
def itemsChars : List Value → List Char
  | [] => []
  | [v] => v.chars
  | v :: w :: rest => v.chars ++ ',' :: itemsChars (w :: rest)

/-- Fields, separated by commas. -/
def fieldsChars : List (String × Value) → List Char
  | [] => []
  | [(k, v)] => quoted k ++ ':' :: v.chars
  | (k, v) :: f :: rest => quoted k ++ ':' :: (v.chars ++ ',' :: fieldsChars (f :: rest))

end

def Value.text (v : Value) : String :=
  String.ofList v.chars

end RoomRelay.Json
