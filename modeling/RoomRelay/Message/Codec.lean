import RoomRelay.Message.Basic
import RoomRelay.Message.Framing
import RoomRelay.Json.Printer

/-!
Frames, and how messages are written to them and read from them.

A message with a JSON payload or none is a text frame that holds one JSON object. A message with a
binary payload is a binary frame whose metadata is the same object without the `data` field.
Reading looks at four fields and ignores all others; a field that is `null` counts as absent
wherever a field may be absent.
-/

namespace RoomRelay

open Json

inductive Frame where
  | text (s : String)
  | binary (bytes : Bytes)
deriving DecidableEq, Repr

def Frame.isBinary : Frame → Bool
  | .text _ => false
  | .binary _ => true

def Frame.bytes : Frame → Bytes
  | .text s => textBytes s
  | .binary bytes => bytes

/-- Why the fields of an object make no message. -/
inductive FieldError where
  | notAString (found : Value)
  | missing (name : String)

inductive CodecError where
  | framing (e : FramingError)
  | notAnObject
  | unreadable (e : ReadError)
  | field (e : FieldError)

/-- What kind of value was found where a string was expected. -/
def describe : Value → String
  | .null => "null"
  | .bool b => s!"boolean `{b}`"
  | .number (.word n _) => s!"integer `{n}`"
  | .number (.double x) => s!"floating point `{String.ofList (Number.double x).chars}`"
  | .string s => s!"string {String.ofList (quoted s)}"
  | .array _ => "sequence"
  | .object _ => "map"

def FieldError.message : FieldError → String
  | .notAString found => s!"invalid type: {describe found}, expected a string"
  | .missing name => s!"missing field `{name}`"

def CodecError.message : CodecError → String
  | .framing e => e.message
  | .notAnObject => "message must be a JSON object"
  | .unreadable _ => "invalid JSON"
  | .field e => s!"invalid JSON: {e.message}"

/-- The field of an optional value, if it has one. -/
def optionalField (name : String) (v : Option Value) : List (String × Value) :=
  (v.map fun v => (name, v)).toList

/-- The JSON payload, which is written as the `data` field. -/
def jsonData? : Option Payload → Option Value
  | some (.json v) => some v
  | _ => none

/-- The fields of the object that an uplink is written as, in order. -/
def Uplink.fields (u : Uplink) : List (String × Value) :=
  [("action", .string u.action)] ++ optionalField "data" (jsonData? u.data) ++
    optionalField "targetPeers" (u.targets.map Targets.toValue) ++
    optionalField "metadata" u.metadata

def Downlink.fields (d : Downlink) : List (String × Value) :=
  [("action", .string d.action)] ++ optionalField "data" (jsonData? d.data) ++
    [("peerId", .string d.sender)] ++ optionalField "metadata" d.metadata

/-- The text of an object with its fields in the given order. -/
def objectText (fields : List (String × Value)) : String :=
  String.ofList (Value.object fields).chars

/-- Writes an object to a frame, beside the payload if that is binary. -/
def encode (fields : List (String × Value)) (data : Option Payload) : Except CodecError Frame :=
  match data with
  | some (.binary payload) =>
    ((pack payload (textBytes (objectText fields))).map Frame.binary).mapError .framing
  | _ => return .text (objectText fields)

def Uplink.encode (u : Uplink) : Except CodecError Frame :=
  RoomRelay.encode u.fields u.data

def Downlink.encode (d : Downlink) : Except CodecError Frame :=
  RoomRelay.encode d.fields d.data

/-- The fields of the object in a JSON text. -/
def readObject (input : Bytes) : Except CodecError (List (String × Value)) :=
  match parse input with
  | .ok (.object fields) => return fields
  | .ok _ => throw .notAnObject
  | .error e => throw (.unreadable e)

/-- A field that holds a string if it is there. -/
def stringField? (name : String) (fields : List (String × Value)) :
    Except FieldError (Option String) :=
  match Fields.find? name fields with
  | none => return none
  | some (.string s) => return some s
  | some v => throw (.notAString v)

/-- A field that counts as absent when it is `null`. -/
def valueField? (name : String) (fields : List (String × Value)) : Option Value :=
  match Fields.find? name fields with
  | some .null => none
  | v => v

def required (name : String) : Option String → Except FieldError String
  | some s => return s
  | none => throw (.missing name)

def Uplink.ofFields (fields : List (String × Value)) : Except FieldError Uplink := do
  let action ← stringField? "action" fields
  return {
    action := action.getD ""
    data := (valueField? "data" fields).map .json
    targets := (valueField? "targetPeers" fields).map Targets.ofValue
    metadata := valueField? "metadata" fields }

/-- Fields of a wrong type are reported before fields that are missing. -/
def Downlink.ofFields (fields : List (String × Value)) : Except FieldError Downlink := do
  let action ← stringField? "action" fields
  let sender ← stringField? "peerId" fields
  return {
    action := ← required "action" action
    data := (valueField? "data" fields).map .json
    sender := ← required "peerId" sender
    metadata := valueField? "metadata" fields }

/-- The object of a frame, and its payload if the frame is binary. -/
def readFrame (isBinary : Bool) (input : Bytes) :
    Except CodecError (List (String × Value) × Option Payload) :=
  if isBinary then
    match unpack input with
    | .ok (payload, metadata) => return (← readObject metadata, some (.binary payload))
    | .error e => throw (.framing e)
  else return (← readObject input, none)

/-- Reads an uplink from the bytes of a frame. The data of a binary frame is its payload, whatever
its `data` field holds. -/
def Uplink.decode (isBinary : Bool) (input : Bytes) : Except CodecError Uplink := do
  let (fields, payload) ← readFrame isBinary input
  let u ← (Uplink.ofFields fields).mapError .field
  return { u with data := payload <|> u.data }

/-- Reads a downlink from the bytes of a frame, under the same rule for its data. -/
def Downlink.decode (isBinary : Bool) (input : Bytes) : Except CodecError Downlink := do
  let (fields, payload) ← readFrame isBinary input
  let d ← (Downlink.ofFields fields).mapError .field
  return { d with data := payload <|> d.data }

end RoomRelay
