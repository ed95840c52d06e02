import Mathlib.Data.List.Basic
import RoomRelay.Proofs.Message.RoundTrip

/-!
Which frames are messages, and what is wrong with the others. The grammar says what a message is
without saying how it is read: where the JSON text of a frame stands, which fields its object has
to have, and what every field means. Every outcome of reading is one of its verdicts, and the
first fault decides: the framing, then the JSON text, then its being an object, then its fields.
-/

namespace RoomRelay

open Json

/-! ### The frame -/

/-- The JSON text of a frame, and the payload that stands beside it. -/
inductive HasText (input : Bytes) : Bool → Bytes → Option Bytes → Prop where
  | text : HasText input false input none
  | binary (payload metadata : Bytes) (short : metadata.length < 2 ^ 32)
      (laidOut : input = lengthBytes metadata.length ++ metadata ++ payload) :
      HasText input true metadata (some payload)

/-- What is wrong with a binary frame that has no such text. -/
inductive Unframed (input : Bytes) : FramingError → Prop where
  | noLength (short : input.length < 4) : Unframed input .noLength
  | cutShort (long : 4 ≤ input.length) (less : input.length - 4 < byteValue (input.take 4)) :
      Unframed input (.cutShort (byteValue (input.take 4)) (input.length - 4))

/-! ### The fields -/

def Json.Value.isString : Value → Bool
  | .string _ => true
  | _ => false

/-- What a field holds for which `null` counts as absent. -/
inductive Optionally (name : String) (fields : List (String × Value)) : Option Value → Prop where
  | value (v : Value) (found : Fields.find? name fields = some v) (present : v ≠ .null) :
      Optionally name fields (some v)
  | null (found : Fields.find? name fields = some .null) : Optionally name fields none
  | missing (missing : Fields.find? name fields = none) : Optionally name fields none

/-- The data of a binary frame is its payload, whatever the object says. -/
inductive MeansData (fields : List (String × Value)) : Option Bytes → Option Payload → Prop where
  | payload (bytes : Bytes) : MeansData fields (some bytes) (some (.binary bytes))
  | field (v : Option Value) (field : Optionally "data" fields v) :
      MeansData fields none (v.map .json)

/-- Whom a value names as targets. -/
inductive Json.Value.Names : Value → Targets → Prop where
  | one (id : PeerId) : Names (.string id) (.one id)
  | many (items : List Value) (ids : List PeerId)
      (strings : ids.map .string = items.filter Value.isString) :
      Names (.array items) (.many ids)
  | nobody (v : Value) (notString : v.isString = false) (notArray : ∀ items, v ≠ .array items) :
      Names v (.many [])

/-- The fields, with the payload beside them, mean this uplink. -/
structure Uplink.IsMeantBy (u : Uplink) (fields : List (String × Value))
    (payload : Option Bytes) : Prop where
  action : Fields.find? "action" fields = some (.string u.action) ∨
    Fields.find? "action" fields = none ∧ u.action = ""
  data : MeansData fields payload u.data
  targets : ∃ v, Optionally "targetPeers" fields v ∧ Option.Rel Value.Names v u.targets
  metadata : Optionally "metadata" fields u.metadata

/-- The fields, with the payload beside them, mean this downlink. -/
structure Downlink.IsMeantBy (d : Downlink) (fields : List (String × Value))
    (payload : Option Bytes) : Prop where
  action : Fields.find? "action" fields = some (.string d.action)
  data : MeansData fields payload d.data
  sender : Fields.find? "peerId" fields = some (.string d.sender)
  metadata : Optionally "metadata" fields d.metadata

/-- The field is absent, or it holds a string. -/
def StringIfAny (name : String) (fields : List (String × Value)) : Prop :=
  ∀ v, Fields.find? name fields = some v → v.isString = true

/-- What is wrong with the fields of an uplink. -/
inductive Uplink.Misfit (fields : List (String × Value)) : FieldError → Prop where
  | action (v : Value) (found : Fields.find? "action" fields = some v)
      (notString : v.isString = false) : Misfit fields (.notAString v)

/-- What is wrong with the fields of a downlink, the first fault of several: the action and then
the sender of a wrong type, the action and then the sender missing. -/
inductive Downlink.Misfit (fields : List (String × Value)) : FieldError → Prop where
  | action (v : Value) (found : Fields.find? "action" fields = some v)
      (notString : v.isString = false) : Misfit fields (.notAString v)
  | sender (v : Value) (action : StringIfAny "action" fields)
      (found : Fields.find? "peerId" fields = some v) (notString : v.isString = false) :
      Misfit fields (.notAString v)
  | noAction (missing : Fields.find? "action" fields = none)
      (sender : StringIfAny "peerId" fields) : Misfit fields (.missing "action")
  | noSender (action : String) (found : Fields.find? "action" fields = some (.string action))
      (missing : Fields.find? "peerId" fields = none) : Misfit fields (.missing "peerId")

/-- What becomes of a frame that is read as a message, given which fields mean which message and
which mean none. -/
inductive Verdict {α : Type} (means : α → List (String × Value) → Option Bytes → Prop)
    (misfit : List (String × Value) → FieldError → Prop) (isBinary : Bool) (input : Bytes) :
    Except CodecError α → Prop where
  | framing (e : FramingError) (binary : isBinary = true) (unframed : Unframed input e) :
      Verdict means misfit isBinary input (.error (.framing e))
  | unreadable (text : Bytes) (payload : Option Bytes) (e : ReadError)
      (has : HasText input isBinary text payload) (unread : parse text = .error e) :
      Verdict means misfit isBinary input (.error (.unreadable e))
  | notAnObject (text : Bytes) (payload : Option Bytes) (v : Value)
      (has : HasText input isBinary text payload) (read : parse text = .ok v)
      (other : ∀ fields, v ≠ .object fields) :
      Verdict means misfit isBinary input (.error .notAnObject)
  | field (text : Bytes) (payload : Option Bytes) (fields : List (String × Value)) (e : FieldError)
      (has : HasText input isBinary text payload) (read : parse text = .ok (.object fields))
      (misfits : misfit fields e) : Verdict means misfit isBinary input (.error (.field e))
  | message (text : Bytes) (payload : Option Bytes) (fields : List (String × Value)) (m : α)
      (has : HasText input isBinary text payload) (read : parse text = .ok (.object fields))
      (fits : means m fields payload) : Verdict means misfit isBinary input (.ok m)

/-! ### Reading the frame -/

theorem hasText_iff {input text : Bytes} {isBinary : Bool} {payload : Option Bytes} :
    HasText input isBinary text payload ↔
      isBinary = false ∧ text = input ∧ payload = none ∨
      isBinary = true ∧ ∃ bytes, payload = some bytes ∧ unpack input = .ok (bytes, text) := by
  constructor
  · rintro (_ | ⟨bytes, metadata, hshort, hlaidOut⟩)
    · exact Or.inl ⟨rfl, rfl, rfl⟩
    · exact Or.inr ⟨rfl, bytes, rfl, unpack_eq_ok_iff.mpr ⟨hshort, hlaidOut⟩⟩
  · rintro (⟨rfl, rfl, rfl⟩ | ⟨rfl, bytes, rfl, hunpack⟩)
    · exact .text
    · obtain ⟨hshort, hlaidOut⟩ := unpack_eq_ok_iff.mp hunpack
      exact .binary bytes text hshort hlaidOut

/-- A frame that was written has the text that was written, and the payload beside it. -/
theorem hasText_encode {fields : List (String × Value)} {data : Option Payload} {f : Frame}
    (h : RoomRelay.encode fields data = .ok f) :
    HasText f.bytes f.isBinary (textBytes (objectText fields)) (data.bind Payload.binary?) := by
  unfold RoomRelay.encode at h
  split at h
  · rename_i payload
    cases hpack : pack payload (textBytes (objectText fields)) with
    | error e =>
        rw [hpack] at h
        cases h
    | ok packed =>
        rw [hpack] at h
        cases h
        exact hasText_iff.mpr (Or.inr ⟨rfl, payload, rfl, unpack_pack hpack⟩)
  · rename_i hother
    cases h
    have hnone : data.bind Payload.binary? = none := by
      rcases data with _ | v | payload
      · rfl
      · rfl
      · exact absurd rfl (hother payload)
    rw [hnone]
    exact .text

/-- A frame has one JSON text, and one payload at most. -/
theorem HasText.unique {input text text' : Bytes} {isBinary : Bool}
    {payload payload' : Option Bytes} (h : HasText input isBinary text payload)
    (h' : HasText input isBinary text' payload') : text = text' ∧ payload = payload' := by
  rcases hasText_iff.mp h with ⟨rfl, rfl, rfl⟩ | ⟨rfl, _, rfl, hunpack⟩
  · rcases hasText_iff.mp h' with ⟨-, rfl, rfl⟩ | ⟨⟨⟩, -⟩
    exact ⟨rfl, rfl⟩
  · rcases hasText_iff.mp h' with ⟨⟨⟩, -⟩ | ⟨-, _, rfl, hunpack'⟩
    cases hunpack.symm.trans hunpack'
    exact ⟨rfl, rfl⟩

theorem unframed_iff {input : Bytes} {e : FramingError} :
    Unframed input e ↔ unpack input = .error e := by
  constructor
  · rintro (hshort | ⟨hlong, hless⟩)
    · exact unpack_of_short hshort
    · rw [unpack_of_long hlong, if_pos hless]
  · intro h
    rcases Nat.lt_or_ge input.length 4 with hshort | hlong
    · rw [unpack_of_short hshort] at h
      cases h
      exact .noLength hshort
    · rw [unpack_of_long hlong] at h
      split at h
      · rename_i hless
        cases h
        exact .cutShort hlong hless
      · cases h

theorem readFrame_of_hasText {input text : Bytes} {isBinary : Bool} {payload : Option Bytes}
    (h : HasText input isBinary text payload) :
    readFrame isBinary input =
      (readObject text).map fun fields => (fields, payload.map .binary) := by
  rcases hasText_iff.mp h with ⟨rfl, rfl, rfl⟩ | ⟨rfl, bytes, rfl, hunpack⟩
  · change (readObject text >>= fun fields => pure (fields, none)) = _
    cases readObject text <;> rfl
  · simp only [readFrame, if_true, hunpack]
    cases readObject text <;> rfl

theorem readFrame_of_unframed {input : Bytes} {e : FramingError} (h : Unframed input e) :
    readFrame true input = .error (.framing e) := by
  simp only [readFrame, if_true, unframed_iff.mp h]
  rfl

/-- A frame has a JSON text, unless it is binary and wrongly framed. -/
theorem hasText_or_unframed (isBinary : Bool) (input : Bytes) :
    (∃ text payload, HasText input isBinary text payload) ∨
      isBinary = true ∧ ∃ e, Unframed input e := by
  cases isBinary with
  | false => exact Or.inl ⟨input, none, .text⟩
  | true =>
      cases hunpack : unpack input with
      | error e => exact Or.inr ⟨rfl, e, unframed_iff.mpr hunpack⟩
      | ok parts =>
          exact Or.inl ⟨parts.2, some parts.1, hasText_iff.mpr (Or.inr ⟨rfl, _, rfl, hunpack⟩)⟩

theorem readObject_of_object {text : Bytes} {fields : List (String × Value)}
    (h : parse text = .ok (.object fields)) : readObject text = .ok fields := by
  rw [readObject, h]
  rfl

theorem readObject_of_other {text : Bytes} {v : Value} (h : parse text = .ok v)
    (other : ∀ fields, v ≠ .object fields) : readObject text = .error .notAnObject := by
  rw [readObject, h]
  cases v with
  | object fields => exact absurd rfl (other fields)
  | _ => rfl

theorem readObject_of_error {text : Bytes} {e : ReadError} (h : parse text = .error e) :
    readObject text = .error (.unreadable e) := by
  rw [readObject, h]
  rfl

/-- A decoder answers with the verdict, if it makes of the fields what they mean. -/
theorem verdict_iff {α : Type} {ofFields : List (String × Value) → Except FieldError α}
    {withData : Option Payload → α → α} {means : α → List (String × Value) → Option Bytes → Prop}
    {misfit : List (String × Value) → FieldError → Prop}
    (means_iff : ∀ fields payload m, means m fields payload ↔
      ∃ v, ofFields fields = .ok v ∧ m = withData (payload.map .binary) v)
    (misfit_iff : ∀ fields e, misfit fields e ↔ ofFields fields = .error e)
    {isBinary : Bool} {input : Bytes} {r : Except CodecError α} :
    (do
      let (fields, payload) ← readFrame isBinary input
      let m ← (ofFields fields).mapError CodecError.field
      return withData payload m) = r ↔ Verdict means misfit isBinary input r := by
  constructor
  · rintro rfl
    rcases hasText_or_unframed isBinary input with ⟨text, payload, hhas⟩ | ⟨rfl, e, hunframed⟩
    · rw [readFrame_of_hasText hhas]
      cases hparse : parse text with
      | error e =>
          rw [readObject_of_error hparse]
          exact .unreadable text payload e hhas hparse
      | ok v =>
          cases v with
          | object fields =>
              rw [readObject_of_object hparse]
              change Verdict means misfit isBinary input ((ofFields fields).mapError _ >>= _)
              cases hfields : ofFields fields with
              | error e =>
                  exact .field text payload fields e hhas hparse ((misfit_iff fields e).mpr hfields)
              | ok m =>
                  refine .message text payload fields _ hhas hparse ?_
                  exact (means_iff fields payload _).mpr ⟨m, hfields, rfl⟩
          | _ =>
              rw [readObject_of_other hparse (by simp)]
              exact .notAnObject text payload _ hhas hparse (by simp)
    · rw [readFrame_of_unframed hunframed]
      exact .framing e rfl hunframed
  · intro h
    cases h with
    | framing e binary unframed =>
        subst binary
        rw [readFrame_of_unframed unframed]
        rfl
    | unreadable text payload e has unread =>
        rw [readFrame_of_hasText has, readObject_of_error unread]
        rfl
    | notAnObject text payload v has read other =>
        rw [readFrame_of_hasText has, readObject_of_other read other]
        rfl
    | field text payload fields e has read misfits =>
        rw [readFrame_of_hasText has, readObject_of_object read]
        change ((ofFields fields).mapError _ >>= _) = _
        rw [(misfit_iff fields e).mp misfits]
        rfl
    | message text payload fields m has read fits =>
        obtain ⟨v, hfields, rfl⟩ := (means_iff fields payload m).mp fits
        rw [readFrame_of_hasText has, readObject_of_object read]
        change ((ofFields fields).mapError _ >>= _) = _
        rw [hfields]
        rfl

/-! ### Reading the fields -/

/-- What a field says that holds a string if it is there. -/
inductive StringField (name : String) (fields : List (String × Value)) :
    Except FieldError (Option String) → Prop where
  | absent (missing : Fields.find? name fields = none) : StringField name fields (.ok none)
  | string (s : String) (found : Fields.find? name fields = some (.string s)) :
      StringField name fields (.ok (some s))
  | other (v : Value) (found : Fields.find? name fields = some v) (notString : v.isString = false) :
      StringField name fields (.error (.notAString v))

theorem stringField_stringField? (name : String) (fields : List (String × Value)) :
    StringField name fields (stringField? name fields) := by
  unfold stringField?
  cases hfind : Fields.find? name fields with
  | none => exact .absent hfind
  | some v =>
      cases v with
      | string s => exact .string s hfind
      | _ => exact .other _ hfind rfl

theorem StringField.eq {name : String} {fields : List (String × Value)}
    {r : Except FieldError (Option String)} (h : StringField name fields r) :
    stringField? name fields = r := by
  cases h with
  | absent missing =>
      rw [stringField?, missing]
      rfl
  | string s found =>
      rw [stringField?, found]
      rfl
  | other v found notString =>
      rw [stringField?, found]
      cases v with
      | string s => cases notString
      | _ => rfl

theorem optionally_iff {name : String} {fields : List (String × Value)} {v : Option Value} :
    Optionally name fields v ↔ valueField? name fields = v := by
  constructor
  · rintro (⟨v, hfound, hpresent⟩ | hfound | hmissing)
    · rw [valueField?, hfound]
      cases v with
      | null => exact absurd rfl hpresent
      | _ => rfl
    · rw [valueField?, hfound]
    · rw [valueField?, hmissing]
  · rintro rfl
    unfold valueField?
    cases hfind : Fields.find? name fields with
    | none => exact .missing hfind
    | some v =>
        cases v with
        | null => exact .null hfind
        | _ => exact .value _ hfind (by simp)

theorem meansData_iff {fields : List (String × Value)} {payload : Option Bytes}
    {data : Option Payload} :
    MeansData fields payload data ↔
      data = (payload.map .binary <|> (valueField? "data" fields).map .json) := by
  constructor
  · rintro (bytes | ⟨v, hfield⟩)
    · rfl
    · rw [optionally_iff.mp hfield]
      rfl
  · rintro rfl
    cases payload with
    | none => exact .field _ (optionally_iff.mpr rfl)
    | some bytes => exact .payload bytes

theorem map_string_stringItems (items : List Value) :
    (stringItems items).map .string = items.filter Value.isString := by
  induction items with
  | nil => rfl
  | cons v rest ih =>
      cases v with
      | string s => exact congrArg (Value.string s :: ·) ih
      | _ => exact ih

theorem names_iff {v : Value} {targets : Targets} :
    v.Names targets ↔ Targets.ofValue v = targets := by
  constructor
  · rintro (id | ⟨items, ids, hstrings⟩ | ⟨v, hstring, harray⟩)
    · rfl
    · rw [← map_string_stringItems] at hstrings
      rw [Targets.ofValue, List.map_injective_iff.mpr (fun _ _ => Value.string.inj) hstrings]
    · cases v with
      | string s => cases hstring
      | array items => exact absurd rfl (harray items)
      | _ => rfl
  · rintro rfl
    cases v with
    | string id => exact .one id
    | array items => exact .many items _ (map_string_stringItems items)
    | _ => exact .nobody _ rfl (by simp)

theorem meansTargets_iff {fields : List (String × Value)} {targets : Option Targets} :
    (∃ v, Optionally "targetPeers" fields v ∧ Option.Rel Value.Names v targets) ↔
      targets = (valueField? "targetPeers" fields).map Targets.ofValue := by
  constructor
  · rintro ⟨v, hfield, hnames⟩
    rw [optionally_iff.mp hfield]
    cases hnames with
    | none => rfl
    | some h => rw [Option.map_some, names_iff.mp h]
  · rintro rfl
    refine ⟨_, optionally_iff.mpr rfl, ?_⟩
    cases valueField? "targetPeers" fields with
    | none => exact .none
    | some v => exact .some (names_iff.mpr rfl)

theorem Uplink.isMeantBy_iff (fields : List (String × Value)) (payload : Option Bytes)
    (u : Uplink) :
    u.IsMeantBy fields payload ↔ ∃ v, Uplink.ofFields fields = .ok v ∧
      u = { v with data := payload.map .binary <|> v.data } := by
  constructor
  · rintro ⟨haction, hdata, htargets, hmetadata⟩
    have hfields : Uplink.ofFields fields = .ok
        { action := u.action
          data := (valueField? "data" fields).map .json
          targets := (valueField? "targetPeers" fields).map Targets.ofValue
          metadata := valueField? "metadata" fields } := by
      unfold Uplink.ofFields
      rcases haction with hfound | ⟨hmissing, haction⟩
      · rw [(StringField.string u.action hfound).eq]
        rfl
      · rw [(StringField.absent hmissing).eq, haction]
        rfl
    refine ⟨_, hfields, ?_⟩
    simp only [← meansData_iff.mp hdata, ← meansTargets_iff.mp htargets,
      optionally_iff.mp hmetadata]
  · rintro ⟨v, hfields, rfl⟩
    unfold Uplink.ofFields at hfields
    have hview := stringField_stringField? "action" fields
    generalize stringField? "action" fields = action at hfields hview
    cases hview with
    | absent missing =>
        cases hfields
        exact ⟨Or.inr ⟨missing, rfl⟩, meansData_iff.mpr rfl, meansTargets_iff.mpr rfl,
          optionally_iff.mpr rfl⟩
    | string s found =>
        cases hfields
        exact ⟨Or.inl found, meansData_iff.mpr rfl, meansTargets_iff.mpr rfl,
          optionally_iff.mpr rfl⟩
    | other v found notString => cases hfields

theorem Uplink.misfit_iff (fields : List (String × Value)) (e : FieldError) :
    Uplink.Misfit fields e ↔ Uplink.ofFields fields = .error e := by
  unfold Uplink.ofFields
  constructor
  · rintro ⟨v, hfound, hstring⟩
    rw [(StringField.other v hfound hstring).eq]
    rfl
  · intro h
    have hview := stringField_stringField? "action" fields
    generalize stringField? "action" fields = action at h hview
    cases hview with
    | absent missing => cases h
    | string s found => cases h
    | other v found notString =>
        cases h
        exact .action v found notString

theorem Downlink.isMeantBy_iff (fields : List (String × Value)) (payload : Option Bytes)
    (d : Downlink) :
    d.IsMeantBy fields payload ↔ ∃ v, Downlink.ofFields fields = .ok v ∧
      d = { v with data := payload.map .binary <|> v.data } := by
  constructor
  · rintro ⟨haction, hdata, hsender, hmetadata⟩
    have hfields : Downlink.ofFields fields = .ok
        { action := d.action
          data := (valueField? "data" fields).map .json
          sender := d.sender
          metadata := valueField? "metadata" fields } := by
      unfold Downlink.ofFields
      rw [(StringField.string d.action haction).eq, (StringField.string d.sender hsender).eq]
      rfl
    refine ⟨_, hfields, ?_⟩
    simp only [← meansData_iff.mp hdata, optionally_iff.mp hmetadata]
  · rintro ⟨v, hfields, rfl⟩
    unfold Downlink.ofFields at hfields
    have haction := stringField_stringField? "action" fields
    have hsender := stringField_stringField? "peerId" fields
    generalize stringField? "action" fields = action at hfields haction
    generalize stringField? "peerId" fields = sender at hfields hsender
    cases haction <;> cases hsender <;> cases hfields
    rename_i found _ found'
    exact ⟨found, meansData_iff.mpr rfl, found', optionally_iff.mpr rfl⟩

theorem Downlink.misfit_iff (fields : List (String × Value)) (e : FieldError) :
    Downlink.Misfit fields e ↔ Downlink.ofFields fields = .error e := by
  unfold Downlink.ofFields
  constructor
  · have hstring (name : String) (h : StringIfAny name fields) :
        ∃ s, stringField? name fields = .ok s := by
      have hview := stringField_stringField? name fields
      generalize stringField? name fields = r at hview
      cases hview with
      | absent missing => exact ⟨_, rfl⟩
      | string s found => exact ⟨_, rfl⟩
      | other v found notString =>
          rw [h v found] at notString
          cases notString
    rintro (⟨v, hfound, hother⟩ | ⟨v, haction, hfound, hother⟩ | ⟨hmissing, hsender⟩ |
      ⟨action, hfound, hmissing⟩)
    · rw [(StringField.other v hfound hother).eq]
      rfl
    · obtain ⟨action, haction⟩ := hstring "action" haction
      rw [haction, (StringField.other v hfound hother).eq]
      rfl
    · obtain ⟨sender, hsender⟩ := hstring "peerId" hsender
      rw [(StringField.absent hmissing).eq, hsender]
      rfl
    · rw [(StringField.string action hfound).eq, (StringField.absent hmissing).eq]
      rfl
  · intro h
    have haction := stringField_stringField? "action" fields
    have hsender := stringField_stringField? "peerId" fields
    generalize stringField? "action" fields = action at h haction
    generalize stringField? "peerId" fields = sender at h hsender
    cases haction with
    | other v found notString =>
        cases h
        exact .action v found notString
    | absent missing =>
        cases hsender with
        | absent missing' =>
            cases h
            exact .noAction missing (by simp [StringIfAny, missing'])
        | string s found =>
            cases h
            exact .noAction missing (by simp [StringIfAny, found, Value.isString])
        | other v found notString =>
            cases h
            exact .sender v (by simp [StringIfAny, missing]) found notString
    | string s found =>
        cases hsender with
        | absent missing =>
            cases h
            exact .noSender s found missing
        | string t found' => cases h
        | other v found' notString =>
            cases h
            exact .sender v (by simp [StringIfAny, found, Value.isString]) found' notString

/-! ### The classification -/

theorem stringIfAny_iff {name : String} {fields : List (String × Value)} :
    StringIfAny name fields ↔
      Fields.find? name fields = none ∨ ∃ s, Fields.find? name fields = some (.string s) := by
  constructor
  · intro h
    cases hfind : Fields.find? name fields with
    | none => exact Or.inl rfl
    | some v =>
        have hstring := h v hfind
        cases v with
        | string s => exact Or.inr ⟨s, rfl⟩
        | _ => cases hstring
  · rintro (hmissing | ⟨s, hfound⟩) v hv
    · rw [hmissing] at hv
      cases hv
    · rw [hfound] at hv
      cases hv
      rfl

/-- The keys that the reader of an uplink looks at. -/
def Uplink.keys : List String := ["action", "data", "targetPeers", "metadata"]

/-- The keys that the reader of a downlink looks at. -/
def Downlink.keys : List String := ["action", "data", "peerId", "metadata"]

theorem Uplink.ofFields_congr {fields other : List (String × Value)}
    (same : ∀ key ∈ Uplink.keys, Fields.find? key fields = Fields.find? key other) :
    Uplink.ofFields fields = Uplink.ofFields other := by
  simp only [Uplink.keys, List.forall_mem_cons] at same
  obtain ⟨haction, hdata, htargets, hmetadata, -⟩ := same
  simp only [ofFields, stringField?, valueField?, haction, hdata, htargets, hmetadata]

theorem Downlink.ofFields_congr {fields other : List (String × Value)}
    (same : ∀ key ∈ Downlink.keys, Fields.find? key fields = Fields.find? key other) :
    Downlink.ofFields fields = Downlink.ofFields other := by
  simp only [Downlink.keys, List.forall_mem_cons] at same
  obtain ⟨haction, hdata, hsender, hmetadata, -⟩ := same
  simp only [ofFields, stringField?, valueField?, haction, hdata, hsender, hmetadata]

/-- The frame has an object with these fields, and this payload beside it. -/
def HasObject (input : Bytes) (isBinary : Bool) (fields : List (String × Value))
    (payload : Option Bytes) : Prop :=
  ∃ text, HasText input isBinary text payload ∧ parse text = .ok (.object fields)

theorem HasObject.readFrame_eq {input : Bytes} {isBinary : Bool} {fields : List (String × Value)}
    {payload : Option Bytes} (h : HasObject input isBinary fields payload) :
    readFrame isBinary input = .ok (fields, payload.map .binary) := by
  obtain ⟨text, hhas, hparse⟩ := h
  rw [readFrame_of_hasText hhas, readObject_of_object hparse]
  rfl

/-- Reading messages of a kind is settled by the verdicts. It succeeds exactly on objects with
acceptable fields, and no field under another key matters. -/
structure ReadsExactly {α : Type} (decode : Bool → Bytes → Except CodecError α)
    (means : α → List (String × Value) → Option Bytes → Prop)
    (misfit : List (String × Value) → FieldError → Prop)
    (accepts : List (String × Value) → Prop) (keys : List String) : Prop where
  verdict : ∀ isBinary input r, decode isBinary input = r ↔ Verdict means misfit isBinary input r
  accepted : ∀ isBinary input, (∃ m, decode isBinary input = .ok m) ↔
    ∃ fields payload, HasObject input isBinary fields payload ∧ accepts fields
  others_ignored : ∀ isBinary x y fields other payload, HasObject x isBinary fields payload →
    HasObject y isBinary other payload →
    (∀ key ∈ keys, Fields.find? key fields = Fields.find? key other) →
    decode isBinary x = decode isBinary y

theorem readsExactly {α : Type} {decode : Bool → Bytes → Except CodecError α}
    {ofFields : List (String × Value) → Except FieldError α}
    {means : α → List (String × Value) → Option Bytes → Prop}
    {misfit : List (String × Value) → FieldError → Prop}
    {accepts : List (String × Value) → Prop} {keys : List String}
    (withData : Option Payload → α → α)
    (decodes : ∀ isBinary input, decode isBinary input = do
      let (fields, payload) ← readFrame isBinary input
      let m ← (ofFields fields).mapError CodecError.field
      return withData payload m)
    (means_iff : ∀ fields payload m, means m fields payload ↔
      ∃ v, ofFields fields = .ok v ∧ m = withData (payload.map .binary) v)
    (misfit_iff : ∀ fields e, misfit fields e ↔ ofFields fields = .error e)
    (accepts_iff : ∀ fields, accepts fields ↔ ∃ v, ofFields fields = .ok v)
    (congr : ∀ {fields other : List (String × Value)},
      (∀ key ∈ keys, Fields.find? key fields = Fields.find? key other) →
      ofFields fields = ofFields other) :
    ReadsExactly decode means misfit accepts keys where
  verdict := by
    intro isBinary input r
    rw [decodes]
    exact verdict_iff means_iff misfit_iff
  accepted := by
    intro isBinary input
    constructor
    · rintro ⟨m, hdecode⟩
      rw [decodes] at hdecode
      cases (verdict_iff means_iff misfit_iff).mp hdecode with
      | message text payload fields m has read fits =>
          obtain ⟨v, hfields, -⟩ := (means_iff fields payload m).mp fits
          exact ⟨fields, payload, ⟨text, has, read⟩, (accepts_iff fields).mpr ⟨v, hfields⟩⟩
    · rintro ⟨fields, payload, ⟨text, hhas, hread⟩, haccepts⟩
      obtain ⟨v, hfields⟩ := (accepts_iff fields).mp haccepts
      refine ⟨withData (payload.map .binary) v, ?_⟩
      rw [decodes]
      apply (verdict_iff means_iff misfit_iff).mpr
      exact .message text payload fields _ hhas hread ((means_iff _ _ _).mpr ⟨v, hfields, rfl⟩)
  others_ignored := by
    intro isBinary x y fields other payload hx hy hsame
    rw [decodes, decodes, hx.readFrame_eq, hy.readFrame_eq]
    change ((ofFields fields).mapError _ >>= _) = ((ofFields other).mapError _ >>= _)
    rw [congr hsame]

theorem Uplink.accepts_iff (fields : List (String × Value)) :
    StringIfAny "action" fields ↔ ∃ u, Uplink.ofFields fields = .ok u := by
  rw [stringIfAny_iff]
  unfold Uplink.ofFields
  constructor
  · rintro (hmissing | ⟨s, hfound⟩)
    · rw [(StringField.absent hmissing).eq]
      exact ⟨_, rfl⟩
    · rw [(StringField.string s hfound).eq]
      exact ⟨_, rfl⟩
  · rintro ⟨u, hfields⟩
    have hmeant := (Uplink.isMeantBy_iff fields none _).mpr ⟨u, hfields, rfl⟩
    rcases hmeant.action with hfound | ⟨hmissing, -⟩
    · exact Or.inr ⟨_, hfound⟩
    · exact Or.inl hmissing

/-- The fields have an action and a sender, both of them strings. -/
def Downlink.Accepts (fields : List (String × Value)) : Prop :=
  ∃ action sender, Fields.find? "action" fields = some (.string action) ∧
    Fields.find? "peerId" fields = some (.string sender)

theorem Downlink.accepts_iff (fields : List (String × Value)) :
    Downlink.Accepts fields ↔ ∃ d, Downlink.ofFields fields = .ok d := by
  constructor
  · rintro ⟨action, sender, haction, hsender⟩
    unfold Downlink.ofFields
    rw [(StringField.string action haction).eq, (StringField.string sender hsender).eq]
    exact ⟨_, rfl⟩
  · rintro ⟨d, hfields⟩
    have hmeant := (Downlink.isMeantBy_iff fields none _).mpr ⟨d, hfields, rfl⟩
    exact ⟨_, _, hmeant.action, hmeant.sender⟩

theorem Uplink.readsExactly :
    ReadsExactly Uplink.decode Uplink.IsMeantBy Uplink.Misfit (StringIfAny "action")
      Uplink.keys :=
  RoomRelay.readsExactly (fun payload u => { u with data := payload <|> u.data }) (fun _ _ => rfl)
    isMeantBy_iff misfit_iff accepts_iff ofFields_congr

theorem Downlink.readsExactly :
    ReadsExactly Downlink.decode Downlink.IsMeantBy Downlink.Misfit Downlink.Accepts
      Downlink.keys :=
  RoomRelay.readsExactly (fun payload d => { d with data := payload <|> d.data }) (fun _ _ => rfl)
    isMeantBy_iff misfit_iff accepts_iff ofFields_congr

theorem keys_nodup_of_parse {text : Bytes} {fields : List (String × Value)}
    (h : parse text = .ok (.object fields)) : (fields.map (·.1)).Nodup := by
  obtain ⟨-, hascending, -⟩ := fits_object_iff.mp (fits_parse h)
  exact hascending.keys_nodup

/-- The decoders accept exactly the messages of the grammar, and every other frame is refused for
its first fault. An object that was read has every key once, and where a key was written more than
once the last of its fields counts. -/
theorem decoding_classified :
    ReadsExactly Uplink.decode Uplink.IsMeantBy Uplink.Misfit (StringIfAny "action")
      Uplink.keys ∧
    ReadsExactly Downlink.decode Downlink.IsMeantBy Downlink.Misfit Downlink.Accepts
      Downlink.keys ∧
    (∀ text fields, parse text = .ok (.object fields) → (fields.map (·.1)).Nodup) ∧
    ∀ written, fieldsExact written → (Value.object written).depth ≤ maxDepth →
      ∃ fields, parse (textBytes (objectText written)) = .ok (.object fields) ∧
        ∀ key, Fields.find? key fields = Fields.find? key written.reverse := by
  refine ⟨Uplink.readsExactly, Downlink.readsExactly, fun text fields => keys_nodup_of_parse, ?_⟩
  intro written hexact hdepth
  refine ⟨_, parse_object hexact hdepth, fun key => ?_⟩
  rw [find?_insertAll]
  exact Option.or_none

/-- An action that is written twice, with a field between that no message has. -/
theorem decoding_classified_twice :
    let written : List (String × Value) :=
      [("action", .string "a"), ("unknown", .null), ("action", .string "b")]
    ∃ fields u, parse (textBytes (objectText written)) = .ok (.object fields) ∧
      (fields.map (·.1)).Nodup ∧ Uplink.decode false (textBytes (objectText written)) = .ok u ∧
      u.action = "b" := by
  intro written
  obtain ⟨huplinks, -, honce, hlast⟩ := decoding_classified
  obtain ⟨fields, hparse, hfind⟩ := hlast written ⟨trivial, trivial, trivial, trivial⟩ (by decide)
  have haction : Fields.find? "action" fields = some (.string "b") := hfind "action"
  have hobject : HasObject (textBytes (objectText written)) false fields none :=
    ⟨_, .text, hparse⟩
  obtain ⟨u, hdecode⟩ := (huplinks.accepted false _).mpr
    ⟨fields, none, hobject, stringIfAny_iff.mpr (Or.inr ⟨"b", haction⟩)⟩
  refine ⟨fields, u, hparse, honce _ fields hparse, hdecode, ?_⟩
  cases (huplinks.verdict false _ _).mp hdecode with
  | message text payload other u has read fits =>
      cases has
      cases hparse.symm.trans read
      rcases fits.action with hfound | ⟨hmissing, -⟩
      · exact (Value.string.inj (Option.some.inj (haction.symm.trans hfound))).symm
      · cases haction.symm.trans hmissing

end RoomRelay
