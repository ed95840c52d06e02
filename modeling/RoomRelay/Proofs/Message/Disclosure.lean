import RoomRelay.Proofs.Json.Alike
import RoomRelay.Proofs.Message.Grammar

/-!
What the recipients of a message learn of the frame that it was sent in: the action, the data and
the metadata, and who sent it. Whatever else the sender wrote into the frame, and in whatever order
and spelling, makes no difference to a single byte of what they get.
-/

namespace RoomRelay

open Json

/-- The objects have like values in this field, or both have none there. A `null` is none. -/
def AgreeOn (name : String) (fields other : List (String × Value)) : Prop :=
  ∃ v w, Optionally name fields v ∧ Optionally name other w ∧ Option.Rel Value.Alike v w

/-- Two objects, with the payloads that stand beside them, say the same of all that the recipients
are told. -/
structure SameContent (fields other : List (String × Value)) (payload payload' : Option Bytes) :
    Prop where
  action : (Fields.find? "action" fields).getD (.string "") =
    (Fields.find? "action" other).getD (.string "")
  metadata : AgreeOn "metadata" fields other
  beside : payload = payload'
  data : payload = none → AgreeOn "data" fields other

/-- The object shows what the recipients are told of these fields, and nothing else. -/
structure Shows (shown fields : List (String × Value)) (payload : Option Bytes)
    (sender : PeerId) : Prop where
  keys : ∀ key, Fields.find? key shown ≠ none → key ∈ Downlink.keys
  action : Fields.find? "action" shown = some ((Fields.find? "action" fields).getD (.string ""))
  data : ∀ v, Fields.find? "data" shown = some v ↔
    payload = none ∧ Optionally "data" fields (some v)
  sender : Fields.find? "peerId" shown = some (.string sender)
  metadata : ∀ v, Fields.find? "metadata" shown = some v ↔ Optionally "metadata" fields (some v)

/-- What comes of writing what the recipients are told. A frame is of the kind of the frame that was
sent and holds the object that is shown, in which everybody who can read it finds what it shows.
Only beside a payload an object can be too long for a frame. -/
structure Discloses (written : Except CodecError Frame) (isBinary : Bool)
    (shown : List (String × Value)) (payload : Option Bytes) : Prop where
  framed : ∀ f, written = .ok f → f.isBinary = isBinary ∧
    HasText f.bytes isBinary (textBytes (objectText shown)) payload
  fits : payload = none ∨ (textBytes (objectText shown)).length < 2 ^ 32 → ∃ f, written = .ok f
  found : ∀ v, parse (textBytes (objectText shown)) = .ok v →
    ∃ found, v = .object found ∧ Recovers shown found

/-! ### Writing like messages -/

/-- Fields that are written alike. -/
def SameChars (f g : String × Value) : Prop :=
  f.1 = g.1 ∧ f.2.chars = g.2.chars

theorem fieldsChars_congr {fields other : List (String × Value)}
    (h : List.Forall₂ SameChars fields other) : fieldsChars fields = fieldsChars other := by
  induction h with
  | nil => rfl
  | @cons f g fs gs hfirst hrest ih =>
      obtain ⟨hkey, hchars⟩ := hfirst
      cases hrest with
      | nil => simp only [fieldsChars, hkey, hchars]
      | cons _ _ => simp only [fieldsChars, hkey, hchars] at ih ⊢; rw [ih]

theorem sameChars_optionalField {name : String} {v w : Option Value}
    (h : Option.Rel (fun v w : Value => v.chars = w.chars) v w) :
    List.Forall₂ SameChars (optionalField name v) (optionalField name w) := by
  cases h with
  | none => exact .nil
  | some hchars => exact .cons ⟨rfl, hchars⟩ .nil

/-- Payloads are alike as values, or the same bytes. -/
inductive Payload.Alike : Payload → Payload → Prop where
  | json {v w : Value} (alike : v.Alike w) : Alike (.json v) (.json w)
  | binary (bytes : Bytes) : Alike (.binary bytes) (.binary bytes)

/-- Uplinks of which the recipients are told the same. -/
structure Uplink.Alike (u w : Uplink) : Prop where
  action : u.action = w.action
  data : Option.Rel Payload.Alike u.data w.data
  metadata : Option.Rel Value.Alike u.metadata w.metadata

theorem chars_rel_of_alike {v w : Option Value} (hv : ∀ x, v = some x → x.IsOrdered)
    (hw : ∀ x, w = some x → x.IsOrdered) (h : Option.Rel Value.Alike v w) :
    Option.Rel (fun v w : Value => v.chars = w.chars) v w := by
  cases h with
  | none => exact .none
  | some halike => exact .some (chars_eq_of_alike _ (hv _ rfl) (hw _ rfl) halike)

theorem alike_jsonData? {data data' : Option Payload} (h : Option.Rel Payload.Alike data data') :
    Option.Rel Value.Alike (jsonData? data) (jsonData? data') := by
  cases h with
  | none => exact .none
  | some halike =>
      cases halike with
      | json halike => exact .some halike
      | binary bytes => exact .none

/-- The object is written first, and only its text goes into the frame. -/
theorem encode_eq (fields : List (String × Value)) (data : Option Payload) :
    RoomRelay.encode fields data = match data.bind Payload.binary? with
      | some payload =>
        ((pack payload (textBytes (objectText fields))).map Frame.binary).mapError .framing
      | none => .ok (.text (objectText fields)) := by
  rcases data with _ | v | payload <;> rfl

/-- Like messages of one sender become one and the same frame. -/
theorem Uplink.encode_relayed_eq {isBinary : Bool} {x y : Bytes} {u w : Uplink}
    (hu : Uplink.decode isBinary x = .ok u) (hw : Uplink.decode isBinary y = .ok w)
    (h : u.Alike w) (sender : PeerId) :
    (u.relayed sender).encode = (w.relayed sender).encode := by
  -- All values were read, so their fields are in order, and what is alike is written alike.
  have hdata := chars_rel_of_alike
    (fun v hv => ((Uplink.decoded hu).data_fits v (jsonData?_eq_some_iff.mp hv)).ordered)
    (fun v hv => ((Uplink.decoded hw).data_fits v (jsonData?_eq_some_iff.mp hv)).ordered)
    (alike_jsonData? h.data)
  have hmetadata := chars_rel_of_alike
    (fun v hv => ((Uplink.decoded hu).metadata_fits v hv).ordered)
    (fun v hv => ((Uplink.decoded hw).metadata_fits v hv).ordered) h.metadata
  have hfields : List.Forall₂ SameChars (u.relayed sender).fields (w.relayed sender).fields := by
    refine List.rel_append (List.rel_append (List.rel_append ?_ ?_) ?_) ?_
    · exact .cons ⟨rfl, by rw [Uplink.relayed, Uplink.relayed, h.action]⟩ .nil
    · exact sameChars_optionalField hdata
    · exact .cons ⟨rfl, rfl⟩ .nil
    · exact sameChars_optionalField hmetadata
  have htext : objectText (u.relayed sender).fields = objectText (w.relayed sender).fields := by
    simp only [objectText, Value.chars, fieldsChars_congr hfields]
  have hbytes : u.data.bind Payload.binary? = w.data.bind Payload.binary? := by
    have hpayload := h.data
    generalize u.data = data at hpayload ⊢
    generalize w.data = data' at hpayload ⊢
    cases hpayload with
    | none => rfl
    | some halike => cases halike <;> rfl
  simp only [Downlink.encode, encode_eq, htext]
  rw [Uplink.relayed, Uplink.relayed, hbytes]

theorem AgreeOn.rel {name : String} {fields other : List (String × Value)} {v w : Option Value}
    (h : AgreeOn name fields other) (hv : Optionally name fields v) (hw : Optionally name other w) :
    Option.Rel Value.Alike v w := by
  obtain ⟨v', w', hv', hw', hrel⟩ := h
  rw [← optionally_iff.mp hv, ← optionally_iff.mp hw, optionally_iff.mp hv', optionally_iff.mp hw']
  exact hrel

theorem Uplink.IsMeantBy.action_eq {u : Uplink} {fields : List (String × Value)}
    {payload : Option Bytes} (h : u.IsMeantBy fields payload) :
    (Fields.find? "action" fields).getD (.string "") = .string u.action := by
  rcases h.action with hfound | ⟨hmissing, haction⟩
  · rw [hfound, Option.getD_some]
  · rw [hmissing, haction, Option.getD_none]

/-- Objects of the same content mean like messages. -/
theorem SameContent.alike {fields other : List (String × Value)} {payload payload' : Option Bytes}
    {u w : Uplink} (same : SameContent fields other payload payload')
    (hu : u.IsMeantBy fields payload) (hw : w.IsMeantBy other payload') : u.Alike w where
  action := by
    have haction := same.action
    rw [hu.action_eq, hw.action_eq] at haction
    exact Value.string.inj haction
  metadata := same.metadata.rel hu.metadata hw.metadata
  data := by
    obtain ⟨-, -, rfl, hagree⟩ := same
    have hdata := hu.data
    have hdata' := hw.data
    generalize u.data = data at hdata ⊢
    generalize w.data = data' at hdata' ⊢
    cases hdata with
    | payload bytes =>
        cases hdata'
        exact .some (.binary bytes)
    | field v hv =>
        cases hdata' with
        | field v' hv' =>
            cases (hagree rfl).rel hv hv' with
            | none => exact .none
            | some halike => exact .some (.json halike)

theorem Uplink.isMeantBy_of_decode {isBinary : Bool} {input : Bytes}
    {fields : List (String × Value)} {payload : Option Bytes} {u : Uplink}
    (has : HasObject input isBinary fields payload)
    (decodes : Uplink.decode isBinary input = .ok u) : u.IsMeantBy fields payload := by
  obtain ⟨text, htext, hread⟩ := has
  cases (Uplink.readsExactly.verdict _ _ _).mp decodes with
  | message text' payload' fields' u has' read' fits =>
      obtain ⟨rfl, rfl⟩ := htext.unique has'
      cases hread.symm.trans read'
      exact fits

/-! ### What is written -/

theorem Uplink.shows_relayed {u : Uplink} {fields : List (String × Value)} {payload : Option Bytes}
    (h : u.IsMeantBy fields payload) (sender : PeerId) :
    Shows (u.relayed sender).fields fields payload sender where
  keys := by
    intro key hkey
    by_contra hother
    apply hkey
    simp only [Downlink.keys, List.mem_cons, List.not_mem_nil, or_false, not_or] at hother
    obtain ⟨haction, hdata, hsender, hmetadata⟩ := hother
    simp [Downlink.fields, Ne.symm haction, Ne.symm hdata, Ne.symm hsender, Ne.symm hmetadata]
  action := by
    rw [h.action_eq]
    simp [Downlink.fields, Uplink.relayed]
  sender := by simp [Downlink.fields, Uplink.relayed]
  metadata := by
    intro v
    have hfind : Fields.find? "metadata" (u.relayed sender).fields = u.metadata := by
      simp [Downlink.fields, Uplink.relayed]
    rw [hfind, optionally_iff, optionally_iff.mp h.metadata]
  data := by
    intro v
    have hfind : Fields.find? "data" (u.relayed sender).fields = jsonData? u.data := by
      simp [Downlink.fields, Uplink.relayed]
    rw [hfind, jsonData?_eq_some_iff, meansData_iff.mp h.data, optionally_iff]
    cases payload with
    | none => cases valueField? "data" fields <;> simp
    | some bytes => simp

theorem Uplink.binary?_data {u : Uplink} {fields : List (String × Value)} {payload : Option Bytes}
    (h : u.IsMeantBy fields payload) : u.data.bind Payload.binary? = payload := by
  rw [meansData_iff.mp h.data]
  cases payload with
  | none => cases valueField? "data" fields <;> rfl
  | some bytes => rfl

theorem HasText.isBinary_eq {input text : Bytes} {isBinary : Bool} {payload : Option Bytes}
    (h : HasText input isBinary text payload) : isBinary = payload.isSome := by
  cases h <;> rfl

theorem Downlink.discloses_encode (d : Downlink) :
    Discloses d.encode (d.data.bind Payload.binary?).isSome d.fields
      (d.data.bind Payload.binary?) where
  framed := by
    intro f hf
    have htext := hasText_encode hf
    exact ⟨htext.isBinary_eq, htext.isBinary_eq ▸ htext⟩
  fits := by
    rintro (hnone | hshort)
    · rw [Downlink.encode, encode_eq, hnone]
      exact ⟨_, rfl⟩
    · exact exists_encode d.data hshort
  found := fun _ hread => recovers_of_parse d.keys_nodup hread

/-- The recipients of a message are shown its action, its data, its metadata and its sender, and
nothing else. Frames of one kind that say the same of these become one and the same frame for
them. -/
theorem Uplink.relayed_discloses {isBinary : Bool} {x y : Bytes}
    {fields other : List (String × Value)} {payload payload' : Option Bytes} {u w : Uplink}
    (hx : HasObject x isBinary fields payload) (hy : HasObject y isBinary other payload')
    (accepted : Uplink.decode isBinary x = .ok u) (accepted' : Uplink.decode isBinary y = .ok w)
    (same : SameContent fields other payload payload') (sender : PeerId) :
    (u.relayed sender).encode = (w.relayed sender).encode ∧
      ∃ shown, Shows shown fields payload sender ∧
        Discloses (u.relayed sender).encode isBinary shown payload := by
  have hu := isMeantBy_of_decode hx accepted
  have hw := isMeantBy_of_decode hy accepted'
  refine ⟨encode_relayed_eq accepted accepted' (same.alike hu hw) sender, _,
    shows_relayed hu sender, ?_⟩
  obtain ⟨text, htext, -⟩ := hx
  have hdiscloses := (u.relayed sender).discloses_encode
  rw [Uplink.relayed, binary?_data hu, ← htext.isBinary_eq] at hdiscloses
  exact hdiscloses

/-- Targets, a sender of its own, another order of keys, a blank and an escape: the frames differ in
all of these, and the recipients get the same. -/
theorem Uplink.relayed_discloses_reordered :
    let x : Bytes :=
      [0x7B, 0x22, 0x74, 0x61, 0x72, 0x67, 0x65, 0x74, 0x50, 0x65, 0x65, 0x72, 0x73, 0x22, 0x3A,
        0x5B, 0x5D, 0x2C, 0x22, 0x64, 0x61, 0x74, 0x61, 0x22, 0x3A, 0x7B, 0x22, 0x6B, 0x22, 0x3A,
        0x30, 0x2C, 0x22, 0x6A, 0x22, 0x3A, 0x31, 0x7D, 0x2C, 0x22, 0x70, 0x65, 0x65, 0x72, 0x49,
        0x64, 0x22, 0x3A, 0x22, 0x62, 0x22, 0x7D]
    let y : Bytes :=
      [0x7B, 0x20, 0x22, 0x64, 0x61, 0x74, 0x61, 0x22, 0x3A, 0x7B, 0x22, 0x5C, 0x75, 0x30, 0x30,
        0x36, 0x61, 0x22, 0x3A, 0x31, 0x2C, 0x22, 0x6B, 0x22, 0x3A, 0x30, 0x7D, 0x7D]
    ∃ u w, Uplink.decode false x = .ok u ∧ Uplink.decode false y = .ok w ∧
      u.targets ≠ w.targets ∧ (u.relayed "a").encode = (w.relayed "a").encode := by
  intro x y
  let data : Value := .object
    [("j", .number (.word 1 (by decide))), ("k", .number (.word 0 (by decide)))]
  have hx : parse x = .ok (.object
      [("data", data), ("peerId", .string "b"), ("targetPeers", .array [])]) := rfl
  have hy : parse y = .ok (.object [("data", data)]) := rfl
  have hdata : data.Alike data := by
    apply Value.alike_refl
    exact ((fits_object_iff.mp (fits_parse hy)).2.2 ("data", data) List.mem_cons_self).ordered
  refine ⟨_, _, rfl, rfl, by decide, (Uplink.relayed_discloses ⟨x, .text, hx⟩ ⟨y, .text, hy⟩ rfl rfl
    ⟨rfl, ⟨none, none, .missing rfl, .missing rfl, .none⟩, rfl, fun _ => ?_⟩ "a").1⟩
  exact ⟨some data, some data, .value data rfl (by simp [data]), .value data rfl (by simp [data]),
    .some hdata⟩

end RoomRelay
