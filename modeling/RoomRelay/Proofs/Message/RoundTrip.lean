import RoomRelay.Proofs.Json.Rereading
import RoomRelay.Proofs.Message.Decoding

/-!
Reading undoes writing. A message that is written to a frame is read from it as it was, but for a
`null` in its data or its metadata, which counts as absent. The fields are written in an order of
their own and read in the order of their keys, so they are compared by what each key finds.
-/

namespace RoomRelay

open Json

/-! ### The object of a frame -/

@[simp]
theorem find?_optionalField (key name : String) (v : Option Value) :
    Fields.find? key (optionalField name v) = if name = key then v else none := by
  cases v with
  | none => simp [optionalField, Fields.find?]
  | some v => exact find?_cons key name v []

theorem exists_readObject {fields : List (String × Value)}
    (depth : (Value.object fields).depth ≤ maxDepth) :
    ∃ read, FieldsEcho fields read ∧
      readObject (textBytes (objectText fields)) = .ok (Fields.insertAll read []) := by
  obtain ⟨read, hecho, hread⟩ := exists_read depth
  have hparse : parse (textBytes (objectText fields)) =
      .ok (.object (Fields.insertAll read [])) := hread
  refine ⟨read, hecho, ?_⟩
  rw [readObject, hparse]
  rfl

/-- An object of less than 4 GiB can be written to a frame, whatever stands beside it. -/
theorem exists_encode {fields : List (String × Value)} (data : Option Payload)
    (short : (textBytes (objectText fields)).length < 4294967296) :
    ∃ f, RoomRelay.encode fields data = .ok f := by
  match data with
  | some (.binary payload) =>
      rw [RoomRelay.encode, pack, if_pos short]
      exact ⟨_, rfl⟩
  | some (.json _) => exact ⟨_, rfl⟩
  | none => exact ⟨_, rfl⟩

theorem isBinary_encode_iff {fields : List (String × Value)} {data : Option Payload} {f : Frame}
    (h : RoomRelay.encode fields data = .ok f) :
    f.isBinary = true ↔ ∃ payload, data = some (.binary payload) := by
  unfold RoomRelay.encode at h
  split at h
  · rename_i payload
    cases hpack : pack payload (textBytes (objectText fields)) with
    | error e =>
        rw [hpack] at h
        cases h
    | ok packed =>
        rw [hpack] at h
        cases h
        simp [Frame.isBinary]
  · rename_i hother
    cases h
    simpa [Frame.isBinary] using hother

/-- The object of a frame that was written has the fields that were written, and the payload stands
beside it. -/
theorem exists_readFrame {fields : List (String × Value)} {data : Option Payload} {f : Frame}
    (h : RoomRelay.encode fields data = .ok f) (depth : (Value.object fields).depth ≤ maxDepth) :
    ∃ read, FieldsEcho fields read ∧ readFrame f.isBinary f.bytes =
      .ok (Fields.insertAll read [], (data.bind Payload.binary?).map .binary) := by
  obtain ⟨read, hecho, hobject⟩ := exists_readObject depth
  refine ⟨read, hecho, ?_⟩
  unfold RoomRelay.encode at h
  split at h
  · rename_i payload
    cases hpack : pack payload (textBytes (objectText fields)) with
    | error e =>
        rw [hpack] at h
        cases h
    | ok packed =>
        rw [hpack] at h
        cases h
        simp only [Frame.isBinary, Frame.bytes, readFrame, if_true, unpack_pack hpack, hobject]
        rfl
  · rename_i hother
    cases h
    have hnone : data.bind Payload.binary? = none := by
      rcases data with _ | v | payload
      · rfl
      · rfl
      · exact absurd rfl (hother payload)
    rw [hnone]
    change (readObject (textBytes (objectText fields)) >>= fun fields => pure (fields, none)) = _
    rw [hobject]
    rfl

theorem readFrame_encode {fields : List (String × Value)} {data : Option Payload} {f : Frame}
    (h : RoomRelay.encode fields data = .ok f) (exact : fieldsExact fields)
    (depth : (Value.object fields).depth ≤ maxDepth) :
    readFrame f.isBinary f.bytes =
      .ok (Fields.insertAll fields [], (data.bind Payload.binary?).map .binary) := by
  obtain ⟨read, hecho, hframe⟩ := exists_readFrame h depth
  rw [hframe, hecho.eq exact]

/-! ### Nulls -/

/-- A value that is `null` counts as absent. -/
def nonNull : Option Value → Option Value
  | some .null => none
  | v => v

def nonNullData : Option Payload → Option Payload
  | some (.json .null) => none
  | data => data

theorem nonNull_eq_self_iff {v : Option Value} : nonNull v = v ↔ v ≠ some .null := by
  unfold nonNull
  split <;> simp_all

theorem nonNullData_eq_self_iff {data : Option Payload} :
    nonNullData data = data ↔ data ≠ some (.json .null) := by
  unfold nonNullData
  split <;> simp_all

theorem valueField?_eq (name : String) (fields : List (String × Value)) :
    valueField? name fields = nonNull (Fields.find? name fields) := rfl

/-- The payload stands beside the object, a value inside it. -/
theorem binary_or_json (data : Option Payload) :
    ((data.bind Payload.binary?).map .binary <|> (nonNull (jsonData? data)).map .json) =
      nonNullData data := by
  rcases data with _ | v | payload
  · rfl
  · cases v <;> rfl
  · rfl

theorem targets_ofValue_toValue (targets : Option Targets) :
    (nonNull (targets.map Targets.toValue)).map Targets.ofValue = targets := by
  rcases targets with _ | id | ids
  · rfl
  · rfl
  · have hids : stringItems (ids.map .string) = ids := by
      rw [stringItems, List.filterMap_map]
      exact List.filterMap_some
    change some (Targets.many (stringItems (ids.map .string))) = _
    rw [hids]

/-! ### The values of a message -/

/-- The JSON values that a message carries: its data, unless that is bytes, and its metadata. -/
def jsonValues (data : Option Payload) (metadata : Option Value) : List Value :=
  (jsonData? data).toList ++ metadata.toList

theorem mem_optionalField {name : String} {v : Option Value} {f : String × Value} :
    f ∈ optionalField name v ↔ ∃ w, v = some w ∧ f = (name, w) := by
  cases v <;> simp [optionalField]

theorem jsonData?_eq_some_iff {data : Option Payload} {v : Value} :
    jsonData? data = some v ↔ data = some (.json v) := by
  rcases data with _ | w | payload <;> simp [jsonData?]

theorem mem_jsonValues {data : Option Payload} {metadata : Option Value} {v : Value} :
    v ∈ jsonValues data metadata ↔ data = some (.json v) ∨ metadata = some v := by
  rcases data with _ | w | payload <;> simp [jsonValues, jsonData?, Option.mem_toList, eq_comm]

theorem Decoded.fits {isBinary : Bool} {data : Option Payload} {metadata : Option Value}
    (h : Decoded isBinary data metadata) : ∀ v ∈ jsonValues data metadata, v.Fits 1 := by
  intro v hv
  rcases mem_jsonValues.mp hv with hdata | hmetadata
  · exact h.data_fits v hdata
  · exact h.metadata_fits v hmetadata

/-- What holds of every string, of every list of strings and of every value that the message
carries holds of every field that an uplink is written as. -/
theorem Uplink.forall_fields {u : Uplink} {P : Value → Prop} (string : ∀ s, P (.string s))
    (strings : ∀ ids : List String, P (.array (ids.map .string)))
    (values : ∀ v ∈ jsonValues u.data u.metadata, P v) : ∀ f ∈ u.fields, P f.2 := by
  intro f hf
  simp only [fields, List.mem_append, List.mem_singleton, mem_optionalField] at hf
  rcases hf with ((rfl | ⟨v, hdata, rfl⟩) | ⟨v, htargets, rfl⟩) | ⟨v, hmetadata, rfl⟩
  · exact string _
  · exact values v (List.mem_append_left _ (Option.mem_toList.mpr hdata))
  · obtain ⟨targets, -, rfl⟩ := Option.map_eq_some_iff.mp htargets
    cases targets with
    | one id => exact string id
    | many ids => exact strings ids
  · exact values v (List.mem_append_right _ (Option.mem_toList.mpr hmetadata))

theorem Downlink.forall_fields {d : Downlink} {P : Value → Prop} (string : ∀ s, P (.string s))
    (values : ∀ v ∈ jsonValues d.data d.metadata, P v) : ∀ f ∈ d.fields, P f.2 := by
  intro f hf
  simp only [fields, List.mem_append, List.mem_singleton, mem_optionalField] at hf
  rcases hf with ((rfl | ⟨v, hdata, rfl⟩) | rfl) | ⟨v, hmetadata, rfl⟩
  · exact string _
  · exact values v (List.mem_append_left _ (Option.mem_toList.mpr hdata))
  · exact string _
  · exact values v (List.mem_append_right _ (Option.mem_toList.mpr hmetadata))

/-- The values can be read back once they are written: every object in them is in order, as one is
that `Fields.insert` has made, and every number is a word. -/
def Legible (data : Option Payload) (metadata : Option Value) : Prop :=
  ∀ v ∈ jsonValues data metadata, v.IsExact

theorem Decoded.legible {isBinary : Bool} {data : Option Payload} {metadata : Option Value}
    (h : Decoded isBinary data metadata) (words : ∀ v ∈ jsonValues data metadata, v.OnlyWords) :
    Legible data metadata :=
  fun v hv => (h.fits v hv).ordered.isExact (words v hv)

/-! ### Uplinks -/

def Uplink.withoutNulls (u : Uplink) : Uplink :=
  { u with data := nonNullData u.data, metadata := nonNull u.metadata }

theorem Uplink.withoutNulls_eq_self_iff {u : Uplink} :
    u.withoutNulls = u ↔ u.data ≠ some (.json .null) ∧ u.metadata ≠ some .null := by
  obtain ⟨action, data, targets, metadata⟩ := u
  simp [withoutNulls, nonNull_eq_self_iff, nonNullData_eq_self_iff]

theorem keys_optionalField_sublist (name : String) (v : Option Value) :
    ((optionalField name v).map (·.1)).Sublist [name] := by
  cases v <;> simp [optionalField]

theorem Uplink.keys_nodup (u : Uplink) : (u.fields.map (·.1)).Nodup := by
  have hkeys : (u.fields.map (·.1)).Sublist ["action", "data", "targetPeers", "metadata"] := by
    simp only [fields, List.map_append]
    exact (((List.Sublist.refl ["action"]).append (keys_optionalField_sublist "data" _)).append
      (keys_optionalField_sublist "targetPeers" _)).append
      (keys_optionalField_sublist "metadata" _)
  exact hkeys.nodup (by decide)

theorem Uplink.ofFields_read (u : Uplink) :
    Uplink.ofFields (Fields.insertAll u.fields []) = .ok
      { action := u.action
        data := (nonNull (jsonData? u.data)).map .json
        targets := u.targets
        metadata := nonNull u.metadata } := by
  have hfind (key : String) := find?_read u.keys_nodup key
  have haction : Fields.find? "action" u.fields = some (.string u.action) := by simp [fields]
  have hdata : Fields.find? "data" u.fields = jsonData? u.data := by simp [fields]
  have htargets : Fields.find? "targetPeers" u.fields = u.targets.map Targets.toValue := by
    simp [fields]
  have hmetadata : Fields.find? "metadata" u.fields = u.metadata := by simp [fields]
  simp only [ofFields, stringField?, valueField?_eq, hfind, haction, hdata, htargets, hmetadata,
    targets_ofValue_toValue]
  rfl

theorem Uplink.fieldsExact_fields {u : Uplink} (h : Legible u.data u.metadata) :
    fieldsExact u.fields :=
  fieldsExact_iff.mpr (forall_fields (fun _ => trivial) itemsExact_strings h)

theorem Uplink.depth_fields {u : Uplink}
    (values : ∀ v ∈ jsonValues u.data u.metadata, 1 + v.depth ≤ maxDepth) :
    (Value.object u.fields).depth ≤ maxDepth := by
  refine depth_object_le (forall_fields (P := fun v => 1 + v.depth ≤ maxDepth) ?_ ?_ values)
  · exact fun _ => by simp [Value.depth, maxDepth]
  · exact fun ids => by simp [Value.depth, itemsDepth_strings, maxDepth]

theorem Uplink.decode_encode {u : Uplink} {f : Frame} (legible : Legible u.data u.metadata)
    (depth : (Value.object u.fields).depth ≤ maxDepth) (encodes : u.encode = .ok f) :
    Uplink.decode f.isBinary f.bytes = .ok u.withoutNulls := by
  rw [decode, readFrame_encode encodes (fieldsExact_fields legible) depth]
  change ((Uplink.ofFields (Fields.insertAll u.fields [])).mapError _ >>= _) = _
  rw [ofFields_read, withoutNulls, ← binary_or_json]
  rfl

/-! ### Downlinks -/

def Downlink.withoutNulls (d : Downlink) : Downlink :=
  { d with data := nonNullData d.data, metadata := nonNull d.metadata }

theorem Downlink.withoutNulls_eq_self_iff {d : Downlink} :
    d.withoutNulls = d ↔ d.data ≠ some (.json .null) ∧ d.metadata ≠ some .null := by
  obtain ⟨action, data, sender, metadata⟩ := d
  simp [withoutNulls, nonNull_eq_self_iff, nonNullData_eq_self_iff]

theorem Downlink.keys_nodup (d : Downlink) : (d.fields.map (·.1)).Nodup := by
  have hkeys : (d.fields.map (·.1)).Sublist ["action", "data", "peerId", "metadata"] := by
    simp only [fields, List.map_append]
    exact (((List.Sublist.refl ["action"]).append (keys_optionalField_sublist "data" _)).append
      (List.Sublist.refl ["peerId"])).append (keys_optionalField_sublist "metadata" _)
  exact hkeys.nodup (by decide)

theorem Downlink.ofFields_read (d : Downlink) :
    Downlink.ofFields (Fields.insertAll d.fields []) = .ok
      { action := d.action
        data := (nonNull (jsonData? d.data)).map .json
        sender := d.sender
        metadata := nonNull d.metadata } := by
  have hfind (key : String) := find?_read d.keys_nodup key
  have haction : Fields.find? "action" d.fields = some (.string d.action) := by simp [fields]
  have hdata : Fields.find? "data" d.fields = jsonData? d.data := by simp [fields]
  have hsender : Fields.find? "peerId" d.fields = some (.string d.sender) := by simp [fields]
  have hmetadata : Fields.find? "metadata" d.fields = d.metadata := by simp [fields]
  simp only [ofFields, stringField?, valueField?_eq, hfind, haction, hdata, hsender, hmetadata]
  rfl

theorem Downlink.fieldsExact_fields {d : Downlink} (h : Legible d.data d.metadata) :
    fieldsExact d.fields :=
  fieldsExact_iff.mpr (forall_fields (fun _ => trivial) h)

theorem Downlink.depth_fields {d : Downlink}
    (values : ∀ v ∈ jsonValues d.data d.metadata, 1 + v.depth ≤ maxDepth) :
    (Value.object d.fields).depth ≤ maxDepth := by
  refine depth_object_le (forall_fields (P := fun v => 1 + v.depth ≤ maxDepth) ?_ values)
  exact fun _ => by simp [Value.depth, maxDepth]

theorem Downlink.decode_encode {d : Downlink} {f : Frame} (legible : Legible d.data d.metadata)
    (depth : (Value.object d.fields).depth ≤ maxDepth) (encodes : d.encode = .ok f) :
    Downlink.decode f.isBinary f.bytes = .ok d.withoutNulls := by
  rw [decode, readFrame_encode encodes (fieldsExact_fields legible) depth]
  change ((Downlink.ofFields (Fields.insertAll d.fields [])).mapError _ >>= _) = _
  rw [ofFields_read, withoutNulls, ← binary_or_json]
  rfl

/-- The second message is what the first is read as. Only a double need not come back as it was. -/
structure Downlink.ReadsAs (d e : Downlink) : Prop where
  action : e.action = d.action
  sender : e.sender = d.sender
  data : (∀ v, d.data = some (.json v) → v.IsExact) → e.data = nonNullData d.data
  metadata : (∀ v, d.metadata = some v → v.IsExact) → e.metadata = nonNull d.metadata

theorem Downlink.exists_decode {d : Downlink} {f : Frame}
    (depth : (Value.object d.fields).depth ≤ maxDepth) (encodes : d.encode = .ok f) :
    ∃ e, Downlink.decode f.isBinary f.bytes = .ok e ∧ d.ReadsAs e := by
  obtain ⟨read, hecho, hframe⟩ := exists_readFrame encodes depth
  have hfind (key : String) (exact : ∀ v, Fields.find? key d.fields = some v → v.IsExact) :=
    hecho.find?_read d.keys_nodup exact
  have hstring (key s : String) (h : Fields.find? key d.fields = some (.string s)) :
      Fields.find? key (Fields.insertAll read []) = some (.string s) := by
    rw [hfind key, h]
    rintro v hv
    cases h.symm.trans hv
    trivial
  have haction := hstring "action" d.action (by simp [fields])
  have hsender := hstring "peerId" d.sender (by simp [fields])
  have hdata : Fields.find? "data" d.fields = jsonData? d.data := by simp [fields]
  have hmetadata : Fields.find? "metadata" d.fields = d.metadata := by simp [fields]
  refine ⟨{ action := d.action
            data := (d.data.bind Payload.binary?).map .binary <|>
              (nonNull (Fields.find? "data" (Fields.insertAll read []))).map .json
            sender := d.sender
            metadata := nonNull (Fields.find? "metadata" (Fields.insertAll read [])) },
    ?_, rfl, rfl, ?_, ?_⟩
  · rw [decode, hframe]
    change ((Downlink.ofFields (Fields.insertAll read [])).mapError _ >>= _) = _
    simp only [ofFields, stringField?, valueField?_eq, haction, hsender]
    rfl
  · intro hexact
    have hjson : ∀ v, Fields.find? "data" d.fields = some v → v.IsExact := by
      intro v hv
      rw [hdata] at hv
      exact hexact v (jsonData?_eq_some_iff.mp hv)
    simp only [hfind "data" hjson, hdata, binary_or_json]
  · intro hexact
    have hvalue : ∀ v, Fields.find? "metadata" d.fields = some v → v.IsExact :=
      fun v hv => hexact v (hmetadata ▸ hv)
    simp only [hfind "metadata" hvalue, hmetadata]

/-- The frame is of the kind that the message needs, and it is read as this message. -/
structure Frame.Conveys (f : Frame) (d : Downlink) : Prop where
  kind : f.isBinary = true ↔ ∃ payload, d.data = some (.binary payload)
  message : ∃ e, Downlink.decode f.isBinary f.bytes = .ok e ∧ d.ReadsAs e

/-- A message of values that are not nested too deeply is read by its recipients, whatever numbers
it holds. -/
theorem Downlink.conveys_encode {d : Downlink} {f : Frame}
    (depth : ∀ v ∈ jsonValues d.data d.metadata, 1 + v.depth ≤ maxDepth)
    (encodes : d.encode = .ok f) : f.Conveys d :=
  ⟨isBinary_encode_iff encodes, exists_decode (depth_fields depth) encodes⟩

/-- What was read from a frame is not nested too deeply to be read once more. -/
theorem Uplink.conveys_relayed {isBinary : Bool} {input : Bytes} {u : Uplink} {sender : PeerId}
    {f : Frame} (decodes : Uplink.decode isBinary input = .ok u)
    (encodes : (u.relayed sender).encode = .ok f) :
    f.Conveys { action := u.action, data := u.data, sender := sender, metadata := u.metadata } :=
  Downlink.conveys_encode (fun v hv => ((Uplink.decoded decodes).fits v hv).depth) encodes

/-! ### There and back -/

/-- What a frame holds of the uplink that was written to it. -/
structure Uplink.ReadsBack (u : Uplink) (f : Frame) : Prop where
  kind : f.isBinary = true ↔ ∃ payload, u.data = some (.binary payload)
  message : Uplink.decode f.isBinary f.bytes = .ok u.withoutNulls
  same_iff : Uplink.decode f.isBinary f.bytes = .ok u ↔
    u.data ≠ some (.json .null) ∧ u.metadata ≠ some .null

/-- What a frame holds of the downlink that was written to it. -/
structure Downlink.ReadsBack (d : Downlink) (f : Frame) : Prop where
  kind : f.isBinary = true ↔ ∃ payload, d.data = some (.binary payload)
  message : Downlink.decode f.isBinary f.bytes = .ok d.withoutNulls
  same_iff : Downlink.decode f.isBinary f.bytes = .ok d ↔
    d.data ≠ some (.json .null) ∧ d.metadata ≠ some .null

theorem Uplink.readsBack {u : Uplink} {f : Frame} (legible : Legible u.data u.metadata)
    (depth : (Value.object u.fields).depth ≤ maxDepth) (encodes : u.encode = .ok f) :
    u.ReadsBack f := by
  have hmessage := decode_encode legible depth encodes
  refine ⟨isBinary_encode_iff encodes, hmessage, ?_⟩
  rw [hmessage, Except.ok.injEq, withoutNulls_eq_self_iff]

theorem Downlink.readsBack {d : Downlink} {f : Frame} (legible : Legible d.data d.metadata)
    (depth : (Value.object d.fields).depth ≤ maxDepth) (encodes : d.encode = .ok f) :
    d.ReadsBack f := by
  have hmessage := decode_encode legible depth encodes
  refine ⟨isBinary_encode_iff encodes, hmessage, ?_⟩
  rw [hmessage, Except.ok.injEq, withoutNulls_eq_self_iff]

/-- The kind of a frame is that of the frame which its message came from. -/
theorem Decoded.isBinary_eq {isBinary : Bool} {data : Option Payload} {metadata : Option Value}
    {f : Frame} (h : Decoded isBinary data metadata)
    (kind : f.isBinary = true ↔ ∃ payload, data = some (.binary payload)) :
    f.isBinary = isBinary := by
  rw [Bool.eq_iff_iff, kind, h.binary_iff]

theorem Uplink.decode_of_decoded {isBinary : Bool} {u : Uplink} {f : Frame}
    (h : Decoded isBinary u.data u.metadata)
    (words : ∀ v ∈ jsonValues u.data u.metadata, v.OnlyWords) (encodes : u.encode = .ok f) :
    f.isBinary = isBinary ∧ Uplink.decode isBinary f.bytes = .ok u := by
  have hback := readsBack (h.legible words) (depth_fields fun v hv => (h.fits v hv).depth) encodes
  have hkind := h.isBinary_eq hback.kind
  exact ⟨hkind, hkind ▸ hback.same_iff.mpr ⟨h.data_ne_null, h.metadata_ne_null⟩⟩

theorem Downlink.decode_of_decoded {isBinary : Bool} {d : Downlink} {f : Frame}
    (h : Decoded isBinary d.data d.metadata)
    (words : ∀ v ∈ jsonValues d.data d.metadata, v.OnlyWords) (encodes : d.encode = .ok f) :
    f.isBinary = isBinary ∧ Downlink.decode isBinary f.bytes = .ok d := by
  have hback := readsBack (h.legible words) (depth_fields fun v hv => (h.fits v hv).depth) encodes
  have hkind := h.isBinary_eq hback.kind
  exact ⟨hkind, hkind ▸ hback.same_iff.mpr ⟨h.data_ne_null, h.metadata_ne_null⟩⟩

/-- Reading undoes writing, in both directions: it gives the message that was written but for its
nulls, and a message that came out of a frame comes out of its own frame unchanged. -/
theorem reading_undoes_writing :
    (∀ (u : Uplink) (f : Frame), Legible u.data u.metadata →
      (Value.object u.fields).depth ≤ maxDepth → u.encode = .ok f → u.ReadsBack f) ∧
    (∀ (d : Downlink) (f : Frame), Legible d.data d.metadata →
      (Value.object d.fields).depth ≤ maxDepth → d.encode = .ok f → d.ReadsBack f) ∧
    (∀ (isBinary : Bool) (input : Bytes) (u : Uplink) (f : Frame),
      Uplink.decode isBinary input = .ok u →
      (∀ v ∈ jsonValues u.data u.metadata, v.OnlyWords) → u.encode = .ok f →
      f.isBinary = isBinary ∧ Uplink.decode isBinary f.bytes = .ok u) ∧
    (∀ (isBinary : Bool) (input : Bytes) (d : Downlink) (f : Frame),
      Downlink.decode isBinary input = .ok d →
      (∀ v ∈ jsonValues d.data d.metadata, v.OnlyWords) → d.encode = .ok f →
      f.isBinary = isBinary ∧ Downlink.decode isBinary f.bytes = .ok d) := by
  refine ⟨fun u f => Uplink.readsBack, fun d f => Downlink.readsBack, ?_, ?_⟩
  · intro isBinary input u f hdecode hwords hencode
    exact Uplink.decode_of_decoded (Uplink.decoded hdecode) hwords hencode
  · intro isBinary input d f hdecode hwords hencode
    exact Downlink.decode_of_decoded (Downlink.decoded hdecode) hwords hencode

/-- A `null` is lost, an empty list of targets and an empty payload are kept. -/
theorem reading_undoes_writing_nulls :
    let u : Uplink :=
      { action := "move"
        data := some (.json .null)
        targets := some (.many [])
        metadata := some (.object [("x", .number (.word (-1) (by decide)))]) }
    let d : Downlink := { action := "", data := some (.binary []), sender := "a" }
    let empty : Bytes := [2, 0, 0, 0, 0x7B, 0x7D]
    (∃ f, u.encode = .ok f ∧
      Uplink.decode f.isBinary f.bytes = .ok { u with data := none }) ∧
    (∃ f, d.encode = .ok f ∧ Downlink.decode f.isBinary f.bytes = .ok d) ∧
    (∃ u f, Uplink.decode true empty = .ok u ∧ u.encode = .ok f ∧
      Uplink.decode true f.bytes = .ok u) := by
  intro u d empty
  obtain ⟨huplinks, hdownlinks, hagain, -⟩ := reading_undoes_writing
  have hu : Legible u.data u.metadata := by
    simp [Legible, u, jsonValues, jsonData?, Value.IsExact, fieldsExact, Fields.Ascending]
  have hd : Legible d.data d.metadata := by simp [Legible, d, jsonValues, jsonData?]
  obtain ⟨f, hencode⟩ : ∃ f, d.encode = .ok f := exists_encode _ (by decide +kernel)
  refine ⟨⟨_, rfl, (huplinks u _ hu (by decide) rfl).message⟩, ⟨f, hencode, ?_⟩, ?_⟩
  · exact (hdownlinks d f hd (by decide) hencode).same_iff.mpr ⟨by simp [d], by simp [d]⟩
  · let read : Uplink := { action := "", data := some (.binary []) }
    obtain ⟨f, hencode⟩ : ∃ f, read.encode = .ok f := exists_encode _ (by decide +kernel)
    have hagain := hagain true empty read f rfl (by simp [read, jsonValues, jsonData?]) hencode
    exact ⟨read, f, rfl, hencode, hagain.2⟩

end RoomRelay
