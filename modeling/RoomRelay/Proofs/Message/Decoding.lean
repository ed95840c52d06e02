import RoomRelay.Message.Codec
import RoomRelay.Proofs.Json.Shape
import RoomRelay.Proofs.Message.Layout

/-!
What a message has of the frame that it was read from. The object of a text frame is its whole
text, that of a binary frame is its metadata, and what follows the metadata is the data of the
message. No field of a message that was read is a `null`.
-/

namespace RoomRelay

open Json

theorem parse_readObject {input : Bytes} {fields : List (String × Value)}
    (h : readObject input = .ok fields) : parse input = .ok (.object fields) := by
  unfold readObject at h
  split at h
  · rename_i hparse
    cases h
    exact hparse
  · cases h
  · cases h

/-- The object of a frame, and the bytes that stand beside it. -/
inductive ReadFrom (input : Bytes) (fields : List (String × Value)) :
    Bool → Option Payload → Prop where
  | text (whole : parse input = .ok (.object fields)) : ReadFrom input fields false none
  | binary (payload metadata : Bytes) (unpacks : unpack input = .ok (payload, metadata))
      (object : parse metadata = .ok (.object fields)) :
      ReadFrom input fields true (some (.binary payload))

theorem readFrom_readFrame {isBinary : Bool} {input : Bytes} {fields : List (String × Value)}
    {bytes : Option Payload} (h : readFrame isBinary input = .ok (fields, bytes)) :
    ReadFrom input fields isBinary bytes := by
  cases isBinary with
  | false =>
      change (readObject input >>= fun fields => pure (fields, none)) = _ at h
      cases hread : readObject input with
      | error e =>
          rw [hread] at h
          cases h
      | ok found =>
          rw [hread] at h
          cases h
          exact .text (parse_readObject hread)
  | true =>
      simp only [readFrame, if_true] at h
      split at h
      · rename_i payload metadata hunpack
        cases hread : readObject metadata with
        | error e =>
            rw [hread] at h
            cases h
        | ok found =>
            rw [hread] at h
            cases h
            exact .binary payload metadata hunpack (parse_readObject hread)
      · cases h

/-- A decoder reads the frame and then the fields of its object. -/
theorem exists_of_decodes {α : Type} {ofFields : List (String × Value) → Except FieldError α}
    {withData : Option Payload → α → α} {isBinary : Bool} {input : Bytes} {m : α}
    (h : (do
      let (fields, payload) ← readFrame isBinary input
      let m ← (ofFields fields).mapError CodecError.field
      return withData payload m) = .ok m) :
    ∃ fields bytes v, readFrame isBinary input = .ok (fields, bytes) ∧ ofFields fields = .ok v ∧
      m = withData bytes v := by
  cases hframe : readFrame isBinary input with
  | error e =>
      rw [hframe] at h
      cases h
  | ok found =>
      obtain ⟨fields, bytes⟩ := found
      rw [hframe] at h
      change ((ofFields fields).mapError CodecError.field >>= _) = _ at h
      cases hfields : ofFields fields with
      | error e =>
          rw [hfields] at h
          cases h
      | ok v =>
          rw [hfields] at h
          cases h
          exact ⟨fields, bytes, v, rfl, hfields, rfl⟩

theorem Uplink.exists_fields {isBinary : Bool} {input : Bytes} {u : Uplink}
    (h : Uplink.decode isBinary input = .ok u) :
    ∃ fields bytes v, readFrame isBinary input = .ok (fields, bytes) ∧
      Uplink.ofFields fields = .ok v ∧ u = { v with data := bytes <|> v.data } :=
  exists_of_decodes h

theorem Downlink.exists_fields {isBinary : Bool} {input : Bytes} {d : Downlink}
    (h : Downlink.decode isBinary input = .ok d) :
    ∃ fields bytes v, readFrame isBinary input = .ok (fields, bytes) ∧
      Downlink.ofFields fields = .ok v ∧ d = { v with data := bytes <|> v.data } :=
  exists_of_decodes h

/-! ### Data and metadata -/

theorem Uplink.values_ofFields {fields : List (String × Value)} {u : Uplink}
    (h : Uplink.ofFields fields = .ok u) :
    u.data = (valueField? "data" fields).map .json ∧
      u.metadata = valueField? "metadata" fields := by
  unfold Uplink.ofFields at h
  cases haction : stringField? "action" fields with
  | error e =>
      rw [haction] at h
      cases h
  | ok action =>
      rw [haction] at h
      cases h
      exact ⟨rfl, rfl⟩

theorem Downlink.values_ofFields {fields : List (String × Value)} {d : Downlink}
    (h : Downlink.ofFields fields = .ok d) :
    d.data = (valueField? "data" fields).map .json ∧
      d.metadata = valueField? "metadata" fields := by
  unfold Downlink.ofFields at h
  cases haction : stringField? "action" fields with
  | error e =>
      rw [haction] at h
      cases h
  | ok action =>
      rw [haction] at h
      cases hsender : stringField? "peerId" fields with
      | error e =>
          rw [hsender] at h
          cases h
      | ok sender =>
          rw [hsender] at h
          cases action with
          | none => cases h
          | some action =>
              cases sender with
              | none => cases h
              | some sender =>
                  cases h
                  exact ⟨rfl, rfl⟩

/-- The data and the metadata of a message that was read from a frame. -/
structure Decoded (isBinary : Bool) (data : Option Payload) (metadata : Option Value) : Prop where
  binary_iff : isBinary = true ↔ ∃ payload, data = some (.binary payload)
  data_ne_null : data ≠ some (.json .null)
  metadata_ne_null : metadata ≠ some .null
  data_fits : ∀ v, data = some (.json v) → v.Fits 1
  metadata_fits : ∀ v, metadata = some v → v.Fits 1

theorem valueField?_ne_null (name : String) (fields : List (String × Value)) :
    valueField? name fields ≠ some .null := by
  unfold valueField?
  split
  · simp
  · rename_i hother
    exact hother

theorem find?_of_valueField? {name : String} {fields : List (String × Value)} {v : Value}
    (h : valueField? name fields = some v) : Fields.find? name fields = some v := by
  unfold valueField? at h
  split at h
  · cases h
  · exact h

theorem fits_valueField? {name : String} {fields : List (String × Value)} {v : Value}
    (object : (Value.object fields).Fits 0) (h : valueField? name fields = some v) : v.Fits 1 := by
  obtain ⟨f, hf, rfl⟩ := Option.map_eq_some_iff.mp (find?_of_valueField? h)
  exact (fits_object_iff.mp object).2.2 f (List.mem_of_find?_eq_some hf)

theorem decoded_readFrame {isBinary : Bool} {input : Bytes} {fields : List (String × Value)}
    {bytes : Option Payload} (h : readFrame isBinary input = .ok (fields, bytes)) :
    Decoded isBinary (bytes <|> (valueField? "data" fields).map .json)
      (valueField? "metadata" fields) := by
  cases readFrom_readFrame h with
  | text whole =>
      have hobject := fits_parse whole
      have hdata (v : Value) (hv : (valueField? "data" fields).map Payload.json = some (.json v)) :
          valueField? "data" fields = some v := by
        cases hfield : valueField? "data" fields <;> simp_all
      refine ⟨?_, ?_, valueField?_ne_null _ _, ?_, fun v => fits_valueField? hobject⟩
      · cases valueField? "data" fields <;> simp
      · exact fun hnull => valueField?_ne_null _ _ (hdata .null hnull)
      · exact fun v hv => fits_valueField? hobject (hdata v hv)
  | binary payload metadata unpacks object =>
      have hobject := fits_parse object
      refine ⟨?_, ?_, valueField?_ne_null _ _, ?_, fun v => fits_valueField? hobject⟩
      · simp
      · rintro ⟨⟩
      · rintro v ⟨⟩

theorem Uplink.decoded {isBinary : Bool} {input : Bytes} {u : Uplink}
    (h : Uplink.decode isBinary input = .ok u) : Decoded isBinary u.data u.metadata := by
  obtain ⟨fields, bytes, v, hframe, hfields, rfl⟩ := Uplink.exists_fields h
  obtain ⟨hdata, hmetadata⟩ := Uplink.values_ofFields hfields
  change Decoded isBinary (bytes <|> v.data) v.metadata
  rw [hdata, hmetadata]
  exact decoded_readFrame hframe

theorem Downlink.decoded {isBinary : Bool} {input : Bytes} {d : Downlink}
    (h : Downlink.decode isBinary input = .ok d) : Decoded isBinary d.data d.metadata := by
  obtain ⟨fields, bytes, v, hframe, hfields, rfl⟩ := Downlink.exists_fields h
  obtain ⟨hdata, hmetadata⟩ := Downlink.values_ofFields hfields
  change Decoded isBinary (bytes <|> v.data) v.metadata
  rw [hdata, hmetadata]
  exact decoded_readFrame hframe

end RoomRelay
