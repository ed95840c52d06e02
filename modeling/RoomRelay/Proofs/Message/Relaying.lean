import RoomRelay.Proofs.Json.Growth
import RoomRelay.Proofs.Message.Decoding

/-!
When a message can be relayed. Only a message with bytes may be impossible to frame, if its other
fields are too long once they are written, and no frame of less than 64 MiB is read as such a
message.
-/

namespace RoomRelay

open Json

/-- A message with bytes whose other fields, written down, are too long to be framed. -/
def Uplink.Oversized (u : Uplink) (sender : PeerId) : Prop :=
  ∃ payload, u.data = some (.binary payload) ∧
    4294967296 ≤ (textBytes (objectText (u.relayed sender).fields)).length

theorem Uplink.oversized_of_encode {u : Uplink} {sender : PeerId} {e : CodecError}
    (h : (u.relayed sender).encode = .error e) : u.Oversized sender := by
  have hdata : (u.relayed sender).data = u.data := rfl
  simp only [Downlink.encode, RoomRelay.encode, hdata] at h
  split at h
  · rename_i payload hpayload
    refine ⟨payload, hpayload, ?_⟩
    by_contra hshort
    simp only [pack, if_pos (Nat.lt_of_not_le hshort)] at h
    cases h
  · cases h

/-! ### The fields of a message -/

theorem size_le_fieldsChars {fields : List (String × Value)} {f : String × Value}
    (h : f ∈ fields) : f.2.size ≤ (charBytes (fieldsChars fields)).length := by
  induction fields with
  | nil => cases h
  | cons g rest ih =>
      obtain ⟨key, v⟩ := g
      cases rest with
      | nil =>
          rw [fieldsChars, length_charBytes_append, length_charBytes_cons]
          cases List.mem_singleton.mp h
          change v.size ≤ nameSize key + (1 + v.size)
          omega
      | cons g rest =>
          rw [fieldsChars, length_charBytes_append, length_charBytes_cons,
            length_charBytes_append, length_charBytes_cons]
          change f.2.size ≤ nameSize key + (1 + (v.size + (1 + _)))
          rcases List.mem_cons.mp h with rfl | hrest
          · simp only
            omega
          · have hih := ih hrest
            omega

theorem size_le_object {fields : List (String × Value)} {name : String} {v : Value}
    (h : Fields.find? name fields = some v) : v.size ≤ (Value.object fields).size := by
  obtain ⟨f, hf, rfl⟩ := Option.map_eq_some_iff.mp h
  have hfield := size_le_fieldsChars (List.mem_of_find?_eq_some hf)
  rw [size_object]
  omega

/-- A message is written with its action, its metadata and the name of its sender. -/
theorem size_relayed_le {u : Uplink} {payload : Bytes} (data : u.data = some (.binary payload))
    (sender : PeerId) {n : Nat} (action : nameSize u.action ≤ n)
    (metadata : ∀ v, u.metadata = some v → v.size ≤ n) :
    (textBytes (objectText (u.relayed sender).fields)).length ≤
      2 * n + 6 * (textBytes sender).length + 36 := by
  have hsender := nameSize_le sender
  have hobject := size_object_le (u.relayed sender).fields
  have hfields : (u.relayed sender).fields = ("action", .string u.action) ::
      ("peerId", .string sender) :: optionalField "metadata" u.metadata := by
    simp [Downlink.fields, Uplink.relayed, data, jsonData?, optionalField]
  have hnames : nameSize "action" = 8 ∧ nameSize "peerId" = 8 ∧ nameSize "metadata" = 10 := by
    decide +kernel
  have hmetadata : fieldsSize (optionalField "metadata" u.metadata) ≤ n + 12 := by
    cases hu : u.metadata with
    | none => exact Nat.zero_le _
    | some v =>
        have hv := metadata v hu
        change fieldsSize [("metadata", v)] ≤ n + 12
        rw [fieldsSize_cons]
        change _ + 0 ≤ n + 12
        omega
  rw [hfields, fieldsSize_cons, fieldsSize_cons, size_string, size_string] at hobject
  rw [objectText, textBytes_ofList, hfields]
  change (Value.object _).size ≤ _
  omega

/-! ### Frames -/

/-- What a message has of its object. -/
structure Uplink.Holds (u : Uplink) (fields : List (String × Value)) : Prop where
  action : nameSize u.action ≤ (Value.object fields).size
  metadata : ∀ v, u.metadata = some v → v.size ≤ (Value.object fields).size
  data : ∀ payload, u.data ≠ some (.binary payload)

theorem nameSize_action_le {fields : List (String × Value)} {u : Uplink}
    (h : Uplink.ofFields fields = .ok u) : nameSize u.action ≤ (Value.object fields).size := by
  unfold Uplink.ofFields stringField? at h
  cases haction : Fields.find? "action" fields with
  | none =>
      rw [haction] at h
      cases h
      rw [size_object]
      exact Nat.le_add_left 2 _
  | some v =>
      rw [haction] at h
      cases v with
      | string s =>
          cases h
          exact size_le_object haction
      | _ => cases h

theorem holds_ofFields {fields : List (String × Value)} {u : Uplink}
    (h : Uplink.ofFields fields = .ok u) : u.Holds fields := by
  obtain ⟨hdata, hmetadata⟩ := Uplink.values_ofFields h
  refine ⟨nameSize_action_le h, ?_, ?_⟩
  · intro v hv
    rw [hmetadata] at hv
    exact size_le_object (find?_of_valueField? hv)
  · intro payload
    rw [hdata]
    cases valueField? "data" fields <;> simp

/-- What a message with bytes holds besides was read from the frame, less the four bytes of the
length. -/
theorem size_decode {isBinary : Bool} {input payload : Bytes} {u : Uplink}
    (h : Uplink.decode isBinary input = .ok u) (data : u.data = some (.binary payload)) :
    4 ≤ input.length ∧ nameSize u.action ≤ 26 * (input.length - 4) ∧
      ∀ v, u.metadata = some v → v.size ≤ 26 * (input.length - 4) := by
  obtain ⟨fields, bytes, v, hframe, hfields, rfl⟩ := Uplink.exists_fields h
  have hholds := holds_ofFields hfields
  cases readFrom_readFrame hframe with
  | text => exact absurd data (hholds.data payload)
  | binary beside metadata unpacks object =>
      have hlength := length_unpack unpacks
      have hsize := size_parse object
      have hobject : (Value.object fields).size ≤ 26 * (input.length - 4) := by omega
      exact ⟨by omega, hholds.action.trans hobject,
        fun w hw => (hholds.metadata w hw).trans hobject⟩

/-- A frame that is read as a message that cannot be framed again is longer than 64 MiB, together
with the name of the sender. -/
theorem Uplink.Oversized.length_lt {isBinary : Bool} {input : Bytes} {u : Uplink} {sender : PeerId}
    (oversized : u.Oversized sender) (decodes : Uplink.decode isBinary input = .ok u) :
    2 ^ 26 < input.length + (textBytes sender).length := by
  obtain ⟨payload, hdata, hsize⟩ := oversized
  obtain ⟨hlength, haction, hmetadata⟩ := size_decode decodes hdata
  have hrelayed := size_relayed_le hdata sender haction hmetadata
  omega

end RoomRelay
