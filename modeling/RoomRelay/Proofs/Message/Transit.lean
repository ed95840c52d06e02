import RoomRelay.Proofs.Message.RoundTrip

/-!
What a message is on its way from one client to another. The frame that a recipient gets is of the
kind of the frame that the sender sent, and it holds the same message under the name of the sender:
the relay decodes and writes again, and neither loses anything.
-/

namespace RoomRelay

open Json

/-- The frame holds what an uplink of a client says, as a message of that client. -/
structure Uplink.Arrives (u : Uplink) (sender : PeerId) (isBinary : Bool) (input : Bytes)
    (f : Frame) : Prop where
  kind : f.isBinary = isBinary
  message : Downlink.decode isBinary f.bytes = .ok
    { action := u.action, data := u.data, sender := sender, metadata := u.metadata }
  payload : isBinary = true → ∃ payload sent received,
    unpack input = .ok (payload, sent) ∧ unpack f.bytes = .ok (payload, received) ∧
      u.data = some (.binary payload)

/-- The data of a binary frame is what follows its metadata. -/
theorem Uplink.data_of_decode {input : Bytes} {u : Uplink} (h : Uplink.decode true input = .ok u) :
    ∃ payload metadata, unpack input = .ok (payload, metadata) ∧
      u.data = some (.binary payload) := by
  obtain ⟨fields, bytes, v, hframe, -, rfl⟩ := Uplink.exists_fields h
  cases readFrom_readFrame hframe with
  | binary payload metadata unpacks object => exact ⟨payload, metadata, unpacks, rfl⟩

/-- A message whose data is bytes is framed beside them. -/
theorem exists_unpack_of_encode {fields : List (String × Value)} {payload : Bytes} {f : Frame}
    (h : RoomRelay.encode fields (some (.binary payload)) = .ok f) :
    ∃ metadata, unpack f.bytes = .ok (payload, metadata) := by
  cases hpack : pack payload (textBytes (objectText fields)) with
  | error e =>
      simp only [RoomRelay.encode, hpack] at h
      cases h
  | ok packed =>
      simp only [RoomRelay.encode, hpack] at h
      cases h
      exact ⟨_, unpack_pack hpack⟩

/-- A message that the relay accepts and can frame for its recipients is read by them as it was
sent: of the same kind, with the same action, data and metadata, and under the name of its
sender. -/
theorem Uplink.relayed_arrives {isBinary : Bool} {input : Bytes} {u : Uplink} {sender : PeerId}
    {f : Frame} (decodes : Uplink.decode isBinary input = .ok u)
    (words : ∀ v ∈ jsonValues u.data u.metadata, v.OnlyWords)
    (encodes : (u.relayed sender).encode = .ok f) : u.Arrives sender isBinary input f := by
  have hdecoded : Decoded isBinary (u.relayed sender).data (u.relayed sender).metadata :=
    Uplink.decoded decodes
  obtain ⟨hkind, hmessage⟩ := Downlink.decode_of_decoded hdecoded words encodes
  refine ⟨hkind, hmessage, ?_⟩
  rintro rfl
  obtain ⟨payload, sent, hsent, hdata⟩ := data_of_decode decodes
  have hframed : RoomRelay.encode (u.relayed sender).fields (some (.binary payload)) = .ok f :=
    hdata ▸ encodes
  obtain ⟨received, hreceived⟩ := exists_unpack_of_encode hframed
  exact ⟨payload, sent, received, hsent, hreceived, hdata⟩

/-- The payload of a binary frame, even if it is empty, takes the place of a `data` field, here
`1`. -/
theorem Uplink.relayed_arrives_emptyPayload :
    let input : Bytes :=
      [10, 0, 0, 0, 0x7B, 0x22, 0x64, 0x61, 0x74, 0x61, 0x22, 0x3A, 0x31, 0x7D]
    let u : Uplink := { action := "", data := some (.binary []) }
    ∃ f, (u.relayed "a").encode = .ok f ∧ Uplink.decode true input = .ok u ∧
      u.Arrives "a" true input f := by
  intro input u
  have hdecode : Uplink.decode true input = .ok u := rfl
  obtain ⟨f, hencode⟩ : ∃ f, (u.relayed "a").encode = .ok f := exists_encode _ (by decide +kernel)
  exact ⟨f, hencode, hdecode, relayed_arrives hdecode (by simp [u, jsonValues, jsonData?]) hencode⟩

end RoomRelay
