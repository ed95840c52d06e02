import RoomRelay.Proofs.Message.Grammar

/-!
Messages that are read in the direction for which they were not written. A downlink reads as an
uplink that says the same and names no targets. An uplink never reads as a downlink, whatever it
holds: no field of its own is the sender, and fields within its values do not count.
-/

namespace RoomRelay

open Json

/-! ### Downlinks as uplinks -/

/-- What an uplink can say of a downlink. -/
def Downlink.asUplink (d : Downlink) : Uplink :=
  { action := d.action
    data := nonNullData d.data
    targets := none
    metadata := nonNull d.metadata }

/-- The sender is a field that the reader of an uplink does not look at, and targets are one that no
downlink has. -/
theorem Downlink.ofFields_asUplink (d : Downlink) :
    Uplink.ofFields (Fields.insertAll d.fields []) = .ok
      { action := d.action
        data := (nonNull (jsonData? d.data)).map .json
        targets := none
        metadata := nonNull d.metadata } := by
  have hfind (key : String) := find?_read d.keys_nodup key
  have haction : Fields.find? "action" d.fields = some (.string d.action) := by simp [fields]
  have hdata : Fields.find? "data" d.fields = jsonData? d.data := by simp [fields]
  have htargets : Fields.find? "targetPeers" d.fields = none := by simp [fields]
  have hmetadata : Fields.find? "metadata" d.fields = d.metadata := by simp [fields]
  simp only [Uplink.ofFields, stringField?, valueField?_eq, hfind, haction, hdata, htargets,
    hmetadata]
  rfl

theorem Downlink.decode_asUplink {d : Downlink} {f : Frame} (legible : Legible d.data d.metadata)
    (depth : (Value.object d.fields).depth ≤ maxDepth) (encodes : d.encode = .ok f) :
    Uplink.decode f.isBinary f.bytes = .ok d.asUplink := by
  rw [Uplink.decode, readFrame_encode encodes (fieldsExact_fields legible) depth]
  change ((Uplink.ofFields (Fields.insertAll d.fields [])).mapError _ >>= _) = _
  rw [ofFields_asUplink, asUplink, ← binary_or_json]
  rfl

/-! ### Uplinks as downlinks -/

/-- Whatever is recovered from an uplink, it has an action and lacks a sender. -/
theorem Uplink.lacks_sender {u : Uplink} {found : List (String × Value)}
    (recovers : Recovers u.fields found) : Downlink.Misfit found (.missing "peerId") := by
  have haction : Fields.find? "action" u.fields = some (.string u.action) := by simp [fields]
  have hsender : Fields.find? "peerId" u.fields = none := by simp [fields]
  exact .noSender u.action (recovers.strings "action" u.action haction)
    ((recovers.keys "peerId").mpr hsender)

theorem Uplink.decode_asDownlink {u : Uplink} {f : Frame}
    (depth : (Value.object u.fields).depth ≤ maxDepth) (encodes : u.encode = .ok f) :
    Downlink.decode f.isBinary f.bytes = .error (.field (.missing "peerId")) := by
  obtain ⟨read, -, hparse⟩ := exists_read depth
  obtain ⟨found, hobject, hrecovers⟩ := recovers_of_parse u.keys_nodup hparse
  rw [hobject] at hparse
  exact (Downlink.readsExactly.verdict f.isBinary f.bytes _).mpr
    (.field _ _ found _ (hasText_encode encodes) hparse (lacks_sender hrecovers))

theorem Uplink.unreadable_of_deep {u : Uplink} {f : Frame}
    (deep : maxDepth < (Value.object u.fields).depth) (encodes : u.encode = .ok f) :
    Downlink.decode f.isBinary f.bytes = .error (.unreadable .malformed) :=
  (Downlink.readsExactly.verdict f.isBinary f.bytes _).mpr
    (.unreadable _ _ .malformed (hasText_encode encodes) (parse_of_deep deep))

/-! ### The two directions -/

/-- A downlink that is read as an uplink keeps its action, its data and its metadata, but for a
`null`, and has no targets. An uplink that is read as a downlink, whatever numbers it holds, is
refused for want of a sender, unless it is nested so deep that its text cannot be read at all. -/
theorem directions_kept_apart :
    (∀ (d : Downlink) (f : Frame), Legible d.data d.metadata →
      (Value.object d.fields).depth ≤ maxDepth → d.encode = .ok f →
      Uplink.decode f.isBinary f.bytes = .ok
        { action := d.action
          data := nonNullData d.data
          targets := none
          metadata := nonNull d.metadata }) ∧
    ∀ (u : Uplink) (f : Frame), u.encode = .ok f →
      ((Value.object u.fields).depth ≤ maxDepth →
        Downlink.decode f.isBinary f.bytes = .error (.field (.missing "peerId"))) ∧
      (maxDepth < (Value.object u.fields).depth →
        Downlink.decode f.isBinary f.bytes = .error (.unreadable .malformed)) :=
  ⟨fun _ _ => Downlink.decode_asUplink, fun _ _ encodes =>
    ⟨fun depth => Uplink.decode_asDownlink depth encodes,
      fun deep => Uplink.unreadable_of_deep deep encodes⟩⟩

/-- Keys of the other direction within the metadata, a `null` that is lost, and an uplink whose data
is bytes and whose metadata holds a double. -/
theorem directions_kept_apart_nested :
    let metadata : Value := .object [("peerId", .string "b"), ("targetPeers", .array [.string "c"])]
    let d : Downlink :=
      { action := "offer", data := some (.json .null), sender := "a", metadata := some metadata }
    let u : Uplink :=
      { action := "offer"
        data := some (.binary [1])
        targets := some (.one "a")
        metadata := some (.array [metadata, .number (.double 0.5)]) }
    (∃ f, d.encode = .ok f ∧ Uplink.decode f.isBinary f.bytes = .ok
      { action := "offer", data := none, targets := none, metadata := some metadata }) ∧
    ∃ f, u.encode = .ok f ∧ f.isBinary = true ∧
      Downlink.decode f.isBinary f.bytes = .error (.field (.missing "peerId")) := by
  intro metadata d u
  obtain ⟨hdownlinks, huplinks⟩ := directions_kept_apart
  have hascending : ("peerId" : String) < "targetPeers" := by decide
  have hmetadata : metadata.IsExact := by
    refine ⟨?_, ?_⟩
    · simpa only [Fields.Ascending, List.pairwise_pair] using hascending
    · simp [Value.IsExact, fieldsExact, itemsExact]
  have hd : Legible d.data d.metadata := by
    simpa [Legible, d, jsonValues, jsonData?, Value.IsExact] using hmetadata
  obtain ⟨f, hencode⟩ : ∃ f, u.encode = .ok f := exists_encode _ (by decide +kernel)
  refine ⟨⟨_, rfl, hdownlinks d _ hd (by decide) rfl⟩, f, hencode, ?_, ?_⟩
  · exact (isBinary_encode_iff hencode).mpr ⟨_, rfl⟩
  · exact (huplinks u f hencode).1 (by decide)

/-- A `null` inside so many arrays. -/
def nested : Nat → Value
  | 0 => .null
  | n + 1 => .array [nested n]

/-- The data is nested as deep as a document may be, and with the message around it the frame can
be written but not be read: the missing sender does not come to light. -/
theorem nested_uplink_unreadable :
    let u : Uplink :=
      { action := "offer", data := some (.json (nested 127)), targets := none, metadata := none }
    ∃ f, u.encode = .ok f ∧
      Downlink.decode f.isBinary f.bytes = .error (.unreadable .malformed) ∧
      Downlink.decode f.isBinary f.bytes ≠ .error (.field (.missing "peerId")) := by
  intro u
  have hdecode : Downlink.decode _ _ = .error (.unreadable .malformed) :=
    Uplink.unreadable_of_deep (u := u) (by decide +kernel) rfl
  refine ⟨_, rfl, hdecode, ?_⟩
  rw [hdecode]
  simp

end RoomRelay
