import Mathlib.Data.Nat.Digits.Defs
import RoomRelay.Json.Printer
import RoomRelay.Message.Framing

/-!
The layout of a binary frame leaves no choice. Metadata and payload have one frame, which exists
unless the metadata takes 4 GiB or more, and a frame has one pair of metadata and payload, which is
missing only where the frame ends too early. So a frame that is cut off loses payload, or it is
refused with the length that it declares and the length that is left.
-/

namespace RoomRelay

open Json

/-- The number that these bytes stand for, the least significant first. -/
def byteValue (bytes : Bytes) : Nat :=
  Nat.ofDigits 256 (bytes.map UInt8.toNat)

theorem byteValue_lengthBytes {n : Nat} (h : n < 2 ^ 32) : byteValue (lengthBytes n) = n := by
  simp only [byteValue, lengthBytes, List.map_cons, List.map_nil, Nat.ofDigits_cons,
    Nat.ofDigits_nil, UInt8.toNat_ofNat']
  omega

theorem lengthOf_eq_byteValue (b₀ b₁ b₂ b₃ : UInt8) :
    lengthOf b₀ b₁ b₂ b₃ = byteValue [b₀, b₁, b₂, b₃] := by
  simp [lengthOf, byteValue, Nat.ofDigits_cons]

theorem exists_four {head : Bytes} (four : head.length = 4) :
    ∃ b₀ b₁ b₂ b₃, head = [b₀, b₁, b₂, b₃] := by
  match head, four with
  | [b₀, b₁, b₂, b₃], _ => exact ⟨b₀, b₁, b₂, b₃, rfl⟩

/-- Four bytes are those of the length that they stand for. -/
theorem lengthBytes_byteValue {head : Bytes} (four : head.length = 4) :
    lengthBytes (byteValue head) = head ∧ byteValue head < 2 ^ 32 := by
  obtain ⟨b₀, b₁, b₂, b₃, rfl⟩ := exists_four four
  rw [← lengthOf_eq_byteValue]
  refine ⟨lengthBytes_lengthOf b₀ b₁ b₂ b₃, ?_⟩
  have := b₀.toNat_lt; have := b₁.toNat_lt; have := b₂.toNat_lt; have := b₃.toNat_lt
  simp only [lengthOf]
  omega

/-! ### Taking a frame apart -/

theorem unpack_of_short {input : Bytes} (h : input.length < 4) :
    unpack input = .error .noLength := by
  match input, h with
  | [], _ => rfl
  | [_], _ => rfl
  | [_, _], _ => rfl
  | [_, _, _], _ => rfl

theorem unpack_append {head : Bytes} (four : head.length = 4) (rest : Bytes) :
    unpack (head ++ rest) =
      if rest.length < byteValue head then .error (.cutShort (byteValue head) rest.length)
      else .ok (rest.drop (byteValue head), rest.take (byteValue head)) := by
  obtain ⟨b₀, b₁, b₂, b₃, rfl⟩ := exists_four four
  rw [← lengthOf_eq_byteValue]
  rfl

/-- A frame that has a length is taken apart where this length says, if it reaches as far. -/
theorem unpack_of_long {input : Bytes} (h : 4 ≤ input.length) :
    unpack input =
      if input.length - 4 < byteValue (input.take 4) then
        .error (.cutShort (byteValue (input.take 4)) (input.length - 4))
      else .ok ((input.drop 4).drop (byteValue (input.take 4)),
        (input.drop 4).take (byteValue (input.take 4))) := by
  have hfour : (input.take 4).length = 4 := by
    rw [List.length_take]
    omega
  have hsplit := unpack_append hfour (input.drop 4)
  rwa [List.take_append_drop, List.length_drop] at hsplit

/-- The only frame of this metadata and this payload. -/
def layOut (payload metadata : Bytes) : Bytes :=
  lengthBytes metadata.length ++ metadata ++ payload

theorem unpack_layOut {metadata : Bytes} (short : metadata.length < 2 ^ 32) (payload : Bytes) :
    unpack (layOut payload metadata) = .ok (payload, metadata) := by
  rw [layOut, List.append_assoc, unpack_append (length_lengthBytes _), byteValue_lengthBytes short,
    if_neg (by simp), List.drop_left, List.take_left]

theorem unpack_eq_ok_iff {input payload metadata : Bytes} :
    unpack input = .ok (payload, metadata) ↔
      metadata.length < 2 ^ 32 ∧ input = layOut payload metadata := by
  constructor
  · intro h
    rcases Nat.lt_or_ge input.length 4 with hshort | hlong
    · rw [unpack_of_short hshort] at h
      cases h
    · rw [unpack_of_long hlong] at h
      split at h
      · cases h
      · rename_i hreaches
        cases h
        have hfour : (input.take 4).length = 4 := by simp [hlong]
        obtain ⟨hbytes, hbound⟩ := lengthBytes_byteValue hfour
        have hlength :
            ((input.drop 4).take (byteValue (input.take 4))).length = byteValue (input.take 4) := by
          rw [List.length_take, List.length_drop]
          omega
        refine ⟨by rwa [hlength], ?_⟩
        rw [layOut, hlength, hbytes, List.append_assoc, List.take_append_drop,
          List.take_append_drop]
  · rintro ⟨hshort, rfl⟩
    exact unpack_layOut hshort payload

theorem length_unpack {input payload metadata : Bytes}
    (h : unpack input = .ok (payload, metadata)) : metadata.length + 4 ≤ input.length := by
  obtain ⟨-, rfl⟩ := unpack_eq_ok_iff.mp h
  simp only [layOut, List.length_append, length_lengthBytes]
  omega

/-! ### Putting a frame together -/

theorem pack_of_short {metadata : Bytes} (short : metadata.length < 2 ^ 32) (payload : Bytes) :
    pack payload metadata = .ok (layOut payload metadata) := if_pos short

theorem pack_of_long {metadata : Bytes} (long : 2 ^ 32 ≤ metadata.length) (payload : Bytes) :
    pack payload metadata = .error (.tooLarge metadata.length) := if_neg (Nat.not_lt.mpr long)

theorem eq_layOut_of_pack {payload metadata packed : Bytes}
    (h : pack payload metadata = .ok packed) :
    metadata.length < 2 ^ 32 ∧ packed = layOut payload metadata := by
  rcases Nat.lt_or_ge metadata.length (2 ^ 32) with hshort | hlong
  · rw [pack_of_short hshort] at h
    cases h
    exact ⟨hshort, rfl⟩
  · rw [pack_of_long hlong] at h
    cases h

theorem unpack_pack {payload metadata packed : Bytes} (h : pack payload metadata = .ok packed) :
    unpack packed = .ok (payload, metadata) := by
  obtain ⟨hshort, rfl⟩ := eq_layOut_of_pack h
  exact unpack_layOut hshort payload

/-! ### The exact statement -/

/-- What becomes of metadata and payload, of their frame, and of every part of it that a sender who
is cut off may leave. -/
structure PacksExactly (payload metadata : Bytes) : Prop where
  error_iff : ∀ e, pack payload metadata = .error e ↔
    2 ^ 32 ≤ metadata.length ∧ e = .tooLarge metadata.length
  ok_iff : ∀ packed, pack payload metadata = .ok packed ↔
    metadata.length < 2 ^ 32 ∧ packed = lengthBytes metadata.length ++ metadata ++ payload
  declares : metadata.length < 2 ^ 32 → (lengthBytes metadata.length).length = 4 ∧
    byteValue (lengthBytes metadata.length) = metadata.length
  unpacks : ∀ packed, pack payload metadata = .ok packed →
    unpack packed = .ok (payload, metadata)
  noLength : ∀ packed, pack payload metadata = .ok packed → ∀ k < 4,
    unpack (packed.take k) = .error .noLength
  cutShort : ∀ packed, pack payload metadata = .ok packed → ∀ k < metadata.length,
    unpack (packed.take (4 + k)) = .error (.cutShort metadata.length k)
  cutPayload : ∀ packed, pack payload metadata = .ok packed → ∀ k,
    unpack (packed.take (4 + metadata.length + k)) = .ok (payload.take k, metadata)

/-- What becomes of any bytes that are read as a frame. -/
structure UnpacksExactly (input : Bytes) : Prop where
  ok_iff : ∀ payload metadata, unpack input = .ok (payload, metadata) ↔
    metadata.length < 2 ^ 32 ∧ input = lengthBytes metadata.length ++ metadata ++ payload
  noLength_iff : unpack input = .error .noLength ↔ input.length < 4
  cutShort_iff : ∀ declared available, unpack input = .error (.cutShort declared available) ↔
    4 ≤ input.length ∧ available = input.length - 4 ∧ declared = byteValue (input.take 4) ∧
      available < declared
  ne_tooLarge : ∀ length, unpack input ≠ .error (.tooLarge length)
  in_range : ∀ payload metadata, unpack input = .ok (payload, metadata) →
    4 + byteValue (input.take 4) ≤ input.length ∧
      metadata = (input.drop 4).take (byteValue (input.take 4)) ∧
      payload = (input.drop 4).drop (byteValue (input.take 4))

/-- What a frame begins with, its length apart. -/
theorem take_layOut (payload metadata : Bytes) (k : Nat) :
    (layOut payload metadata).take (4 + k) =
      lengthBytes metadata.length ++ (metadata ++ payload).take k := by
  rw [layOut, List.append_assoc, ← length_lengthBytes metadata.length, List.take_length_add_append]

theorem packsExactly (payload metadata : Bytes) : PacksExactly payload metadata where
  error_iff := by
    intro e
    constructor
    · intro h
      rcases Nat.lt_or_ge metadata.length (2 ^ 32) with hshort | hlong
      · rw [pack_of_short hshort] at h
        cases h
      · rw [pack_of_long hlong] at h
        cases h
        exact ⟨hlong, rfl⟩
    · rintro ⟨hlong, rfl⟩
      exact pack_of_long hlong payload
  ok_iff := by
    intro packed
    constructor
    · exact eq_layOut_of_pack
    · rintro ⟨hshort, rfl⟩
      exact pack_of_short hshort payload
  declares := fun hshort => ⟨length_lengthBytes _, byteValue_lengthBytes hshort⟩
  unpacks := fun _ => unpack_pack
  noLength := by
    intro packed _ k hk
    apply unpack_of_short
    rw [List.length_take]
    omega
  cutShort := by
    intro packed h k hk
    obtain ⟨hshort, rfl⟩ := eq_layOut_of_pack h
    have hlength : ((metadata ++ payload).take k).length = k := by
      rw [List.length_take, List.length_append]
      omega
    rw [take_layOut, unpack_append (length_lengthBytes _), byteValue_lengthBytes hshort, hlength,
      if_pos hk]
  cutPayload := by
    intro packed h k
    obtain ⟨hshort, rfl⟩ := eq_layOut_of_pack h
    rw [Nat.add_assoc, take_layOut, List.take_length_add_append, ← List.append_assoc]
    exact unpack_layOut hshort (payload.take k)

theorem unpacksExactly (input : Bytes) : UnpacksExactly input := by
  rcases Nat.lt_or_ge input.length 4 with hshort | hlong
  · have hunpack := unpack_of_short hshort
    refine ⟨fun payload metadata => unpack_eq_ok_iff, ?_, ?_, ?_, ?_⟩
    · simp [hunpack, hshort]
    · intro declared available
      simp [hunpack, Nat.not_le.mpr hshort]
    · simp [hunpack]
    · simp [hunpack]
  · have hunpack := unpack_of_long hlong
    refine ⟨fun payload metadata => unpack_eq_ok_iff, ?_, ?_, ?_, ?_⟩
    · rw [hunpack]
      split <;> simp [hlong]
    · intro declared available
      rw [hunpack]
      split
      · rename_i hless
        simp only [Except.error.injEq, FramingError.cutShort.injEq]
        constructor
        · rintro ⟨rfl, rfl⟩
          exact ⟨hlong, rfl, rfl, hless⟩
        · rintro ⟨-, rfl, rfl, -⟩
          exact ⟨rfl, rfl⟩
      · rename_i hreaches
        simp only [reduceCtorEq, false_iff]
        rintro ⟨-, rfl, rfl, hless⟩
        exact hreaches hless
    · intro length h
      rw [hunpack] at h
      split at h <;> cases h
    · intro payload metadata h
      rw [hunpack] at h
      split at h
      · cases h
      · rename_i hreaches
        cases h
        exact ⟨by omega, rfl, rfl⟩

/-- Framing is exact in both directions: for every payload and every JSON value as metadata, and
for all bytes that are read as a frame. -/
theorem framing_exact :
    (∀ (payload : Bytes) (v : Value), PacksExactly payload (textBytes v.text)) ∧
      ∀ input, UnpacksExactly input := by
  constructor
  · intro payload v
    exact packsExactly payload (textBytes v.text)
  · intro input
    exact unpacksExactly input

end RoomRelay
