import RoomRelay.Bytes

/-!
The layout of a binary frame: the length of the metadata as four bytes, the least significant
first, then the metadata, then the payload.
-/

namespace RoomRelay

/-- Why a frame could not be read or written. -/
inductive FramingError where
  | noLength
  | cutShort (declared available : Nat)
  | tooLarge (length : Nat)
deriving DecidableEq, Repr

def FramingError.message : FramingError → String
  | .noLength => "buffer too short"
  | .cutShort declared available =>
    s!"buffer too short for metadata (declared {declared} bytes, {available} available)"
  | .tooLarge length => s!"metadata of {length} bytes does not fit a u32 length prefix"

/-- The four bytes of a length below `2 ^ 32`. -/
def lengthBytes (n : Nat) : Bytes :=
  [n % 256, n / 256 % 256, n / 65536 % 256, n / 16777216 % 256].map UInt8.ofNat

def lengthOf (b₀ b₁ b₂ b₃ : UInt8) : Nat :=
  b₀.toNat + 256 * (b₁.toNat + 256 * (b₂.toNat + 256 * b₃.toNat))

@[simp]
theorem length_lengthBytes (n : Nat) : (lengthBytes n).length = 4 := rfl

theorem lengthOf_lengthBytes {n : Nat} (h : n < 4294967296) :
    lengthOf (.ofNat (n % 256)) (.ofNat (n / 256 % 256)) (.ofNat (n / 65536 % 256))
      (.ofNat (n / 16777216 % 256)) = n := by
  simp only [lengthOf, UInt8.toNat_ofNat']
  omega

theorem lengthBytes_lengthOf (b₀ b₁ b₂ b₃ : UInt8) :
    lengthBytes (lengthOf b₀ b₁ b₂ b₃) = [b₀, b₁, b₂, b₃] := by
  have := b₀.toNat_lt; have := b₁.toNat_lt; have := b₂.toNat_lt; have := b₃.toNat_lt
  simp only [lengthBytes, lengthOf, List.map_cons, List.map_nil, List.cons.injEq, and_true,
    ← UInt8.toNat_inj, UInt8.toNat_ofNat']
  omega

def pack (payload metadata : Bytes) : Except FramingError Bytes :=
  if metadata.length < 4294967296 then
    return lengthBytes metadata.length ++ metadata ++ payload
  else throw (.tooLarge metadata.length)

/-- The payload and the metadata of a binary frame. -/
def unpack : Bytes → Except FramingError (Bytes × Bytes)
  | b₀ :: b₁ :: b₂ :: b₃ :: rest =>
    let declared := lengthOf b₀ b₁ b₂ b₃
    if rest.length < declared then throw (.cutShort declared rest.length)
    else return (rest.drop declared, rest.take declared)
  | _ => throw .noLength

end RoomRelay
