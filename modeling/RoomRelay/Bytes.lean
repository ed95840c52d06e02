/-!
Byte sequences, the form in which frames and texts travel.
-/

namespace RoomRelay

abbrev Bytes := List UInt8

/-- The UTF-8 form of a text. -/
def textBytes (s : String) : Bytes :=
  s.toUTF8.toList

/-- The text of which these bytes are the UTF-8 form. -/
def textOfBytes? (bytes : Bytes) : Option String :=
  String.fromUTF8? bytes.toByteArray

/-- The value of a decimal digit. -/
def digit? (b : UInt8) : Option Nat :=
  if 0x30 ≤ b && b ≤ 0x39 then some (b.toNat - 0x30) else none

/-- The value of a hexadecimal digit of either case. -/
def hexDigit? (b : UInt8) : Option Nat :=
  if 0x30 ≤ b && b ≤ 0x39 then some (b.toNat - 0x30)
  else if 0x61 ≤ b && b ≤ 0x66 then some (b.toNat - 0x61 + 10)
  else if 0x41 ≤ b && b ≤ 0x46 then some (b.toNat - 0x41 + 10)
  else none

end RoomRelay
