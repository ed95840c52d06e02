import RoomRelay.Decimal.Shortest

/-!
How a decimal is laid out as text: in plain notation while its exponent is moderate, with a point
and an exponent mark otherwise.
-/

namespace RoomRelay.Decimal

/-- The exponents from `lowest` to `highest` are written in plain notation. -/
structure Layout where
  lowest : Int
  highest : Int
deriving DecidableEq, Repr

def digitChars (ds : List Nat) : List Char :=
  ds.map Nat.digitChar

/-- Plain notation, always with a fraction. -/
def Scientific.plain (s : Scientific) : List Char :=
  if s.exponent < 0 then
    '0' :: '.' :: (List.replicate ((-s.exponent).toNat - 1) '0' ++ digitChars s.digits)
  else
    let before := s.exponent.toNat + 1
    let whole := digitChars (s.digits.take before)
    let fraction := digitChars (s.digits.drop before)
    whole ++ List.replicate (before - s.digits.length) '0' ++
      '.' :: (if fraction.isEmpty then ['0'] else fraction)

/-- One digit before the point, the point only where digits follow it, and an exponent that always
has a sign. -/
def Scientific.withExponent (s : Scientific) : List Char :=
  let mantissa := match s.digits with
    | [] => ['0']
    | [d] => digitChars [d]
    | d :: rest => digitChars [d] ++ '.' :: digitChars rest
  let sign := if s.exponent < 0 then '-' else '+'
  mantissa ++ 'e' :: sign :: (toString s.exponent.natAbs).toList

def Layout.write (l : Layout) (s : Scientific) : List Char :=
  if l.lowest ≤ s.exponent ∧ s.exponent ≤ l.highest then s.plain else s.withExponent

/-- The text of a double: `none` for an infinity or a NaN. -/
def Layout.writeDouble? (l : Layout) (x : Float) : Option (List Char) := do
  let bits := x.toBits
  let magnitude ← Binary.ofBits bits
  let sign := if bits.toNat / Nat.pow 2 63 = 1 then ['-'] else []
  let body := if magnitude.mantissa = 0 then ['0', '.', '0'] else l.write magnitude.shortest
  return sign ++ body

end RoomRelay.Decimal
