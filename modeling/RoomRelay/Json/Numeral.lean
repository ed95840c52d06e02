import RoomRelay.Json.Value

/-!
What a number token stands for.

A token without a point and without an exponent stands for an integer, which is kept exactly when
it fits a word. Every other token, and `-0`, stands for a double: its digits are gathered into a
64-bit significand and this is then multiplied or divided by one power of ten.
-/

namespace RoomRelay.Json

/-- A number token taken apart. -/
structure Numeral where
  negative : Bool
  whole : List Nat
  fraction : List Nat := []
  exponent : Option Int := none

/-- Puts digits into the significand while it stays below `2 ^ 64`; gives back the digits that
did not go in. -/
def gather (significand : Nat) : List Nat → Nat × List Nat
  | [] => (significand, [])
  | d :: rest =>
    if significand * 10 + d < 2 ^ 64 then gather (significand * 10 + d) rest
    else (significand, d :: rest)

def ofDigits (ds : List Nat) : Nat :=
  ds.foldl (fun n d => n * 10 + d) 0

/-- The largest power of ten below the double range. -/
def largestPower : Nat := 308

def powerOfTen (n : Nat) : Float :=
  Float.ofScientific 1 false n

/-- Divides by `10 ^ n`, in steps when the power itself is no double. -/
def divideByPower (x : Float) (n : Nat) : Float :=
  if _h : n ≤ largestPower then x / powerOfTen n
  else if x == 0 then x
  else divideByPower (x / powerOfTen largestPower) (n - largestPower)
termination_by n
decreasing_by simp only [largestPower] at *; omega

/-- `significand * 10 ^ exponent` as a double, `none` beyond the double range. -/
def scaled? (significand : Nat) (exponent : Int) : Option Float :=
  let x := Float.ofNat significand
  if exponent < 0 then some (divideByPower x (-exponent).toNat)
  else if exponent ≤ largestPower then
    let y := x * powerOfTen exponent.toNat
    if y.isInf then none else some y
  else if significand = 0 then some x
  else none

/-- The double a token stands for, `none` beyond the double range. -/
def Numeral.double? (n : Numeral) : Option Float := do
  let (leading, surplus) := gather 0 n.whole
  let (significand, ignored) := gather leading n.fraction
  let places : Int := (n.fraction.length : Int) - ignored.length
  let magnitude ← scaled? significand (surplus.length - places + n.exponent.getD 0)
  return if n.negative then -magnitude else magnitude

/-- The number a token stands for, `none` beyond the double range. -/
def Numeral.number? (n : Numeral) : Option Number :=
  let magnitude : Int := ofDigits n.whole
  let signed := if n.negative then -magnitude else magnitude
  if h : n.fraction = [] ∧ n.exponent = none ∧ IsWord signed ∧ ¬(n.negative ∧ signed = 0) then
    some (.word signed h.2.2.1)
  else n.double?.map .double

end RoomRelay.Json
