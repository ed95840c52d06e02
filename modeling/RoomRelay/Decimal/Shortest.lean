/-!
The shortest decimal that reads back as a given double.

A finite double is `m * 2 ^ q`, and the reals that round to it form an interval around it.
For one digit, two digits and so on, the two neighbours of the double on that decimal grid are
tried in exact arithmetic: the first grid with a neighbour inside the interval wins, and of two
neighbours the nearer one. If a grid point lies in the interval at all then one of the two
neighbours does, so no shorter decimal reads back.
-/

namespace RoomRelay.Decimal

/-- The magnitude `mantissa * 2 ^ exponent` of a finite double. -/
structure Binary where
  mantissa : Nat
  exponent : Int
deriving DecidableEq, Repr

/-- A positive decimal `d.ddd * 10 ^ exponent`, its digits from the most significant on. -/
structure Scientific where
  digits : List Nat
  exponent : Int
deriving DecidableEq, Repr

/-- The magnitude of the double with the given bit pattern, `none` for an infinity or a NaN. -/
def Binary.ofBits (bits : UInt64) : Option Binary :=
  let fraction : Nat := bits.toNat % Nat.pow 2 52
  let biased : Nat := bits.toNat / Nat.pow 2 52 % Nat.pow 2 11
  if biased = 2047 then none
  else if biased = 0 then some ⟨fraction, -1074⟩
  else some ⟨Nat.pow 2 52 + fraction, (biased : Int) - 1075⟩

/-- A ratio of natural numbers, the denominator positive. -/
structure Ratio where
  num : Nat
  den : Nat

/-- `factor * 2 ^ two * 10 ^ ten` as a ratio. -/
def Ratio.scaled (factor : Nat) (two ten : Int) : Ratio :=
  ⟨factor * Nat.pow 2 two.toNat * Nat.pow 10 ten.toNat,
    Nat.pow 2 (-two).toNat * Nat.pow 10 (-ten).toNat⟩

/-- The interval of reals that round to a double, in quarters of its last place. The gap below a
power of two is half as wide, and the ends belong to the interval when the mantissa is even. -/
structure Interval where
  low : Nat
  value : Nat
  high : Nat
  closed : Bool

def Binary.interval (b : Binary) : Interval where
  low :=
    if b.mantissa = Nat.pow 2 52 ∧ -1074 < b.exponent then 4 * b.mantissa - 1
    else 4 * b.mantissa - 2
  value := 4 * b.mantissa
  high := 4 * b.mantissa + 2
  closed := b.mantissa % 2 == 0

/-- Whether `point` units of `1 / den` lie between `low * num` and `high * num` of them. -/
def Interval.holds (i : Interval) (num point : Nat) : Bool :=
  if i.closed then i.low * num ≤ point && point ≤ i.high * num
  else i.low * num < point && point < i.high * num

/-- The neighbour of a positive double on the grid of multiples of `10 ^ place`, when one lies in
the interval of the double; of two the nearer, and of two equally near the even one. -/
def Binary.onGrid (b : Binary) (place : Int) : Option Nat :=
  let i := b.interval
  let unit := Ratio.scaled 1 (b.exponent - 2) (-place)
  let target := i.value * unit.num
  let below := target / unit.den
  let above := below + 1
  let hasBelow := 0 < below && i.holds unit.num (below * unit.den)
  let hasAbove := i.holds unit.num (above * unit.den)
  let gap := 2 * (target % unit.den)
  if hasBelow && hasAbove then
    if gap < unit.den || (gap == unit.den && below % 2 == 0) then some below else some above
  else if hasBelow then some below
  else if hasAbove then some above
  else none

/-- The decimal exponent of the leading digit of a positive double. The offset `400` makes every
double at least one. -/
def Binary.leadingPlace (b : Binary) : Int :=
  let r := Ratio.scaled b.mantissa b.exponent 400
  ((Nat.toDigits 10 (r.num / r.den)).length : Int) - 401

/-- The first grid with a hit among those of `count`, `count + 1`, … digits; `more` grids are
tried. -/
def Binary.search (b : Binary) (lead : Int) (count : Nat) : Nat → Option (Nat × Int)
  | 0 => none
  | more + 1 =>
    let place := lead - count + 1
    match b.onGrid place with
    | some n => some (n, place)
    | none => b.search lead (count + 1) more

def digitValues (n : Nat) : List Nat :=
  (Nat.toDigits 10 n).map fun c => c.toNat - '0'.toNat

/-- The digits of `n` in units of `10 ^ place`, without trailing zeros. -/
def Scientific.ofGrid (n : Nat) (place : Int) : Scientific :=
  let digits := digitValues n
  { digits := (digits.reverse.dropWhile (· == 0)).reverse
    exponent := place + digits.length - 1 }

/-- The shortest decimal that reads back as a positive double. Seventeen digits always do. -/
def Binary.shortest (b : Binary) : Scientific :=
  (b.search b.leadingPlace 1 17).elim ⟨[], 0⟩ fun hit => .ofGrid hit.1 hit.2

end RoomRelay.Decimal
