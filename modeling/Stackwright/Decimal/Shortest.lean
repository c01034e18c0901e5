/-
  Stackwright.Decimal.Shortest — the fewest decimal digits that read back as a given
  binary number.

  A finite binary number is `m * 2 ^ q`. The reals that round to it form an interval
  around it, closed when `m` is even. Its lower half is half as wide when the number
  below lies in the next smaller binade. `shortest` looks at grids of one digit, two
  digits and so on; on each grid only the two neighbours of the number can lie in the
  interval. The first grid with such a neighbour wins; of two neighbours the nearer is
  taken, and the upper one when both are equally near.
-/

namespace Stackwright.Decimal

/-- The number `digits * 10 ^ exponent`. -/
structure Number where
  digits : Nat
  exponent : Int
  deriving DecidableEq, Repr, Inhabited

/-- A positive binary number: `mantissa * 2 ^ exponent`. -/
structure Binary where
  mantissa : Nat
  exponent : Int
  /-- The number below is nearer than the number above. -/
  nearBelow : Bool
  deriving DecidableEq, Repr, Inhabited

def digitCount (n : Nat) : Nat := (Nat.toDigits 10 n).length

/-- The least `j` with `d ≤ n * 10 ^ j`, searched from `j` on. -/
def firstScale (n d : Nat) : Nat → Nat → Nat
  | 0, j => j
  | fuel + 1, j => if d ≤ n * Nat.pow 10 j then j else firstScale n d fuel (j + 1)

/-- The greatest `e` with `10 ^ e ≤ n / d`. -/
def magnitude (n d : Nat) : Int :=
  if d ≤ n then (digitCount (n / d) : Int) - 1
  else -(firstScale n d (digitCount d + 1) 1 : Int)

/-- Three numbers over one denominator: the number and the ends of its interval. -/
structure Interval where
  low : Nat
  value : Nat
  high : Nat
  denom : Nat
  closed : Bool

def Binary.interval (b : Binary) : Interval :=
  let below := if b.nearBelow then 1 else 2
  let num := Nat.pow 2 (b.exponent - 2).toNat
  { low := (4 * b.mantissa - below) * num
    value := 4 * b.mantissa * num
    high := (4 * b.mantissa + 2) * num
    denom := Nat.pow 2 (2 - b.exponent).toNat
    closed := b.mantissa % 2 == 0 }

/-- Whether `x * 10 ^ k` lies in the interval. -/
def Interval.contains (i : Interval) (x : Nat) (k : Int) : Bool :=
  let p := x * Nat.pow 10 k.toNat * i.denom
  let scale := Nat.pow 10 (-k).toNat
  if i.closed then i.low * scale ≤ p && p ≤ i.high * scale
  else i.low * scale < p && p < i.high * scale

/-- The neighbour on the grid of step `10 ^ k` that reads back, if there is one. -/
def Interval.neighbour? (i : Interval) (k : Int) : Option Nat :=
  let unit := i.denom * Nat.pow 10 k.toNat
  let scaled := i.value * Nat.pow 10 (-k).toNat
  let lower := scaled / unit
  match i.contains lower k, i.contains (lower + 1) k with
  | true, true => if 2 * (scaled % unit) < unit then some lower else some (lower + 1)
  | true, false => some lower
  | false, true => some (lower + 1)
  | false, false => none

def Interval.search (i : Interval) : Nat → Int → Number
  | 0, k => ⟨i.value * Nat.pow 10 (-k).toNat / (i.denom * Nat.pow 10 k.toNat), k⟩
  | fuel + 1, k =>
    match i.neighbour? k with
    | some digits => ⟨digits, k⟩
    | none => i.search fuel (k - 1)

/-- Drops zeros at the end of the digits. -/
def Number.trim : Nat → Number → Number
  | 0, d => d
  | fuel + 1, d =>
    if d.digits % 10 == 0 && d.digits != 0 then Number.trim fuel ⟨d.digits / 10, d.exponent + 1⟩
    else d

def shortest (b : Binary) : Number :=
  let i := b.interval
  let d := i.search 20 (magnitude i.value i.denom)
  d.trim (digitCount d.digits)

end Stackwright.Decimal
