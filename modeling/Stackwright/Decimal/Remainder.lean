/-
  Stackwright.Decimal.Remainder — the exact remainder of two floating-point numbers.

  The remainder of `x` by `y` is `x - n * y` with `n` the quotient cut off toward zero. It
  takes the sign of `x` and is always representable: over the smaller of the two exponents
  both magnitudes are whole numbers, and their remainder has at most 53 bits.
-/

namespace Stackwright.Decimal

/-- The magnitude `mantissa * 2 ^ (scale - 1074)` of a finite number. -/
structure Scaled where
  mantissa : Nat
  scale : Nat
  deriving DecidableEq, Repr, Inhabited

def Scaled.ofBits (bits : Nat) : Scaled :=
  let fraction := bits % Nat.pow 2 52
  let exponent := bits / Nat.pow 2 52 % Nat.pow 2 11
  if exponent == 0 then ⟨fraction, 0⟩ else ⟨Nat.pow 2 52 + fraction, exponent - 1⟩

/-- The bits of a magnitude with at most 53 bits, without the sign. -/
def Scaled.toBits (s : Scaled) : Nat :=
  if s.mantissa == 0 then 0
  else
    -- Move the leading bit to place 52, as far as the scale allows.
    let shift := min (52 - s.mantissa.log2) s.scale
    let mantissa := s.mantissa * Nat.pow 2 shift
    let scale := s.scale - shift
    if mantissa < Nat.pow 2 52 then mantissa else (scale + 1) * Nat.pow 2 52 + (mantissa - Nat.pow 2 52)

/-- The remainder of two magnitudes, the second one not zero. -/
def Scaled.remainder (a b : Scaled) : Scaled :=
  let scale := min a.scale b.scale
  ⟨a.mantissa * Nat.pow 2 (a.scale - scale) % (b.mantissa * Nat.pow 2 (b.scale - scale)), scale⟩

def signBit (bits : Nat) : Nat := bits / Nat.pow 2 63 * Nat.pow 2 63

/-- The remainder with the sign of the dividend. Infinite dividends and zero divisors have
none; an infinite divisor leaves the dividend as it is. -/
def remainder (x y : Float) : Float :=
  if x.isNaN || y.isNaN || x.isInf || y == 0 then Float.ofBits 0x7ff8000000000000
  else if y.isInf then x
  else
    let bits := x.toBits.toNat
    let rest := (Scaled.ofBits bits).remainder (Scaled.ofBits y.toBits.toNat)
    Float.ofBits (UInt64.ofNat (signBit bits + rest.toBits))

end Stackwright.Decimal
