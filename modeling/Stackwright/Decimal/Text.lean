import Stackwright.Decimal.Shortest

/-
  Stackwright.Decimal.Text — how floating-point numbers are written.

  Both layouts write the shortest digits. `plain` is always positional and has no point in
  whole numbers. `literal` marks whole numbers with `.0`, and writes numbers below `10 ^ -4`
  or from `10 ^ 16` on with an exponent.
-/

namespace Stackwright.Decimal

/-- What the bits of a floating-point number stand for. -/
inductive Magnitude where
  | nan
  | infinite
  | zero
  | finite (b : Binary)
  deriving DecidableEq, Repr, Inhabited

/-- Splits bits into a sign and a magnitude, for a format with `width` bits in the
significand's field and `emax` as its largest exponent field. -/
def decode (width emax : Nat) (bits : Nat) : Bool × Magnitude :=
  let fraction := bits % Nat.pow 2 width
  let field := bits / Nat.pow 2 width % (emax + 1)
  let negative := bits / Nat.pow 2 width / (emax + 1) % 2 == 1
  let lowest : Int := 1 - (emax / 2 : Nat) - (width : Nat)
  if field == emax then (negative, if fraction == 0 then .infinite else .nan)
  else if field == 0 then
    (negative, if fraction == 0 then .zero else .finite ⟨fraction, lowest, false⟩)
  else (negative, .finite ⟨Nat.pow 2 width + fraction, lowest + (field - 1 : Nat), fraction == 0⟩)

def ofFloat (x : Float) : Bool × Magnitude := decode 52 2047 x.toBits.toNat

def ofFloat32 (x : Float32) : Bool × Magnitude := decode 23 255 x.toBits.toNat

structure Layout where
  /-- Whole numbers end in `.0`. -/
  pointZero : Bool
  /-- Whether a number whose first digit stands at this power of ten is positional. -/
  positional : Int → Bool

def plain : Layout := { pointZero := false, positional := fun _ => true }

def literal : Layout := { pointZero := true, positional := fun e => -4 ≤ e && e < 16 }

def zeros (n : Nat) : String := String.ofList (List.replicate n '0')

def writePositional (pointZero : Bool) (d : Number) : String :=
  let digits := toString d.digits
  let count : Int := digits.length
  let whole := if pointZero then ".0" else ""
  if 0 ≤ d.exponent then digits ++ zeros d.exponent.toNat ++ whole
  else if 0 < count + d.exponent then
    let split := (count + d.exponent).toNat
    String.ofList (digits.toList.take split) ++ "." ++ String.ofList (digits.toList.drop split)
  else "0." ++ zeros (-(count + d.exponent)).toNat ++ digits

def writeScientific (d : Number) : String :=
  let digits := (toString d.digits).toList
  let e := d.exponent + (digits.length - 1 : Nat)
  let mantissa := match digits with
    | [] => ""
    | [c] => String.ofList [c]
    | c :: cs => String.ofList (c :: '.' :: cs)
  mantissa ++ "e" ++ toString e

def Layout.write (l : Layout) : Bool × Magnitude → String
  | (_, .nan) => "NaN"
  | (negative, m) =>
    (if negative then "-" else "") ++
    match m with
    | .nan => "NaN"
    | .infinite => "inf"
    | .zero => if l.pointZero then "0.0" else "0"
    | .finite b =>
      let d := shortest b
      if l.positional (d.exponent + (digitCount d.digits - 1 : Nat)) then
        writePositional l.pointZero d
      else writeScientific d

def plainText (x : Float) : String := plain.write (ofFloat x)

def literalText (x : Float) : String := literal.write (ofFloat x)

def literalText32 (x : Float32) : String := literal.write (ofFloat32 x)

end Stackwright.Decimal
