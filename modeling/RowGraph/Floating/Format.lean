import RowGraph.Power

/-!
# Binary floating-point formats

A `Format` gives the widths of a binary interchange format. `decode` reads a bit pattern as a
`Datum`, `round` takes a ratio of naturals to the nearest representable value, ties to the even
significand, and `convert` takes a pattern from one format to another. All of it is arithmetic
on naturals, so that nothing depends on a machine's floating-point unit.
-/

namespace RowGraph.Floating

structure Format where
  precision : Nat
  exponentBits : Nat

def single : Format := ⟨24, 8⟩

def double : Format := ⟨53, 11⟩

/-- What a bit pattern stands for; a finite one is `±significand · 2 ^ exponent`. -/
inductive Datum where
  | nan (negative : Bool) (payload : Nat)
  | infinite (negative : Bool)
  | finite (negative : Bool) (significand : Nat) (exponent : Int)
  deriving DecidableEq

def roundHalfEven (num den : Nat) : Nat :=
  let quotient := num / den
  let remainder := num % den
  if 2 * remainder > den ∨ (2 * remainder = den ∧ quotient % 2 = 1) then quotient + 1
  else quotient

namespace Format

def fractionBits (f : Format) : Nat := f.precision - 1

/-- The exponent of the last place of the smallest finite values. -/
def minExponent (f : Format) : Int := 3 - twoPow (f.exponentBits - 1) - f.precision

def maxField (f : Format) : Nat := twoPow f.exponentBits - 1

def infinity (f : Format) : Nat := f.maxField * twoPow f.fractionBits

def signBit (f : Format) (negative : Bool) : Nat :=
  if negative then twoPow (f.fractionBits + f.exponentBits) else 0

def decode (f : Format) (bits : Nat) : Datum :=
  let fraction := bits % twoPow f.fractionBits
  let field := bits / twoPow f.fractionBits % twoPow f.exponentBits
  let negative := bits / twoPow (f.fractionBits + f.exponentBits) % 2 == 1
  if field = f.maxField then
    if fraction = 0 then .infinite negative else .nan negative fraction
  else if field = 0 then .finite negative fraction f.minExponent
  else .finite negative (twoPow f.fractionBits + fraction) (f.minExponent + field - 1)

def lastPlace (f : Format) (num den : Nat) : Int :=
  let guess : Int := (Nat.log2 num : Int) - Nat.log2 den
  let reached := num * twoPow (-guess).toNat ≥ den * twoPow guess.toNat
  max ((if reached then guess else guess - 1) + 1 - f.precision) f.minExponent

def round (f : Format) (negative : Bool) (num den : Nat) : Nat :=
  let magnitude :=
    if num = 0 then 0
    else
      let place := f.lastPlace num den
      let significand := roundHalfEven (num * twoPow (-place).toNat) (den * twoPow place.toNat)
      -- rounding up to the next power of two carries into the exponent field
      min ((place - f.minExponent).toNat * twoPow f.fractionBits + significand) f.infinity
  f.signBit negative + magnitude

def ofInt (f : Format) (n : Int) : Nat := f.round (n < 0) n.natAbs 1

/-- The pattern of the target format nearest to what the source pattern stands for. A NaN stays
a quiet NaN with the leading bits of its payload. -/
def convert (source target : Format) (bits : Nat) : Nat :=
  match source.decode bits with
  | .nan negative payload =>
      let aligned := payload * twoPow target.fractionBits / twoPow source.fractionBits
      let quiet := twoPow (target.fractionBits - 1)
      target.signBit negative + target.infinity + (quiet + aligned % quiet)
  | .infinite negative => target.signBit negative + target.infinity
  | .finite negative significand exponent =>
      target.round negative (significand * twoPow exponent.toNat) (twoPow (-exponent).toNat)

end Format

def product (f : Format) (a b : Nat) : Option Nat :=
  match f.decode a, f.decode b with
  | .finite na ma ea, .finite nb mb eb =>
      let exponent := ea + eb
      some (f.round (na != nb) (ma * mb * twoPow exponent.toNat) (twoPow (-exponent).toNat))
  | _, _ => none

def quotient (f : Format) (a b : Nat) : Option Nat :=
  match f.decode a, f.decode b with
  | .finite na ma ea, .finite nb mb eb =>
      let exponent := ea - eb
      if mb = 0 then none
      else some (f.round (na != nb) (ma * twoPow exponent.toNat) (mb * twoPow (-exponent).toNat))
  | _, _ => none

end RowGraph.Floating
