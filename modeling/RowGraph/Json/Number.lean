import RowGraph.Json.Basic

/-!
# Reading JSON numbers

`readNumber` accepts the numbers of the JSON grammar. A number without point and exponent that
fits 64 bits is an integer. Any other is a floating-point number: its digits are taken into a
64-bit significand as long as they fit, the significand is rounded to 64-bit floating point, and
one multiplication or division by a power of ten follows. This rounds more than once, so the
result need not be the nearest value. A number too large for the format is refused.
-/

namespace RowGraph.Json

structure Numeral where
  negative : Bool
  whole : List Nat
  fraction : Option (List Nat)
  exponent : Option Int

def digit? (c : Char) : Option Nat := if c.isDigit then some (c.toNat - 48) else none

def leadingDigits : List Char → List Nat × List Char
  | [] => ([], [])
  | c :: cs => match digit? c with
    | some d => let (ds, rest) := leadingDigits cs; (d :: ds, rest)
    | none => ([], c :: cs)

def digitsValue (ds : List Nat) : Nat := ds.foldl (fun n d => 10 * n + d) 0

def splitSign : List Char → Bool × List Char
  | '-' :: cs => (true, cs)
  | cs => (false, cs)

def splitFraction : List Char → Option (Option (List Nat) × List Char)
  | '.' :: cs => match leadingDigits cs with
    | ([], _) => none
    | (ds, rest) => some (some ds, rest)
  | cs => some (none, cs)

def signedExponent (negative : Bool) (cs : List Char) : Option Int :=
  match leadingDigits cs with
  | ([], _) => none
  | (ds, []) => some (if negative then -(digitsValue ds : Int) else digitsValue ds)
  | _ => none

def endExponent : List Char → Option (Option Int)
  | [] => some none
  | mark :: cs =>
      if mark = 'e' ∨ mark = 'E' then
        (match cs with
          | '-' :: ds => signedExponent true ds
          | '+' :: ds => signedExponent false ds
          | ds => signedExponent false ds).map some
      else none

/-- Reads the parts of a number; a zero stands alone before the point. -/
def readNumeral (cs : List Char) : Option Numeral := do
  let (negative, cs) := splitSign cs
  let (whole, cs) := leadingDigits cs
  if whole.isEmpty ∨ (whole.length > 1 ∧ whole.head? = some 0) then none
  let (fraction, cs) ← splitFraction cs
  let exponent ← endExponent cs
  some { negative, whole, fraction, exponent }

def takeDigits (significand : Nat) : List Nat → Nat × List Nat
  | [] => (significand, [])
  | d :: ds =>
      -- no digit is taken after one that does not fit
      if 10 * significand + d < UInt64.size then takeDigits (10 * significand + d) ds
      else (significand, d :: ds)

def powerOfTen (exponent : Nat) : Nat := Floating.double.round false (tenPow exponent) 1

def divideDown (bits : Nat) : Nat → Nat
  | 0 => bits
  | rounds + 1 =>
      if bits = 0 then bits
      else divideDown ((Floating.quotient Floating.double bits (powerOfTen 308)).getD 0) rounds

def scaled (significand : Nat) (exponent : Int) : Option Nat :=
  let bits := Floating.double.ofInt significand
  if significand = 0 then some 0
  else if 308 < exponent then none
  else if 0 ≤ exponent then
    (Floating.product Floating.double bits (powerOfTen exponent.toNat)).filter
      (· < Floating.double.infinity)
  else
    let places := (-exponent).toNat
    let rounds := (places - 1) / 308
    Floating.quotient Floating.double (divideDown bits rounds) (powerOfTen (places - 308 * rounds))

def Numeral.floating? (n : Numeral) : Option JsonNumber :=
  let (whole, dropped) := takeDigits 0 n.whole
  let fraction := n.fraction.getD []
  let (significand, unread) := takeDigits whole fraction
  let exponent := (dropped.length : Int) - (fraction.length - unread.length) + n.exponent.getD 0
  (scaled significand exponent).map fun bits =>
    .floating (UInt64.ofNat (Floating.double.signBit n.negative + bits))

/-- The value of a numeral: an integer if it is written as one and fits, and not minus zero. -/
def Numeral.number? (n : Numeral) : Option JsonNumber :=
  let value := digitsValue n.whole
  if n.fraction.isNone ∧ n.exponent.isNone then
    if n.negative then
      if 0 < value ∧ Int64.minValue.toInt ≤ -value then
        some (.negative (Int64.ofInt (-value)))
      else n.floating?
    else if value < UInt64.size then some (.natural (UInt64.ofNat value))
    else n.floating?
  else n.floating?

def readNumber (cs : List Char) : Option JsonNumber := (readNumeral cs).bind Numeral.number?

end RowGraph.Json
