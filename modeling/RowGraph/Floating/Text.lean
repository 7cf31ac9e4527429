import RowGraph.Floating.Shortest

/-!
# Texts of floating-point numbers

A `Layout` holds the decisions of one way to write floating-point numbers: where positional
notation ends, whether a whole number keeps a fraction, and which way ties go. `Layout.write`
writes a finite value by its shortest digits.
-/

namespace RowGraph.Floating

structure Layout where
  tie : Tie
  /-- The exponents of the leading digit that are written positionally; all of them if absent. -/
  positional : Option (Int × Int)
  wholeEnd : String

def positionalText (wholeEnd digits : String) (exponent : Int) : String :=
  let zeros (n : Nat) := String.ofList (List.replicate n '0')
  let places := (-exponent).toNat
  if 0 ≤ exponent then digits ++ zeros exponent.toNat ++ wholeEnd
  else if places < digits.length then
    let cut := digits.length - places
    String.ofList (digits.toList.take cut) ++ "." ++ String.ofList (digits.toList.drop cut)
  else "0." ++ zeros (places - digits.length) ++ digits

def scientificText (digits : String) (leading : Int) : String :=
  let front := String.ofList (digits.toList.take 1)
  let rest := String.ofList (digits.toList.drop 1)
  let fraction := if rest.isEmpty then "" else "." ++ rest
  let sign := if leading < 0 then "-" else "+"
  front ++ fraction ++ "e" ++ sign ++ toString leading.natAbs

def Layout.decimal (l : Layout) (d : Decimal) : String :=
  let digits := toString d.digits
  let leading := d.exponent + digits.length - 1
  let positional := match l.positional with
    | none => true
    | some (lowest, highest) => lowest ≤ leading && leading ≤ highest
  if positional then positionalText l.wholeEnd digits d.exponent
  else scientificText digits leading

def Layout.write (l : Layout) (f : Format) (negative : Bool) (significand : Nat)
    (exponent : Int) : String :=
  let magnitude :=
    if significand = 0 then "0" ++ l.wholeEnd
    else l.decimal (f.shortest l.tie significand exponent)
  if negative then "-" ++ magnitude else magnitude

end RowGraph.Floating
