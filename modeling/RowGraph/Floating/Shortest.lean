import RowGraph.Floating.Format

/-!
# The fewest digits that read back

`shortest` picks, among the decimals that round to a given binary value, one with the fewest
digits, and of those the nearest. It walks the decimal grids `10 ^ k` from coarse to fine; on
each grid only the value's two neighbours can be nearest, and the first grid on which one of them
reads back decides. An exact tie between the two neighbours is settled by a `Tie` rule.
-/

namespace RowGraph.Floating

inductive Tie where
  | up
  | even
  deriving DecidableEq

structure Decimal where
  digits : Nat
  exponent : Int
  deriving DecidableEq

/-- A value and the ends of the interval of reals that round to it, in quarters of its last
place. The ends belong to the interval if the significand is even. -/
structure Interval where
  low : Nat
  value : Nat
  high : Nat
  closed : Bool

/-- The interval of the value `significand · 2 ^ exponent`. Below a power of two the values lie
twice as close, unless the exponent is the smallest. -/
def Format.interval (f : Format) (significand : Nat) (exponent : Int) : Interval :=
  let narrow := significand = twoPow f.fractionBits ∧ f.minExponent < exponent
  { low := if narrow then 4 * significand - 1 else 4 * significand - 2
    value := 4 * significand
    high := 4 * significand + 2
    closed := significand % 2 == 0 }

def Interval.holds (i : Interval) (unit step digits : Nat) : Bool :=
  if i.closed then i.low * unit ≤ digits * step && digits * step ≤ i.high * unit
  else i.low * unit < digits * step && digits * step < i.high * unit

def Interval.nearer (i : Interval) (tie : Tie) (unit step below : Nat) : Nat :=
  let twice := 2 * (i.value * unit)
  let middle := (2 * below + 1) * step
  if twice < middle then below
  else if middle < twice then below + 1
  else match tie with
    | .up => below + 1
    | .even => if below % 2 = 0 then below else below + 1

def Interval.onGrid (i : Interval) (tie : Tie) (exponent k : Int) : Option Nat :=
  let unit := twoPow (exponent - 2).toNat * tenPow (-k).toNat
  let step := twoPow (2 - exponent).toNat * tenPow k.toNat
  let below := i.value * unit / step
  match i.holds unit step below, i.holds unit step (below + 1) with
  | true, true => some (i.nearer tie unit step below)
  | true, false => some below
  | false, true => some (below + 1)
  | false, false => none

def Interval.search (i : Interval) (tie : Tie) (exponent : Int) : Nat → Int → Decimal
  | 0, k => ⟨0, k⟩
  | grids + 1, k =>
      match i.onGrid tie exponent k with
      | some digits => ⟨digits, k⟩
      | none => i.search tie exponent grids (k - 1)

/-- A power of ten above the value `significand · 2 ^ exponent`, at most three places too high. -/
def coarsest (significand : Nat) (exponent : Int) : Int :=
  (Nat.log2 significand + exponent) * 30103 / 100000 + 2

/-- The shortest decimal that rounds to the positive value `significand · 2 ^ exponent`. No
format here needs more than 17 digits, so that 24 grids suffice. -/
def Format.shortest (f : Format) (tie : Tie) (significand : Nat) (exponent : Int) : Decimal :=
  (f.interval significand exponent).search tie exponent 24 (coarsest significand exponent)

end RowGraph.Floating
