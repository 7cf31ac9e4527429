import RowGraph.Floating.Text

/-!
# Numbers

Integers of three widths and floating-point numbers of two, the latter held as bit patterns.
Numbers are compared by `Number.key`: integers by their mathematical value whatever their width,
floating-point numbers by the pattern of the value widened to 64 bits, so that every NaN equals
itself. An integer never equals a floating-point number.
-/

namespace RowGraph

inductive Number where
  | int32 (n : Int32)
  | int64 (n : Int64)
  | uint64 (n : UInt64)
  | float32 (bits : UInt32)
  | float64 (bits : UInt64)
  deriving DecidableEq

/-- What two numbers have in common exactly when they are equal as keys. -/
inductive NumberKey where
  | integer (n : Int)
  | floating (bits : Nat)
  deriving DecidableEq

namespace Number

def integer? : Number → Option Int
  | .int32 n => some n.toInt
  | .int64 n => some n.toInt
  | .uint64 n => some n.toNat
  | .float32 _ => none
  | .float64 _ => none

def key : Number → NumberKey
  | .int32 n => .integer n.toInt
  | .int64 n => .integer n.toInt
  | .uint64 n => .integer n.toNat
  | .float32 bits => .floating (Floating.single.convert Floating.double bits.toNat)
  | .float64 bits => .floating bits.toNat

instance : BEq Number := ⟨fun a b => a.key == b.key⟩

theorem beq_iff_key (a b : Number) : (a == b) = true ↔ a.key = b.key := by
  simp [BEq.beq]

instance : EquivBEq Number where
  rfl {a} := (beq_iff_key a a).mpr rfl
  symm {a b} h := (beq_iff_key b a).mpr ((beq_iff_key a b).mp h).symm
  trans {a b c} h k :=
    (beq_iff_key a c).mpr (((beq_iff_key a b).mp h).trans ((beq_iff_key b c).mp k))

def int64? (n : Number) : Option Int :=
  n.integer?.filter fun i => Int64.minValue.toInt ≤ i && i ≤ Int64.maxValue.toInt

def doubleBits : Number → Nat
  | .int32 n => Floating.double.ofInt n.toInt
  | .int64 n => Floating.double.ofInt n.toInt
  | .uint64 n => Floating.double.ofInt n.toNat
  | .float32 bits => Floating.single.convert Floating.double bits.toNat
  | .float64 bits => bits.toNat

def isFinite : Number → Bool
  | .float32 bits => match Floating.single.decode bits.toNat with
    | .finite .. => true
    | _ => false
  | .float64 bits => match Floating.double.decode bits.toNat with
    | .finite .. => true
    | _ => false
  | _ => true

/-- Floating-point numbers are displayed positionally, with no fraction if they are whole. -/
def displayLayout : Floating.Layout := { tie := .up, positional := none, wholeEnd := "" }

def displayBits (f : Floating.Format) (bits : Nat) : String :=
  match f.decode bits with
  | .nan .. => "NaN"
  | .infinite negative => if negative then "-inf" else "inf"
  | .finite negative significand exponent =>
      displayLayout.write f negative significand exponent

def display : Number → String
  | .int32 n => toString n.toInt
  | .int64 n => toString n.toInt
  | .uint64 n => toString n.toNat
  | .float32 bits => displayBits Floating.single bits.toNat
  | .float64 bits => displayBits Floating.double bits.toNat

end Number
end RowGraph
