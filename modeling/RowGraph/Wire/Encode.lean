import RowGraph.Failure
import RowGraph.Value.Display
import RowGraph.Wire.Moment

/-!
# Binding values

How a value is written as a parameter of a column type, in the binary form of the wire protocol.
The column type decides: integers and floating-point columns take numbers, dates and times take
texts that are read first, and every other column takes the text of a number. Truth values, texts
and bytes are written as they are whatever the column.
-/

namespace RowGraph.Wire

inductive ColumnType where
  | bool
  | int2
  | int4
  | int8
  | float4
  | float8
  | text
  | varchar
  | numeric
  | bytea
  | json
  | date
  | timestamp
  | timestamptz
  deriving DecidableEq

def ColumnType.name : ColumnType → String
  | .bool => "bool"
  | .int2 => "int2"
  | .int4 => "int4"
  | .int8 => "int8"
  | .float4 => "float4"
  | .float8 => "float8"
  | .text => "text"
  | .varchar => "varchar"
  | .numeric => "numeric"
  | .bytea => "bytea"
  | .json => "json"
  | .date => "date"
  | .timestamp => "timestamp"
  | .timestamptz => "timestamptz"

inductive Written where
  | null
  | bytes (data : List UInt8)

inductive EncodeFault where
  | unsupported (shown : String) (type : ColumnType)
  | outOfRange
  | notADate

def unsupportedFailure (shown : String) (type : ColumnType) : DatabaseFailure :=
  .validation ("Can't bind " ++ shown ++ " as a parameter of type " ++ type.name)

def bigEndian : Nat → Int → List UInt8
  | 0, _ => []
  | width + 1, n => bigEndian width (n / 256) ++ [UInt8.ofNat (n % 256).toNat]

def writeInteger (width : Nat) (n : Int) : Except EncodeFault (List UInt8) :=
  let bound : Int := twoPow (8 * width - 1)
  if -bound ≤ n ∧ n < bound then .ok (bigEndian width n)
  else .error .outOfRange

def writeNumber (n : Number) (type : ColumnType) : Except EncodeFault (List UInt8) :=
  let integer (width : Nat) : Except EncodeFault (List UInt8) :=
    match n.int64? with
    | some i => writeInteger width i
    | none => .error (.unsupported n.display type)
  match type with
  | .int2 => integer 2
  | .int4 => integer 4
  | .int8 => integer 8
  | .float4 => .ok (bigEndian 4 (Floating.double.convert Floating.single n.doubleBits))
  | .float8 => .ok (bigEndian 8 n.doubleBits)
  | _ => .ok n.display.toUTF8.toList

def writeMicros : Option Int → Except EncodeFault (List UInt8)
  | some nanos => .ok (bigEndian 8 (nanos.tdiv 1000))
  | none => .error .notADate

def writeText (s : String) (type : ColumnType) : Except EncodeFault (List UInt8) :=
  match type with
  | .timestamptz => writeMicros (zonedNanos? s)
  | .timestamp => writeMicros (localNanos? s)
  | .date => match dateDays? s with
    | some days => .ok (bigEndian 4 days)
    | none => .error .notADate
  | _ => .ok s.toUTF8.toList

def write (value : Value) (type : ColumnType) : Except EncodeFault Written :=
  match value with
  | .null => .ok .null
  | .bool b => .ok (.bytes [if b then 1 else 0])
  | .number n => (writeNumber n type).map .bytes
  | .text s => (writeText s type).map .bytes
  | .bytes data => .ok (.bytes data)
  | other => .error (.unsupported other.display type)

end RowGraph.Wire
