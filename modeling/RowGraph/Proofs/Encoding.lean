import Mathlib.Algebra.Ring.Int.Defs
import Mathlib.Algebra.Ring.Nat
import Mathlib.Data.List.Induction
import RowGraph.Wire.Encode

/-!
# What columns of a fixed size are sent

An integer column is sent the bytes of its size that are the value of the number in two's
complement; a number without such bytes is a failure (`writes_integer`). A truth value, a number or
a text that suits its column has the size of the column or is a failure. One that does not suit it
is sent as it would be to a column of its own kind (`writes_sized`).
-/

namespace RowGraph.Wire

/-! ## Bytes -/

def unsignedValue (data : List UInt8) : Nat := data.foldl (fun n byte => n * 256 + byte.toNat) 0

/-- The integer that bytes are in two's complement, the most significant first. -/
def signedValue (data : List UInt8) : Int :=
  (BitVec.ofNat (8 * data.length) (unsignedValue data)).toInt

theorem unsignedValue_concat (data : List UInt8) (byte : UInt8) :
    unsignedValue (data ++ [byte]) = unsignedValue data * 256 + byte.toNat := by
  simp [unsignedValue, List.foldl_append]

theorem length_bigEndian (size : Nat) (n : Int) : (bigEndian size n).length = size := by
  induction size generalizing n with
  | zero => rfl
  | succ size ih => rw [bigEndian, List.length_append, ih, List.length_singleton]

theorem toNat_lastByte (n : Int) : ((UInt8.ofNat (n % 256).toNat).toNat : Int) = n % 256 := by
  have bounds : 0 ≤ n % 256 ∧ n % 256 < 256 := by omega
  rw [UInt8.toNat_ofNat_of_lt' (by change _ < 256; omega), Int.toNat_of_nonneg bounds.1]

theorem emod_pow_succ (n : Int) (size : Nat) :
    n % 256 ^ (size + 1) = n / 256 % 256 ^ size * 256 + n % 256 := by
  rw [Int.pow_succ]
  have positive : (0 : Int) < 256 ^ size := Int.pow_pos (by decide)
  generalize (256 : Int) ^ size = m at positive
  have front := Int.emod_nonneg (n / 256) (Int.ne_of_gt positive)
  have less := Int.emod_lt_of_pos (n / 256) positive
  have parts : n = n / 256 % m * 256 + n % 256 + m * 256 * (n / 256 / m) := by
    have whole := Int.emod_add_mul_ediv n 256
    have high := Int.emod_add_mul_ediv (n / 256) m
    rw [Int.mul_right_comm]
    omega
  conv_lhs => rw [parts, Int.add_mul_emod_self_left]
  exact Int.emod_eq_of_lt (by omega) (by omega)

theorem unsignedValue_bigEndian (size : Nat) (n : Int) :
    (unsignedValue (bigEndian size n) : Int) = n % 256 ^ size := by
  induction size generalizing n with
  | zero => exact (Int.emod_one n).symm
  | succ size ih =>
      rw [bigEndian, unsignedValue_concat, Int.natCast_add, Int.natCast_mul, ih, toNat_lastByte,
        emod_pow_succ]
      rfl

theorem bigEndian_unsignedValue (data : List UInt8) :
    bigEndian data.length (unsignedValue data) = data := by
  induction data using List.reverseRec with
  | nil => rfl
  | append_singleton front byte ih =>
      have byte_lt : byte.toNat < 256 := byte.toNat_lt
      have high : ((unsignedValue front * 256 + byte.toNat : Nat) : Int) / 256 =
          unsignedValue front := by omega
      have low : (((unsignedValue front * 256 + byte.toNat : Nat) : Int) % 256).toNat =
          byte.toNat := by omega
      rw [List.length_append, List.length_singleton, bigEndian, unsignedValue_concat, high, low, ih,
        UInt8.ofNat_toNat]

theorem modulus_eq (size : Nat) : (256 : Int) ^ size = ((256 ^ size : Nat) : Int) := by
  rw [Int.natCast_pow]
  rfl

theorem unsignedValue_emod (data : List UInt8) :
    (unsignedValue data : Int) % 256 ^ data.length = unsignedValue data := by
  rw [← unsignedValue_bigEndian, bigEndian_unsignedValue]

theorem signedValue_eq (data : List UInt8) :
    signedValue data = (unsignedValue data : Int).bmod (256 ^ data.length) := by
  rw [signedValue, BitVec.toInt_ofNat', Nat.pow_mul]

theorem signedValue_bounds (data : List UInt8) :
    -2 ^ (8 * data.length - 1) ≤ signedValue data ∧ signedValue data < 2 ^ (8 * data.length - 1) :=
  ⟨BitVec.le_toInt _, BitVec.toInt_lt⟩

theorem signedValue_range (data : List UInt8) (h : data.length ≤ 8) :
    -2 ^ 63 ≤ signedValue data ∧ signedValue data < 2 ^ 63 := by
  have bounds := signedValue_bounds data
  have power : (2 : Int) ^ (8 * data.length - 1) ≤ 2 ^ 63 :=
    Int.ofNat_le.mpr (Nat.pow_le_pow_right (by decide) (by omega))
  omega

theorem signedValue_bigEndian {size : Nat} (hs : 0 < size) {n : Int}
    (low : -2 ^ (8 * size - 1) ≤ n) (high : n < 2 ^ (8 * size - 1)) :
    signedValue (bigEndian size n) = n := by
  have bits : (8 * size - 1).succ = 8 * size := by omega
  have half : (2 : Int) ^ (8 * size - 1) * 2 = ((256 ^ size : Nat) : Int) := by
    rw [← Int.pow_succ, bits, Int.pow_mul, Int.natCast_pow]
    rfl
  rw [signedValue_eq, length_bigEndian, unsignedValue_bigEndian, modulus_eq, Int.emod_bmod]
  exact Int.bmod_eq_of_le_mul_two (by omega) (by omega)

theorem bigEndian_signedValue (data : List UInt8) :
    bigEndian data.length (signedValue data) = data := by
  have same : unsignedValue (bigEndian data.length (signedValue data)) = unsignedValue data := by
    have value := unsignedValue_bigEndian data.length (signedValue data)
    rw [signedValue_eq, modulus_eq, Int.bmod_emod, ← modulus_eq, unsignedValue_emod,
      ← signedValue_eq]
      at value
    exact Int.ofNat_inj.mp value
  have back := bigEndian_unsignedValue (bigEndian data.length (signedValue data))
  rw [same, length_bigEndian, bigEndian_unsignedValue] at back
  exact back.symm

/-! ## Integer columns -/

def ColumnType.integerSize? : ColumnType → Option Nat
  | .int2 => some 2
  | .int4 => some 4
  | .int8 => some 8
  | _ => none

theorem int64?_eq_some_iff {n : Number} {i : Int} :
    n.int64? = some i ↔ n.integer? = some i ∧ -2 ^ 63 ≤ i ∧ i < 2 ^ 63 := by
  have low : Int64.minValue.toInt = -2 ^ 63 := by decide
  have high : Int64.maxValue.toInt = 2 ^ 63 - 1 := by decide
  rw [Number.int64?, Option.filter_eq_some_iff, low, high, Bool.and_eq_true, decide_eq_true_eq,
    decide_eq_true_eq, Int.le_sub_one_iff]

theorem writeInteger_eq_ok_iff {size : Nat} (hs : 0 < size) {n : Int} {data : List UInt8} :
    writeInteger size n = .ok data ↔ data.length = size ∧ signedValue data = n := by
  have bound : ((twoPow (8 * size - 1) : Nat) : Int) = 2 ^ (8 * size - 1) := Int.natCast_pow 2 _
  simp only [writeInteger, bound]
  constructor
  · intro h
    split at h
    · next range =>
      cases h
      exact ⟨length_bigEndian size n, signedValue_bigEndian hs range.1 range.2⟩
    · cases h
  · rintro ⟨rfl, rfl⟩
    rw [if_pos (signedValue_bounds data), bigEndian_signedValue]

theorem writeNumber_integer {type : ColumnType} {size : Nat} (h : type.integerSize? = some size)
    (n : Number) : 0 < size ∧ size ≤ 8 ∧ writeNumber n type = match n.int64? with
      | some i => writeInteger size i
      | none => .error (.unsupported n.display type) := by
  cases type <;> cases h <;> exact ⟨by decide, by decide, rfl⟩

theorem writeNumber_eq_ok_iff {type : ColumnType} {size : Nat}
    (h : type.integerSize? = some size) {n : Number} {data : List UInt8} :
    writeNumber n type = .ok data ↔ data.length = size ∧ n.integer? = some (signedValue data) := by
  obtain ⟨positive, most, asked⟩ := writeNumber_integer h n
  rw [asked]
  cases fits : n.int64? with
  | some i =>
      obtain ⟨value, -, -⟩ := int64?_eq_some_iff.mp fits
      rw [value, Option.some.injEq]
      exact (writeInteger_eq_ok_iff positive).trans (and_congr_right fun _ => eq_comm)
  | none =>
      -- bytes of this size hold no integer that does not fit
      refine iff_of_false nofun fun ⟨length, value⟩ => ?_
      have held := int64?_eq_some_iff.mpr ⟨value, signedValue_range data (by omega)⟩
      rw [fits] at held
      cases held

theorem write_number_eq_ok_iff {n : Number} {type : ColumnType} {written : Written} :
    write (.number n) type = .ok written ↔
      ∃ data, writeNumber n type = .ok data ∧ written = .bytes data := by
  rw [write]
  cases writeNumber n type <;> simp [Except.map, eq_comm]

theorem writes_integer {type : ColumnType} {size : Nat} (h : type.integerSize? = some size)
    (n : Number) :
    (∀ data, write (.number n) type = .ok (.bytes data) ↔
      data.length = size ∧ n.integer? = some (signedValue data)) ∧
    ((∃ written, write (.number n) type = .ok written) ↔
      ∃ i, n.integer? = some i ∧ -2 ^ (8 * size - 1) ≤ i ∧ i < 2 ^ (8 * size - 1)) ∧
    (n.integer? = none → write (.number n) type = .error (.unsupported n.display type)) := by
  obtain ⟨positive, -, asked⟩ := writeNumber_integer h n
  refine ⟨fun data => ?_, ⟨?_, ?_⟩, fun floating => ?_⟩
  · rw [write_number_eq_ok_iff, ← writeNumber_eq_ok_iff h]
    simp
  · rintro ⟨written, hw⟩
    obtain ⟨data, ok, -⟩ := write_number_eq_ok_iff.mp hw
    obtain ⟨rfl, value⟩ := (writeNumber_eq_ok_iff h).mp ok
    exact ⟨_, value, signedValue_bounds data⟩
  · rintro ⟨i, value, low, high⟩
    have back := signedValue_bigEndian positive low high
    have ok : writeNumber n type = .ok (bigEndian size i) :=
      (writeNumber_eq_ok_iff h).mpr ⟨length_bigEndian size i, by rw [back, value]⟩
    exact ⟨_, write_number_eq_ok_iff.mpr ⟨_, ok, rfl⟩⟩
  · rw [write, asked, Number.int64?, floating]
    rfl

theorem writes_integer_bounds :
    ColumnType.int2.integerSize? = some 2 ∧ ColumnType.int8.integerSize? = some 8 ∧
    write (.number (.int32 (-32768))) .int2 = .ok (.bytes [0x80, 0x00]) ∧
    (¬ ∃ written, write (.number (.int64 32768)) .int2 = .ok written) ∧
    (∃ written, write (.number (.uint64 9223372036854775807)) .int8 = .ok written) ∧
    (¬ ∃ written, write (.number (.uint64 9223372036854775808)) .int8 = .ok written) ∧
    write (.number (.float64 0x4014000000000000)) .int8 = .error (.unsupported "5" .int8) := by
  have short := @writes_integer .int2 2 rfl
  have long := @writes_integer .int8 8 rfl
  refine ⟨rfl, rfl, ((short _).1 _).mpr (by decide), fun h => ?_,
    (long _).2.1.mpr ⟨9223372036854775807, by decide⟩, fun h => ?_, ?_⟩
  · obtain ⟨i, value, -, high⟩ := (short _).2.1.mp h
    cases value
    exact absurd high (by decide)
  · obtain ⟨i, value, -, high⟩ := (long _).2.1.mp h
    cases value
    exact absurd high (by decide)
  · exact (long _).2.2 rfl

/-! ## Columns of a fixed size -/

def ColumnType.size? : ColumnType → Option Nat
  | .bool => some 1
  | .int2 => some 2
  | .int4 => some 4
  | .int8 => some 8
  | .float4 => some 4
  | .float8 => some 8
  | .date => some 4
  | .timestamp => some 8
  | .timestamptz => some 8
  | _ => none

def ColumnType.takes (type : ColumnType) : Value → Bool
  | .bool _ => type = .bool
  | .number _ => type ∈ [.int2, .int4, .int8, .float4, .float8]
  | .text _ => type ∈ [.date, .timestamp, .timestamptz]
  | _ => false

def ownColumn? : Value → Option ColumnType
  | .bool _ => some .bool
  | .number _ => some .text
  | .text _ => some .text
  | .bytes _ => some .bytea
  | _ => none

section sized

variable {type : ColumnType} {size : Nat} (h : type.size? = some size)

include h

theorem length_writeNumber {n : Number} (takes : type.takes (.number n) = true)
    {data : List UInt8} (written : writeNumber n type = .ok data) : data.length = size := by
  cases type with
  | int2 | int4 | int8 =>
      cases h
      exact ((writeNumber_eq_ok_iff rfl).mp written).1
  | float4 | float8 =>
      cases h
      cases written
      exact length_bigEndian ..
  | bool | date | timestamp | timestamptz => cases takes
  | text | varchar | numeric | bytea | json => cases h

theorem length_writeText {s : String} (takes : type.takes (.text s) = true) {data : List UInt8}
    (written : writeText s type = .ok data) : data.length = size := by
  have micros : ∀ {nanos : Option Int}, writeMicros nanos = .ok data → data.length = 8 := by
    intro nanos ok
    cases nanos with
    | none => cases ok
    | some n =>
        cases ok
        exact length_bigEndian ..
  cases type with
  | timestamp | timestamptz =>
      cases h
      exact micros written
  | date =>
      cases h
      rw [writeText] at written
      split at written
      · cases written
        exact length_bigEndian ..
      · cases written
  | bool | int2 | int4 | int8 | float4 | float8 => cases takes
  | text | varchar | numeric | bytea | json => cases h

theorem write_number_own {n : Number} (other : type.takes (.number n) = false) :
    write (.number n) type = write (.number n) .text := by
  cases type with
  | bool | date | timestamp | timestamptz => rfl
  | int2 | int4 | int8 | float4 | float8 => cases other
  | text | varchar | numeric | bytea | json => cases h

theorem write_text_own {s : String} (other : type.takes (.text s) = false) :
    write (.text s) type = write (.text s) .text := by
  cases type with
  | bool | int2 | int4 | int8 | float4 | float8 => rfl
  | date | timestamp | timestamptz => cases other
  | text | varchar | numeric | bytea | json => cases h

/-- What a column of a fixed size is sent for a value that suits it, for one that does not and is
sent all the same, and for one that is sent to no column. -/
theorem writes_sized (value : Value) :
    (type.takes value = true → (∃ fault, write value type = .error fault) ∨
      ∃ data, write value type = .ok (.bytes data) ∧ data.length = size) ∧
    (∀ own, ownColumn? value = some own → type.takes value = false →
      ∃ data, write value type = .ok (.bytes data) ∧ write value own = .ok (.bytes data)) ∧
    (ownColumn? value = none → write value type =
      if value.isNull then .ok .null else .error (.unsupported value.display type)) := by
  cases value with
  | null => exact ⟨nofun, nofun, fun _ => rfl⟩
  | bool b =>
      refine ⟨fun takes => .inr ⟨_, rfl, ?_⟩, fun own ho _ => ⟨_, rfl, by cases ho; rfl⟩, nofun⟩
      obtain rfl : type = .bool := by simpa [ColumnType.takes] using takes
      cases h
      rfl
  | number n =>
      refine ⟨fun takes => ?_, fun own ho other => ?_, nofun⟩
      · rw [write]
        cases written : writeNumber n type with
        | error fault => exact .inl ⟨fault, rfl⟩
        | ok data => exact .inr ⟨data, rfl, length_writeNumber h takes written⟩
      · cases ho
        rw [write_number_own h other]
        exact ⟨_, rfl, rfl⟩
  | text s =>
      refine ⟨fun takes => ?_, fun own ho other => ?_, nofun⟩
      · rw [write]
        cases written : writeText s type with
        | error fault => exact .inl ⟨fault, rfl⟩
        | ok data => exact .inr ⟨data, rfl, length_writeText h takes written⟩
      · cases ho
        rw [write_text_own h other]
        exact ⟨_, rfl, rfl⟩
  | bytes data => exact ⟨nofun, fun own ho _ => ⟨data, rfl, by cases ho; rfl⟩, nofun⟩
  | list | map | object => exact ⟨nofun, nofun, fun _ => rfl⟩

end sized

theorem writes_sized_day : ColumnType.date.size? = some 4 ∧
    ((∃ fault, write (.text "2000-01-32") .date = .error fault) ∨
      ∃ data, write (.text "2000-01-32") .date = .ok (.bytes data) ∧ data.length = 4) ∧
    (∃ data, write (.number (.int32 5)) .date = .ok (.bytes data) ∧
      write (.number (.int32 5)) .text = .ok (.bytes data)) ∧
    write .null .date = .ok .null :=
  ⟨rfl, (@writes_sized .date 4 rfl _).1 rfl, (@writes_sized .date 4 rfl _).2.1 .text rfl rfl,
    (@writes_sized .date 4 rfl .null).2.2 rfl⟩

/-- A truth value is one byte and a year four characters, to an integer column too. -/
theorem writes_unsized : ColumnType.int4.size? = some 4 ∧
    write (.bool true) .int4 = .ok (.bytes [1]) ∧
    write (.text "2024") .int4 = .ok (.bytes [50, 48, 50, 52]) ∧
    write (.text "2024") .text = .ok (.bytes [50, 48, 50, 52]) ∧
    signedValue [50, 48, 50, 52] = 842019380 := by
  have spelled : "2024".toUTF8.toList = [50, 48, 50, 52] := by decide +kernel
  have sent : Except.ok (Written.bytes "2024".toUTF8.toList) =
      (.ok (.bytes [50, 48, 50, 52]) : Except EncodeFault Written) := by rw [spelled]
  exact ⟨rfl, rfl, sent, sent, by decide⟩

end RowGraph.Wire
