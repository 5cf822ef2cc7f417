import HttpUtil.Numbers

/-! # Parsing integers in a format

`bvc::ParseIntHelper` of `parse_number.cc` checks the first byte against the
format, calls the `StringToNumber` overload of the output type, and on a
failure tells an overflow or an underflow from a parse error by the shape of
the input.  `ParseInt64`'s overload is `absl::SimpleAtoi` on the view itself;
the other overloads call `QuicheTextUtilsImpl`, which the sources do not
include, so the helper takes the overload as a parameter, and what it says
about the shape of the input holds for all four.

`HttpUtil::ParseRetryAfterHeader` is `ParseUint32` followed by a conversion to
a `QuicTime::Delta`, whose check for a negative interval never fires.
-/

namespace HttpUtil

open Ascii

/-- `bvc::ParseIntFormat`: whether a leading `-` is allowed. -/
inductive ParseIntFormat
  | nonNegative
  | optionallyNegative
deriving DecidableEq, Repr

/-- `bvc::ParseIntError`. -/
inductive ParseIntError
  | failedParse
  | failedUnderflow
  | failedOverflow
deriving DecidableEq, Repr

/-- `ParseIntHelper(input, format, &output, &optional_error)`: the value it
stores in `*output`, or the error that `SetError` stores in `*optional_error`
when that is not null (the call returns `false` either way). -/
def parseIntHelper {α : Type} (stringToNumber : Bytes → Option α) (input : Bytes)
    (format : ParseIntFormat) : Except ParseIntError α :=
  match input with
  | [] => .error .failedParse
  | c :: rest =>
      let startsWithNegative := c == minus
      let startsWithDigit := isAsciiDigit c
      if !startsWithDigit && (format == .nonNegative || !startsWithNegative) then .error .failedParse
      else
        match stringToNumber input with
        | some result => .ok result
        | none =>
            -- Strip any leading negative sign off the number.
            let numericPortion := if startsWithNegative then rest else input
            if !numericPortion.isEmpty && numericPortion.all isAsciiDigit then
              .error (if startsWithNegative then .failedUnderflow else .failedOverflow)
            else .error .failedParse

/-- `bvc::ParseInt64`: `StringToNumber` into an `int64_t` is
`absl::SimpleAtoi(input, output)`. -/
def parseInt64 (input : Bytes) (format : ParseIntFormat) : Except ParseIntError Int :=
  parseIntHelper simpleAtoi input format

/-- `bvc::ParseInt32`.  Its `StringToNumber` overload,
`QuicheTextUtilsImpl::StringToInt`, is not in the sources: it is a parameter. -/
def parseInt32 (stringToInt : Bytes → Option Int) (input : Bytes) (format : ParseIntFormat) :
    Except ParseIntError Int :=
  parseIntHelper stringToInt input format

/-- `bvc::ParseUint32`, always in the `NON_NEGATIVE` format; its overload
`QuicheTextUtilsImpl::StringToUint32` is a parameter. -/
def parseUint32 (stringToUint32 : Bytes → Option UInt32) (input : Bytes) :
    Except ParseIntError UInt32 :=
  parseIntHelper stringToUint32 input .nonNegative

/-- `bvc::ParseUint64`, always in the `NON_NEGATIVE` format; its overload
`QuicheTextUtilsImpl::StringToUint64` is a parameter. -/
def parseUint64 (stringToUint64 : Bytes → Option UInt64) (input : Bytes) :
    Except ParseIntError UInt64 :=
  parseIntHelper stringToUint64 input .nonNegative

section Helper

variable {α : Type} {stringToNumber : Bytes → Option α} {input : Bytes} {format : ParseIntFormat}

theorem parseIntHelper_first {c : UInt8}
    (accepted : ¬(!isAsciiDigit c && (format == .nonNegative || !(c == minus))) = true) :
    isAsciiDigit c = true ∨ format = .optionallyNegative ∧ c = minus := by
  cases format <;> cases digit : isAsciiDigit c <;> simp_all

/-- Every outcome of a call: a parse error; the overload's value, after a first
byte that is a digit or an allowed `-`; an overflow, where the overload read
nothing from digits; or an underflow, where it read nothing from a `-` and
digits. -/
theorem parseIntHelper_cases (stringToNumber : Bytes → Option α) (input : Bytes)
    (format : ParseIntFormat) :
    parseIntHelper stringToNumber input format = .error .failedParse ∨
      (∃ c rest value, input = c :: rest ∧
        (isAsciiDigit c = true ∨ format = .optionallyNegative ∧ c = minus) ∧
        stringToNumber input = some value ∧ parseIntHelper stringToNumber input format = .ok value) ∨
      (stringToNumber input = none ∧ input ≠ [] ∧ (∀ c ∈ input, isAsciiDigit c = true) ∧
        parseIntHelper stringToNumber input format = .error .failedOverflow) ∨
      (stringToNumber input = none ∧
        (∃ digits, input = minus :: digits ∧ digits ≠ [] ∧ ∀ c ∈ digits, isAsciiDigit c = true) ∧
        parseIntHelper stringToNumber input format = .error .failedUnderflow) := by
  cases input with
  | nil => exact .inl rfl
  | cons c rest =>
      by_cases rejected : (!isAsciiDigit c && (format == .nonNegative || !(c == minus))) = true
      · exact .inl (if_pos rejected)
      have called : parseIntHelper stringToNumber (c :: rest) format =
          match stringToNumber (c :: rest) with
          | some result => .ok result
          | none =>
              if !(if c == minus then rest else c :: rest).isEmpty &&
                  (if c == minus then rest else c :: rest).all isAsciiDigit then
                .error (if c == minus then .failedUnderflow else .failedOverflow)
              else .error .failedParse :=
        if_neg rejected
      rw [called]
      cases read : stringToNumber (c :: rest) with
      | some value => exact .inr (.inl ⟨c, rest, value, rfl, parseIntHelper_first rejected, rfl, rfl⟩)
      | none =>
          cases numeric : (!(if c == minus then rest else c :: rest).isEmpty &&
              (if c == minus then rest else c :: rest).all isAsciiDigit) with
          | false => exact .inl rfl
          | true =>
              cases negative : c == minus <;>
                simp only [negative, Bool.false_eq_true, ↓reduceIte, Bool.and_eq_true, Bool.not_eq_true',
                  List.isEmpty_eq_false, List.all_eq_true] at numeric
              · exact .inr (.inr (.inl ⟨rfl, List.cons_ne_nil c rest, numeric.2, rfl⟩))
              · exact .inr (.inr (.inr ⟨rfl, ⟨rest, by rw [beq_iff_eq.mp negative], numeric⟩, rfl⟩))

theorem parseIntHelper_ok {value : α}
    (parsed : parseIntHelper stringToNumber input format = .ok value) :
    stringToNumber input = some value ∧ ∃ c rest, input = c :: rest ∧
      (isAsciiDigit c = true ∨ format = .optionallyNegative ∧ c = minus) := by
  rcases parseIntHelper_cases stringToNumber input format with
    failed | ⟨c, rest, value', rfl, first, read, returned⟩ | ⟨-, -, -, failed⟩ | ⟨-, -, failed⟩
  · cases parsed.symm.trans failed
  · cases parsed.symm.trans returned
    exact ⟨read, c, rest, rfl, first⟩
  all_goals cases parsed.symm.trans failed

theorem parseIntHelper_overflow
    (failed : parseIntHelper stringToNumber input format = .error .failedOverflow) :
    stringToNumber input = none ∧ input ≠ [] ∧ ∀ c ∈ input, isAsciiDigit c = true := by
  rcases parseIntHelper_cases stringToNumber input format with
    other | ⟨_, _, _, _, _, _, other⟩ | ⟨unread, nonempty, digits, -⟩ | ⟨-, -, other⟩
  · cases failed.symm.trans other
  · cases failed.symm.trans other
  · exact ⟨unread, nonempty, digits⟩
  · cases failed.symm.trans other

theorem parseIntHelper_underflow
    (failed : parseIntHelper stringToNumber input format = .error .failedUnderflow) :
    stringToNumber input = none ∧
      ∃ digits, input = minus :: digits ∧ digits ≠ [] ∧ ∀ c ∈ digits, isAsciiDigit c = true := by
  rcases parseIntHelper_cases stringToNumber input format with
    other | ⟨_, _, _, _, _, _, other⟩ | ⟨-, -, -, other⟩ | ⟨unread, shape, -⟩
  · cases failed.symm.trans other
  · cases failed.symm.trans other
  · cases failed.symm.trans other
  · exact ⟨unread, shape⟩

theorem parseIntHelper_digit {c : UInt8} {rest : Bytes} {value : α} (digit : isAsciiDigit c = true)
    (read : stringToNumber (c :: rest) = some value) :
    parseIntHelper stringToNumber (c :: rest) format = .ok value := by
  simp [parseIntHelper, digit, read]

theorem parseIntHelper_plus (rest : Bytes) :
    parseIntHelper stringToNumber (plus :: rest) format = .error .failedParse := by
  cases format <;> rfl

end Helper

/-- `ParseInt64` stores a value only where `SimpleAtoi` reads it, and one that is
not negative in the `NON_NEGATIVE` format; it never accepts a leading `+`; it
reports an overflow only for digits whose value is at least `2^63`, and an
underflow only for a `-` and digits whose value exceeds `2^63`. -/
theorem parseInt64_results (input : Bytes) (format : ParseIntFormat) :
    (∀ value, parseInt64 input format = .ok value →
      simpleAtoi input = some value ∧ (format = .nonNegative → 0 ≤ value)) ∧
    (∀ rest, input = plus :: rest → parseInt64 input format = .error .failedParse) ∧
    (parseInt64 input format = .error .failedOverflow →
      (∀ c ∈ input, isAsciiDigit c = true) ∧ 9223372036854775808 ≤ digitsValue input) ∧
    (parseInt64 input format = .error .failedUnderflow → ∃ digits, input = minus :: digits ∧
      (∀ c ∈ digits, isAsciiDigit c = true) ∧ 9223372036854775808 < digitsValue digits) := by
  refine ⟨fun value parsed => ?_, fun rest leading => leading ▸ parseIntHelper_plus rest,
    fun failed => ?_, fun failed => ?_⟩
  · obtain ⟨read, c, rest, rfl, first⟩ := parseIntHelper_ok parsed
    refine ⟨read, fun nonNegative => ?_⟩
    rcases first with digit | ⟨negative, -⟩
    · exact simpleAtoi_digit_nonneg digit read
    · cases nonNegative.symm.trans negative
  · obtain ⟨unread, nonempty, digits⟩ := parseIntHelper_overflow failed
    rw [simpleAtoi_digits nonempty digits] at unread
    refine ⟨digits, ?_⟩
    split_ifs at unread
    omega
  · obtain ⟨unread, digits, rfl, nonempty, allDigits⟩ := parseIntHelper_underflow failed
    rw [simpleAtoi_minus_digits nonempty allDigits] at unread
    refine ⟨digits, rfl, allDigits, ?_⟩
    split_ifs at unread
    omega

example : parseInt64 (ascii "9223372036854775807") .nonNegative = .ok 9223372036854775807 ∧
    parseInt64 (ascii "9223372036854775808") .nonNegative = .error .failedOverflow ∧
    parseInt64 (ascii "-9223372036854775809") .optionallyNegative = .error .failedUnderflow ∧
    parseInt64 (ascii "-1") .nonNegative = .error .failedParse :=
  ⟨rfl, rfl, rfl, rfl⟩

/-- `quic::QuicTime::Delta`, which the sources use but do not include: a signed
64-bit count of microseconds. -/
structure QuicTimeDelta where
  timeOffset : Int
deriving DecidableEq, Repr

namespace QuicTimeDelta

/-- `QuicTime::Delta::FromSeconds(secs)`: `secs * 1000 * 1000` microseconds. -/
def fromSeconds (secs : Int) : QuicTimeDelta :=
  ⟨secs * 1000 * 1000⟩

instance : LT QuicTimeDelta :=
  ⟨fun a b => a.timeOffset < b.timeOffset⟩

instance (a b : QuicTimeDelta) : Decidable (a < b) :=
  inferInstanceAs (Decidable (a.timeOffset < b.timeOffset))

theorem fromSeconds_uint32_range (seconds : UInt32) :
    0 ≤ (fromSeconds seconds.toNat).timeOffset ∧
      (fromSeconds seconds.toNat).timeOffset < 9223372036854775808 := by
  have bound := seconds.toNat_lt_size
  simp only [fromSeconds, UInt32.size] at bound ⊢
  omega

theorem fromSeconds_uint32_not_negative (seconds : UInt32) :
    ¬fromSeconds seconds.toNat < fromSeconds 0 := by
  show ¬(seconds.toNat : Int) * 1000 * 1000 < 0 * 1000 * 1000
  omega

end QuicTimeDelta

/-- `HttpUtil::ParseRetryAfterHeader(retry_after_string, now, retry_after)`: the
interval it stores in `*retry_after` when it returns `true`.  It never reads
`now`. -/
def parseRetryAfterHeader (stringToUint32 : Bytes → Option UInt32) (retryAfterString : Bytes) :
    Option QuicTimeDelta :=
  match parseUint32 stringToUint32 retryAfterString with
  | .error _ => none
  | .ok seconds =>
      let interval := QuicTimeDelta.fromSeconds seconds.toNat
      if interval < QuicTimeDelta.fromSeconds 0 then none else some interval

example : parseRetryAfterHeader (fun _ => some 120) (ascii "120") = some ⟨120000000⟩ ∧
    parseRetryAfterHeader (fun _ => some 120) (ascii "+120") = none := by
  decide

end HttpUtil
