import HttpUtil.Iterators
import HttpUtil.Numbers

/-! # Byte ranges

`HttpUtil::ParseRangeHeader` and `HttpUtil::ParseContentRangeHeaderFor206`.
Both hand each number to `StringToInt64` through a view rebuilt from `.data()`,
so `SimpleAtoi` reads from the number's first byte up to the NUL that ends the
whole header (`stringToInt64`), not up to the end of the number's field.

`HttpByteRange` is declared in `http_byte_range.h`, which is not among the
sources; it is modelled as that class behaves: each position is
`kPositionNotSpecified` until set, and a range is valid when its suffix length
is positive or its first position is set and not after its last one.

Every number `ParseRangeHeader` reads is read on to the end of the header, so
the first value of any list of byte-range-specs is rejected: a number followed
by the minus sign is not an integer, and a suffix is read with its minus sign,
as a non-positive length, or on through the next comma.
-/

namespace HttpUtil

open Ascii

def kPositionNotSpecified : Int := -1

/-- `HttpByteRange`. -/
structure HttpByteRange where
  firstBytePosition : Int
  lastBytePosition : Int
  suffixLength : Int
deriving DecidableEq, Repr

namespace HttpByteRange

def init : HttpByteRange := ⟨kPositionNotSpecified, kPositionNotSpecified, kPositionNotSpecified⟩

def hasFirstBytePosition (range : HttpByteRange) : Bool :=
  range.firstBytePosition != kPositionNotSpecified

/-- `HttpByteRange::IsValid`. -/
def isValid (range : HttpByteRange) : Bool :=
  decide (0 < range.suffixLength) ||
    (decide (0 ≤ range.firstBytePosition) &&
      (range.lastBytePosition == kPositionNotSpecified ||
        decide (range.firstBytePosition ≤ range.lastBytePosition)))

end HttpByteRange

/-- Reading `first_byte_pos`, the trimmed bounds `firstBytePos` of `s`: a
range with its first position set, or with nothing set where the field is
empty; `none` where `StringToInt64` fails. -/
def readFirstBytePos (s : Bytes) (firstBytePos : Nat × Nat) : Option HttpByteRange :=
  if firstBytePos.1 < firstBytePos.2 then
    (stringToInt64 s firstBytePos.1).map fun firstBytePosition =>
      { HttpByteRange.init with firstBytePosition }
  else some HttpByteRange.init

/-- Reading `last_byte_pos`, the trimmed bounds `lastBytePos`, into `range`.
Its number is read from `first_byte_pos.data()`. -/
def readLastBytePos (s : Bytes) (firstBytePos lastBytePos : Nat × Nat) (range : HttpByteRange) :
    Option HttpByteRange :=
  if lastBytePos.1 < lastBytePos.2 then
    (stringToInt64 s firstBytePos.1).map fun lastBytePosition =>
      if range.hasFirstBytePosition then { range with lastBytePosition }
      else { range with suffixLength := lastBytePosition }
  else if range.hasFirstBytePosition then some range
  else none

/-- The body of the loop of `ParseRangeHeader` on the value `[first, last)` of
the byte-range-set `s`: the range it pushes, or `none` where it returns
`false`. -/
def parseByteRangeSpec (s : Bytes) (first last : Nat) : Option HttpByteRange := do
  let minusCharOffset ← findIndex (· == minus) (slice s first last)
  let firstBytePos := trimLWSBounds s first (first + minusCharOffset)
  let range ← readFirstBytePos s firstBytePos
  let range ← readLastBytePos s firstBytePos (trimLWSBounds s (first + minusCharOffset + 1) last) range
  if range.isValid then some range else none

/-- The loop `while (byte_range_set_iterator.GetNext())` of `ParseRangeHeader`,
from the ranges pushed so far: what it returns, and `*ranges`.  `fuel` bounds
the rounds; the iterator's `remaining` measure gives enough. -/
def parseRanges : Nat → ValuesIterator → List HttpByteRange → Bool × List HttpByteRange
  | 0, _, ranges => (!ranges.isEmpty, ranges)
  | fuel + 1, it, ranges =>
      match it.getNext with
      | (false, _) => (!ranges.isEmpty, ranges)
      | (true, it) =>
          match parseByteRangeSpec it.values.input it.valueBegin it.valueEnd with
          | none => (false, ranges)
          | some range => parseRanges fuel it (ranges ++ [range])

/-- `HttpUtil::ParseRangeHeader(ranges_specifier, ranges)`: what it returns,
and `*ranges`.  The values are iterated over the bytes after the `=`, which end
where the string does. -/
def parseRangeHeader (rangesSpecifier : Bytes) (ranges : List HttpByteRange) :
    Bool × List HttpByteRange :=
  match findIndex (· == equals) rangesSpecifier with
  | none => (false, ranges)
  | some equalCharOffset =>
      if !lowerCaseEqualsASCII (trimLWS (rangesSpecifier.take equalCharOffset)) (ascii "bytes") then
        (false, ranges)
      else
        let it := ValuesIterator.init (rangesSpecifier.drop (equalCharOffset + 1)) comma true
        parseRanges (it.values.remaining + 1) it ranges

/-- Any fuel above the tokenizer's measure gives the same result: the loop of
`parseRangeHeader` is never cut short. -/
theorem parseRanges_fuel_congr :
    ∀ {f g : Nat} {it : ValuesIterator} {ranges : List HttpByteRange},
      it.values.remaining < f → it.values.remaining < g → parseRanges f it ranges = parseRanges g it ranges
  | 0, _, _, _, enoughF, _ => absurd enoughF (Nat.not_lt_zero _)
  | _, 0, _, _, _, enoughG => absurd enoughG (Nat.not_lt_zero _)
  | f + 1, g + 1, it, ranges, enoughF, enoughG => by
      simp only [parseRanges]
      split
      · rfl
      · rename_i it' found
        have smaller := ValuesIterator.remaining_of_getNext found
        split
        · rfl
        · exact parseRanges_fuel_congr (by omega) (by omega)

theorem parseRangeHeader_bytes (rest : Bytes) (ranges : List HttpByteRange) :
    parseRangeHeader (ascii "bytes=" ++ rest) ranges =
      parseRanges ((ValuesIterator.init rest comma true).values.remaining + 1)
        (ValuesIterator.init rest comma true) ranges := rfl

theorem parseRanges_of_none {fuel : Nat} {it it' : ValuesIterator} {ranges : List HttpByteRange}
    (found : it.getNext = (true, it'))
    (rejected : parseByteRangeSpec it'.values.input it'.valueBegin it'.valueEnd = none) :
    parseRanges (fuel + 1) it ranges = (false, ranges) := by
  simp [parseRanges, found, rejected]

theorem parseByteRangeSpec_decimal_minus {f : Nat} {r tail : Bytes} :
    parseByteRangeSpec (decimal f ++ minus :: r ++ tail) 0 (decimal f ++ minus :: r).length = none := by
  have value : slice (decimal f ++ minus :: r ++ tail) 0 (decimal f ++ minus :: r).length =
      decimal f ++ minus :: r := by simp only [slice, List.drop_zero, Nat.sub_zero, List.take_left]
  have minusAt : findIndex (· == minus) (decimal f ++ minus :: r) = some (decimal f).length :=
    findIndex_append_cons _ (fun _ => ne_minus_of_mem_decimal) (beq_self_eq_true minus)
  have firstBounds : trimLWSBounds (decimal f ++ minus :: r ++ tail) 0 (decimal f).length =
      (0, (decimal f).length) := trimLWSBounds_decimal (n := f) (by simp [slice])
  have failed : stringToInt64 (decimal f ++ minus :: r ++ tail) 0 = none :=
    @stringToInt64_decimal_cons _ (r ++ tail) 0 f minus (by simp) (by decide) (by decide) (by decide)
  have long : 0 < (decimal f).length := List.length_pos.mpr (decimal_ne_nil f)
  simp only [parseByteRangeSpec, value, minusAt, Option.bind_eq_bind, Option.some_bind, Nat.zero_add,
    firstBounds, readFirstBytePos, long, if_true, failed, Option.map_none', Option.none_bind]

theorem parseByteRangeSpec_suffix {n : Nat} {tail : Bytes} (after : ∀ c ∈ tail.head?, c = comma) :
    parseByteRangeSpec (minus :: decimal n ++ tail) 0 (minus :: decimal n).length = none := by
  have value : slice (minus :: decimal n ++ tail) 0 (minus :: decimal n).length = minus :: decimal n := by
    simp only [slice, List.drop_zero, Nat.sub_zero, List.take_left]
  have minusAt : findIndex (· == minus) (minus :: decimal n) = some 0 := rfl
  have firstBounds : trimLWSBounds (minus :: decimal n ++ tail) 0 0 = (0, 0) := by
    simp [trimLWSBounds, slice]
  have lastBounds : trimLWSBounds (minus :: decimal n ++ tail) 1 (minus :: decimal n).length =
      (1, (minus :: decimal n).length) := trimLWSBounds_decimal (n := n) (by simp [slice])
  have long : 1 < (minus :: decimal n).length := by
    simpa using List.length_pos.mpr (decimal_ne_nil n)
  have suffixInvalid : ∀ range, readLastBytePos (minus :: decimal n ++ tail) (0, 0)
      (1, (minus :: decimal n).length) HttpByteRange.init = some range → range.isValid = false := by
    intro range read
    simp only [readLastBytePos, long, if_true, Option.map_eq_some'] at read
    obtain ⟨value, parsed, rfl⟩ := read
    cases tail with
    | nil =>
        have nonpositive := stringToInt64_minus_decimal (n := n) (by simp) parsed
        simp [HttpByteRange.isValid, HttpByteRange.hasFirstBytePosition, HttpByteRange.init,
          kPositionNotSpecified]
        omega
    | cons c more =>
        obtain rfl : c = comma := after c rfl
        rw [@stringToInt64_minus_decimal_cons _ more 0 n comma (by simp) (by decide) (by decide)
          (by decide)] at parsed
        cases parsed
  simp only [parseByteRangeSpec, value, minusAt, Option.bind_eq_bind, Option.some_bind, Nat.zero_add,
    firstBounds, readFirstBytePos, Nat.lt_irrefl, if_false, lastBounds]
  cases read : readLastBytePos (minus :: decimal n ++ tail) (0, 0) (1, (minus :: decimal n).length)
    HttpByteRange.init with
  | none => rfl
  | some range => simp [suffixInvalid range read]

/-- A byte-range-spec: `first-last`, `first-` or `-suffix`. -/
inductive ByteRangeSpec
  | closed (first last : Nat)
  | fromFirst (first : Nat)
  | suffix (length : Nat)
deriving DecidableEq, Repr

namespace ByteRangeSpec

def render : ByteRangeSpec → Bytes
  | closed first last => decimal first ++ minus :: decimal last
  | fromFirst first => decimal first ++ [minus]
  | suffix length => minus :: decimal length

theorem mem_render {spec : ByteRangeSpec} {c : UInt8} (member : c ∈ spec.render) :
    isAsciiDigit c = true ∨ c = minus := by
  cases spec with
  | closed f l =>
      rcases List.mem_append.mp member with inFirst | inRest
      · exact .inl (isAsciiDigit_of_mem_decimal c inFirst)
      · rcases List.mem_cons.mp inRest with isMinus | inLast
        · exact .inr isMinus
        · exact .inl (isAsciiDigit_of_mem_decimal c inLast)
  | fromFirst f =>
      rcases List.mem_append.mp member with inFirst | isMinus
      · exact .inl (isAsciiDigit_of_mem_decimal c inFirst)
      · exact .inr (List.mem_singleton.mp isMinus)
  | suffix n =>
      rcases List.mem_cons.mp member with isMinus | inLength
      · exact .inr isMinus
      · exact .inl (isAsciiDigit_of_mem_decimal c inLength)

theorem render_ne_nil (spec : ByteRangeSpec) : spec.render ≠ [] := by
  cases spec <;> simp [render]

theorem not_lws_of_mem_render {spec : ByteRangeSpec} {c : UInt8} (member : c ∈ spec.render) :
    isLWS c = false := by
  rcases mem_render member with digit | rfl
  · exact isLWS_of_isAsciiSpace (isAsciiDigit_not_special digit).1
  · rfl

theorem plain_of_mem_render {spec : ByteRangeSpec} {c : UInt8} (member : c ∈ spec.render) :
    c ∉ [comma] ∧ c ∉ [dquote] := by
  simp only [List.mem_singleton]
  rcases mem_render member with digit | rfl
  · constructor <;> rintro rfl <;> revert digit <;> decide
  · decide

theorem parseByteRangeSpec_render (spec : ByteRangeSpec) {tail : Bytes}
    (after : ∀ c ∈ tail.head?, c = comma) :
    parseByteRangeSpec (spec.render ++ tail) 0 spec.render.length = none := by
  cases spec with
  | closed f l => exact parseByteRangeSpec_decimal_minus
  | fromFirst f => exact parseByteRangeSpec_decimal_minus
  | suffix n => exact parseByteRangeSpec_suffix after

end ByteRangeSpec

/-- `bytes=` and the comma-joined renderings of `specs`. -/
def rangesSpecifier (specs : List ByteRangeSpec) : Bytes :=
  ascii "bytes=" ++ [comma].intercalate (specs.map ByteRangeSpec.render)

/-- `ParseRangeHeader` rejects every list of byte-range-specs written out in
decimal, and leaves `*ranges` empty: the first number it reads runs on past
its own field. -/
theorem parseRangeHeader_rangesSpecifier_fails (specs : List ByteRangeSpec) :
    parseRangeHeader (rangesSpecifier specs) [] = (false, []) := by
  rw [rangesSpecifier, parseRangeHeader_bytes]
  cases specs with
  | nil => rfl
  | cons spec more =>
      rw [List.map_cons, intercalate_cons]
      have after : ∀ c ∈ (more.map ByteRangeSpec.render).flatMap (comma :: ·) |>.head?, c = comma := by
        cases more <;> simp
      apply parseRanges_of_none (@ValuesIterator.getNext_init_word comma true _ _
        (spec.render_ne_nil) (fun c member => spec.plain_of_mem_render member)
        (fun c head => spec.not_lws_of_mem_render (List.mem_of_mem_head? head))
        (fun c last => spec.not_lws_of_mem_render (List.mem_of_mem_getLast? last)) after)
      exact spec.parseByteRangeSpec_render after

theorem parseRangeHeader_two_ranges :
    rangesSpecifier [.closed 0 499, .closed 500 999] = ascii "bytes=0-499,500-999" ∧
      parseRangeHeader (ascii "bytes=0-499,500-999") [] = (false, []) :=
  ⟨by decide, parseRangeHeader_rangesSpecifier_fails [.closed 0 499, .closed 500 999]⟩

/-- The checks of `ParseContentRangeHeaderFor206` on the view `s`, whose buffer
goes on after it with the bytes `following` up to a NUL: the three positions, or
`none` where it fails.  Positions in the trimmed view are offsets from its first
byte `spec.1`; the numbers are read from the buffer, through its NUL. -/
def contentRange (s following : Bytes) : Option (Int × Int × Int) := do
  let spec := trimLWSBounds s 0 s.length
  let view := slice s spec.1 spec.2
  let spacePosition ← findIndex (· == space) view
  guard (lowerCaseEqualsASCII (trimLWS (view.take spacePosition)) (ascii "bytes"))
  let minusPosition ← findFrom (· == minus) view (spacePosition + 1)
  let slashPosition ← findFrom (· == slash) view (minusPosition + 1)
  let firstBytePosition ←
    stringToInt64 (s ++ following) (trimLWSBounds s (spec.1 + spacePosition + 1) (spec.1 + minusPosition)).1
  guard (0 ≤ firstBytePosition)
  let lastBytePosition ←
    stringToInt64 (s ++ following) (trimLWSBounds s (spec.1 + minusPosition + 1) (spec.1 + slashPosition)).1
  guard (firstBytePosition ≤ lastBytePosition)
  let instanceLength ← stringToInt64 (s ++ following) (trimLWSBounds s (spec.1 + slashPosition + 1) spec.2).1
  guard (lastBytePosition < instanceLength)
  pure (firstBytePosition, lastBytePosition, instanceLength)

/-- `HttpUtil::ParseContentRangeHeaderFor206`: what it returns, and
`*first_byte_position`, `*last_byte_position` and `*instance_length`. -/
def parseContentRangeHeaderFor206 (contentRangeSpec following : Bytes) : Bool × Int × Int × Int :=
  match contentRange contentRangeSpec following with
  | some (first, last, length) => (true, first, last, length)
  | none => (false, -1, -1, -1)

theorem parseContentRangeHeaderFor206_decimal_fails (f l n : Nat) (following : Bytes) :
    parseContentRangeHeaderFor206 (ascii "bytes " ++ decimal f ++ minus :: decimal l ++ slash :: decimal n)
      following = (false, -1, -1, -1) := by
  set s := ascii "bytes " ++ decimal f ++ minus :: decimal l ++ slash :: decimal n with sDef
  have afterSpace : s.drop 6 = decimal f ++ minus :: (decimal l ++ slash :: decimal n) := by
    simp only [sDef, List.append_assoc, List.cons_append]; rfl
  have bufferAfterSpace : (s ++ following).drop 6 =
      decimal f ++ minus :: (decimal l ++ slash :: decimal n ++ following) := by
    simp only [sDef, List.append_assoc, List.cons_append]; rfl
  have whole : slice s 0 s.length = s := by simp [slice]
  have ends : trimLWSBounds s 0 s.length = (0, s.length) := by
    apply trimLWSBounds_of_ends <;> rw [whole]
    · intro c head; cases head; rfl
    · intro c last
      obtain ⟨d, ds, split, -⟩ := decimal_cons n
      rw [sDef, List.getLast?_append_of_ne_nil _ (List.cons_ne_nil _ _), split, List.getLast?_cons_cons,
        ← split] at last
      exact not_lws_of_mem_decimal (List.mem_of_mem_getLast? last)
  have spaceAt : findIndex (· == space) s = some 5 := rfl
  have unit : lowerCaseEqualsASCII (trimLWS (s.take 5)) (ascii "bytes") = true := rfl
  have minusAt : findFrom (· == minus) s 6 = some ((decimal f).length + 6) := by
    simp only [findFrom, afterSpace, findIndex_append_cons _ (fun _ => ne_minus_of_mem_decimal) (beq_self_eq_true minus), Option.map_some']
  have number : slice s 6 ((decimal f).length + 6) = decimal f := by
    simp only [slice, afterSpace, Nat.add_sub_cancel, List.take_left]
  have firstBounds : trimLWSBounds s 6 ((decimal f).length + 6) = (6, (decimal f).length + 6) :=
    trimLWSBounds_decimal number
  have failed : stringToInt64 (s ++ following) 6 = none :=
    stringToInt64_decimal_cons bufferAfterSpace (by decide) (by decide) (by decide)
  simp only [parseContentRangeHeaderFor206, contentRange, ends, whole, spaceAt, unit, Option.bind_eq_bind,
    Option.some_bind, guard_true, Option.pure_def, minusAt, Nat.zero_add, firstBounds, failed,
    Option.none_bind, Option.bind_none]

theorem parseContentRangeHeaderFor206_partial_content :
    parseContentRangeHeaderFor206 (ascii "bytes 0-499/1234") [] = (false, -1, -1, -1) :=
  parseContentRangeHeaderFor206_decimal_fails 0 499 1234 []

end HttpUtil
