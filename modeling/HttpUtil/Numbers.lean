import HttpUtil.Text.Bytes

/-! # Integer parsing

`HttpUtil::StringToInt64(in, out)` is `absl::SimpleAtoi(in.data(), out)`: the
`const char*` conversion makes `SimpleAtoi` read from `in.data()` up to the
next NUL of the buffer, whatever `in`'s length (`cString`).  `SimpleAtoi` is
library code that the sources do not include; it is modelled as its
documentation describes it.  `decimal` is the decimal rendering the parsers'
inputs are written in.
-/

namespace HttpUtil

open Ascii

/-- `absl::ascii_isspace`. -/
def isAsciiSpace (c : UInt8) : Bool :=
  c == 32 || c == 9 || c == 10 || c == 11 || c == 12 || c == 13

/-- `base::IsAsciiDigit`. -/
def isAsciiDigit (c : UInt8) : Bool := 48 ≤ c && c ≤ 57

/-- The value of a string of decimal digits. -/
def digitsValue (digits : Bytes) : Nat := digits.foldl (fun acc c => 10 * acc + (c - 48).toNat) 0

/-- `absl::SimpleAtoi` into an `int64_t`: ASCII whitespace around the number is
ignored, a `+` or `-` may lead, then base-10 digits only, and the value must lie
in the `int64_t` range, from `-2^63` to `2^63 - 1`. -/
def simpleAtoi (s : Bytes) : Option Int :=
  match (s.dropWhile isAsciiSpace).rdropWhile isAsciiSpace with
  | [] => none
  | c :: rest =>
      let digits := if c == minus || c == plus then rest else c :: rest
      if digits.isEmpty || !digits.all isAsciiDigit then none
      else
        let value : Int := if c == minus then -(digitsValue digits : Int) else digitsValue digits
        if -9223372036854775808 ≤ value ∧ value < 9223372036854775808 then some value else none

/-- `HttpUtil::StringToInt64(in, out)` for a view `in` whose `data()` is offset
`data` of `buffer`. -/
def stringToInt64 (buffer : Bytes) (data : Nat) : Option Int := simpleAtoi (cString buffer data)

/-- The decimal rendering of `n`. -/
def decimal (n : Nat) : Bytes := (Nat.toDigits 10 n).map Char.toUInt8

theorem toDigitsCore_succ (fuel n : Nat) (ds : List Char) :
    Nat.toDigitsCore 10 (fuel + 1) n ds =
      if n / 10 = 0 then Nat.digitChar (n % 10) :: ds
      else Nat.toDigitsCore 10 fuel (n / 10) (Nat.digitChar (n % 10) :: ds) := rfl

theorem isAsciiDigit_digitChar {k : Nat} (small : k < 10) :
    isAsciiDigit (Nat.digitChar k).toUInt8 = true := by
  have table : ∀ k, k < 10 → isAsciiDigit (Nat.digitChar k).toUInt8 = true := by decide
  exact table k small

theorem isAsciiDigit_toDigitsCore {ds : List Char} (digits : ∀ c ∈ ds, isAsciiDigit c.toUInt8 = true) :
    ∀ fuel n, ∀ c ∈ Nat.toDigitsCore 10 fuel n ds, isAsciiDigit c.toUInt8 = true := by
  intro fuel
  induction fuel generalizing ds with
  | zero => exact fun _ => digits
  | succ fuel ih =>
      intro n
      have digit := isAsciiDigit_digitChar (Nat.mod_lt n (show 10 > 0 by decide))
      have extended : ∀ c ∈ Nat.digitChar (n % 10) :: ds, isAsciiDigit c.toUInt8 = true := by
        simpa [digit] using digits
      rw [toDigitsCore_succ]
      split
      · exact extended
      · exact ih extended _

theorem isAsciiDigit_of_mem_decimal {n : Nat} : ∀ c ∈ decimal n, isAsciiDigit c = true := by
  intro c member
  obtain ⟨d, inDigits, rfl⟩ := List.mem_map.mp member
  exact isAsciiDigit_toDigitsCore (by simp) _ _ d inDigits

theorem toDigitsCore_ne_nil {ds : List Char} (nonempty : ds ≠ []) :
    ∀ fuel n, Nat.toDigitsCore 10 fuel n ds ≠ [] := by
  intro fuel
  induction fuel generalizing ds with
  | zero => exact fun _ => nonempty
  | succ fuel ih =>
      intro n
      rw [toDigitsCore_succ]
      split
      · exact List.cons_ne_nil _ _
      · exact ih (List.cons_ne_nil _ _) _

theorem decimal_ne_nil (n : Nat) : decimal n ≠ [] := by
  show (Nat.toDigitsCore 10 (n + 1) n []).map Char.toUInt8 ≠ []
  rw [ne_eq, List.map_eq_nil_iff, toDigitsCore_succ]
  split
  · exact List.cons_ne_nil _ _
  · exact toDigitsCore_ne_nil (List.cons_ne_nil _ _) _ _

theorem isAsciiDigit_not_special {c : UInt8} (digit : isAsciiDigit c = true) :
    isAsciiSpace c = false ∧ c ≠ minus ∧ c ≠ plus := by
  simp only [isAsciiDigit, Bool.and_eq_true, decide_eq_true_eq] at digit
  have bounds : 48 ≤ c.toNat ∧ c.toNat ≤ 57 := digit
  simp only [isAsciiSpace, Bool.or_eq_false_iff, beq_eq_false_iff_ne, ne_eq]
  refine ⟨⟨⟨⟨⟨⟨?_, ?_⟩, ?_⟩, ?_⟩, ?_⟩, ?_⟩, ?_, ?_⟩ <;> rintro rfl <;> revert bounds <;> decide

theorem mem_rdropWhile {α : Type} {p : α → Bool} {l : List α} {x : α} (member : x ∈ l)
    (keep : p x = false) : x ∈ l.rdropWhile p := by
  rw [← rdropWhile_append_rtakeWhile p l, List.mem_append] at member
  rcases member with kept | dropped
  · exact kept
  · simp [List.mem_rtakeWhile_imp dropped] at keep

theorem rdropWhile_cons {α : Type} {p : α → Bool} {l : List α} (c : α)
    (nonempty : l.rdropWhile p ≠ []) : (c :: l).rdropWhile p = c :: l.rdropWhile p := by
  have reversed : (l.reverse.dropWhile p).isEmpty = false := by
    simpa [List.rdropWhile] using nonempty
  simp [List.rdropWhile, List.dropWhile_append, reversed]

theorem trim_cons {c x : UInt8} {rest : Bytes} (first : isAsciiSpace c = false) (member : x ∈ rest)
    (keep : isAsciiSpace x = false) :
    ∃ rest', ((c :: rest).dropWhile isAsciiSpace).rdropWhile isAsciiSpace = c :: rest' ∧ x ∈ rest' := by
  have kept := mem_rdropWhile member keep
  refine ⟨rest.rdropWhile isAsciiSpace, ?_, kept⟩
  rw [List.dropWhile_cons_of_neg (by simp only [first]; decide), rdropWhile_cons c (List.ne_nil_of_mem kept)]

theorem simpleAtoi_digit_cons {c x : UInt8} {rest : Bytes} (digit : isAsciiDigit c = true)
    (member : x ∈ rest) (keep : isAsciiSpace x = false) (notDigit : isAsciiDigit x = false) :
    simpleAtoi (c :: rest) = none := by
  obtain ⟨notSpace, notMinus, notPlus⟩ := isAsciiDigit_not_special digit
  have notSign : (c == minus || c == plus) = false := by
    simpa only [Bool.or_eq_false_iff, beq_eq_false_iff_ne] using And.intro notMinus notPlus
  obtain ⟨rest', trimmed, kept⟩ := trim_cons notSpace member keep
  simp only [simpleAtoi, trimmed, notSign]
  have bad : (c :: rest').all isAsciiDigit = false :=
    List.all_eq_false.mpr ⟨x, List.mem_cons_of_mem _ kept, by simp [notDigit]⟩
  simp [bad]

theorem simpleAtoi_sign_cons {c x : UInt8} {rest : Bytes} (sign : c = minus ∨ c = plus)
    (member : x ∈ rest) (keep : isAsciiSpace x = false) (notDigit : isAsciiDigit x = false) :
    simpleAtoi (c :: rest) = none := by
  have notSpace : isAsciiSpace c = false := by rcases sign with rfl | rfl <;> rfl
  obtain ⟨rest', trimmed, kept⟩ := trim_cons notSpace member keep
  have isSign : (c == minus || c == plus) = true := by rcases sign with rfl | rfl <;> rfl
  simp only [simpleAtoi, trimmed, isSign, if_true]
  have bad : rest'.all isAsciiDigit = false :=
    List.all_eq_false.mpr ⟨x, kept, by simp [notDigit]⟩
  simp [bad]

theorem trim_of_noSpace {s : Bytes} (noSpace : ∀ c ∈ s, isAsciiSpace c = false) :
    (s.dropWhile isAsciiSpace).rdropWhile isAsciiSpace = s := by
  have front : s.dropWhile isAsciiSpace = s :=
    List.dropWhile_eq_self_iff.mpr fun nonempty => by simpa using noSpace _ (List.get_mem s 0 nonempty)
  rw [front]
  exact List.rdropWhile_eq_self_iff.mpr fun nonempty => by simp [noSpace _ (List.getLast_mem nonempty)]

theorem trim_cons_head {c : UInt8} (rest : Bytes) (notSpace : isAsciiSpace c = false) :
    ∃ rest', ((c :: rest).dropWhile isAsciiSpace).rdropWhile isAsciiSpace = c :: rest' := by
  rw [List.dropWhile_cons_of_neg (by simp [notSpace])]
  have kept := mem_rdropWhile (List.mem_cons_self c rest) notSpace
  obtain ⟨after, whole⟩ := List.rdropWhile_prefix (p := isAsciiSpace) (l := c :: rest)
  cases trimmed : (c :: rest).rdropWhile isAsciiSpace with
  | nil => rw [trimmed] at kept; cases kept
  | cons d rest' =>
      rw [trimmed, List.cons_append, List.cons.injEq] at whole
      exact ⟨rest', by rw [whole.1]⟩

theorem noSpace_minus_digits {digits : Bytes} (allDigits : ∀ c ∈ digits, isAsciiDigit c = true) :
    ∀ c ∈ minus :: digits, isAsciiSpace c = false := by
  intro c member
  rcases List.mem_cons.mp member with rfl | inDigits
  · rfl
  · exact (isAsciiDigit_not_special (allDigits c inDigits)).1

theorem simpleAtoi_digit_nonneg {c : UInt8} {rest : Bytes} (digit : isAsciiDigit c = true)
    {value : Int} (parsed : simpleAtoi (c :: rest) = some value) : 0 ≤ value := by
  obtain ⟨notSpace, notMinus, notPlus⟩ := isAsciiDigit_not_special digit
  obtain ⟨rest', trimmed⟩ := trim_cons_head rest notSpace
  simp only [simpleAtoi, trimmed, beq_false_of_ne notMinus, beq_false_of_ne notPlus, Bool.false_or,
    Bool.false_eq_true, if_false] at parsed
  split_ifs at parsed
  cases parsed
  omega

theorem simpleAtoi_digits {digits : Bytes} (nonempty : digits ≠ [])
    (allDigits : ∀ c ∈ digits, isAsciiDigit c = true) :
    simpleAtoi digits =
      if digitsValue digits < 9223372036854775808 then some (digitsValue digits : Int) else none := by
  have trimmed := trim_of_noSpace fun c member => (isAsciiDigit_not_special (allDigits c member)).1
  obtain ⟨c, rest, rfl⟩ := List.exists_cons_of_ne_nil nonempty
  obtain ⟨-, notMinus, notPlus⟩ := isAsciiDigit_not_special (allDigits c (List.mem_cons_self c rest))
  have valid : (c :: rest).all isAsciiDigit = true := List.all_eq_true.mpr allDigits
  simp only [simpleAtoi, trimmed, beq_false_of_ne notMinus, beq_false_of_ne notPlus, Bool.false_or,
    Bool.false_eq_true, if_false, valid, List.isEmpty_cons, Bool.not_true]
  split_ifs <;> first | rfl | omega

theorem simpleAtoi_minus_digits {digits : Bytes} (nonempty : digits ≠ [])
    (allDigits : ∀ c ∈ digits, isAsciiDigit c = true) :
    simpleAtoi (minus :: digits) =
      if digitsValue digits ≤ 9223372036854775808 then some (-(digitsValue digits : Int)) else none := by
  have valid : digits.all isAsciiDigit = true := List.all_eq_true.mpr allDigits
  have filled : digits.isEmpty = false := List.isEmpty_eq_false.mpr nonempty
  simp only [simpleAtoi, trim_of_noSpace (noSpace_minus_digits allDigits), beq_self_eq_true,
    Bool.true_or, if_true, valid, filled, Bool.not_true, Bool.false_or, Bool.false_eq_true, if_false]
  split_ifs <;> first | rfl | omega

theorem simpleAtoi_minus_nonpos {digits : Bytes} (allDigits : ∀ c ∈ digits, isAsciiDigit c = true)
    {value : Int} (parsed : simpleAtoi (minus :: digits) = some value) : value ≤ 0 := by
  simp only [simpleAtoi, trim_of_noSpace (noSpace_minus_digits allDigits), beq_self_eq_true,
    Bool.true_or, if_true] at parsed
  split_ifs at parsed
  cases parsed
  omega

theorem isLWS_of_isAsciiSpace {c : UInt8} (notSpace : isAsciiSpace c = false) : isLWS c = false := by
  simp only [isAsciiSpace, Bool.or_eq_false_iff] at notSpace
  simp [isLWS, notSpace.1.1.1.1.1, notSpace.1.1.1.1.2]

theorem ne_nul_of_isAsciiDigit {c : UInt8} (digit : isAsciiDigit c = true) : c ≠ nul := by
  rintro rfl
  revert digit
  decide

theorem decimal_cons (n : Nat) : ∃ c ds, decimal n = c :: ds ∧ isAsciiDigit c = true := by
  obtain ⟨c, ds, split⟩ := List.exists_cons_of_ne_nil (decimal_ne_nil n)
  exact ⟨c, ds, split, isAsciiDigit_of_mem_decimal c (split ▸ List.mem_cons_self c ds)⟩

theorem ne_nul_of_mem_decimal {n : Nat} {c : UInt8} (member : c ∈ decimal n) : c ≠ nul :=
  ne_nul_of_isAsciiDigit (isAsciiDigit_of_mem_decimal c member)

theorem not_lws_of_mem_decimal {n : Nat} {c : UInt8} (member : c ∈ decimal n) : isLWS c = false :=
  isLWS_of_isAsciiSpace (isAsciiDigit_not_special (isAsciiDigit_of_mem_decimal c member)).1

theorem ne_minus_of_mem_decimal {n : Nat} {c : UInt8} (member : c ∈ decimal n) : (c == minus) = false :=
  beq_false_of_ne (isAsciiDigit_not_special (isAsciiDigit_of_mem_decimal c member)).2.1

theorem trimLWSBounds_decimal {s : Bytes} {first last n : Nat} (number : slice s first last = decimal n) :
    trimLWSBounds s first last = (first, last) := by
  apply trimLWSBounds_of_ends <;> rw [number]
  · exact fun c head => not_lws_of_mem_decimal (List.mem_of_mem_head? head)
  · exact fun c last => not_lws_of_mem_decimal (List.mem_of_mem_getLast? last)

theorem cString_of_drop {s pre rest : Bytes} {pos : Nat} (at_ : s.drop pos = pre ++ rest)
    (noNul : ∀ c ∈ pre, c ≠ nul) : cString s pos = pre ++ rest.takeWhile (· != nul) := by
  rw [cString, at_, List.takeWhile_append_of_pos]
  simpa using noNul

/-- `StringToInt64` on a number that a byte other than a digit, a space or the
NUL follows fails. -/
theorem stringToInt64_decimal_cons {s rest : Bytes} {pos n : Nat} {x : UInt8}
    (at_ : s.drop pos = decimal n ++ x :: rest) (notNul : x ≠ nul) (notSpace : isAsciiSpace x = false)
    (notDigit : isAsciiDigit x = false) : stringToInt64 s pos = none := by
  obtain ⟨c, ds, split, digit⟩ := decimal_cons n
  have noNul : ∀ c ∈ decimal n ++ [x], c ≠ nul := by
    intro c member
    rcases List.mem_append.mp member with inDigits | isX
    · exact ne_nul_of_mem_decimal inDigits
    · rwa [List.mem_singleton.mp isX]
  rw [stringToInt64, cString_of_drop (by simpa using at_) noNul, split]
  exact simpleAtoi_digit_cons digit (by simp) notSpace notDigit

theorem stringToInt64_minus_decimal_cons {s rest : Bytes} {pos n : Nat} {x : UInt8}
    (at_ : s.drop pos = minus :: (decimal n ++ x :: rest)) (notNul : x ≠ nul)
    (notSpace : isAsciiSpace x = false) (notDigit : isAsciiDigit x = false) :
    stringToInt64 s pos = none := by
  have noNul : ∀ c ∈ minus :: (decimal n ++ [x]), c ≠ nul := by
    intro c member
    simp only [List.mem_cons, List.mem_append, List.mem_singleton, List.not_mem_nil, or_false] at member
    rcases member with rfl | inDigits | rfl
    · decide
    · exact ne_nul_of_mem_decimal inDigits
    · exact notNul
  rw [stringToInt64, cString_of_drop (by simpa using at_) noNul]
  exact simpleAtoi_sign_cons (.inl rfl) (by simp) notSpace notDigit

theorem stringToInt64_minus_decimal {s : Bytes} {pos n : Nat} (at_ : s.drop pos = minus :: decimal n)
    {value : Int} (parsed : stringToInt64 s pos = some value) : value ≤ 0 := by
  have noNul : ∀ c ∈ minus :: decimal n, c ≠ nul := by
    intro c member
    rcases List.mem_cons.mp member with rfl | inDigits
    · decide
    · exact ne_nul_of_mem_decimal inDigits
  rw [stringToInt64, @cString_of_drop s _ [] pos (by simpa using at_) noNul] at parsed
  exact simpleAtoi_minus_nonpos (fun c => isAsciiDigit_of_mem_decimal c) (by simpa using parsed)

end HttpUtil
