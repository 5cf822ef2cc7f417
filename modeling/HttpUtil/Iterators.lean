import Mathlib.Logic.Function.Iterate
import HttpUtil.Text.Tokenizer
import HttpUtil.Quoting

/-! # The header, value and property iterators

`HttpUtil::HeadersIterator`, `HttpUtil::ValuesIterator` and
`HttpUtil::NameValuePairsIterator`.  Each keeps a tokenizer and the bounds of
what it found last, as offsets into the bytes it iterates over.  The first two
run the loop `while (tokenizer.GetNext()) { ... }`, written once as
`loopTokens`; the third calls the second once per `GetNext`.

The accessors are declared in `http_util.h`, which is not among the sources;
they are modelled as the specification describes them: the name and the raw
value are the bytes between their bounds, and the value is the unquoted value
where the value was quoted.
-/

namespace HttpUtil

open Ascii

/-- `while (tokenizer.GetNext()) { body }`: `advance` calls the tokenizer,
`body` returns `true` for `return true` and `false` for `continue`.  `fuel`
bounds the rounds; `loopTokens_fuel_congr` shows the iterators give enough. -/
def loopTokens {σ : Type} (advance body : σ → Bool × σ) : Nat → σ → Bool × σ
  | 0, s => (false, s)
  | fuel + 1, s =>
      match advance s with
      | (false, s) => (false, s)
      | (true, s) =>
          match body s with
          | (true, s) => (true, s)
          | (false, s) => loopTokens advance body fuel s

/-- A call of `advance` as a step of `collect`: where it finds something, it
yields the state it leaves. -/
def yielded {σ : Type} (advance : σ → Bool × σ) (s : σ) : Option (σ × σ) :=
  if (advance s).1 then some ((advance s).2, (advance s).2) else none

theorem yielded_eq_some {σ : Type} {advance : σ → Bool × σ} {s a s' : σ}
    (step : yielded advance s = some (a, s')) : advance s = (true, s') ∧ a = s' := by
  unfold yielded at step
  split at step
  · cases step
    exact ⟨Prod.ext ‹_› rfl, rfl⟩
  · cases step

section Loop

variable {σ : Type} (advance body : σ → Bool × σ)

/-- What the tokenizer calls and the loop body keep, the loop keeps. -/
theorem loopTokens_invariant (P : σ → Prop) (advanceKeeps : ∀ s, P s → P (advance s).2)
    (bodyKeeps : ∀ s, P s → P (body s).2) :
    ∀ fuel s, P s → P (loopTokens advance body fuel s).2
  | 0, _, start => start
  | fuel + 1, s, start => by
      have advanced := advanceKeeps s start
      unfold loopTokens
      split
      · simp_all
      · rename_i s' found
        rw [found] at advanced
        have read := bodyKeeps s' advanced
        split
        · simp_all
        · rename_i s'' continued
          rw [continued] at read
          exact loopTokens_invariant P advanceKeeps bodyKeeps fuel s'' read

theorem loopTokens_true (P : σ → Prop) (advanceKeeps : ∀ s, P s → P (advance s).2)
    (bodyKeeps : ∀ s, P s → P (body s).2) :
    ∀ {fuel s s'}, P s → loopTokens advance body fuel s = (true, s') →
      ∃ s₀ s₁, P s₀ ∧ advance s₀ = (true, s₁) ∧ body s₁ = (true, s')
  | 0, _, _, _, returned => by cases returned
  | fuel + 1, s, s', start, returned => by
      unfold loopTokens at returned
      split at returned
      · cases returned
      · rename_i s₁ found
        split at returned
        · rename_i s₂ read
          cases returned
          exact ⟨s, s₁, start, found, read⟩
        · rename_i s₂ continued
          have advanced := advanceKeeps s start
          rw [found] at advanced
          have read := bodyKeeps s₁ advanced
          rw [continued] at read
          exact loopTokens_true P advanceKeeps bodyKeeps read returned

theorem loopTokens_measure (μ : σ → Nat) (decreasing : ∀ s s', advance s = (true, s') → μ s' < μ s)
    (bodyKeeps : ∀ s, μ (body s).2 = μ s) :
    ∀ {fuel s s'}, loopTokens advance body fuel s = (true, s') → μ s' < μ s
  | 0, _, _, returned => by cases returned
  | fuel + 1, s, s', returned => by
      unfold loopTokens at returned
      split at returned
      · cases returned
      · rename_i s₁ found
        have smaller := decreasing s s₁ found
        split at returned
        · rename_i s₂ read
          cases returned
          have same : μ s' = μ s₁ := by rw [← bodyKeeps s₁, read]
          omega
        · rename_i s₂ continued
          have same : μ s₂ = μ s₁ := by rw [← bodyKeeps s₁, continued]
          have later := loopTokens_measure μ decreasing bodyKeeps returned
          omega

theorem loopTokens_fuel_congr (μ : σ → Nat)
    (decreasing : ∀ s s', advance s = (true, s') → μ s' < μ s)
    (bodyKeeps : ∀ s, μ (body s).2 = μ s) :
    ∀ {f g s}, μ s < f → μ s < g → loopTokens advance body f s = loopTokens advance body g s
  | 0, _, _, enoughF, _ => absurd enoughF (Nat.not_lt_zero _)
  | _, 0, _, _, enoughG => absurd enoughG (Nat.not_lt_zero _)
  | f + 1, g + 1, s, _, _ => by
      simp only [loopTokens]
      split
      · rfl
      · rename_i s₁ found
        have smaller := decreasing s s₁ found
        split
        · rfl
        · rename_i s₂ continued
          have same : μ s₂ = μ s₁ := by rw [← bodyKeeps s₁, continued]
          exact loopTokens_fuel_congr μ decreasing bodyKeeps (by omega) (by omega)

/-- A loop whose body only tests the state the tokenizer call left searches, in
order, the states that the successful calls yield. -/
theorem loopTokens_find? (test : σ → Bool) : ∀ fuel s,
    (loopTokens advance (fun s => (test s, s)) fuel s).1 =
        ((collect (yielded advance) fuel s).find? test).isSome ∧
      ∀ s' ∈ (collect (yielded advance) fuel s).find? test,
        (loopTokens advance (fun s => (test s, s)) fuel s).2 = s'
  | 0, _ => by simp [loopTokens, collect]
  | fuel + 1, s => by
      cases advanced : advance s with
      | mk found s₁ =>
        cases found with
        | false => simp [loopTokens, collect, yielded, advanced]
        | true =>
          cases matched : test s₁ with
          | true => simp [loopTokens, collect, yielded, advanced, matched]
          | false =>
            simp only [loopTokens, collect, yielded, advanced, matched, if_true,
              List.find?_cons_of_neg _ (Bool.not_eq_true _ ▸ matched)]
            exact loopTokens_find? test fuel s₁

theorem mem_collect_yielded : ∀ {fuel : Nat} {s s' : σ}, s' ∈ collect (yielded advance) fuel s →
    ∃ k, advance ((fun s => (advance s).2)^[k] s) = (true, s')
  | 0, _, _, member => by simp [collect] at member
  | fuel + 1, s, s', member => by
      cases advanced : advance s with
      | mk found s₁ =>
        cases found with
        | false => simp [collect, yielded, advanced] at member
        | true =>
          simp only [collect, yielded, advanced, if_true, List.mem_cons] at member
          rcases member with rfl | later
          · exact ⟨0, advanced⟩
          · obtain ⟨k, reached⟩ := mem_collect_yielded later
            exact ⟨k + 1, by rwa [Function.iterate_succ_apply, advanced]⟩

end Loop

/-- `HttpUtil::HeadersIterator`: the line tokenizer `lines_` and the bounds of
the current header's name and values. -/
structure HeadersIterator where
  lines : StringTokenizer
  nameBegin : Nat := 0
  nameEnd : Nat := 0
  valuesBegin : Nat := 0
  valuesEnd : Nat := 0

namespace HeadersIterator

/-- `HeadersIterator(headers_begin, headers_end, line_delimiter)` over the bytes
`headers`. -/
def init (headers lineDelimiter : Bytes) : HeadersIterator :=
  { lines := StringTokenizer.init headers 0 lineDelimiter }

def advance (it : HeadersIterator) : Bool × HeadersIterator :=
  (it.lines.getNext.1, { it with lines := it.lines.getNext.2 })

/-- The body of the loop of `GetNext`, on the line `lines_` has just found:
`false` where the code says `continue`. -/
def readLine (it : HeadersIterator) : Bool × HeadersIterator :=
  let s := it.lines.input
  let it := { it with nameBegin := it.lines.tokenBegin, valuesEnd := it.lines.tokenEnd }
  let colon := find (· == Ascii.colon) s it.nameBegin it.valuesEnd
  if colon == it.valuesEnd then (false, it)
  else
    let it := { it with nameEnd := colon }
    if it.nameBegin == it.nameEnd || isLWS (byteAt s it.nameBegin) then (false, it)
    else
      let name := trimLWSBounds s it.nameBegin it.nameEnd
      let it := { it with nameBegin := name.1, nameEnd := name.2 }
      if !isToken (slice s it.nameBegin it.nameEnd) then (false, it)
      else
        let values := trimLWSBounds s (colon + 1) it.valuesEnd
        (true, { it with valuesBegin := values.1, valuesEnd := values.2 })

/-- `HeadersIterator::GetNext`. -/
def getNext (it : HeadersIterator) : Bool × HeadersIterator :=
  loopTokens advance readLine (it.lines.remaining + 1) it

def name (it : HeadersIterator) : Bytes := slice it.lines.input it.nameBegin it.nameEnd

def values (it : HeadersIterator) : Bytes := slice it.lines.input it.valuesBegin it.valuesEnd

def calls (it : HeadersIterator) (k : Nat) : HeadersIterator := (fun it => it.getNext.2)^[k] it

@[simp] theorem advance_lines (it : HeadersIterator) : it.advance.2.lines = it.lines.getNext.2 :=
  rfl

@[simp] theorem readLine_lines (it : HeadersIterator) : it.readLine.2.lines = it.lines := by
  unfold readLine
  dsimp only
  split_ifs <;> rfl

theorem remaining_of_advance {it it' : HeadersIterator} (found : it.advance = (true, it')) :
    it'.lines.remaining < it.lines.remaining :=
  StringTokenizer.remaining_of_getNext (by
    rw [← (Prod.mk.inj found).2]; exact Prod.ext (Prod.mk.inj found).1 rfl)

theorem getNext_fuel (it : HeadersIterator) {fuel : Nat} (enough : it.lines.remaining < fuel) :
    it.getNext = loopTokens advance readLine fuel it :=
  loopTokens_fuel_congr advance readLine (fun it => it.lines.remaining)
    (fun _ _ => remaining_of_advance) (fun it => by simp) (Nat.lt_succ_self _) enough

theorem remaining_of_getNext {it it' : HeadersIterator} (found : it.getNext = (true, it')) :
    it'.lines.remaining < it.lines.remaining :=
  loopTokens_measure advance readLine (fun it => it.lines.remaining)
    (fun _ _ => remaining_of_advance) (fun it => by simp) found

/-- `HeadersIterator::AdvanceTo(name)`: call `GetNext` until the current
header's name equals `name`, ignoring ASCII case. -/
def advanceTo (it : HeadersIterator) (name : Bytes) : Bool × HeadersIterator :=
  loopTokens getNext (fun it => (lowerCaseEqualsASCII it.name name, it)) (it.lines.remaining + 1) it

end HeadersIterator

/-- `HttpUtil::ValuesIterator`: the tokenizer `values_` and the bounds of the
current value. -/
structure ValuesIterator where
  values : StringTokenizer
  ignoreEmptyValues : Bool
  valueBegin : Nat := 0
  valueEnd : Nat := 0

namespace ValuesIterator

/-- `ValuesIterator(values_begin, values_end, delimiter, ignore_empty_values)`:
the quote mark is the quote character, and empty tokens are returned unless
empty values are ignored. -/
def init (input : Bytes) (delimiter : UInt8) (ignoreEmptyValues : Bool) : ValuesIterator :=
  { values := { StringTokenizer.init input 0 [delimiter] with
      quotes := [dquote], returnEmptyTokens := !ignoreEmptyValues }
    ignoreEmptyValues }

def advance (it : ValuesIterator) : Bool × ValuesIterator :=
  (it.values.getNext.1, { it with values := it.values.getNext.2 })

/-- The body of the loop of `GetNext`: trim the token, and keep it unless it
is empty and empty values are ignored. -/
def readValue (it : ValuesIterator) : Bool × ValuesIterator :=
  let value := trimLWSBounds it.values.input it.values.tokenBegin it.values.tokenEnd
  (!it.ignoreEmptyValues || value.1 != value.2,
    { it with valueBegin := value.1, valueEnd := value.2 })

/-- `ValuesIterator::GetNext`. -/
def getNext (it : ValuesIterator) : Bool × ValuesIterator :=
  loopTokens advance readValue (it.values.remaining + 1) it

def value (it : ValuesIterator) : Bytes := slice it.values.input it.valueBegin it.valueEnd

@[simp] theorem advance_values (it : ValuesIterator) : it.advance.2.values = it.values.getNext.2 :=
  rfl

@[simp] theorem readValue_values (it : ValuesIterator) : it.readValue.2.values = it.values := rfl

@[simp] theorem advance_ignoreEmptyValues (it : ValuesIterator) :
    it.advance.2.ignoreEmptyValues = it.ignoreEmptyValues := rfl

@[simp] theorem readValue_ignoreEmptyValues (it : ValuesIterator) :
    it.readValue.2.ignoreEmptyValues = it.ignoreEmptyValues := rfl

theorem remaining_of_advance {it it' : ValuesIterator} (found : it.advance = (true, it')) :
    it'.values.remaining < it.values.remaining :=
  StringTokenizer.remaining_of_getNext (by
    rw [← (Prod.mk.inj found).2]; exact Prod.ext (Prod.mk.inj found).1 rfl)

theorem getNext_fuel (it : ValuesIterator) {fuel : Nat} (enough : it.values.remaining < fuel) :
    it.getNext = loopTokens advance readValue fuel it :=
  loopTokens_fuel_congr advance readValue (fun it => it.values.remaining)
    (fun _ _ => remaining_of_advance) (fun _ => rfl) (Nat.lt_succ_self _) enough

theorem remaining_of_getNext {it it' : ValuesIterator} (found : it.getNext = (true, it')) :
    it'.values.remaining < it.values.remaining :=
  loopTokens_measure advance readValue (fun it => it.values.remaining)
    (fun _ _ => remaining_of_advance) (fun _ => rfl) found

theorem getNext_of_token {it : ValuesIterator} {t' : StringTokenizer}
    (found : it.values.getNext = (true, t')) (nonempty : t'.token ≠ [])
    (firstByte : ∀ c ∈ t'.token.head?, isLWS c = false)
    (lastByte : ∀ c ∈ t'.token.getLast?, isLWS c = false) :
    it.getNext = (true, { it with values := t', valueBegin := t'.tokenBegin, valueEnd := t'.tokenEnd }) := by
  have bounds : trimLWSBounds t'.input t'.tokenBegin t'.tokenEnd = (t'.tokenBegin, t'.tokenEnd) :=
    trimLWSBounds_of_ends firstByte lastByte
  have distinct : (t'.tokenBegin != t'.tokenEnd) = true := by
    simpa using Nat.ne_of_lt (lt_of_slice_ne_nil nonempty)
  simp [getNext, loopTokens, advance, found, readValue, bounds, distinct]

theorem getNext_finished {it : ValuesIterator} (finished : it.values.getNext.1 = false) :
    it.getNext.1 = false := by
  simp [getNext, loopTokens, advance, finished]

theorem getNext_init_word {d : UInt8} {ignore : Bool} {w tail : Bytes} (nonempty : w ≠ [])
    (plain : ∀ c ∈ w, c ∉ [d] ∧ c ∉ [dquote]) (firstByte : ∀ c ∈ w.head?, isLWS c = false)
    (lastByte : ∀ c ∈ w.getLast?, isLWS c = false) (after : ∀ c ∈ tail.head?, c = d) :
    (init (w ++ tail) d ignore).getNext = (true, { init (w ++ tail) d ignore with
      values := { (init (w ++ tail) d ignore).values with tokenEnd := w.length, tokenIsDelim := false }
      valueBegin := 0, valueEnd := w.length }) := by
  obtain ⟨q, plainPart⟩ := slurp_plain [d] [dquote] plain false 0 tail
  have stops : slurp [d] [dquote] ⟨false, false, q⟩ tail = 0 := by
    cases tail with
    | nil => rfl
    | cons c tail => simp [slurp, advanceOne, after c rfl]
  have slurped : slurp [d] [dquote] {} (w ++ tail) = w.length := by
    rw [show ({} : AdvanceState) = ⟨false, false, 0⟩ from rfl, plainPart, stops, Nat.zero_add]
  have found := StringTokenizer.getNext_word (t := (init (w ++ tail) d ignore).values) rfl
    (List.drop_zero _) slurped nonempty
  have word : slice (w ++ tail) 0 (0 + w.length) = w := by simp [slice]
  rw [getNext_of_token found] <;> simp only [StringTokenizer.token, init, StringTokenizer.init, word]
  exacts [by simp, nonempty, firstByte, lastByte]

end ValuesIterator

/-- `NameValuePairsIterator::Values`: whether a property needs a value. -/
inductive Values
  | required
  | notRequired
deriving DecidableEq, Repr

/-- `NameValuePairsIterator::Quotes`: whether quoted values are unquoted
strictly. -/
inductive Quotes
  | strictQuotes
  | notStrict
deriving DecidableEq, Repr

/-- The fields of a `NameValuePairsIterator` that `GetNext` writes: `valid_`,
the bounds of the name and of the value, `value_is_quoted_` and
`unquoted_value_`. -/
structure NameValuePair where
  valid : Bool
  nameBegin : Nat
  nameEnd : Nat
  valueBegin : Nat
  valueEnd : Nat
  valueIsQuoted : Bool
  unquotedValue : Bytes

/-- `HttpUtil::NameValuePairsIterator`: the property iterator `props_`, the two
modes, and the fields `GetNext` writes. -/
structure NameValuePairsIterator where
  props : ValuesIterator
  valuesOptional : Bool
  strictQuotes : Bool
  pair : NameValuePair

namespace NameValuePairsIterator

/-- `NameValuePairsIterator(begin, end, delimiter, optional_values,
strict_quotes)`; `props_` ignores empty values. -/
def init (input : Bytes) (delimiter : UInt8) (optionalValues : Values) (quotes : Quotes) :
    NameValuePairsIterator :=
  { props := ValuesIterator.init input delimiter true
    valuesOptional := optionalValues == .notRequired
    strictQuotes := quotes == .strictQuotes
    pair := { valid := true, nameBegin := input.length, nameEnd := input.length,
              valueBegin := input.length, valueEnd := input.length, valueIsQuoted := false,
              unquotedValue := [] } }

/-- The end of `GetNext` for a value `[value_begin_, value_end_)` of `s` that
starts with a quote mark. -/
def readQuoted (strictQuotes : Bool) (s : Bytes) (pair : NameValuePair) : Bool × NameValuePair :=
  let pair := { pair with valueIsQuoted := true }
  if strictQuotes then
    match strictUnquote (slice s pair.valueBegin pair.valueEnd) with
    | none => (false, { pair with valid := false })
    | some unquoted => (true, { pair with unquotedValue := unquoted })
  -- Trim surrounding quotemarks off the value
  else if byteAt s pair.valueBegin != byteAt s (pair.valueEnd - 1) ||
      pair.valueBegin + 1 == pair.valueEnd then
    -- Gracefully recover from mismatching quotes.
    (true, { pair with valueIsQuoted := false, valueBegin := pair.valueBegin + 1 })
  else (true, { pair with unquotedValue := unquote (slice s pair.valueBegin pair.valueEnd) })

/-- The body of `GetNext` after `props_.GetNext()` has found the property
`[props.value_begin(), props.value_end())`.  A malformed property sets `valid_`
to `false` and returns it. -/
def readProperty (valuesOptional strictQuotes : Bool) (props : ValuesIterator)
    (pair : NameValuePair) : Bool × NameValuePair :=
  let s := props.values.input
  -- Set the value as everything.  Next we will split out the name.
  let pair := { pair with valueBegin := props.valueBegin, valueEnd := props.valueEnd,
                          nameBegin := props.valueEnd, nameEnd := props.valueEnd }
  let equals := find (· == Ascii.equals) s pair.valueBegin pair.valueEnd
  if equals == pair.valueBegin then (false, { pair with valid := false })
  else if equals == pair.valueEnd && !valuesOptional then (false, { pair with valid := false })
  else if equals != pair.valueEnd && (slice s pair.valueBegin equals).any isQuote then
    (false, { pair with valid := false })
  else
    let valueStart := if equals == pair.valueEnd then pair.valueEnd else equals + 1
    let name := trimLWSBounds s pair.valueBegin equals
    let value := trimLWSBounds s valueStart pair.valueEnd
    let pair := { pair with nameBegin := name.1, nameEnd := name.2, valueBegin := value.1,
                            valueEnd := value.2, valueIsQuoted := false, unquotedValue := [] }
    if equals != pair.valueEnd && pair.valueBegin == pair.valueEnd then
      (false, { pair with valid := false })
    else if pair.valueBegin != pair.valueEnd && isQuote (byteAt s pair.valueBegin) then
      readQuoted strictQuotes s pair
    else (true, pair)

/-- `NameValuePairsIterator::GetNext`.  Nothing reads `valid_` on the way in. -/
def getNext (it : NameValuePairsIterator) : Bool × NameValuePairsIterator :=
  let next := it.props.getNext
  let read := if next.1 then readProperty it.valuesOptional it.strictQuotes next.2 it.pair
    else (false, it.pair)
  (read.1, { it with props := next.2, pair := read.2 })

def valid (it : NameValuePairsIterator) : Bool := it.pair.valid

def name (it : NameValuePairsIterator) : Bytes :=
  slice it.props.values.input it.pair.nameBegin it.pair.nameEnd

def rawValue (it : NameValuePairsIterator) : Bytes :=
  slice it.props.values.input it.pair.valueBegin it.pair.valueEnd

def valueIsQuoted (it : NameValuePairsIterator) : Bool := it.pair.valueIsQuoted

def value (it : NameValuePairsIterator) : Bytes :=
  if it.pair.valueIsQuoted then it.pair.unquotedValue else it.rawValue

def calls (it : NameValuePairsIterator) (k : Nat) : NameValuePairsIterator :=
  (fun it => it.getNext.2)^[k] it

@[simp] theorem getNext_props (it : NameValuePairsIterator) :
    it.getNext.2.props = it.props.getNext.2 := rfl

@[simp] theorem getNext_valuesOptional (it : NameValuePairsIterator) :
    it.getNext.2.valuesOptional = it.valuesOptional := rfl

@[simp] theorem getNext_strictQuotes (it : NameValuePairsIterator) :
    it.getNext.2.strictQuotes = it.strictQuotes := rfl

end NameValuePairsIterator

end HttpUtil
