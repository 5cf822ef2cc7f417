import HttpUtil.Iterators.QuoteModes
import HttpUtil.Iterators.Recovery
import HttpUtil.Iterators.Refinement

namespace HttpUtil

open Ascii

/-! # `NameValuePairsIterator` as a parser of property lists

`NameValuePairsIterator::GetNext` takes the next property from `props_` and
splits it at its first `=` into a name and a value, moving offsets into the
input.  Here one property is read without offsets, by `pairOfProperty`, from the
bytes `props_` yields; the loop `while (it.GetNext())` then reads the properties
`props_` yields one by one and stops at the first malformed one
(`nameValuePairsIterator_pairs`), after which `valid()` tells which of the two
ended the loop (`nameValuePairsIterator_valid`).  With the reading of `props_`
in `Refinement`, every name yielded is a non-empty name free of `=` and of
surrounding LWS (`nameValuePairsIterator_names`).
-/

/-- The name and value of a property, as `name()`, `raw_value()`, `value()` and
`value_is_quoted()` return them. -/
structure ParsedPair where
  name : Bytes
  rawValue : Bytes
  value : Bytes
  valueIsQuoted : Bool
deriving DecidableEq, Repr

/-- What the end of `GetNext` makes of the trimmed value of a property named
`name`: a value that starts with a quote mark is unquoted, strictly or
leniently, and any other is taken as it is. -/
def pairOfValue (strictQuotes : Bool) (name : Bytes) : Bytes → Option ParsedPair
  | [] => some ⟨name, [], [], false⟩
  | q :: rest =>
      if !isQuote q then some ⟨name, q :: rest, q :: rest, false⟩
      else if strictQuotes then (strictUnquote (q :: rest)).map fun unquoted => ⟨name, q :: rest, unquoted, true⟩
      -- Gracefully recover from mismatching quotes.
      else if q != rest.getLastD q || rest.isEmpty then some ⟨name, rest, rest, false⟩
      else some ⟨name, q :: rest, unquote (q :: rest), true⟩

/-- What the body of `NameValuePairsIterator::GetNext` makes of one property,
given as its bytes: `none` where the property is malformed, and otherwise the
trimmed bytes before its first `=` as the name and the trimmed bytes after it as
the value. -/
def pairOfProperty (valuesOptional strictQuotes : Bool) (prop : Bytes) : Option ParsedPair :=
  let equals := (findIndex (· == Ascii.equals) prop).getD prop.length
  if equals == 0 then none
  else if equals == prop.length && !valuesOptional then none
  else if equals != prop.length && (prop.take equals).any isQuote then none
  else
    let value := trimLWS (prop.drop (equals + 1))
    if equals != prop.length && value.isEmpty then none
    else pairOfValue strictQuotes (trimLWS (prop.take equals)) value

/-- What `name()`, `raw_value()`, `value()` and `value_is_quoted()` return for
the fields `pair` over the input `s`. -/
def NameValuePair.parsed (s : Bytes) (pair : NameValuePair) : ParsedPair :=
  ⟨slice s pair.nameBegin pair.nameEnd, slice s pair.valueBegin pair.valueEnd,
    if pair.valueIsQuoted then pair.unquotedValue else slice s pair.valueBegin pair.valueEnd,
    pair.valueIsQuoted⟩

def untilNone {α : Type} : List (Option α) → List α
  | some a :: rest => a :: untilNone rest
  | _ => []

theorem mem_untilNone {α : Type} {a : α} : ∀ {l : List (Option α)}, a ∈ untilNone l → some a ∈ l
  | some b :: rest, member => by
      rcases List.mem_cons.mp member with rfl | later
      · exact List.mem_cons_self _ _
      · exact List.mem_cons_of_mem _ (mem_untilNone later)
  | [], member => by simp [untilNone] at member
  | none :: _, member => by simp [untilNone] at member

theorem pairOfValue_name {strictQuotes : Bool} {name value : Bytes} {p : ParsedPair}
    (parsed : pairOfValue strictQuotes name value = some p) : p.name = name := by
  unfold pairOfValue at parsed
  split at parsed
  · cases parsed; rfl
  · split_ifs at parsed
    all_goals first
      | (cases parsed; rfl)
      | (obtain ⟨_, -, rfl⟩ := Option.map_eq_some'.mp parsed; rfl)

theorem pairOfProperty_name {valuesOptional strictQuotes : Bool} {prop : Bytes} {p : ParsedPair}
    (parsed : pairOfProperty valuesOptional strictQuotes prop = some p)
    (firstByte : ∀ c ∈ prop.head?, isLWS c = false) :
    p.name ≠ [] ∧ Ascii.equals ∉ p.name ∧ (∀ c ∈ p.name.head?, isLWS c = false) ∧
      (∀ c ∈ p.name.getLast?, isLWS c = false) ∧
      (valuesOptional = false → ∀ c ∈ p.name, isQuote c = false) := by
  obtain ⟨k, index⟩ : ∃ k, (findIndex (· == Ascii.equals) prop).getD prop.length = k := ⟨_, rfl⟩
  have noEquals : ∀ c ∈ prop.take k, c ≠ Ascii.equals := by
    cases found : findIndex (· == Ascii.equals) prop with
    | none =>
        rw [found, Option.getD_none] at index
        rw [← index, List.take_length]
        simpa using findIndex_eq_none.mp found
    | some j =>
        rw [found, Option.getD_some] at index
        obtain ⟨pre, c, post, split, size, -, absent⟩ := findIndex_split found
        rw [← index, split, List.take_left' size]
        simpa using absent
  unfold pairOfProperty at parsed
  simp only [index] at parsed
  split_ifs at parsed with noName noValue quoteInName valueMissing
  rw [pairOfValue_name parsed]
  cases prop with
  | nil => simp at index; simp [index] at noName
  | cons c rest =>
      obtain ⟨j, rfl⟩ : ∃ j, k = j + 1 := ⟨k - 1, by simp at noName; omega⟩
      have unquoted : valuesOptional = false → ∀ x ∈ (c :: rest).take (j + 1), isQuote x = false := by
        intro required
        have present : j ≠ rest.length := by simpa [required] using noValue
        simpa [present] using quoteInName
      exact ⟨trimLWS_ne_nil (firstByte c rfl), fun member => noEquals _ ((trimLWS_sublist _).subset member) rfl,
        trimLWS_head, trimLWS_getLast,
        fun required x member => unquoted required x ((trimLWS_sublist _).subset member)⟩

namespace NameValuePairsIterator

def parsed (it : NameValuePairsIterator) : ParsedPair := ⟨it.name, it.rawValue, it.value, it.valueIsQuoted⟩

theorem parsed_eq (it : NameValuePairsIterator) : it.parsed = it.pair.parsed it.props.values.input := rfl

theorem readQuoted_eq_pairOfValue {strictQuotes : Bool} {s rest : Bytes} {pair : NameValuePair} {q : UInt8}
    (sliced : slice s pair.valueBegin pair.valueEnd = q :: rest) (bound : pair.valueEnd ≤ s.length)
    (quoted : isQuote q = true) :
    (if (readQuoted strictQuotes s pair).1 then some ((readQuoted strictQuotes s pair).2.parsed s) else none) =
      pairOfValue strictQuotes (slice s pair.nameBegin pair.nameEnd) (q :: rest) := by
  have notPlain : (!isQuote q) = false := by simp [quoted]
  cases strictQuotes with
  | true =>
      simp only [readQuoted, if_true, pairOfValue, notPlain, Bool.false_eq_true, if_false, sliced]
      cases strictUnquote (q :: rest) <;> simp [NameValuePair.parsed, sliced]
  | false =>
      have size := length_slice pair.valueBegin bound
      have tail : slice s (pair.valueBegin + 1) pair.valueEnd = rest := by
        rw [slice_drop _ (Nat.le_add_right _ 1), sliced, Nat.add_sub_cancel_left, List.drop_one, List.tail_cons]
      have single : (pair.valueBegin + 1 == pair.valueEnd) = rest.isEmpty := by
        rw [sliced, List.length_cons] at size
        cases rest <;> simp at size ⊢ <;> omega
      simp only [readQuoted, Bool.false_eq_true, if_false, pairOfValue, notPlain, byteAt_of_slice sliced,
        byteAt_last_of_slice sliced bound, single]
      split <;> simp [NameValuePair.parsed, sliced, tail]

theorem readTrimmed_eq_pairOfValue {strictQuotes : Bool} {s : Bytes} {pair : NameValuePair}
    (ordered : pair.valueBegin ≤ pair.valueEnd) (bound : pair.valueEnd ≤ s.length)
    (plain : pair.valueIsQuoted = false) :
    (if (if pair.valueBegin != pair.valueEnd && isQuote (byteAt s pair.valueBegin) then
          readQuoted strictQuotes s pair else (true, pair)).1 then
        some ((if pair.valueBegin != pair.valueEnd && isQuote (byteAt s pair.valueBegin) then
          readQuoted strictQuotes s pair else (true, pair)).2.parsed s)
      else none) =
      pairOfValue strictQuotes (slice s pair.nameBegin pair.nameEnd) (slice s pair.valueBegin pair.valueEnd) := by
  have size := length_slice pair.valueBegin bound
  cases sliced : slice s pair.valueBegin pair.valueEnd with
  | nil =>
      have empty : (pair.valueBegin != pair.valueEnd) = false := by
        rw [sliced] at size; simp at size ⊢; omega
      simp [empty, pairOfValue, NameValuePair.parsed, plain, sliced]
  | cons q rest =>
      have distinct : (pair.valueBegin != pair.valueEnd) = true := by
        rw [sliced] at size; simp at size ⊢; omega
      by_cases quoted : isQuote q = true
      · simp only [distinct, byteAt_of_slice sliced, quoted, Bool.and_self, if_true]
        exact readQuoted_eq_pairOfValue sliced bound quoted
      · simp [distinct, byteAt_of_slice sliced, quoted, pairOfValue, NameValuePair.parsed, plain, sliced]

theorem valueBounds_after_equals {s prop : Bytes} {first last k : Nat} (ordered : first ≤ last)
    (bound : last ≤ s.length) (sliced : slice s first last = prop) (within : k ≤ prop.length) :
    let v := trimLWSBounds s (if (k == prop.length) = true then last else first + k + 1) last
    slice s v.1 v.2 = trimLWS (prop.drop (k + 1)) ∧ v.1 ≤ v.2 ∧ v.2 ≤ last ∧
      (first + k != v.2 && v.1 == v.2) = (k != prop.length && (trimLWS (prop.drop (k + 1))).isEmpty) := by
  have size : prop.length = last - first := sliced ▸ length_slice _ bound
  obtain ⟨start, started⟩ : ∃ start, (if (k == prop.length) = true then last else first + k + 1) = start :=
    ⟨_, rfl⟩
  have startBound : start ≤ last := by
    rw [← started]; split <;> simp_all; omega
  have valueSlice : slice s start last = prop.drop (k + 1) := by
    rw [← started]
    split
    · have whole : k = prop.length := by simpa using ‹(k == prop.length) = true›
      simp [slice, whole]
    · rw [slice_drop _ (show first ≤ first + k + 1 by omega), sliced]
      congr 1
      omega
  dsimp only
  rw [started]
  have valueStart : start ≤ (trimLWSBounds s start last).1 := Nat.le_add_right _ _
  have valueOrdered := trimLWSBounds_ordered s startBound bound
  have valueEnd := trimLWSBounds_snd_le s start last
  refine ⟨by rw [slice_trimLWSBounds _ _ bound, valueSlice], valueOrdered, valueEnd, ?_⟩
  by_cases whole : k = prop.length
  · have atEnd : start = last := by rw [← started]; simp [whole]
    rw [show first + k = (trimLWSBounds s start last).2 by omega]
    simp [whole]
  · have afterEquals : start = first + k + 1 := by rw [← started]; simp [whole]
    have apart : (first + k != (trimLWSBounds s start last).2) = true := by simp only [bne_iff_ne]; omega
    rw [apart, trimLWSBounds_beq _ startBound bound, valueSlice, show (k != prop.length) = true by simpa using whole]

theorem readProperty_eq_pairOfProperty {valuesOptional strictQuotes : Bool} {props : ValuesIterator}
    {pair : NameValuePair} (ordered : props.valueBegin ≤ props.valueEnd)
    (bound : props.valueEnd ≤ props.values.input.length) :
    (if (readProperty valuesOptional strictQuotes props pair).1 then
        some ((readProperty valuesOptional strictQuotes props pair).2.parsed props.values.input)
      else none) = pairOfProperty valuesOptional strictQuotes props.value := by
  obtain ⟨prop, sliced⟩ : ∃ prop, slice props.values.input props.valueBegin props.valueEnd = prop := ⟨_, rfl⟩
  have size : prop.length = props.valueEnd - props.valueBegin := sliced ▸ length_slice _ bound
  obtain ⟨k, index⟩ : ∃ k, (findIndex (· == Ascii.equals) prop).getD prop.length = k := ⟨_, rfl⟩
  have within : k ≤ prop.length := by
    cases found : findIndex (· == Ascii.equals) prop with
    | none => simp only [found, Option.getD_none] at index; omega
    | some j => simp only [found, Option.getD_some] at index; exact index ▸ (findIndex_lt found).le
  have atEquals : find (· == Ascii.equals) props.values.input props.valueBegin props.valueEnd =
      props.valueBegin + k := by
    rw [find_eq_add ordered bound, sliced, index]
  have noName : (props.valueBegin + k == props.valueBegin) = (k == 0) := by simp
  have noEquals : (props.valueBegin + k == props.valueEnd) = (k == prop.length) := by
    rw [Bool.eq_iff_iff]; simp only [beq_iff_eq]; omega
  have hasEquals : (props.valueBegin + k != props.valueEnd) = (k != prop.length) := by
    simp only [bne, noEquals]
  have nameSlice : slice props.values.input props.valueBegin (props.valueBegin + k) = prop.take k := by
    rw [slice_take _ (show props.valueBegin + k ≤ props.valueEnd by omega), sliced, Nat.add_sub_cancel_left]
  obtain ⟨n, nameBounds⟩ : ∃ n, trimLWSBounds props.values.input props.valueBegin (props.valueBegin + k) = n :=
    ⟨_, rfl⟩
  have nameTrimmed : slice props.values.input n.1 n.2 = trimLWS (prop.take k) := by
    rw [← nameBounds, slice_trimLWSBounds _ _ (by omega), nameSlice]
  have valueFacts := valueBounds_after_equals ordered bound sliced within
  obtain ⟨v, valueBounds⟩ : ∃ v, trimLWSBounds props.values.input
      (if (k == prop.length) = true then props.valueEnd else props.valueBegin + k + 1) props.valueEnd = v :=
    ⟨_, rfl⟩
  dsimp only at valueFacts
  rw [valueBounds] at valueFacts
  obtain ⟨valueTrimmed, valueOrdered, valueEnd, emptyValue⟩ := valueFacts
  unfold readProperty pairOfProperty
  simp only [ValuesIterator.value, sliced, index, atEquals, noName, noEquals, hasEquals, valueBounds,
    nameBounds, nameSlice, emptyValue]
  by_cases noName : (k == 0) = true
  · simp only [if_pos noName]; rfl
  by_cases noValue : (k == prop.length && !valuesOptional) = true
  · simp only [if_neg noName, if_pos noValue]; rfl
  by_cases quoteInName : (k != prop.length && (prop.take k).any isQuote) = true
  · simp only [if_neg noName, if_neg noValue, if_pos quoteInName]; rfl
  by_cases valueMissing : (k != prop.length && (trimLWS (prop.drop (k + 1))).isEmpty) = true
  · simp only [if_neg noName, if_neg noValue, if_neg quoteInName, if_pos valueMissing]; rfl
  simp only [if_neg noName, if_neg noValue, if_neg quoteInName, if_neg valueMissing]
  let trimmed : NameValuePair :=
    { pair with nameBegin := n.1, nameEnd := n.2, valueBegin := v.1, valueEnd := v.2, valueIsQuoted := false,
                unquotedValue := [] }
  have tail := @readTrimmed_eq_pairOfValue strictQuotes props.values.input trimmed valueOrdered
    (Nat.le_trans valueEnd bound) rfl
  dsimp only [trimmed] at tail
  rw [nameTrimmed, valueTrimmed] at tail
  exact tail

/-- A value with an opening quote mark and no closing one is taken from after
the quote mark, unquoted. -/
example : pairOfProperty false false (ascii "a=\"b") = some ⟨ascii "a", ascii "b", ascii "b", false⟩ := by
  decide

/-- The iterators after each call of `GetNext` in `while (it.GetNext())`. -/
def run (it : NameValuePairsIterator) : List NameValuePairsIterator :=
  collect (yielded getNext) (it.props.values.remaining + 1) it

theorem remaining_of_yielded {it a it' : NameValuePairsIterator} (step : yielded getNext it = some (a, it')) :
    it'.props.values.remaining < it.props.values.remaining := by
  have returned := (yielded_eq_some step).1
  cases found : it.props.getNext.1
  · simp [getNext, found] at returned
  · rw [← (Prod.mk.inj returned).2]
    exact ValuesIterator.remaining_of_getNext (Prod.ext found rfl)

theorem run_of_getNext {it it' : NameValuePairsIterator} (found : it.getNext = (true, it')) :
    it.run = it' :: it'.run :=
  collect_of_some _ (fun it : NameValuePairsIterator => it.props.values.remaining)
    (fun _ _ _ => remaining_of_yielded) (by simp [yielded, found])

theorem run_of_finished {it : NameValuePairsIterator} (finished : it.getNext.1 = false) : it.run = [] :=
  collect_of_none _ _ (by simp [yielded, finished])

@[simp] theorem calls_zero (it : NameValuePairsIterator) : it.calls 0 = it := rfl

theorem calls_succ (it : NameValuePairsIterator) (k : Nat) : it.calls (k + 1) = it.getNext.2.calls k :=
  Function.iterate_succ_apply _ _ _

theorem getNext_of_props {it : NameValuePairsIterator} {props : ValuesIterator}
    (stepped : it.props.getNext = (true, props)) :
    it.getNext = ((readProperty it.valuesOptional it.strictQuotes props it.pair).1,
      { it with props, pair := (readProperty it.valuesOptional it.strictQuotes props it.pair).2 }) := by
  simp [getNext, stepped]

theorem readQuoted_valid {strictQuotes : Bool} {s : Bytes} {p : NameValuePair} :
    (readQuoted strictQuotes s p).2.valid = ((readQuoted strictQuotes s p).1 && p.valid) := by
  unfold readQuoted
  cases strictQuotes
  · simp only [Bool.false_eq_true, if_false]
    split <;> rfl
  · simp only [if_true]
    split <;> rfl

theorem readProperty_valid {valuesOptional strictQuotes : Bool} {props : ValuesIterator} {p : NameValuePair} :
    (readProperty valuesOptional strictQuotes props p).2.valid =
      ((readProperty valuesOptional strictQuotes props p).1 && p.valid) := by
  unfold readProperty
  dsimp only
  split_ifs <;> first | rfl | exact readQuoted_valid

/-- From any state of a run, the pairs still to come are the properties
`props_` still has to yield, each read by `pairOfProperty`, up to the first
malformed one. -/
theorem run_map_parsed : ∀ (fuel : Nat) (it : NameValuePairsIterator), it.props.values.remaining < fuel →
    it.props.values.tokenEnd ≤ it.props.values.input.length →
    it.run.map parsed =
      untilNone ((it.props.run.map ValuesIterator.value).map (pairOfProperty it.valuesOptional it.strictQuotes))
  | 0, _, enough, _ => absurd enough (Nat.not_lt_zero _)
  | fuel + 1, it, enough, bound => by
      cases stepped : it.props.getNext with
      | mk found props =>
      cases found with
      | false =>
          rw [run_of_finished (by rw [getNext_finished (by rw [stepped])]),
            ValuesIterator.run_of_finished (by rw [stepped])]
          rfl
      | true =>
          have ⟨ordered, within⟩ := ValuesIterator.getNext_value_bounds bound stepped
          have reads := @readProperty_eq_pairOfProperty it.valuesOptional it.strictQuotes props it.pair ordered within
          rw [ValuesIterator.run_of_getNext stepped, List.map_cons, List.map_cons, ← reads]
          cases read : readProperty it.valuesOptional it.strictQuotes props it.pair with
          | mk accepted pair =>
          have step : it.getNext = (accepted, { it with props, pair }) := by rw [getNext_of_props stepped, read]
          cases accepted with
          | false => rw [run_of_finished (by rw [step])]; rfl
          | true =>
              have shorter := ValuesIterator.remaining_of_getNext stepped
              have inside : props.values.tokenEnd ≤ props.values.input.length := by
                simpa [stepped] using ValuesIterator.getNext_tokenEnd_le bound
              rw [run_of_getNext step, List.map_cons,
                run_map_parsed fuel { it with props, pair } (by simp only; omega) inside]
              rfl

/-- From a valid state, the loop `while (it.GetNext())` stops after as many
calls as it yields pairs, and `valid()` then tells whether every property
`props_` yielded up to there was well formed. -/
theorem calls_run_valid : ∀ (fuel : Nat) (it : NameValuePairsIterator), it.props.values.remaining < fuel →
    it.props.values.tokenEnd ≤ it.props.values.input.length → it.valid = true →
    (it.calls it.run.length).getNext.1 = false ∧
      (it.calls (it.run.length + 1)).valid =
        (it.props.run.map ValuesIterator.value).all fun prop =>
          (pairOfProperty it.valuesOptional it.strictQuotes prop).isSome
  | 0, _, enough, _, _ => absurd enough (Nat.not_lt_zero _)
  | fuel + 1, it, enough, bound, isValid => by
      simp only [NameValuePairsIterator.valid] at isValid ⊢
      cases stepped : it.props.getNext with
      | mk found props =>
      cases found with
      | false =>
          have finished := getNext_finished (show it.props.getNext.1 = false by rw [stepped])
          rw [run_of_finished (by rw [finished]), ValuesIterator.run_of_finished (by rw [stepped])]
          simpa [calls_succ, finished] using isValid
      | true =>
          have ⟨ordered, within⟩ := ValuesIterator.getNext_value_bounds bound stepped
          have reads := @readProperty_eq_pairOfProperty it.valuesOptional it.strictQuotes props it.pair ordered within
          have kept := @readProperty_valid it.valuesOptional it.strictQuotes props it.pair
          rw [ValuesIterator.run_of_getNext stepped, List.map_cons, List.all_cons]
          cases read : readProperty it.valuesOptional it.strictQuotes props it.pair with
          | mk accepted pair =>
          have step : it.getNext = (accepted, { it with props, pair }) := by rw [getNext_of_props stepped, read]
          rw [read] at reads kept
          cases accepted with
          | false =>
              have malformed : pairOfProperty it.valuesOptional it.strictQuotes props.value = none := reads.symm
              rw [run_of_finished (by rw [step])]
              simpa [calls_succ, step, malformed] using kept
          | true =>
              have wellFormed : (pairOfProperty it.valuesOptional it.strictQuotes props.value).isSome := by
                rw [← reads]; rfl
              have shorter := ValuesIterator.remaining_of_getNext stepped
              have inside : props.values.tokenEnd ≤ props.values.input.length := by
                simpa [stepped] using ValuesIterator.getNext_tokenEnd_le bound
              have later := calls_run_valid fuel { it with props, pair } (by simp only; omega) inside
                (by simpa [NameValuePairsIterator.valid, isValid] using kept)
              rw [run_of_getNext step, List.length_cons, calls_succ, calls_succ, step, wellFormed, Bool.true_and]
              exact later

/-- For every input, delimiter and mode, the pairs `while (it.GetNext())` sees
are the properties `props_` yields, each read by `pairOfProperty`, up to the
first malformed one. -/
theorem nameValuePairsIterator_pairs (input : Bytes) (d : UInt8) (values : Values) (quotes : Quotes) :
    (init input d values quotes).run.map parsed =
      untilNone (((ValuesIterator.init input d true).run.map ValuesIterator.value).map
        (pairOfProperty (values == .notRequired) (quotes == .strictQuotes))) :=
  run_map_parsed _ _ (Nat.lt_succ_self _) (Nat.zero_le _)

/-- For every input, delimiter and mode, every name `while (it.GetNext())` sees
is not empty, holds no `=`, has no LWS at either end, and, where values are
required, holds no quote mark. -/
theorem nameValuePairsIterator_names (input : Bytes) (d : UInt8) (values : Values) (quotes : Quotes) :
    ∀ p ∈ (init input d values quotes).run.map parsed,
      p.name ≠ [] ∧ Ascii.equals ∉ p.name ∧ (∀ c ∈ p.name.head?, isLWS c = false) ∧
        (∀ c ∈ p.name.getLast?, isLWS c = false) ∧ (values = .required → ∀ c ∈ p.name, isQuote c = false) := by
  rw [run_map_parsed _ _ (Nat.lt_succ_self _) (Nat.zero_le _)]
  intro p member
  obtain ⟨prop, yielded, parsed⟩ := List.mem_map.mp (mem_untilNone member)
  have trimmed := ValuesIterator.run_value_trimmed (Nat.zero_le _) prop yielded
  have named := pairOfProperty_name parsed trimmed.1
  exact ⟨named.1, named.2.1, named.2.2.1, named.2.2.2.1,
    fun required => named.2.2.2.2 (by simp [init, required])⟩

theorem nameValuePairsIterator_names_charset :
    (⟨ascii "charset", ascii "utf-8", ascii "utf-8", false⟩ : ParsedPair) ∈
        (init (ascii "charset=utf-8") semicolon .required .notStrict).run.map parsed ∧
      ascii "charset" ≠ [] ∧ Ascii.equals ∉ ascii "charset" ∧ (∀ c ∈ (ascii "charset").head?, isLWS c = false) ∧
        (∀ c ∈ (ascii "charset").getLast?, isLWS c = false) ∧
        (Values.required = .required → ∀ c ∈ ascii "charset", isQuote c = false) :=
  have yielded : (⟨ascii "charset", ascii "utf-8", ascii "utf-8", false⟩ : ParsedPair) ∈
      (init (ascii "charset=utf-8") semicolon .required .notStrict).run.map parsed := by decide
  ⟨yielded, nameValuePairsIterator_names _ _ _ _ _ yielded⟩

/-- For every input, delimiter and mode, the loop `while (it.GetNext())` stops
after as many calls as it yields pairs, and `valid()` is then `true` exactly
where every property `props_` yielded up to there was well formed: where the
loop stopped at the end of the input and not at a malformed property. -/
theorem nameValuePairsIterator_valid (input : Bytes) (d : UInt8) (values : Values) (quotes : Quotes) :
    let it := init input d values quotes
    (it.calls it.run.length).getNext.1 = false ∧
      (it.calls (it.run.length + 1)).valid =
        ((ValuesIterator.init input d true).run.map ValuesIterator.value).all fun prop =>
          (pairOfProperty (values == .notRequired) (quotes == .strictQuotes) prop).isSome :=
  calls_run_valid _ _ (Nat.lt_succ_self _) (Nat.zero_le _) rfl

end NameValuePairsIterator

end HttpUtil
