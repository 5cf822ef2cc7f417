import HttpUtil.Iterators

/-! # Name-value pairs

`NameValuePairsIterator` over a property list.  Its `GetNext` is first described
on one property, as the bytes `props_` hands it; a run over a list of quoted
properties then follows by induction over the list, and the two quote modes are
compared in lockstep over any input.
-/

namespace HttpUtil

open Ascii

def quotedPair (p : Bytes × Bytes) : Bytes := p.1 ++ equals :: quote p.2

theorem getLast?_quotedPair (p : Bytes × Bytes) : (quotedPair p).getLast? = some dquote := by
  have framed : quotedPair p = (p.1 ++ equals :: dquote :: p.2.flatMap escapeByte) ++ [dquote] := by
    simp [quotedPair, quote]
  rw [framed, List.getLast?_concat]

namespace NameValuePairsIterator

theorem getNext_finished {it : NameValuePairsIterator} (finished : it.props.getNext.1 = false) :
    it.getNext = (false, { it with props := it.props.getNext.2 }) := by
  simp [getNext, finished]

theorem readProperty_quotedPair {valuesOptional strictQuotes : Bool} {props : ValuesIterator}
    {pair : NameValuePair} {p : Bytes × Bytes}
    (property : slice props.values.input props.valueBegin props.valueEnd = quotedPair p)
    (named : isToken p.1 = true) (bound : props.valueEnd ≤ props.values.input.length) :
    ∃ read, readProperty valuesOptional strictQuotes props pair = (true, read) ∧
      slice props.values.input read.nameBegin read.nameEnd = p.1 ∧ read.valueIsQuoted = true ∧
      read.unquotedValue = p.2 ∧ read.valid = pair.valid := by
  obtain ⟨nonempty, tokenChars⟩ := isToken_iff.mp named
  have size : props.valueEnd - props.valueBegin = p.1.length + 1 + (quote p.2).length := by
    rw [← length_slice props.valueBegin bound, property]; simp [quotedPair]; omega
  have equalsAt : find (· == equals) props.values.input props.valueBegin props.valueEnd =
      props.valueBegin + p.1.length :=
    find_of_split property (by decide) fun c member => by
      simpa using (isTokenChar_separators (tokenChars c member)).1
  have nameSlice : slice props.values.input props.valueBegin (props.valueBegin + p.1.length) = p.1 := by
    rw [slice_take _ (show props.valueBegin + p.1.length ≤ props.valueEnd by omega), property,
      Nat.add_sub_cancel_left, quotedPair, List.take_left]
  have valueSlice :
      slice props.values.input (props.valueBegin + p.1.length + 1) props.valueEnd = quote p.2 := by
    rw [slice_drop _ (show props.valueBegin ≤ props.valueBegin + p.1.length + 1 by omega), property,
      show props.valueBegin + p.1.length + 1 - props.valueBegin = (p.1 ++ [equals]).length by
        simp; omega,
      show quotedPair p = (p.1 ++ [equals]) ++ quote p.2 by simp [quotedPair], List.drop_left]
  have valueBounds :
      trimLWSBounds props.values.input (props.valueBegin + p.1.length + 1) props.valueEnd =
        (props.valueBegin + p.1.length + 1, props.valueEnd) :=
    trimLWSBounds_of_ends (by simp [valueSlice, isLWS]) (by simp [valueSlice, isLWS])
  have nameTrimmed : slice props.values.input
      (trimLWSBounds props.values.input props.valueBegin (props.valueBegin + p.1.length)).1
      (trimLWSBounds props.values.input props.valueBegin (props.valueBegin + p.1.length)).2 = p.1 := by
    rw [slice_trimLWSBounds _ _ (by omega), nameSlice]
    exact trimLWS_eq_self (fun c h => isTokenChar_not_lws (tokenChars c (List.mem_of_mem_head? h)))
      (fun c h => isTokenChar_not_lws (tokenChars c (List.mem_of_getLast?_eq_some h)))
  have noQuote : p.1.any isQuote = false := by
    simpa [isQuote] using fun c member => (isTokenChar_separators (tokenChars c member)).2.1
  have opening : byteAt props.values.input (props.valueBegin + p.1.length + 1) = dquote :=
    byteAt_of_slice valueSlice
  have closing : byteAt props.values.input (props.valueEnd - 1) = dquote :=
    byteAt_pred_of_slice (w := dquote :: p.2.flatMap escapeByte) (by rw [valueSlice]; rfl) bound
  have long := length_quote p.2
  simp only [readProperty, readQuoted, equalsAt, nameSlice, noQuote]
  cases strictQuotes <;>
    simp [nonempty, valueBounds, show props.valueBegin + p.1.length ≠ props.valueEnd by omega,
      show props.valueBegin + p.1.length + 1 ≠ props.valueEnd by omega,
      show props.valueBegin + p.1.length + 1 + 1 ≠ props.valueEnd by omega, opening, closing,
      isQuote, valueSlice, strictUnquote, unquote, unquoteImpl_quote, nameTrimmed]

end NameValuePairsIterator

section Slurp

variable (delims quotes : Bytes)

theorem advanceOne_backslash :
    advanceOne delims quotes ⟨true, false, dquote⟩ backslash = some ⟨true, true, dquote⟩ := rfl

theorem advanceOne_escaped (c : UInt8) :
    advanceOne delims quotes ⟨true, true, dquote⟩ c = some ⟨true, false, dquote⟩ := rfl

theorem advanceOne_closing :
    advanceOne delims quotes ⟨true, false, dquote⟩ dquote = some ⟨false, false, dquote⟩ := rfl

theorem advanceOne_quoted {c : UInt8} (notBackslash : c ≠ backslash) (notQuote : c ≠ dquote) :
    advanceOne delims quotes ⟨true, false, dquote⟩ c = some ⟨true, false, dquote⟩ := by
  simp_all [advanceOne]

theorem slurp_escaped (v rest : Bytes) :
    slurp delims quotes ⟨true, false, dquote⟩ (v.flatMap escapeByte ++ rest) =
      slurp delims quotes ⟨true, false, dquote⟩ rest + (v.flatMap escapeByte).length := by
  induction v with
  | nil => simp
  | cons c v ih =>
      rw [List.flatMap_cons, List.append_assoc, List.length_append]
      by_cases special : c = dquote ∨ c = backslash
      · have escaped : escapeByte c = [backslash, c] := by
          rcases special with rfl | rfl <;> rfl
        rw [escaped, List.cons_append, slurp, advanceOne_backslash]
        dsimp only
        rw [List.cons_append, slurp, advanceOne_escaped]
        dsimp only
        rw [List.nil_append, ih]
        simp only [List.length_cons, List.length_nil]
        omega
      · have plain : escapeByte c = [c] := by simp_all [escapeByte]
        simp only [not_or] at special
        rw [plain, List.cons_append, slurp, advanceOne_quoted _ _ special.2 special.1]
        dsimp only
        rw [List.nil_append, ih, List.length_singleton]
        omega

end Slurp

theorem slurp_quotedPair {d : UInt8} (delimiter : d = semicolon ∨ d = comma) {p : Bytes × Bytes}
    (named : isToken p.1 = true) {rest : Bytes} (after : ∀ c ∈ rest.head?, c = d) :
    slurp [d] [dquote] {} (quotedPair p ++ rest) = (quotedPair p).length := by
  have plain : ∀ c ∈ p.1 ++ [equals], c ∉ [d] ∧ c ∉ [dquote] := by
    intro c member
    rcases List.mem_append.mp member with inName | isEquals
    · obtain ⟨notEquals, notQuote, notSemicolon, notComma⟩ :=
        isTokenChar_separators ((isToken_iff.mp named).2 c inName)
      rcases delimiter with rfl | rfl <;> simp_all
    · rcases delimiter with rfl | rfl <;> simp_all
  obtain ⟨q, plainPart⟩ := slurp_plain [d] [dquote] plain false 0
    (dquote :: (p.2.flatMap escapeByte ++ dquote :: rest))
  have shape : quotedPair p ++ rest =
      (p.1 ++ [equals]) ++ dquote :: (p.2.flatMap escapeByte ++ dquote :: rest) := by
    simp [quotedPair, quote]
  have opening : advanceOne [d] [dquote] ⟨false, false, q⟩ dquote = some ⟨true, false, dquote⟩ := by
    rcases delimiter with rfl | rfl <;> rfl
  have closed : slurp [d] [dquote] ⟨false, false, dquote⟩ rest = 0 := by
    cases rest with
    | nil => rfl
    | cons c rest => simp [slurp, advanceOne, after c rfl]
  rw [shape, plainPart, slurp, opening]
  dsimp only
  rw [slurp_escaped, slurp, advanceOne_closing]
  dsimp only
  rw [closed]
  simp [quotedPair, quote]
  omega

namespace NameValuePairsIterator

/-- The property iterator stands in front of the quoted pairs `ps`, joined by
`d`: at the start, or right after the previous property. -/
structure Before (d : UInt8) (ps : List (Bytes × Bytes)) (it : NameValuePairsIterator) : Prop where
  delims : it.props.values.delims = [d]
  quotes : it.props.values.quotes = [dquote]
  noEmpty : it.props.values.returnEmptyTokens = false
  valid : it.valid = true
  rest : it.props.values.input.drop it.props.values.tokenEnd =
    if it.props.values.tokenIsDelim then [d].intercalate (ps.map quotedPair)
    else ps.flatMap (d :: quotedPair ·)

theorem before_init (d : UInt8) (values : Values) (quotes : Quotes) (ps : List (Bytes × Bytes)) :
    Before d ps (init ([d].intercalate (ps.map quotedPair)) d values quotes) :=
  ⟨rfl, rfl, rfl, rfl, by simp [init, ValuesIterator.init, StringTokenizer.init]⟩

theorem before_tokenizer {d : UInt8} (delimiter : d = semicolon ∨ d = comma)
    {p : Bytes × Bytes} {ps : List (Bytes × Bytes)} {it : NameValuePairsIterator}
    (before : Before d (p :: ps) it) (named : isToken p.1 = true) :
    ∃ t', it.props.values.getNext = (true, t') ∧ t'.token = quotedPair p ∧
      t'.tokenEnd ≤ t'.input.length ∧ t'.tokenIsDelim = false ∧
      t'.input.drop t'.tokenEnd = ps.flatMap (d :: quotedPair ·) ∧
      t'.input = it.props.values.input ∧ t'.delims = [d] ∧ t'.quotes = [dquote] ∧
      t'.returnEmptyTokens = false := by
  obtain ⟨u, same, atDelim, remaining, input, delims, quotes, noEmpty⟩ : ∃ u : StringTokenizer,
      it.props.values.getNext = u.getNext ∧ u.tokenIsDelim = true ∧
      u.input.drop u.tokenEnd = quotedPair p ++ ps.flatMap (d :: quotedPair ·) ∧
      u.input = it.props.values.input ∧ u.delims = [d] ∧ u.quotes = [dquote] ∧
      u.returnEmptyTokens = false := by
    have rest := before.rest
    cases isDelim : it.props.values.tokenIsDelim
    · simp only [isDelim, Bool.false_eq_true, if_false, List.flatMap_cons, List.cons_append] at rest
      exact ⟨{ it.props.values with tokenEnd := it.props.values.tokenEnd + 1, tokenIsDelim := true },
        StringTokenizer.getNext_skip rest (.inl isDelim), rfl,
        StringTokenizer.drop_succ_of_drop rest, rfl, before.delims, before.quotes, before.noEmpty⟩
    · simp only [isDelim, if_true, List.map_cons, intercalate_cons, List.flatMap_map] at rest
      exact ⟨_, rfl, isDelim, rest, rfl, before.delims, before.quotes, before.noEmpty⟩
  have slurped := @slurp_quotedPair d delimiter p named (ps.flatMap (d :: quotedPair ·))
    (by cases ps <;> simp)
  rw [← delims, ← quotes] at slurped
  have nonempty : quotedPair p ≠ [] := by simp [quotedPair]
  have bound : u.tokenEnd + (quotedPair p).length ≤ u.input.length := by
    have size := congrArg List.length remaining
    simp only [List.length_drop, List.length_append] at size
    have positive := List.length_pos.mpr nonempty
    omega
  refine ⟨_, same.trans (StringTokenizer.getNext_word atDelim remaining slurped nonempty), ?_,
    bound, rfl, ?_, input, delims, quotes, noEmpty⟩
  · simp [StringTokenizer.token, slice, remaining]
  · dsimp only
    rw [← List.drop_drop, remaining, List.drop_left]

theorem before_getNext {d : UInt8} (delimiter : d = semicolon ∨ d = comma)
    {p : Bytes × Bytes} {ps : List (Bytes × Bytes)} {it : NameValuePairsIterator}
    (before : Before d (p :: ps) it) (named : isToken p.1 = true) :
    it.getNext.1 = true ∧ it.getNext.2.name = p.1 ∧ it.getNext.2.value = p.2 ∧
      it.getNext.2.valueIsQuoted = true ∧ it.getNext.2.valid = true ∧ Before d ps it.getNext.2 := by
  obtain ⟨t', found, token, bound, afterToken, rest, -, delims, quotes, noEmpty⟩ :=
    before_tokenizer delimiter before named
  obtain ⟨nonempty, tokenChars⟩ := isToken_iff.mp named
  have props := ValuesIterator.getNext_of_token found (by simp [token, quotedPair])
    (fun c head => isTokenChar_not_lws (tokenChars c (List.mem_of_mem_head? (by
      rwa [token, quotedPair, List.head?_append_of_ne_nil _ nonempty] at head))))
    (fun c last => by
      rw [token, getLast?_quotedPair, Option.mem_some_iff] at last
      subst last
      rfl)
  obtain ⟨read, readOk, name, quoted, value, valid⟩ :=
    @readProperty_quotedPair it.valuesOptional it.strictQuotes
      { it.props with values := t', valueBegin := t'.tokenBegin, valueEnd := t'.tokenEnd } it.pair _
      token named bound
  have step : it.getNext = (true, { it with pair := read, props :=
      { it.props with values := t', valueBegin := t'.tokenBegin, valueEnd := t'.tokenEnd } }) := by
    simp only [getNext, props, readOk, if_true]
  rw [step]
  exact ⟨rfl, name, by simp [NameValuePairsIterator.value, quoted, value], quoted,
    valid.trans before.valid, delims, quotes, noEmpty, valid.trans before.valid,
    by simpa [afterToken] using rest⟩

theorem before_finished {d : UInt8} {it : NameValuePairsIterator} (before : Before d [] it) :
    it.getNext.1 = false ∧ it.getNext.2.valid = true := by
  have finished : it.props.values.getNext.1 = false := by
    have rest := before.rest
    cases isDelim : it.props.values.tokenIsDelim
    · exact StringTokenizer.getNext_end isDelim (by simpa [isDelim] using rest)
    · simp only [isDelim, if_true, List.map_nil] at rest
      simp [StringTokenizer.getNext, rest, scan, slurp, isDelim, before.noEmpty, List.intercalate]
  rw [getNext_finished (ValuesIterator.getNext_finished finished)]
  exact ⟨rfl, before.valid⟩

/-- A run in front of quoted pairs with token names yields each pair in order,
quoted and valid, and then returns `false`, still valid. -/
theorem before_calls {d : UInt8} (delimiter : d = semicolon ∨ d = comma)
    {ps : List (Bytes × Bytes)} (names : ∀ p ∈ ps, isToken p.1 = true) :
    ∀ {it : NameValuePairsIterator}, Before d ps it →
      (∀ i (h : i < ps.length), (it.calls i).getNext.1 = true ∧
          (it.calls i).getNext.2.name = ps[i].1 ∧ (it.calls i).getNext.2.value = ps[i].2 ∧
          (it.calls i).getNext.2.valueIsQuoted = true ∧ (it.calls i).getNext.2.valid = true) ∧
        (it.calls ps.length).getNext.1 = false ∧ (it.calls ps.length).getNext.2.valid = true := by
  induction ps with
  | nil => exact fun before => ⟨fun i h => absurd h (Nat.not_lt_zero i), before_finished before⟩
  | cons p ps ih =>
      intro it before
      obtain ⟨returned, name, value, quoted, valid, next⟩ :=
        before_getNext delimiter before (names p (List.mem_cons_self _ _))
      obtain ⟨pairs, finished⟩ := ih (fun q member => names q (List.mem_cons_of_mem _ member)) next
      refine ⟨fun i h => ?_, finished⟩
      cases i with
      | zero => exact ⟨returned, name, value, quoted, valid⟩
      | succ i => exact pairs i (Nat.lt_of_succ_lt_succ h)

/-- Over the `;`- or `,`-join of properties `n=Quote(v)` with token names, in
any mode, `GetNext` returns `true` once per pair, in order, with that name, that
value and the value quoted, then returns `false`; `valid()` stays `true`. -/
theorem nameValuePairsIterator_quotedPairs {d : UInt8} (delimiter : d = semicolon ∨ d = comma)
    (values : Values) (quotes : Quotes) {pairs : List (Bytes × Bytes)}
    (names : ∀ p ∈ pairs, isToken p.1 = true) :
    let it := init ([d].intercalate (pairs.map quotedPair)) d values quotes
    (∀ i (h : i < pairs.length), (it.calls i).getNext.1 = true ∧
        (it.calls i).getNext.2.name = pairs[i].1 ∧ (it.calls i).getNext.2.value = pairs[i].2 ∧
        (it.calls i).getNext.2.valueIsQuoted = true ∧ (it.calls i).getNext.2.valid = true) ∧
      (it.calls pairs.length).getNext.1 = false ∧ (it.calls pairs.length).getNext.2.valid = true :=
  before_calls delimiter names (before_init d values quotes pairs)

theorem nameValuePairsIterator_quotedPairs_charset :
    (semicolon = semicolon ∨ semicolon = comma) ∧
      (∀ p ∈ [(ascii "charset", ascii "a;\"b\"")], isToken p.1 = true) ∧
      let it := init ([semicolon].intercalate ([(ascii "charset", ascii "a;\"b\"")].map quotedPair))
        semicolon .required .strictQuotes
      (∀ i (h : i < [(ascii "charset", ascii "a;\"b\"")].length), (it.calls i).getNext.1 = true ∧
          (it.calls i).getNext.2.name = [(ascii "charset", ascii "a;\"b\"")][i].1 ∧
          (it.calls i).getNext.2.value = [(ascii "charset", ascii "a;\"b\"")][i].2 ∧
          (it.calls i).getNext.2.valueIsQuoted = true ∧ (it.calls i).getNext.2.valid = true) ∧
        (it.calls [(ascii "charset", ascii "a;\"b\"")].length).getNext.1 = false ∧
        (it.calls [(ascii "charset", ascii "a;\"b\"")].length).getNext.2.valid = true :=
  ⟨.inl rfl, by decide,
    nameValuePairsIterator_quotedPairs (.inl rfl) .required .strictQuotes (by decide)⟩

end NameValuePairsIterator

end HttpUtil
