import HttpUtil.Iterators.Properties

/-! # After a malformed property

`NameValuePairsIterator::GetNext` sets `valid_` to `false` on a malformed
property and never sets it back, but it never reads it either: the next call
asks `props_` for the next property as if nothing had happened.  A call that
returns `true` is shown to return `true` whatever `valid_` held, and a run over
a malformed property followed by well-formed ones then yields all of those.
-/

namespace HttpUtil

open Ascii

namespace NameValuePairsIterator

def withValid (it : NameValuePairsIterator) (valid : Bool) : NameValuePairsIterator :=
  { it with pair := { it.pair with valid } }

theorem readQuoted_withValid {strictQuotes : Bool} {s : Bytes} {p r : NameValuePair}
    (read : readQuoted strictQuotes s p = (true, r)) (valid : Bool) :
    readQuoted strictQuotes s { p with valid } = (true, { r with valid }) := by
  unfold readQuoted at read ⊢
  dsimp only at read ⊢
  split_ifs at read ⊢
  · split at read
    · cases read
    · rename_i found
      cases read
      simp only [found]
  all_goals cases read; rfl

theorem readProperty_withValid {valuesOptional strictQuotes : Bool} {props : ValuesIterator}
    {p r : NameValuePair} (read : readProperty valuesOptional strictQuotes props p = (true, r))
    (valid : Bool) :
    readProperty valuesOptional strictQuotes props { p with valid } = (true, { r with valid }) := by
  unfold readProperty at read ⊢
  dsimp only at read ⊢
  split_ifs at read ⊢ <;> try cases read
  all_goals first
    | exact readQuoted_withValid read valid
    | rfl

theorem getNext_withValid {it : NameValuePairsIterator} (returned : it.getNext.1 = true)
    (valid : Bool) : (it.withValid valid).getNext = (true, it.getNext.2.withValid valid) := by
  unfold getNext at returned ⊢
  dsimp only at returned ⊢
  split at returned
  · rename_i found
    simp only [withValid, found, if_true]
    rw [readProperty_withValid (Prod.ext returned rfl) valid]
  · cases returned

@[simp] theorem withValid_valid (it : NameValuePairsIterator) (valid : Bool) :
    (it.withValid valid).valid = valid := rfl

theorem withValid_self {it : NameValuePairsIterator} {valid : Bool} (same : it.valid = valid) :
    it.withValid valid = it := by
  subst same; rfl

@[simp] theorem withValid_name (it : NameValuePairsIterator) (valid : Bool) :
    (it.withValid valid).name = it.name := rfl

@[simp] theorem withValid_value (it : NameValuePairsIterator) (valid : Bool) :
    (it.withValid valid).value = it.value := rfl

@[simp] theorem withValid_withValid (it : NameValuePairsIterator) (v w : Bool) :
    (it.withValid v).withValid w = it.withValid w := rfl

/-- An invalid iterator in front of quoted pairs, as a valid one would stand
there, still yields each pair in order; `valid()` stays `false`. -/
theorem invalid_calls {d : UInt8} (delimiter : d = semicolon ∨ d = comma)
    {ps : List (Bytes × Bytes)} (names : ∀ p ∈ ps, isToken p.1 = true) :
    ∀ {it : NameValuePairsIterator}, Before d ps (it.withValid true) → it.valid = false →
      ∀ i (h : i < ps.length), (it.calls i).getNext.1 = true ∧
        (it.calls i).getNext.2.name = ps[i].1 ∧ (it.calls i).getNext.2.value = ps[i].2 ∧
        (it.calls i).getNext.2.valid = false := by
  induction ps with
  | nil => exact fun _ _ i h => absurd h (Nat.not_lt_zero i)
  | cons p ps ih =>
      intro it before invalid i h
      obtain ⟨returned, name, value, -, valid, next⟩ :=
        before_getNext delimiter before (names p (List.mem_cons_self _ _))
      have step : it.getNext = (true, (it.withValid true).getNext.2.withValid false) := by
        simpa [withValid_self invalid] using getNext_withValid returned false
      cases i with
      | zero => simpa [calls, step] using And.intro name value
      | succ i =>
          have later := @ih (fun q member => names q (List.mem_cons_of_mem _ member))
            ((it.withValid true).getNext.2.withValid false) (by simpa [withValid_self valid] using next) rfl
            i (Nat.lt_of_succ_lt_succ h)
          simpa [calls, Function.iterate_succ_apply, step] using later

theorem readProperty_noEquals {strictQuotes : Bool} {props : ValuesIterator} {pair : NameValuePair}
    (nonempty : props.valueBegin ≠ props.valueEnd)
    (noEquals : find (· == equals) props.values.input props.valueBegin props.valueEnd = props.valueEnd) :
    (readProperty false strictQuotes props pair).1 = false ∧
      (readProperty false strictQuotes props pair).2.valid = false := by
  unfold readProperty
  dsimp only
  rw [noEquals]
  simp [Ne.symm nonempty]

theorem getNext_nameOnly {d : UInt8} (delimiter : d = semicolon ∨ d = comma) (quotes : Quotes)
    {n : Bytes} (named : isToken n = true) (ps : List (Bytes × Bytes)) :
    let it := init (n ++ ps.flatMap (d :: quotedPair ·)) d .required quotes
    it.getNext.1 = false ∧ it.getNext.2.valid = false ∧ Before d ps (it.getNext.2.withValid true) := by
  intro it
  obtain ⟨nonempty, chars⟩ := isToken_iff.mp named
  have separators := fun c member => isTokenChar_separators (chars c member)
  have found : it.props.getNext = _ :=
    @ValuesIterator.getNext_init_word d true n (ps.flatMap (d :: quotedPair ·)) nonempty
    (fun c member => by
      obtain ⟨-, notQuote, notSemicolon, notComma⟩ := separators c member
      rcases delimiter with rfl | rfl <;> simp_all)
    (fun c head => isTokenChar_not_lws (chars c (List.mem_of_mem_head? head)))
    (fun c last => isTokenChar_not_lws (chars c (List.mem_of_mem_getLast? last)))
    (by cases ps <;> simp)
  have malformed := @readProperty_noEquals (quotes == .strictQuotes) (it.props.getNext).2 it.pair
    (by rw [found]; exact Ne.symm (by simpa using nonempty))
    (by
      rw [found]
      refine find_of_none fun c member => ?_
      simp only [ValuesIterator.init, StringTokenizer.init, slice, List.drop_zero, Nat.sub_zero,
        List.take_left'] at member
      simpa using (separators c member).1)
  have call : it.getNext = ((readProperty false (quotes == .strictQuotes) it.props.getNext.2 it.pair).1,
      { it with props := it.props.getNext.2,
                pair := (readProperty false (quotes == .strictQuotes) it.props.getNext.2 it.pair).2 }) := by
    simp only [getNext, found, if_true]
    rfl
  rw [call]
  refine ⟨malformed.1, malformed.2, ?_⟩
  rw [found]
  exact ⟨rfl, rfl, rfl, rfl, by simp [withValid, ValuesIterator.init, StringTokenizer.init]⟩

end NameValuePairsIterator

end HttpUtil
