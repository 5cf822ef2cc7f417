import HttpUtil.Iterators

/-! # Strict and lenient quotes

A `STRICT_QUOTES` and a `NOT_STRICT` `NameValuePairsIterator` over the same input
advance the same `props_`; wherever the strict one returns `true`, the lenient
one returns `true` with the same name, value, raw value and quoting.  This rests
on `Unquote` and `StrictUnquote` agreeing wherever the strict one succeeds
(`unquoteImpl_lenient_of_strict`) and on the value lying inside the input.
-/

namespace HttpUtil

open Ascii

namespace ValuesIterator

theorem getNext_tokenEnd_le {it : ValuesIterator} (bound : it.values.tokenEnd ≤ it.values.input.length) :
    it.getNext.2.values.tokenEnd ≤ it.getNext.2.values.input.length :=
  loopTokens_invariant advance readValue (fun it => it.values.tokenEnd ≤ it.values.input.length)
    (fun _ inside => by simpa using StringTokenizer.getNext_tokenEnd_le inside)
    (fun _ inside => inside) _ _ bound

theorem getNext_valueEnd_le {it : ValuesIterator} (bound : it.values.tokenEnd ≤ it.values.input.length)
    (found : it.getNext.1 = true) : it.getNext.2.valueEnd ≤ it.getNext.2.values.input.length := by
  obtain ⟨s₀, s₁, inside, advanced, read⟩ :=
    loopTokens_true advance readValue (fun it => it.values.tokenEnd ≤ it.values.input.length)
      (fun _ inside => by simpa using StringTokenizer.getNext_tokenEnd_le inside)
      (fun _ inside => inside) bound (Prod.ext found rfl)
  have tokenizer : s₁.values = s₀.values.getNext.2 := by rw [← (Prod.mk.inj advanced).2]
  have within : s₁.values.tokenEnd ≤ s₁.values.input.length := by
    simpa [tokenizer] using StringTokenizer.getNext_tokenEnd_le inside
  have result : it.getNext.2 = s₁.readValue.2 := ((Prod.mk.inj read).2).symm
  rw [result]
  exact Nat.le_trans (trimLWSBounds_snd_le _ _ _) within

end ValuesIterator

namespace NameValuePairsIterator

theorem readQuoted_strict_lenient {s : Bytes} {p r : NameValuePair} (bound : p.valueEnd ≤ s.length)
    (strict : readQuoted true s p = (true, r)) (valid : Bool) :
    readQuoted false s { p with valid } = (true, { r with valid }) := by
  unfold readQuoted at strict ⊢
  simp only [if_true, Bool.false_eq_true, if_false] at strict ⊢
  split at strict
  · cases strict
  · rename_i unquoted found
    cases strict
    obtain ⟨mid, framed⟩ := strictUnquote_shape found
    have opening := byteAt_of_slice framed
    have closing := byteAt_pred_of_slice (w := dquote :: mid) (by rw [framed]; rfl) bound
    have long : p.valueBegin + 1 ≠ p.valueEnd := by
      have size := length_slice p.valueBegin bound
      rw [framed] at size
      simp at size
      omega
    simp [opening, closing, long, unquote, unquoteImpl_lenient_of_strict found]

theorem readProperty_strict_lenient {valuesOptional : Bool} {props : ValuesIterator}
    {p₁ p₂ r : NameValuePair} (bound : props.valueEnd ≤ props.values.input.length)
    (strict : readProperty valuesOptional true props p₁ = (true, r)) :
    readProperty valuesOptional false props p₂ = (true, { r with valid := p₂.valid }) := by
  unfold readProperty at strict ⊢
  dsimp only at strict ⊢
  split_ifs at strict ⊢ <;> try cases strict
  all_goals first
    | exact readQuoted_strict_lenient (Nat.le_trans (trimLWSBounds_snd_le _ _ _) bound) strict p₂.valid
    | rfl

/-- A strict and a lenient iterator advanced in lockstep: the same `props_`,
inside its input, and the same `Values` mode. -/
structure Lockstep (strict lenient : NameValuePairsIterator) : Prop where
  props : strict.props = lenient.props
  valuesOptional : strict.valuesOptional = lenient.valuesOptional
  strictMode : strict.strictQuotes = true
  lenientMode : lenient.strictQuotes = false
  bound : strict.props.values.tokenEnd ≤ strict.props.values.input.length

theorem lockstep_init (input : Bytes) (d : UInt8) (values : Values) :
    Lockstep (init input d values .strictQuotes) (init input d values .notStrict) :=
  ⟨rfl, rfl, rfl, rfl, Nat.zero_le _⟩

theorem lockstep_getNext {strict lenient : NameValuePairsIterator} (lockstep : Lockstep strict lenient) :
    Lockstep strict.getNext.2 lenient.getNext.2 :=
  ⟨by simp [lockstep.props], by simp [lockstep.valuesOptional], by simp [lockstep.strictMode],
    by simp [lockstep.lenientMode], by simpa using ValuesIterator.getNext_tokenEnd_le lockstep.bound⟩

theorem lockstep_calls {strict lenient : NameValuePairsIterator} (lockstep : Lockstep strict lenient)
    (k : Nat) : Lockstep (strict.calls k) (lenient.calls k) := by
  induction k generalizing strict lenient with
  | zero => exact lockstep
  | succ k ih => exact ih (lockstep_getNext lockstep)

/-- One call in lockstep: where the strict iterator returns `true`, so does the
lenient one, with the same name, value, raw value and quoting. -/
theorem lockstep_getNext_true {strict lenient : NameValuePairsIterator}
    (lockstep : Lockstep strict lenient) (returned : strict.getNext.1 = true) :
    lenient.getNext.1 = true ∧ lenient.getNext.2.name = strict.getNext.2.name ∧
      lenient.getNext.2.value = strict.getNext.2.value ∧
      lenient.getNext.2.rawValue = strict.getNext.2.rawValue ∧
      lenient.getNext.2.valueIsQuoted = strict.getNext.2.valueIsQuoted := by
  cases found : strict.props.getNext.1
  · simp [getNext, found] at returned
  · obtain ⟨read, readOk⟩ : ∃ read, readProperty strict.valuesOptional true strict.props.getNext.2
        strict.pair = (true, read) := by
      simp only [getNext, found, if_true, lockstep.strictMode] at returned
      exact ⟨_, Prod.ext returned rfl⟩
    have bound := ValuesIterator.getNext_valueEnd_le lockstep.bound found
    have lenientOk : readProperty lenient.valuesOptional false lenient.props.getNext.2 lenient.pair =
        (true, { read with valid := lenient.pair.valid }) := by
      rw [← lockstep.props, ← lockstep.valuesOptional]
      exact readProperty_strict_lenient bound readOk
    have lenientFound : lenient.props.getNext.1 = true := lockstep.props ▸ found
    simp only [getNext, found, lenientFound, if_true, lockstep.strictMode, lockstep.lenientMode,
      readOk, lenientOk]
    simp [name, value, rawValue, valueIsQuoted, lockstep.props]

/-- A `STRICT_QUOTES` and a `NOT_STRICT` iterator over the same input, delimiter
and `Values` mode, advanced in lockstep: at every call where the strict one
returns `true`, the lenient one returns `true` with the same `name()`,
`value()`, `raw_value()` and `value_is_quoted()`. -/
theorem nameValuePairsIterator_strict_lenient (input : Bytes) (d : UInt8) (values : Values) (k : Nat)
    (strict : ((init input d values .strictQuotes).calls k).getNext.1 = true) :
    let s := ((init input d values .strictQuotes).calls k).getNext.2
    let l := ((init input d values .notStrict).calls k).getNext
    l.1 = true ∧ l.2.name = s.name ∧ l.2.value = s.value ∧ l.2.rawValue = s.rawValue ∧
      l.2.valueIsQuoted = s.valueIsQuoted :=
  lockstep_getNext_true (lockstep_calls (lockstep_init input d values) k) strict

theorem nameValuePairsIterator_strict_lenient_quoted :
    ((init (ascii "a=\"b\"") semicolon .required .strictQuotes).calls 0).getNext.1 = true ∧
      let s := ((init (ascii "a=\"b\"") semicolon .required .strictQuotes).calls 0).getNext.2
      let l := ((init (ascii "a=\"b\"") semicolon .required .notStrict).calls 0).getNext
      l.1 = true ∧ l.2.name = s.name ∧ l.2.value = s.value ∧ l.2.rawValue = s.rawValue ∧
        l.2.valueIsQuoted = s.valueIsQuoted :=
  ⟨by decide, nameValuePairsIterator_strict_lenient _ _ _ 0 (by decide)⟩

end NameValuePairsIterator

end HttpUtil
