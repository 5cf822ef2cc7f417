import HttpUtil.ContentType.Parameters

/-! # Reads and `DCHECK`s of the parameter loop

`readParam` says what one round of the parameter loop of `ParseContentType`
computes.  Here the round is written again line by line with every
`content_type_str[i]` a checked read (`readAt`) and every `QUICHE_DCHECK_EQ` a
checked comparison (`dcheckEq`), and the loop runs with a bound on its rounds.
For every value the checked loop finishes without a fault and computes
`contentTypeParams`: the round starts on a `;` and ends on a `;` or at the end
(`readParam_lands`), and moves forward (`lt_readParam`).
-/

namespace HttpUtil

open Ascii

/-- How a checked run of the parameter loop can fail. -/
inductive LoopFault where
  /-- `content_type_str[index]` with `index` at or past the end. -/
  | outOfRange (index : Nat)
  /-- `QUICHE_DCHECK_EQ(expected, content_type_str[index])` failed. -/
  | dcheckFailed (expected : UInt8) (index : Nat)
  /-- The loop went on past its bound on rounds. -/
  | outOfFuel
deriving DecidableEq, Repr

def readAt (s : Bytes) (index : Nat) : Except LoopFault UInt8 :=
  if index < s.length then pure (byteAt s index) else throw (.outOfRange index)

/-- `QUICHE_DCHECK_EQ(expected, content_type_str[index])`. -/
def dcheckEq (s : Bytes) (expected : UInt8) (index : Nat) : Except LoopFault Unit := do
  let c ← readAt s index
  if c == expected then pure () else throw (.dcheckFailed expected index)

/-- The quoted-string loop from `offset`, appending to `paramValue`:
`while (offset < size && s[offset] != '"')`, a backslash before the last byte
skipped.  It returns the value and the offset it stopped at. -/
def quotedLoop (s : Bytes) : Nat → Nat → Bytes → Except LoopFault (Bytes × Nat)
  | 0, _, _ => throw .outOfFuel
  | fuel + 1, offset, paramValue =>
      if offset < s.length then do
        let c ← readAt s offset
        if c == dquote then pure (paramValue, offset)
        else
          let b ← readAt s offset
          let offset := if b == backslash && offset + 1 < s.length then offset + 1 else offset
          let c ← readAt s offset
          quotedLoop s fuel (offset + 1) (paramValue ++ [c])
      else pure (paramValue, offset)

/-- `while (value_end > value_start && IsLWS(s[value_end - 1])) --value_end;` -/
def trimValueEnd (s : Bytes) (valueStart : Nat) : Nat → Except LoopFault Nat
  | 0 => pure 0
  | valueEnd + 1 =>
      if valueStart < valueEnd + 1 then do
        let c ← readAt s valueEnd
        if isLWS c then trimValueEnd s valueStart valueEnd else pure (valueEnd + 1)
      else pure (valueEnd + 1)

/-- The body of the parameter loop from the `;` at `offset`, with its reads and
`DCHECK`s checked: the offset the loop goes on from, and the parameter read.
`npos` is the length, so the unquoted value's `value_end` is the offset found. -/
def paramRound (s : Bytes) (offset : Nat) : Except LoopFault (Nat × Option (Bytes × Bytes)) := do
  dcheckEq s semicolon offset
  let paramNameStart := findFirstOf (fun c => !isLWS c) s (offset + 1)
  let offset := findFirstOf (fun c => c == semicolon || c == equals) s paramNameStart
  if s.length ≤ offset then pure (offset, none)
  else
    let atName ← readAt s offset
    if atName == semicolon then pure (offset, none)
    else
      let paramName := slice s paramNameStart offset
      dcheckEq s equals offset
      let offset := findFirstOf (fun c => !isLWS c) s (offset + 1)
      if s.length ≤ offset then pure (offset, none)
      else
        let atValue ← readAt s offset
        if atValue == semicolon then pure (offset, none)
        else
          let first ← readAt s offset
          if first != dquote then
            let valueStart := offset
            let offset := findFirstOf (· == semicolon) s offset
            let valueEnd ← trimValueEnd s valueStart offset
            pure (offset, some (paramName, slice s valueStart valueEnd))
          else
            dcheckEq s dquote offset
            let quoted ← quotedLoop s (s.length + 1) (offset + 1) []
            pure (findFirstOf (· == semicolon) s quoted.2, some (paramName, trimLWS quoted.1))

/-- The state after a round that ended at `offset`, having read `param` or not. -/
def afterRound (st : ParamState) : Nat × Option (Bytes × Bytes) → ParamState
  | (offset, none) => { st with offset }
  | (offset, some param) => { keepParam st param with offset }

/-- `while (offset < content_type_str.size())` with checked rounds; `fuel`
bounds the rounds. -/
def paramsLoopChecked (s : Bytes) : Nat → ParamState → Except LoopFault ParamState
  | 0, _ => throw .outOfFuel
  | fuel + 1, st =>
      if st.offset < s.length then do
        let round ← paramRound s st.offset
        paramsLoopChecked s fuel (afterRound st round)
      else pure st

/-- The checked parameter loop of `ParseContentType` on `content_type_str`,
with at most one round per byte and one more to leave. -/
def contentTypeParamsChecked (s : Bytes) (boundary : Option Bytes) : Except LoopFault ParamState :=
  paramsLoopChecked s (s.length + 1) ⟨findFirstOf (· == semicolon) s (typeEnd s), [], false, false, boundary⟩

section Round

variable {s : Bytes} {offset : Nat}

theorem byteAt_of_stop {stop : Nat} (stopped : (decide (s.length ≤ stop) || byteAt s stop == semicolon) = true)
    (found : stop < s.length) : byteAt s stop = semicolon := by
  simp only [Bool.or_eq_true, decide_eq_true_eq, beq_iff_eq] at stopped
  exact stopped.resolve_left (Nat.not_le.mpr found)

theorem readParam_lands (found : (readParam s offset).1 < s.length) :
    byteAt s (readParam s offset).1 = semicolon := by
  dsimp only [readParam] at found ⊢
  split_ifs at found ⊢ with noName noValue
  · exact byteAt_of_stop noName found
  · exact byteAt_of_stop noValue found
  all_goals simpa using findFirstOf_hit found

theorem lt_readParam (inside : offset < s.length) : offset < (readParam s offset).1 := by
  have nameStart := lt_findFirstOf (p := fun c => !isLWS c) inside (Nat.lt_add_one offset)
  have nameEnd := lt_findFirstOf (p := fun c => c == semicolon || c == equals) inside nameStart
  have valueStart := lt_findFirstOf (p := fun c => !isLWS c) inside (Nat.lt_add_one_of_lt nameEnd)
  dsimp only [readParam]
  split_ifs
  · exact nameEnd
  · exact valueStart
  · exact lt_findFirstOf inside valueStart
  · exact lt_findFirstOf inside (by omega)

end Round

section Checked

variable {s : Bytes}

theorem readAt_of_lt {index : Nat} (inside : index < s.length) : readAt s index = pure (byteAt s index) :=
  if_pos inside

theorem dcheckEq_of_eq {expected : UInt8} {index : Nat} (inside : index < s.length)
    (same : byteAt s index = expected) : dcheckEq s expected index = pure () := by
  simp [dcheckEq, readAt_of_lt inside, same]

theorem quotedLoop_eq {fuel offset : Nat} {paramValue : Bytes} (enough : (s.drop offset).length < fuel) :
    quotedLoop s fuel offset paramValue =
      pure (paramValue ++ (quotedValue (s.drop offset)).1, offset + (quotedValue (s.drop offset)).2) := by
  induction fuel generalizing offset paramValue with
  | zero => omega
  | succ fuel ih =>
      cases dropped : s.drop offset with
      | nil =>
          have beyond : ¬offset < s.length := by simpa using dropped
          simp [quotedLoop, beyond, quotedValue]
      | cons c rest =>
          rw [dropped] at enough
          have inside := lt_length_of_drop dropped
          have next : s.drop (offset + 1) = rest := by rw [drop_after dropped]; rfl
          simp only [quotedLoop, if_pos inside, readAt_of_lt inside, pure_bind, byteAt_of_drop dropped,
            quotedValue_cons]
          by_cases quote : c == dquote
          · simp only [quote, if_true, List.append_nil, Nat.add_zero]
          · simp only [quote, if_false, Bool.false_eq_true]
            by_cases escape : c == backslash
            · cases rest with
              | nil =>
                  have last : ¬offset + 1 < s.length := by simpa using next
                  simp only [escape, last, decide_False, Bool.and_false, if_false, Bool.false_eq_true,
                    readAt_of_lt inside, pure_bind, byteAt_of_drop dropped]
                  rw [@ih (offset + 1) _ (by simp [next] at enough ⊢; omega), next]
                  simp [quotedValue]
              | cons d rest =>
                  have escaped := lt_length_of_drop next
                  have after : s.drop (offset + 1 + 1) = rest := by rw [drop_after next]; rfl
                  simp only [escape, escaped, decide_True, Bool.and_true, if_true, readAt_of_lt escaped,
                    pure_bind, byteAt_of_drop next]
                  rw [@ih (offset + 1 + 1) _ (by simp [after] at enough ⊢; omega), after,
                    List.append_assoc, List.singleton_append]
                  congr 2
                  omega
            · simp only [escape, Bool.false_and, if_false, Bool.false_eq_true, readAt_of_lt inside,
                pure_bind, byteAt_of_drop dropped]
              rw [@ih (offset + 1) _ (by simpa [next] using enough), next, List.append_assoc,
                List.singleton_append]
              congr 2
              omega

theorem trimValueEnd_eq {valueStart : Nat} : ∀ {valueEnd : Nat}, valueStart ≤ valueEnd → valueEnd ≤ s.length →
    ∃ trimmed, trimValueEnd s valueStart valueEnd = pure trimmed ∧
      slice s valueStart trimmed = (slice s valueStart valueEnd).rdropWhile isLWS
  | 0, _, _ => ⟨0, rfl, by simp [slice]⟩
  | valueEnd + 1, start, bound => by
      by_cases longer : valueStart < valueEnd + 1
      · have grown := slice_succ (Nat.le_of_lt_succ longer) (drop_eq_byteAt_cons bound)
        rw [trimValueEnd, if_pos longer, readAt_of_lt bound, pure_bind, grown, List.rdropWhile_concat]
        by_cases lws : isLWS (byteAt s valueEnd)
        · rw [if_pos lws, if_pos lws]
          exact trimValueEnd_eq (Nat.le_of_lt_succ longer) (Nat.le_of_succ_le bound)
        · rw [if_neg lws, if_neg lws, ← grown]
          exact ⟨valueEnd + 1, rfl, rfl⟩
      · rw [trimValueEnd, if_neg longer, show valueStart = valueEnd + 1 by omega]
        exact ⟨valueEnd + 1, rfl, by simp [slice]⟩

theorem paramRound_eq {offset : Nat} (inside : offset < s.length) (atSemicolon : byteAt s offset = semicolon) :
    paramRound s offset = pure (readParam s offset) := by
  rw [paramRound, dcheckEq_of_eq inside atSemicolon, pure_bind]
  dsimp only [readParam]
  generalize findFirstOf (fun c => !isLWS c) s (offset + 1) = nameStart
  have nameHit := @findFirstOf_hit (fun c => c == semicolon || c == equals) s nameStart
  generalize findFirstOf (fun c => c == semicolon || c == equals) s nameStart = nameEnd at nameHit ⊢
  by_cases noName : s.length ≤ nameEnd
  · simp [noName]
  have inName := Nat.lt_of_not_le noName
  by_cases nameless : byteAt s nameEnd = semicolon
  · simp [noName, readAt_of_lt inName, nameless]
  have isEquals : byteAt s nameEnd = equals := by
    simp only [Bool.or_eq_true, beq_iff_eq] at nameHit
    exact (nameHit inName).resolve_left nameless
  simp only [noName, decide_False, Bool.false_or, beq_iff_eq, nameless, if_false, readAt_of_lt inName, pure_bind,
    dcheckEq_of_eq inName isEquals]
  generalize findFirstOf (fun c => !isLWS c) s (nameEnd + 1) = valueStart
  by_cases noValue : s.length ≤ valueStart
  · simp [noValue]
  have inValue := Nat.lt_of_not_le noValue
  by_cases valueless : byteAt s valueStart = semicolon
  · simp [noValue, readAt_of_lt inValue, valueless]
  simp only [noValue, decide_False, Bool.false_or, beq_iff_eq, valueless, if_false, readAt_of_lt inValue, pure_bind,
    bne_iff_ne, ne_eq]
  by_cases quoted : byteAt s valueStart = dquote
  · simp only [quoted, not_true_eq_false, if_false, dcheckEq_of_eq inValue quoted, pure_bind,
      quotedLoop_eq (show (s.drop (valueStart + 1)).length < s.length + 1 by simp; omega), List.nil_append]
  · obtain ⟨trimmed, run, sliced⟩ := @trimValueEnd_eq s valueStart (findFirstOf (· == semicolon) s valueStart)
      (le_findFirstOf inValue.le) findFirstOf_le_length
    simp only [quoted, not_false_eq_true, if_true, run, pure_bind, sliced]

/-- Entered off a `;`, a round fails its first `DCHECK`. -/
example : paramRound (ascii "a;b") 0 = .error (.dcheckFailed semicolon 0) := rfl

theorem afterRound_offset (st : ParamState) (round : Nat × Option (Bytes × Bytes)) :
    (afterRound st round).offset = round.1 := by
  rcases round with ⟨offset, _ | param⟩ <;> rfl

theorem paramStep_eq_afterRound (st : ParamState) : paramStep s st = afterRound st (readParam s st.offset) := by
  rcases read : readParam s st.offset with ⟨offset, _ | param⟩
  · simp only [paramStep, read, afterRound]
  · exact paramStep_of_read read

/-- From a state on a `;` or at the end, with a round for each byte left and
one more, the checked loop computes `paramsLoop`. -/
theorem paramsLoopChecked_eq : ∀ {fuel : Nat} {st : ParamState},
    (st.offset < s.length → byteAt s st.offset = semicolon) → s.length - st.offset < fuel →
      paramsLoopChecked s fuel st = pure (paramsLoop s fuel st)
  | 0, _, _, enough => absurd enough (Nat.not_lt_zero _)
  | fuel + 1, st, onSemicolon, enough => by
      by_cases inside : st.offset < s.length
      · have next := afterRound_offset st (readParam s st.offset)
        have forward := lt_readParam inside
        rw [paramsLoopChecked, paramsLoop, if_pos inside, if_pos inside,
          paramRound_eq inside (onSemicolon inside), pure_bind, paramStep_eq_afterRound]
        exact paramsLoopChecked_eq (by rw [next]; exact readParam_lands) (by omega)
      · rw [paramsLoopChecked, paramsLoop, if_neg inside, if_neg inside]

end Checked

/-- For every `content_type_str` and `*boundary`, the parameter loop of
`ParseContentType` with its reads and `DCHECK`s checked ends without a fault
within one round per byte and one more, and computes `contentTypeParams`.  Each
round from a `;` faults nowhere, moves `offset` forward, and ends on a `;` or at
the end. -/
theorem contentTypeParamsChecked_ok (s : Bytes) (boundary : Option Bytes) :
    contentTypeParamsChecked s boundary = .ok (contentTypeParams s boundary) ∧
      ∀ offset < s.length, byteAt s offset = semicolon →
        paramRound s offset = .ok (readParam s offset) ∧ offset < (readParam s offset).1 ∧
          ((readParam s offset).1 < s.length → byteAt s (readParam s offset).1 = semicolon) :=
  ⟨paramsLoopChecked_eq (fun found => by simpa using findFirstOf_hit found) (by omega),
    fun _ inside atSemicolon => ⟨paramRound_eq inside atSemicolon, lt_readParam inside, readParam_lands⟩⟩

end HttpUtil
