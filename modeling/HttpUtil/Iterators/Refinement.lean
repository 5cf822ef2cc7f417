import HttpUtil.Iterators.Headers

/-! # The iterators as parsers of lists

`HeadersIterator` and `ValuesIterator` keep offsets into their input and a
tokenizer between calls.  What a whole run yields is described here without
offsets: the input is split into its tokens, and each token is read on its own
by what the loop body of `GetNext` makes of it, `headerOfLine` for a line and
`valueOfToken` for a value.  A run of the token loop refines that description
(`loopRun_map_observe`) for every input; with line delimiters the headers are
the lines read by `headerOfLine` (`headersIterator_lines`), and over an input
without quote marks the values are the trimmed runs between delimiters
(`valuesIterator_values`).
-/

namespace HttpUtil

open Ascii

section Run

variable {σ β : Type} (lines : σ → StringTokenizer) (advance body : σ → Bool × σ)
  (line : Bytes → Option β) (observe : σ → β) (Inv : σ → Prop)

/-- What successive calls of a `GetNext` yield that runs the token loop over the
tokenizer `lines`, with as many rounds as the tokenizer can take. -/
def loopRun (s : σ) : List σ :=
  collect (yielded fun s => loopTokens advance body ((lines s).remaining + 1) s) ((lines s).remaining + 1) s

variable {lines advance body line observe Inv}

/-- An iterator whose `advance` calls its tokenizer, whose loop body leaves the
tokenizer alone, and whose body reads each token just found as `line` does,
yields over a run the tokens its tokenizer finds, each read by `line`. -/
theorem loopRun_map_observe
    (advanceSpec : ∀ s, (advance s).1 = (lines s).getNext.1 ∧ lines (advance s).2 = (lines s).getNext.2)
    (advanceKeeps : ∀ s, Inv s → Inv (advance s).2)
    (bodyLines : ∀ s, lines (body s).2 = lines s) (bodyKeeps : ∀ s, Inv s → Inv (body s).2)
    (bodyReads : ∀ s s₁, Inv s → advance s = (true, s₁) →
      (if (body s₁).1 then some (observe (body s₁).2) else none) = line (lines s₁).token) :
    ∀ (fuel : Nat) (s : σ), (lines s).remaining < fuel → Inv s →
      (loopRun lines advance body s).map observe = (lines s).pieces.filterMap line
  | 0, _, enough, _ => absurd enough (Nat.not_lt_zero _)
  | fuel + 1, s, enough, inv => by
      have decreasing : ∀ s s', advance s = (true, s') → (lines s').remaining < (lines s).remaining :=
        fun s s' found => StringTokenizer.remaining_of_getNext
          (Prod.ext (by rw [← (advanceSpec s).1, found]) (by rw [← (advanceSpec s).2, found]))
      have getNextLowers : ∀ s a s', yielded (fun s => loopTokens advance body ((lines s).remaining + 1) s) s =
          some (a, s') → (lines s').remaining < (lines s).remaining := fun s _ _ step =>
        loopTokens_measure advance body (fun s => (lines s).remaining) decreasing
          (fun s => congrArg StringTokenizer.remaining (bodyLines s)) (yielded_eq_some step).1
      cases stepped : (lines s).getNext with
      | mk returned t' =>
      obtain ⟨s₁, advanced⟩ : ∃ s₁, advance s = (returned, s₁) :=
        ⟨_, Prod.ext ((advanceSpec s).1.trans (by rw [stepped])) rfl⟩
      cases returned with
      | false =>
          rw [loopRun, collect_of_none _ _ (by simp [yielded, loopTokens, advanced]),
            StringTokenizer.pieces_of_next?_none (by simp [StringTokenizer.next?, stepped])]
          rfl
      | true =>
          have lines₁ : lines s₁ = t' := by simpa [advanced, stepped] using (advanceSpec s).2
          have reads := bodyReads s _ inv advanced
          rw [@StringTokenizer.pieces_of_next? _ t' t'.token (by simp [StringTokenizer.next?, stepped])]
          cases read : body s₁ with
          | mk accepted s₂ =>
          have lines₂ : lines s₂ = t' := by simpa [read, lines₁] using bodyLines s₁
          have inv₂ : Inv s₂ := by simpa [advanced, read] using bodyKeeps _ (advanceKeeps s inv)
          have shorter : (lines s₂).remaining < (lines s).remaining := by
            rw [lines₂, ← lines₁]; exact decreasing s _ advanced
          have rest := loopRun_map_observe advanceSpec advanceKeeps bodyLines bodyKeeps bodyReads fuel s₂
            (by omega) inv₂
          rw [read, lines₁] at reads
          cases accepted with
          | true =>
              have header : line t'.token = some (observe s₂) := by simpa using reads.symm
              have yields : yielded (fun s => loopTokens advance body ((lines s).remaining + 1) s) s =
                  some (s₂, s₂) := by simp [yielded, loopTokens, advanced, read]
              rw [loopRun, collect_of_some _ _ getNextLowers yields, List.map_cons, ← loopRun, rest, lines₂,
                List.filterMap_cons_some header]
          | false =>
              have header : line t'.token = none := by simpa using reads.symm
              have resumed : loopTokens advance body ((lines s).remaining + 1) s =
                  loopTokens advance body ((lines s₂).remaining + 1) s₂ := by
                rw [show loopTokens advance body ((lines s).remaining + 1) s =
                    loopTokens advance body (lines s).remaining s₂ by simp [loopTokens, advanced, read]]
                exact loopTokens_fuel_congr advance body (fun s => (lines s).remaining) decreasing
                  (fun s => congrArg StringTokenizer.remaining (bodyLines s)) shorter (Nat.lt_succ_self _)
              rw [loopRun, collect_congr _ (fun s => (lines s).remaining) getNextLowers
                (show yielded _ s = yielded _ s₂ by simp only [yielded, resumed]), ← loopRun, rest, lines₂,
                List.filterMap_cons_none header]

end Run

/-- What the loop body of `HeadersIterator::GetNext` makes of one line: a name
and values where the line has a colon, the bytes before it are not empty and do
not start with LWS, and, trimmed, are a token; the values are the bytes after
the colon, trimmed. -/
def headerOfLine (line : Bytes) : Option (Bytes × Bytes) :=
  match findIndex (· == colon) line with
  | none => none
  | some colon =>
      if colon == 0 || isLWS (line.headD nul) then none
      else if !isToken (trimLWS (line.take colon)) then none
      else some (trimLWS (line.take colon), trimLWS (line.drop (colon + 1)))

namespace HeadersIterator

theorem readLine_eq_headerOfLine {it : HeadersIterator} (ordered : it.lines.tokenBegin ≤ it.lines.tokenEnd)
    (bound : it.lines.tokenEnd ≤ it.lines.input.length) :
    (if it.readLine.1 then some (it.readLine.2.name, it.readLine.2.values) else none) =
      headerOfLine it.lines.token := by
  unfold readLine headerOfLine StringTokenizer.token
  dsimp only
  cases found : findIndex (· == colon) (slice it.lines.input it.lines.tokenBegin it.lines.tokenEnd) with
  | none =>
      have atEnd : find (· == colon) it.lines.input it.lines.tokenBegin it.lines.tokenEnd =
          it.lines.tokenEnd := by simp only [find, found, Option.map_none', Option.getD_none]
      rw [atEnd]
      simp
  | some k =>
      have within := findIndex_lt found
      have size := length_slice it.lines.tokenBegin bound
      have atColon : find (· == colon) it.lines.input it.lines.tokenBegin it.lines.tokenEnd =
          it.lines.tokenBegin + k := by simp only [find, found, Option.map_some', Option.getD_some]
      obtain ⟨c, rest, sliced⟩ : ∃ c rest, slice it.lines.input it.lines.tokenBegin it.lines.tokenEnd = c :: rest := by
        cases h : slice it.lines.input it.lines.tokenBegin it.lines.tokenEnd with
        | nil => rw [h] at within; simp at within
        | cons c rest => exact ⟨c, rest, rfl⟩
      have nameSlice : slice it.lines.input it.lines.tokenBegin (it.lines.tokenBegin + k) =
          (c :: rest).take k := by
        rw [slice_take _ (show it.lines.tokenBegin + k ≤ it.lines.tokenEnd by omega), sliced, Nat.add_sub_cancel_left]
      have valuesSlice : slice it.lines.input (it.lines.tokenBegin + k + 1) it.lines.tokenEnd =
          (c :: rest).drop (k + 1) := by
        rw [slice_drop _ (show it.lines.tokenBegin ≤ it.lines.tokenBegin + k + 1 by omega), sliced]
        congr 1
        omega
      have notEnd : ¬(it.lines.tokenBegin + k == it.lines.tokenEnd) = true := by simp; omega
      have emptyName : (it.lines.tokenBegin == it.lines.tokenBegin + k) = (k == 0) := by
        simp
      have nameBound : it.lines.tokenBegin + k ≤ it.lines.input.length := by omega
      rw [atColon]
      simp only [if_neg notEnd, emptyName, byteAt_of_slice sliced, sliced, List.headD_cons, name, values,
        slice_trimLWSBounds _ _ nameBound, nameSlice]
      by_cases skipped : (k == 0 || isLWS c) = true
      · simp only [if_pos skipped, Bool.false_eq_true, if_false]
      by_cases notToken : (!isToken (trimLWS ((c :: rest).take k))) = true
      · simp only [if_neg skipped, if_pos notToken, Bool.false_eq_true, if_false]
      · simp only [if_neg skipped, if_neg notToken, if_true]
        rw [slice_trimLWSBounds _ _ nameBound, slice_trimLWSBounds _ _ bound, nameSlice, valuesSlice]

/-- From any state of a run, the headers still to come are the lines still to
come, each read by `headerOfLine`. -/
theorem headers_eq_filterMap {input delims : Bytes} {it : HeadersIterator} (over : Over input delims it) :
    it.headers.map (fun h => (h.name, h.values)) = it.lines.pieces.filterMap headerOfLine :=
  @loopRun_map_observe _ _ lines advance readLine headerOfLine (fun h => (h.name, h.values)) (Over input delims)
    (fun _ => ⟨rfl, rfl⟩) (fun _ => over_advance) readLine_lines (fun _ => over_readLine)
    (fun it it₁ over advanced => by
      have line : it.lines.getNext = (true, it₁.lines) := by
        rw [← (Prod.mk.inj advanced).2]; exact Prod.ext (Prod.mk.inj advanced).1 rfl
      have ⟨ordered, bound⟩ := StringTokenizer.getNext_bounds line (over.input ▸ over.bound)
      exact readLine_eq_headerOfLine ordered bound)
    _ _ (Nat.lt_succ_self _) over

/-- For every input and every set of line delimiters, the headers a
`HeadersIterator` yields, name and values, are the lines of the input read one
by one by `headerOfLine`: a line gives a header exactly when it has a colon
after a non-empty name that does not start with LWS and, trimmed, is a token. -/
theorem headersIterator_lines (input delims : Bytes) :
    (init input delims).headers.map (fun h => (h.name, h.values)) =
      (fields delims input).filterMap headerOfLine := by
  rw [headers_eq_filterMap (over_init input delims), init,
    StringTokenizer.pieces_init]

end HeadersIterator

/-- What the loop body of `ValuesIterator::GetNext` makes of one token: the
token trimmed of LWS, kept unless it is then empty and empty values are
ignored. -/
def valueOfToken (ignoreEmptyValues : Bool) (token : Bytes) : Option Bytes :=
  if !ignoreEmptyValues || !(trimLWS token).isEmpty then some (trimLWS token) else none

theorem filterMap_valueOfToken (ignoreEmptyValues : Bool) (tokens : List Bytes) :
    tokens.filterMap (valueOfToken ignoreEmptyValues) =
      (tokens.map trimLWS).filter fun v => !ignoreEmptyValues || !v.isEmpty := by
  induction tokens with
  | nil => rfl
  | cons token tokens ih =>
      simp only [List.filterMap_cons, valueOfToken, List.map_cons, List.filter_cons, ih]
      split_ifs <;> rfl

namespace ValuesIterator

/-- The iterators after each call of `GetNext` that finds a value. -/
def run (it : ValuesIterator) : List ValuesIterator :=
  collect (yielded getNext) (it.values.remaining + 1) it

theorem run_of_getNext {it it' : ValuesIterator} (found : it.getNext = (true, it')) :
    it.run = it' :: it'.run :=
  collect_of_some _ (fun it : ValuesIterator => it.values.remaining)
    (fun _ _ _ step => remaining_of_getNext (yielded_eq_some step).1) (by simp [yielded, found])

theorem run_of_finished {it : ValuesIterator} (finished : it.getNext.1 = false) : it.run = [] :=
  collect_of_none _ _ (by simp [yielded, finished])

theorem readValue_eq_valueOfToken {it : ValuesIterator} (ordered : it.values.tokenBegin ≤ it.values.tokenEnd)
    (bound : it.values.tokenEnd ≤ it.values.input.length) :
    (if it.readValue.1 then some it.readValue.2.value else none) =
      valueOfToken it.ignoreEmptyValues it.values.token := by
  have distinct : ((trimLWSBounds it.values.input it.values.tokenBegin it.values.tokenEnd).1 !=
      (trimLWSBounds it.values.input it.values.tokenBegin it.values.tokenEnd).2) =
        !(trimLWS it.values.token).isEmpty := by
    rw [bne, trimLWSBounds_beq _ ordered bound, StringTokenizer.token]
  simp only [readValue, value, valueOfToken, distinct, slice_trimLWSBounds _ _ bound, StringTokenizer.token]

/-- From any state of a run, the values still to come are the tokens still to
come, each read by `valueOfToken`. -/
theorem run_map_value {it : ValuesIterator} (bound : it.values.tokenEnd ≤ it.values.input.length) :
    it.run.map value = it.values.pieces.filterMap (valueOfToken it.ignoreEmptyValues) :=
  @loopRun_map_observe _ _ values advance readValue (valueOfToken it.ignoreEmptyValues) value
    (fun s => s.values.tokenEnd ≤ s.values.input.length ∧ s.ignoreEmptyValues = it.ignoreEmptyValues)
    (fun _ => ⟨rfl, rfl⟩)
    (fun _ inv => ⟨by simpa using StringTokenizer.getNext_tokenEnd_le inv.1, inv.2⟩)
    (fun _ => rfl) (fun _ inv => inv)
    (fun s s₁ inv advanced => by
      have token : s.values.getNext = (true, s₁.values) := by
        rw [← (Prod.mk.inj advanced).2]; exact Prod.ext (Prod.mk.inj advanced).1 rfl
      have ⟨ordered, bound⟩ := StringTokenizer.getNext_bounds token inv.1
      have ignore : s₁.ignoreEmptyValues = it.ignoreEmptyValues := by
        rw [← (Prod.mk.inj advanced).2]; exact inv.2
      rw [← ignore]
      exact readValue_eq_valueOfToken ordered bound)
    _ _ (Nat.lt_succ_self _) ⟨bound, rfl⟩

theorem run_map_token {it : ValuesIterator} (bound : it.values.tokenEnd ≤ it.values.input.length)
    (keep : it.ignoreEmptyValues = false) :
    it.run.map (fun it => (it.values.token, it.value)) = it.values.pieces.map fun token => (token, trimLWS token) := by
  conv_rhs => rw [← List.filterMap_eq_map]
  exact @loopRun_map_observe _ _ values advance readValue (fun token => some (token, trimLWS token))
    (fun it => (it.values.token, it.value))
    (fun s => s.values.tokenEnd ≤ s.values.input.length ∧ s.ignoreEmptyValues = false)
    (fun _ => ⟨rfl, rfl⟩)
    (fun _ inv => ⟨by simpa using StringTokenizer.getNext_tokenEnd_le inv.1, inv.2⟩)
    (fun _ => rfl) (fun _ inv => inv)
    (fun s s₁ inv advanced => by
      have token : s.values.getNext = (true, s₁.values) := by
        rw [← (Prod.mk.inj advanced).2]; exact Prod.ext (Prod.mk.inj advanced).1 rfl
      have ⟨ordered, bound⟩ := StringTokenizer.getNext_bounds token inv.1
      have keep : s₁.ignoreEmptyValues = false := by rw [← (Prod.mk.inj advanced).2]; exact inv.2
      have reads := readValue_eq_valueOfToken ordered bound
      rw [keep] at reads
      cases accepted : s₁.readValue.1 <;> simp [accepted, valueOfToken] at reads ⊢
      exact reads)
    _ _ (Nat.lt_succ_self _) ⟨bound, keep⟩

theorem run_value_trimmed {it : ValuesIterator} (bound : it.values.tokenEnd ≤ it.values.input.length) :
    ∀ v ∈ it.run.map value, (∀ c ∈ v.head?, isLWS c = false) ∧ (∀ c ∈ v.getLast?, isLWS c = false) ∧
      (it.ignoreEmptyValues = true → v ≠ []) := by
  rw [run_map_value bound]
  intro v member
  obtain ⟨token, -, read⟩ := List.mem_filterMap.mp member
  unfold valueOfToken at read
  split_ifs at read with kept
  cases read
  exact ⟨trimLWS_head, trimLWS_getLast, fun ignore => by simpa [ignore] using kept⟩

theorem getNext_value_bounds {it it' : ValuesIterator} (bound : it.values.tokenEnd ≤ it.values.input.length)
    (found : it.getNext = (true, it')) :
    it'.valueBegin ≤ it'.valueEnd ∧ it'.valueEnd ≤ it'.values.input.length := by
  obtain ⟨s₀, s₁, inside, advanced, read⟩ :=
    loopTokens_true advance readValue (fun it => it.values.tokenEnd ≤ it.values.input.length)
      (fun _ inside => by simpa using StringTokenizer.getNext_tokenEnd_le inside)
      (fun _ inside => inside) bound found
  have token : s₀.values.getNext = (true, s₁.values) := by
    rw [← (Prod.mk.inj advanced).2]; exact Prod.ext (Prod.mk.inj advanced).1 rfl
  have ⟨ordered, within⟩ := StringTokenizer.getNext_bounds token inside
  rw [← (Prod.mk.inj read).2]
  exact ⟨trimLWSBounds_ordered _ ordered within, Nat.le_trans (trimLWSBounds_snd_le _ _ _) within⟩

theorem pieces_init {input : Bytes} (d : UInt8) (ignore : Bool) (noQuotes : dquote ∉ input) :
    (init input d ignore).values.pieces =
      (input.splitOnP fun c => c == d).filter fun w => !ignore || !w.isEmpty := by
  rw [← StringTokenizer.pieces_quotes_absent _ (Nat.lt_succ_self _)
    (fun c member quote => noQuotes (by simp_all [init, StringTokenizer.init]))]
  cases ignore
  · rw [StringTokenizer.pieces_eq_splitOnP rfl rfl rfl]
    simp only [init, StringTokenizer.init, List.mem_singleton, Bool.not_false, Bool.true_or, List.filter_true]
    rfl
  · rw [show { (init input d true).values with quotes := [] } = StringTokenizer.init input 0 [d] from rfl,
      StringTokenizer.pieces_init]
    simp only [fields, List.mem_singleton, Bool.not_true, Bool.false_or]
    rfl

theorem run_map_value_of_pieces {input : Bytes} {d : UInt8} {ignore : Bool} {words : List Bytes}
    (found : (init input d ignore).values.pieces = words.filter fun w => !ignore || !w.isEmpty) :
    (init input d ignore).run.map value = (words.map trimLWS).filter fun v => !ignore || !v.isEmpty := by
  rw [run_map_value (Nat.zero_le _), found, show (init input d ignore).ignoreEmptyValues = ignore from rfl,
    filterMap_valueOfToken]
  cases ignore
  · simp only [Bool.not_false, Bool.true_or, List.filter_true]
  · rw [List.filter_map, List.filter_map, List.filter_filter]
    congr 1
    refine List.filter_congr fun w _ => ?_
    cases w <;> simp [trimLWS]

/-- The constructor as its comment says it could be written, setting
`RETURN_EMPTY_TOKENS` unconditionally. -/
def initReturningEmpty (input : Bytes) (delimiter : UInt8) (ignoreEmptyValues : Bool) : ValuesIterator :=
  { values := { StringTokenizer.init input 0 [delimiter] with quotes := [dquote], returnEmptyTokens := true }
    ignoreEmptyValues }

/-- The constructor sets `RETURN_EMPTY_TOKENS` only where empty values are kept,
"a minor performance improvement" by its comment, since `GetNext` drops the
values that are empty after trimming anyway: over every input, quoted or not,
setting it always would yield the same values. -/
theorem valuesIterator_returnEmptyTokens (input : Bytes) (d : UInt8) (ignore : Bool) :
    (init input d ignore).run.map value = (initReturningEmpty input d ignore).run.map value := by
  rw [run_map_value (Nat.zero_le _), run_map_value (Nat.zero_le _)]
  cases ignore
  · rfl
  · have dropped : (init input d true).values.pieces =
        (initReturningEmpty input d true).values.pieces.filter fun w => !w.isEmpty :=
      StringTokenizer.pieces_returnEmptyTokens_false (t := (init input d true).values) rfl
    rw [dropped, List.filterMap_filter]
    refine List.filterMap_congr fun w _ => ?_
    cases w <;> rfl

/-- Over an input without quote marks, the values a `ValuesIterator` yields are
the runs of the input between delimiters, each trimmed of LWS, with the empty
ones dropped where empty values are ignored. -/
theorem valuesIterator_values {input : Bytes} (d : UInt8) (ignore : Bool) (noQuotes : dquote ∉ input) :
    (init input d ignore).run.map value =
      ((input.splitOnP fun c => c == d).map trimLWS).filter fun v => !ignore || !v.isEmpty :=
  run_map_value_of_pieces (pieces_init d ignore noQuotes)

theorem valuesIterator_values_commas :
    dquote ∉ ascii "a, ,b" ∧
      (init (ascii "a, ,b") comma true).run.map value = [ascii "a", ascii "b"] :=
  ⟨by decide, (valuesIterator_values comma true (by decide)).trans (by decide)⟩

/-- Where empty values are kept, the tokens a `ValuesIterator` steps over,
joined by its delimiter, are its input, quoted or not, and each value is its
token trimmed of LWS: splitting loses no byte. -/
theorem valuesIterator_tokens (input : Bytes) (d : UInt8) :
    [d].intercalate ((init input d false).run.map fun it => it.values.token) = input ∧
      (init input d false).run.map value = (init input d false).run.map fun it => trimLWS it.values.token := by
  have tokens := @run_map_token (init input d false) (Nat.zero_le _) rfl
  have firsts := congrArg (List.map Prod.fst) tokens
  have seconds := congrArg (List.map Prod.snd) tokens
  simp only [List.map_map, Function.comp_def] at firsts seconds
  refine ⟨?_, ?_⟩
  · rw [firsts, List.map_id']
    exact StringTokenizer.intercalate_pieces rfl rfl rfl
  · rw [seconds, show (fun it : ValuesIterator => trimLWS it.values.token) = trimLWS ∘ fun it => it.values.token
      from rfl, ← List.map_map, firsts, List.map_id']

end ValuesIterator

end HttpUtil
