import HttpUtil.Iterators
import HttpUtil.Assembler

/-! # Headers of a canonical block

`HeadersIterator` run over the output of `AssembleRawHeaders`, with the NUL as
line delimiter, the way an `HttpResponseHeaders` parses its raw headers.  Every
header it yields has a token for a name and a value that is a valid header value
with no LWS at either end.

The run is described by `Over`, what every state of it keeps; the loop body
`readLine` is described once, on the line the tokenizer has just found.

`AdvanceTo` is then a search through the headers `GetNext` goes on to find
(`headers` lists the iterator as it stands at each of them), and a lookup by
name in an assembled block stops at a valid header.
-/

namespace HttpUtil

open Ascii

namespace HeadersIterator

/-- What every state of a run over `block` with line delimiters `delims` keeps:
the line tokenizer runs over `block` without quote characters, and its position
stays inside it. -/
structure Over (block delims : Bytes) (it : HeadersIterator) : Prop where
  input : it.lines.input = block
  lineDelims : it.lines.delims = delims
  noQuotes : it.lines.quotes = []
  bound : it.lines.tokenEnd ≤ block.length

section Run

variable {block delims : Bytes} {it : HeadersIterator}

theorem over_init (block delims : Bytes) : Over block delims (init block delims) :=
  ⟨rfl, rfl, rfl, Nat.zero_le _⟩

theorem over_advance (over : Over block delims it) : Over block delims it.advance.2 := by
  have bound := StringTokenizer.getNext_tokenEnd_le (over.input ▸ over.bound)
  exact ⟨by simp [over.input], by simp [over.lineDelims], by simp [over.noQuotes],
    by simpa [over.input] using bound⟩

theorem over_readLine (over : Over block delims it) : Over block delims it.readLine.2 := by
  obtain ⟨input, lineDelims, noQuotes, bound⟩ := over
  exact ⟨by simp [input], by simp [lineDelims], by simp [noQuotes], by simpa using bound⟩

theorem over_getNext (over : Over block delims it) : Over block delims it.getNext.2 :=
  loopTokens_invariant advance readLine _ (fun _ => over_advance) (fun _ => over_readLine) _ _ over

theorem over_calls (over : Over block delims it) (k : Nat) : Over block delims (it.calls k) := by
  induction k generalizing it with
  | zero => exact over
  | succ k ih => exact ih (over_getNext over)

end Run

theorem readLine_header {it it' : HeadersIterator}
    (ordered : it.lines.tokenBegin ≤ it.lines.tokenEnd)
    (bound : it.lines.tokenEnd ≤ it.lines.input.length) (accepted : it.readLine = (true, it')) :
    isToken it'.name = true ∧ (∀ c ∈ it'.values, c ∈ it.lines.token) ∧
      (∀ c ∈ it'.values.head?, isLWS c = false) ∧ (∀ c ∈ it'.values.getLast?, isLWS c = false) := by
  unfold readLine at accepted
  dsimp only at accepted
  set colonAt := find (· == colon) it.lines.input it.lines.tokenBegin it.lines.tokenEnd
  split_ifs at accepted with noColon nameBad notToken
  · cases accepted
  · cases accepted
  · cases accepted
  have shape := (Prod.mk.inj accepted).2
  have after : it.lines.tokenBegin ≤ colonAt := (find_bounds ordered).1
  have trimmed : it'.values = trimLWS (it.lines.token.drop (colonAt + 1 - it.lines.tokenBegin)) := by
    rw [← shape, values, slice_trimLWSBounds _ _ bound, slice_drop _ (Nat.le_succ_of_le after)]
    rfl
  refine ⟨by rw [← shape]; simpa [name] using notToken, fun c member => ?_, ?_, ?_⟩
  · rw [trimmed] at member
    exact List.mem_of_mem_drop ((trimLWS_sublist _).subset member)
  · rw [trimmed]; exact trimLWS_head
  · rw [trimmed]; exact trimLWS_getLast

/-- A header that `GetNext` finds in a run over an assembled block, with the NUL
as line delimiter, has a valid name and a valid value with no LWS at either
end. -/
theorem getNext_assembled {x : Bytes} {it : HeadersIterator}
    (over : Over (assembleRawHeaders x) [nul] it) (found : it.getNext.1 = true) :
    isValidHeaderName it.getNext.2.name = true ∧ isValidHeaderValue it.getNext.2.values = true ∧
      (∀ c ∈ it.getNext.2.values.head?, isLWS c = false) ∧
      (∀ c ∈ it.getNext.2.values.getLast?, isLWS c = false) := by
  obtain ⟨s₀, s₁, over, advanced, accepted⟩ :=
    loopTokens_true advance readLine _ (fun _ => over_advance) (fun _ => over_readLine) over
      (Prod.ext found rfl)
  have line : s₀.lines.getNext = (true, s₁.lines) := by
    rw [← (Prod.mk.inj advanced).2]
    exact Prod.ext (Prod.mk.inj advanced).1 rfl
  have ⟨ordered, bound⟩ := StringTokenizer.getNext_bounds line (over.input ▸ over.bound)
  obtain ⟨token, values, head, last⟩ := readLine_header ordered bound accepted
  have noNul := StringTokenizer.token_unquoted line over.noQuotes
  refine ⟨token, ?_, head, last⟩
  simp only [isValidHeaderValue, List.all_eq_true]
  intro c member
  have inLine := values c member
  have inBlock : c ∈ assembleRawHeaders x := by
    rw [← over.input, ← StringTokenizer.getNext_input, line]
    exact mem_slice inLine
  have notNul : c ≠ nul := by simpa [over.lineDelims] using noNul c inLine
  have ⟨notCR, notLF⟩ := mem_assembleRawHeaders inBlock
  simpa using And.intro (And.intro notNul notCR) notLF

/-- Every header that `HeadersIterator` yields over an assembled block, with the
NUL as line delimiter, has a valid name and a valid value, and the value neither
begins nor ends with a space or a tab. -/
theorem headersIterator_assembleRawHeaders (x : Bytes) (k : Nat)
    (found : ((init (assembleRawHeaders x) [nul]).calls k).getNext.1 = true) :
    let it := ((init (assembleRawHeaders x) [nul]).calls k).getNext.2
    isValidHeaderName it.name = true ∧ isValidHeaderValue it.values = true ∧
      (∀ c ∈ it.values.head?, isLWS c = false) ∧ (∀ c ∈ it.values.getLast?, isLWS c = false) :=
  getNext_assembled (over_calls (over_init (assembleRawHeaders x) [nul]) k) found

theorem headersIterator_assembleRawHeaders_response :
    ((init (assembleRawHeaders (ascii "HTTP/1.1 200\r\nA: b")) [nul]).calls 0).getNext.1 = true ∧
      let it := ((init (assembleRawHeaders (ascii "HTTP/1.1 200\r\nA: b")) [nul]).calls 0).getNext.2
      isValidHeaderName it.name = true ∧ isValidHeaderValue it.values = true ∧
        (∀ c ∈ it.values.head?, isLWS c = false) ∧ (∀ c ∈ it.values.getLast?, isLWS c = false) :=
  ⟨by decide, headersIterator_assembleRawHeaders _ 0 (by decide)⟩

/-- The iterator at each header that successive calls of `GetNext` find. -/
def headers (it : HeadersIterator) : List HeadersIterator :=
  collect (yielded getNext) (it.lines.remaining + 1) it

theorem headers_of_getNext {it it' : HeadersIterator} (found : it.getNext = (true, it')) :
    it.headers = it' :: it'.headers :=
  collect_of_some (yielded getNext) (fun it => it.lines.remaining)
    (fun _ _ _ step => remaining_of_getNext (yielded_eq_some step).1) (by simp [yielded, found])

theorem headers_of_finished {it : HeadersIterator} (finished : it.getNext.1 = false) :
    it.headers = [] :=
  collect_of_none _ _ (by simp [yielded, finished])

theorem mem_headers {it h : HeadersIterator} (member : h ∈ it.headers) :
    ∃ k, (it.calls k).getNext = (true, h) :=
  mem_collect_yielded getNext member

theorem advanceTo_find? (it : HeadersIterator) (name : Bytes) :
    (it.advanceTo name).1 = (it.headers.find? (fun h => lowerCaseEqualsASCII h.name name)).isSome ∧
      ∀ h ∈ it.headers.find? (fun h => lowerCaseEqualsASCII h.name name), (it.advanceTo name).2 = h :=
  loopTokens_find? getNext _ _ it

example : ((init (ascii "A: b") [cr, lf]).advanceTo (ascii "A")).1 = false ∧
    ((init (ascii "A: b") [cr, lf]).advanceTo (ascii "a")).1 = true := by decide

/-- Looking a header up by name in an assembled block, with the NUL as line
delimiter, stops at a header of that name whose name and value are valid and
whose value neither begins nor ends with a space or a tab. -/
theorem advanceTo_assembleRawHeaders (x name : Bytes)
    (found : ((init (assembleRawHeaders x) [nul]).advanceTo name).1 = true) :
    let it := ((init (assembleRawHeaders x) [nul]).advanceTo name).2
    lowerCaseEqualsASCII it.name name = true ∧ isValidHeaderName it.name = true ∧
      isValidHeaderValue it.values = true ∧ (∀ c ∈ it.values.head?, isLWS c = false) ∧
      (∀ c ∈ it.values.getLast?, isLWS c = false) := by
  obtain ⟨returned, stops⟩ := advanceTo_find? (init (assembleRawHeaders x) [nul]) name
  obtain ⟨h, first⟩ := Option.isSome_iff_exists.mp (returned ▸ found)
  have matched := List.find?_some first
  obtain ⟨k, reached⟩ := mem_headers (List.mem_of_find?_eq_some first)
  have valid := getNext_assembled (over_calls (over_init (assembleRawHeaders x) [nul]) k)
    (congrArg Prod.fst reached)
  rw [reached] at valid
  intro it
  rw [show it = h from stops h first]
  exact ⟨matched, valid⟩

theorem advanceTo_assembleRawHeaders_lookup :
    ((init (assembleRawHeaders (ascii "HTTP/1.1 200\r\nA: b")) [nul]).advanceTo (ascii "a")).1 = true ∧
      let it := ((init (assembleRawHeaders (ascii "HTTP/1.1 200\r\nA: b")) [nul]).advanceTo (ascii "a")).2
      lowerCaseEqualsASCII it.name (ascii "a") = true ∧ isValidHeaderName it.name = true ∧
        isValidHeaderValue it.values = true ∧ (∀ c ∈ it.values.head?, isLWS c = false) ∧
        (∀ c ∈ it.values.getLast?, isLWS c = false) :=
  ⟨by decide, advanceTo_assembleRawHeaders _ _ (by decide)⟩

end HeadersIterator

end HttpUtil
