import HttpUtil.Text.Bytes

/-! # The end of a header block

`LocateEndOfHeadersHelper` scans a buffer from an offset with two variables:
`last_c`, the byte it scanned last, and `was_lf`, whether what it scanned ends
with a line break, a `\r` right after a `\n` keeping it so.  A `\n` met while
`was_lf` holds ends the headers.  `LocateEndOfAdditionalHeaders` starts as if a
`\n` had been scanned, so that a buffer that starts with a line break holds an
empty header list.

The buffer of `buf_len` bytes is modelled by the list of those bytes, and
`npos` by `none`.  What the scan looks for is stated over the text it has
scanned: `EndsWithLineBreak` and `IsEnd`, and `endOfHeaders`, the first position
where the headers end.  The scan is a loop over the bytes that are left, so a
position found in a buffer is found in every extension of it, which is what an
incremental parser relies on when it calls again with more bytes.

A head written as a first line and further non-empty lines, each without CR or
LF and ended by CRLF, and then an empty line, ends at that empty line whatever
follows it: no line end inside the head is taken for its end.
-/

namespace HttpUtil

open Ascii

/-- The loop of `LocateEndOfHeadersHelper` at offset `i` over the bytes
`buf[i..buf_len)`, with the loop's `last_c` and `was_lf`. -/
def locateEndLoop (lastC : UInt8) (wasLf : Bool) (i : Nat) : Bytes → Option Nat
  | [] => none
  | c :: rest =>
      if c == lf then
        if wasLf then some (i + 1) else locateEndLoop c true (i + 1) rest
      else if c != cr || lastC != lf then locateEndLoop c false (i + 1) rest
      else locateEndLoop c wasLf (i + 1) rest

/-- `LocateEndOfHeadersHelper(buf, buf_len, i, accept_empty_header_list)`. -/
def locateEndOfHeadersHelper (buf : Bytes) (i : Nat) (acceptEmptyHeaderList : Bool) :
    Option Nat :=
  if acceptEmptyHeaderList then locateEndLoop lf true i (buf.drop i)
  else locateEndLoop nul false i (buf.drop i)

/-- `HttpUtil::LocateEndOfAdditionalHeaders`. -/
def locateEndOfAdditionalHeaders (buf : Bytes) (i : Nat) : Option Nat :=
  locateEndOfHeadersHelper buf i true

/-- `HttpUtil::LocateEndOfHeaders`. -/
def locateEndOfHeaders (buf : Bytes) (i : Nat) : Option Nat :=
  locateEndOfHeadersHelper buf i false

/-- Scanned text after which a `\n` ends the headers: it ends with a line
break, or with a line break and one `\r`. -/
def EndsWithLineBreak (text : Bytes) : Prop := [lf] <:+ text ∨ [lf, cr] <:+ text

instance (text : Bytes) : Decidable (EndsWithLineBreak text) :=
  inferInstanceAs (Decidable (_ ∨ _))

/-- Whether the headers end at `buf[k]`, the text scanned before it being `pre`
followed by `buf[i..k)`. -/
def isEndAt (pre buf : Bytes) (i k : Nat) : Bool :=
  buf[k]? == some lf && decide (EndsWithLineBreak (pre ++ slice buf i k))

/-- The headers end at `buf[k]`: a `\n` at or after `i` where the scanned text,
`pre` followed by `buf[i..k)`, ends with a line break. -/
def IsEnd (pre buf : Bytes) (i k : Nat) : Prop :=
  i ≤ k ∧ buf[k]? = some lf ∧ EndsWithLineBreak (pre ++ slice buf i k)

/-- Just past the first position from `i` on where the headers end. -/
def endOfHeaders (pre buf : Bytes) (i : Nat) : Option Nat :=
  ((List.range' i (buf.length - i)).find? (isEndAt pre buf i)).map (· + 1)

/-- The loop's variables after it scanned `text`: `last_c` is its last byte
(`'\0'` before any) and `was_lf` says whether it ends with a line break. -/
structure Scanned (text : Bytes) (lastC : UInt8) (wasLf : Bool) : Prop where
  last : lastC = text.getLast?.getD nul
  lineBreak : wasLf = decide (EndsWithLineBreak text)

theorem endsWithLineBreak_concat {text : Bytes} {c : UInt8} :
    EndsWithLineBreak (text ++ [c]) ↔ c = lf ∨ c = cr ∧ text.getLast? = some lf := by
  rw [EndsWithLineBreak, ← List.reverse_prefix, ← List.reverse_prefix, List.reverse_concat,
    List.getLast?_eq_head?_reverse]
  cases text.reverse <;> simp [eq_comm]

section Scan

variable {text : Bytes} {lastC c : UInt8} {wasLf : Bool}

theorem scanned_concat_lf (text : Bytes) : Scanned (text ++ [lf]) lf true :=
  ⟨by simp, by simp [endsWithLineBreak_concat]⟩

theorem Scanned.push_other (scanned : Scanned text lastC wasLf) (notLf : c ≠ lf)
    (notKept : c ≠ cr ∨ lastC ≠ lf) : Scanned (text ++ [c]) c false := by
  refine ⟨by simp, ?_⟩
  rw [eq_comm, decide_eq_false_iff_not, endsWithLineBreak_concat]
  rintro (isLf | ⟨isCr, last⟩)
  · exact notLf isLf
  · simp only [scanned.last, last, Option.getD_some] at notKept
    exact notKept.elim (· isCr) (· rfl)

theorem Scanned.push_cr (scanned : Scanned text lf wasLf) : Scanned (text ++ [cr]) cr wasLf := by
  have last : text.getLast? = some lf := by
    have recorded := scanned.last
    revert recorded
    cases text.getLast? <;> simp [eq_comm]
  obtain ⟨before, rfl⟩ := List.getLast?_eq_some_iff.mp last
  refine ⟨by simp, ?_⟩
  rw [scanned.lineBreak, decide_eq_decide]
  exact ⟨fun _ => endsWithLineBreak_concat.mpr (.inr ⟨rfl, last⟩),
    fun _ => .inl (List.suffix_append _ _)⟩

end Scan

/-- From any point of the scan whose variables record the text scanned so far,
the loop returns where the headers end. -/
theorem locateEndLoop_eq (pre buf : Bytes) (i : Nat) :
    ∀ (rest : Bytes) (k : Nat) (lastC : UInt8) (wasLf : Bool), buf.drop k = rest → i ≤ k →
      Scanned (pre ++ slice buf i k) lastC wasLf →
      locateEndLoop lastC wasLf k rest =
        ((List.range' k rest.length).find? (isEndAt pre buf i)).map (· + 1)
  | [], _, _, _, _, _, _ => rfl
  | c :: rest, k, lastC, wasLf, dropped, le, scanned => by
      have tail : buf.drop (k + 1) = rest := by rw [← List.drop_drop, dropped]; rfl
      have next : pre ++ slice buf i (k + 1) = pre ++ slice buf i k ++ [c] := by
        rw [slice_succ le dropped, List.append_assoc]
      have isEnd : isEndAt pre buf i k = (c == lf && wasLf) := by
        simp [isEndAt, getElem?_of_drop_eq_cons dropped, scanned.lineBreak]
      have step := locateEndLoop_eq pre buf i rest (k + 1)
      rw [List.length_cons, List.range'_succ, List.find?_cons, isEnd]
      cases isLf : c == lf
      · have notLf : c ≠ lf := ne_of_beq_false isLf
        cases kept : (c != cr || lastC != lf)
        · obtain ⟨rfl, rfl⟩ : c = cr ∧ lastC = lf := by simpa using kept
          simpa only [locateEndLoop, isLf, kept, Bool.false_eq_true, ↓reduceIte,
            Bool.false_and] using
            step _ _ tail (by omega) (next ▸ scanned.push_cr)
        · have notKept : c ≠ cr ∨ lastC ≠ lf := by simpa using kept
          simpa only [locateEndLoop, isLf, kept, Bool.false_eq_true, ↓reduceIte,
            Bool.false_and] using
            step _ _ tail (by omega) (next ▸ scanned.push_other notLf notKept)
      · obtain rfl : c = lf := eq_of_beq isLf
        cases wasLf
        · simpa only [locateEndLoop, isLf, ↓reduceIte, Bool.false_eq_true, Bool.and_false] using
            step _ _ tail (by omega) (next ▸ scanned_concat_lf _)
        · rfl

theorem locateEndOfHeadersHelper_eq (buf : Bytes) (i : Nat) (accept : Bool) :
    locateEndOfHeadersHelper buf i accept = endOfHeaders (if accept then [lf] else []) buf i := by
  have start : ∀ pre lastC wasLf, Scanned pre lastC wasLf →
      locateEndLoop lastC wasLf i (buf.drop i) = endOfHeaders pre buf i :=
    fun pre lastC wasLf scanned => by
      rw [endOfHeaders, ← List.length_drop]
      exact locateEndLoop_eq pre buf i _ i lastC wasLf rfl le_rfl (by simpa [slice] using scanned)
  cases accept
  · exact start [] nul false ⟨rfl, by decide⟩
  · exact start [lf] lf true ⟨rfl, by decide⟩

section Ends

variable {pre buf : Bytes} {i k : Nat}

theorem isEndAt_iff (le : i ≤ k) : isEndAt pre buf i k = true ↔ IsEnd pre buf i k := by
  simp [isEndAt, IsEnd, le]

theorem IsEnd.lt_length (isEnd : IsEnd pre buf i k) : k < buf.length :=
  (List.getElem?_eq_some_iff.mp isEnd.2.1).1

theorem endOfHeaders_eq_some {r : Nat} :
    endOfHeaders pre buf i = some r ↔
      ∃ k, r = k + 1 ∧ IsEnd pre buf i k ∧ ∀ j, i ≤ j → j < k → ¬IsEnd pre buf i j := by
  simp only [endOfHeaders, Option.map_eq_some', List.find?_range'_eq_some, List.mem_range'_1]
  constructor
  · rintro ⟨k, ⟨found, ⟨low, -⟩, before⟩, rfl⟩
    refine ⟨k, rfl, (isEndAt_iff low).mp found, fun j low' lt isEnd => ?_⟩
    simpa [(isEndAt_iff low').mpr isEnd] using before j low' lt
  · rintro ⟨k, rfl, isEnd, least⟩
    have inside := isEnd.lt_length
    refine ⟨k, ⟨(isEndAt_iff isEnd.1).mpr isEnd, ⟨isEnd.1, by omega⟩, fun j low lt => ?_⟩, rfl⟩
    simpa using mt (isEndAt_iff low).mp (least j low lt)

theorem endOfHeaders_eq_none :
    endOfHeaders pre buf i = none ↔ ∀ k, ¬IsEnd pre buf i k := by
  simp only [endOfHeaders, Option.map_eq_none', List.find?_range'_eq_none]
  constructor
  · intro none k isEnd
    have inside := isEnd.lt_length
    simpa [(isEndAt_iff isEnd.1).mpr isEnd] using none k isEnd.1 (by omega)
  · intro none k low _
    simpa using mt (isEndAt_iff low).mp (none k)

end Ends

theorem locateEndLoop_append (ext : Bytes) :
    ∀ {rest : Bytes} {lastC : UInt8} {wasLf : Bool} {k r : Nat},
      locateEndLoop lastC wasLf k rest = some r →
        locateEndLoop lastC wasLf k (rest ++ ext) = some r
  | [], _, _, _, _, found => nomatch found
  | c :: rest, lastC, wasLf, k, r, found => by
      rw [List.cons_append]
      unfold locateEndLoop at found ⊢
      split_ifs at found ⊢ <;> first | exact found | exact locateEndLoop_append ext found

theorem locateEndOfHeadersHelper_append {buf : Bytes} {i r : Nat} {accept : Bool} (ext : Bytes)
    (found : locateEndOfHeadersHelper buf i accept = some r) :
    locateEndOfHeadersHelper (buf ++ ext) i accept = some r := by
  unfold locateEndOfHeadersHelper at found ⊢
  rw [List.drop_append_eq_append_drop]
  cases accept <;> exact locateEndLoop_append _ found

/-- `LocateEndOfHeaders` returns one past the first `\n` from `i` on that
follows a line break in `buf[i..k)`, possibly with one `\r` between, and
`npos` where there is none; `LocateEndOfAdditionalHeaders` does the same as if
a `\n` came before `buf[i]`.  A position found in a buffer is found in every
extension of it. -/
theorem locateEndOfHeaders_least (buf : Bytes) (i : Nat) :
    (∀ r, locateEndOfHeaders buf i = some r ↔
      ∃ k, r = k + 1 ∧ IsEnd [] buf i k ∧ ∀ j, i ≤ j → j < k → ¬IsEnd [] buf i j) ∧
    (locateEndOfHeaders buf i = none ↔ ∀ k, ¬IsEnd [] buf i k) ∧
    (∀ r, locateEndOfAdditionalHeaders buf i = some r ↔
      ∃ k, r = k + 1 ∧ IsEnd [lf] buf i k ∧ ∀ j, i ≤ j → j < k → ¬IsEnd [lf] buf i j) ∧
    (locateEndOfAdditionalHeaders buf i = none ↔ ∀ k, ¬IsEnd [lf] buf i k) ∧
    ∀ ext r, (locateEndOfHeaders buf i = some r → locateEndOfHeaders (buf ++ ext) i = some r) ∧
      (locateEndOfAdditionalHeaders buf i = some r →
        locateEndOfAdditionalHeaders (buf ++ ext) i = some r) := by
  refine ⟨fun r => ?_, ?_, fun r => ?_, ?_, fun ext r =>
    ⟨locateEndOfHeadersHelper_append ext, locateEndOfHeadersHelper_append ext⟩⟩
  · rw [locateEndOfHeaders, locateEndOfHeadersHelper_eq]
    exact endOfHeaders_eq_some
  · rw [locateEndOfHeaders, locateEndOfHeadersHelper_eq]
    exact endOfHeaders_eq_none
  · rw [locateEndOfAdditionalHeaders, locateEndOfHeadersHelper_eq]
    exact endOfHeaders_eq_some
  · rw [locateEndOfAdditionalHeaders, locateEndOfHeadersHelper_eq]
    exact endOfHeaders_eq_none

example : locateEndOfHeaders (ascii "a\r\n\r\nb") 0 = some 5 ∧
    locateEndOfHeaders (ascii "\r\nx") 0 = none ∧
    locateEndOfAdditionalHeaders (ascii "\r\nx") 0 = some 2 := by decide

section Written

theorem locateEndLoop_plain {c : UInt8} (notCr : c ≠ cr) (notLf : c ≠ lf) (lastC : UInt8) (wasLf : Bool)
    (i : Nat) (rest : Bytes) :
    locateEndLoop lastC wasLf i (c :: rest) = locateEndLoop c false (i + 1) rest := by
  have differs : (c != cr) = true := bne_iff_ne.mpr notCr
  rw [locateEndLoop, if_neg (by simpa using notLf), if_pos (by rw [differs, Bool.true_or])]

theorem locateEndLoop_line {line : Bytes} (plain : ∀ c ∈ line, c ≠ cr ∧ c ≠ lf) {lastC : UInt8}
    (notLf : lastC ≠ lf) (wasLf : Bool) (i : Nat) (rest : Bytes) :
    locateEndLoop lastC wasLf i (line ++ cr :: lf :: rest) = locateEndLoop lf true (i + line.length + 2) rest := by
  induction line generalizing lastC wasLf i with
  | nil =>
      have afterLf : (lastC != lf) = true := bne_iff_ne.mpr notLf
      rw [List.nil_append, locateEndLoop, if_neg (by decide),
        if_pos (by simp only [afterLf, Bool.or_true]), locateEndLoop, if_pos (by decide), if_neg Bool.false_ne_true]
      rfl
  | cons c line ih =>
      have first := plain c (List.mem_cons_self c line)
      rw [List.cons_append, locateEndLoop_plain first.1 first.2,
        ih (fun d member => plain d (List.mem_cons_of_mem c member)) first.2, List.length_cons]
      congr 1
      omega

theorem locateEndLoop_lines {lines : List Bytes} (plain : ∀ line ∈ lines, line ≠ [] ∧ ∀ c ∈ line, c ≠ cr ∧ c ≠ lf)
    (i : Nat) (rest : Bytes) :
    locateEndLoop lf true i (lines.flatMap (· ++ [cr, lf]) ++ rest) =
      locateEndLoop lf true (i + (lines.flatMap (· ++ [cr, lf])).length) rest := by
  induction lines generalizing i with
  | nil => rfl
  | cons line lines ih =>
      obtain ⟨filled, chars⟩ := plain line (List.mem_cons_self line lines)
      obtain ⟨c, w, rfl⟩ := List.exists_cons_of_ne_nil filled
      have first := chars c (List.mem_cons_self c w)
      simp only [List.flatMap_cons, List.append_assoc, List.cons_append, List.nil_append]
      rw [locateEndLoop_plain first.1 first.2, locateEndLoop_line (fun d member => chars d (List.mem_cons_of_mem c member))
        first.2, ih fun l member => plain l (List.mem_cons_of_mem _ member)]
      simp only [List.length_append, List.length_cons, List.length_nil]
      congr 1
      omega

theorem locateEndLoop_empty_line (i : Nat) (rest : Bytes) :
    locateEndLoop lf true i (cr :: lf :: rest) = some (i + 2) := by
  rw [locateEndLoop, if_neg (by decide), if_neg (by decide), locateEndLoop, if_pos (by decide),
    if_pos rfl]

/-- `LocateEndOfHeaders` on a written head followed by any bytes finds the end
of the head. -/
theorem locateEndOfHeaders_head {status : Bytes} {lines : List Bytes} (plainStatus : ∀ c ∈ status, c ≠ cr ∧ c ≠ lf)
    (plainLines : ∀ line ∈ lines, line ≠ [] ∧ ∀ c ∈ line, c ≠ cr ∧ c ≠ lf) (body : Bytes) :
    locateEndOfHeaders (status ++ [cr, lf] ++ lines.flatMap (· ++ [cr, lf]) ++ [cr, lf] ++ body) 0 =
      some (status ++ [cr, lf] ++ lines.flatMap (· ++ [cr, lf]) ++ [cr, lf]).length := by
  rw [locateEndOfHeaders, locateEndOfHeadersHelper, if_neg Bool.false_ne_true, List.drop_zero]
  simp only [List.append_assoc, List.cons_append, List.nil_append]
  rw [locateEndLoop_line plainStatus (by decide), locateEndLoop_lines plainLines, locateEndLoop_empty_line]
  simp only [List.length_append, List.length_cons, List.length_nil]
  congr 1
  omega

end Written

end HttpUtil
