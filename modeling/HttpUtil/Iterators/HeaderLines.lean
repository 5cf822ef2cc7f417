import HttpUtil.Assembler.RoundTrip
import HttpUtil.EndOfHeaders
import HttpUtil.Iterators.Refinement

/-! # Header lines read back

A header field is written as RFC 7230 §3.2 writes it, `field-name ":" SP
field-value`, on a line of its own ended by CRLF.  A `HeadersIterator` on the
line delimiter CRLF reads a block of such lines back into the fields it was
written from, in order: the name is the token before the first colon, and the
value is the rest of the line trimmed of LWS.  A response head, a status line
and such lines and an empty line, is found in a buffer by `LocateEndOfHeaders`,
goes through `AssembleRawHeaders` and is then read with the NUL as line
delimiter, with the same result.  What a field must be for this is carried by
`HeaderField` itself.
-/

namespace HttpUtil

open Ascii

/-- A header field: a name `IsValidHeaderName` accepts, and a value
`IsValidHeaderValue` accepts with no LWS at either end. -/
structure HeaderField where
  name : Bytes
  value : Bytes
  validName : isValidHeaderName name = true
  validValue : isValidHeaderValue value = true
  trimmed : trimLWS value = value

namespace HeaderField

def line (field : HeaderField) : Bytes := field.name ++ colon :: space :: field.value

theorem name_chars (field : HeaderField) : field.name ≠ [] ∧ ∀ c ∈ field.name, isTokenChar c = true :=
  isToken_iff.mp field.validName

theorem value_chars (field : HeaderField) : ∀ c ∈ field.value, c ≠ cr ∧ c ≠ lf ∧ c ≠ nul := by
  intro c member
  have valid := List.all_eq_true.mp field.validValue c member
  simp only [Bool.not_eq_true', Bool.or_eq_false_iff, beq_eq_false_iff_ne] at valid
  exact ⟨valid.1.2, valid.2, valid.1.1⟩

theorem line_chars (field : HeaderField) : ∀ c ∈ field.line, c ≠ cr ∧ c ≠ lf ∧ c ≠ nul := by
  intro c member
  rcases List.mem_append.mp member with inName | inRest
  · have token := field.name_chars.2 c inName
    refine ⟨?_, ?_, ?_⟩ <;> rintro rfl <;> revert token <;> decide
  · rcases List.mem_cons.mp inRest with rfl | inRest
    · decide
    rcases List.mem_cons.mp inRest with rfl | inValue
    · decide
    · exact field.value_chars c inValue

theorem line_ne_nil (field : HeaderField) : field.line ≠ [] :=
  List.append_ne_nil_of_left_ne_nil field.name_chars.1 _

theorem startsWithLWS_line (field : HeaderField) : startsWithLWS field.line = false := by
  obtain ⟨filled, tokens⟩ := field.name_chars
  obtain ⟨first, rest, named⟩ := List.exists_cons_of_ne_nil filled
  rw [startsWithLWS, line, named]
  exact isTokenChar_not_lws (tokens first (named ▸ List.mem_cons_self first rest))

theorem headerOfLine_line (field : HeaderField) : headerOfLine field.line = some (field.name, field.value) := by
  obtain ⟨filled, tokens⟩ := field.name_chars
  have noColon : ∀ c ∈ field.name, (c == colon) = false := fun c member =>
    beq_false_of_ne fun same => absurd (same ▸ tokens c member) (by decide)
  have found : findIndex (· == colon) field.line = some field.name.length :=
    findIndex_append_cons _ noColon (beq_self_eq_true colon)
  have nameTrimmed : trimLWS field.name = field.name :=
    trimLWS_eq_self (fun c head => isTokenChar_not_lws (tokens c (List.mem_of_mem_head? head)))
      (fun c last => isTokenChar_not_lws (tokens c (List.mem_of_mem_getLast? last)))
  have valued : trimLWS (field.line.drop (field.name.length + 1)) = field.value := by
    rw [line, List.drop_append_eq_append_drop, List.drop_eq_nil_of_le (Nat.le_succ _), List.nil_append,
      Nat.add_sub_cancel_left, List.drop_one, List.tail_cons, ← trimLWS_dropWhile,
      List.dropWhile_cons_of_pos (by rfl), trimLWS_dropWhile, field.trimmed]
  have nonzero : (field.name.length == 0) = false := beq_false_of_ne (List.length_pos.mpr filled).ne'
  rw [headerOfLine, found]
  dsimp only
  rw [nonzero, show isLWS (field.line.headD nul) = false from field.startsWithLWS_line, Bool.false_or,
    if_neg Bool.false_ne_true, line, List.take_left' rfl, nameTrimmed,
    show isToken field.name = true from field.validName, Bool.not_true, if_neg Bool.false_ne_true, ← line, valued]

/-- `headerOfLine` reads the lines of fields back into the fields. -/
theorem filterMap_headerOfLine (headers : List HeaderField) :
    (headers.map line).filterMap headerOfLine = headers.map fun field => (field.name, field.value) := by
  rw [List.filterMap_map]
  exact List.filterMap_eq_map_iff_forall_eq_some.mpr fun field _ => field.headerOfLine_line

end HeaderField

/-- Header fields written one line each, every line ended by CRLF. -/
def writeHeaderLines (headers : List HeaderField) : Bytes :=
  headers.flatMap fun field => field.line ++ [cr, lf]

namespace HeadersIterator

/-- A `HeadersIterator` on the line delimiter CRLF over written header fields
yields those fields, names and values, in order. -/
theorem headersIterator_writeHeaderLines (headers : List HeaderField) :
    (init (writeHeaderLines headers) [cr, lf]).headers.map (fun h => (h.name, h.values)) =
      headers.map fun field => (field.name, field.value) := by
  have lines : fields [cr, lf] (writeHeaderLines headers) = headers.map HeaderField.line := by
    rw [writeHeaderLines, ← List.flatMap_map _ (fun line => line ++ [cr, lf])]
    refine fields_terminated [cr, lf] (fun c member => member) (List.cons_ne_nil _ _) fun line member => ?_
    obtain ⟨field, _, rfl⟩ := List.mem_map.mp member
    refine ⟨field.line_ne_nil, fun c inLine => ?_⟩
    have plain := field.line_chars c inLine
    simp only [List.mem_cons, List.mem_singleton, List.not_mem_nil, or_false, not_or]
    exact ⟨plain.1, plain.2.1⟩
  rw [headers_eq_filterMap (over_init _ _), init, StringTokenizer.pieces_init, lines,
    HeaderField.filterMap_headerOfLine]

/-- A response head written as a status line without a colon, the header
fields one line each and an empty line, assembled by `AssembleRawHeaders` and
read with the NUL as line delimiter, gives back the fields' names and values in
order: the status line is no header, and no field line is joined to another. -/
theorem headersIterator_assembleRawHeaders_writeHeaderLines {status : Bytes} (headers : List HeaderField)
    (http : (status.take 4).map toLowerASCII = ascii "http")
    (plainStatus : ∀ c ∈ status, c ≠ cr ∧ c ≠ lf ∧ c ≠ nul ∧ c ≠ colon) :
    (init (assembleRawHeaders (status ++ [cr, lf] ++ writeHeaderLines headers ++ [cr, lf])) [nul]).headers.map
        (fun h => (h.name, h.values)) =
      headers.map fun field => (field.name, field.value) := by
  have statusNonempty : status ≠ [] := by
    rintro rfl
    cases http
  have plainLine : ∀ line ∈ headers.map HeaderField.line, line ≠ [] ∧ startsWithLWS line = false ∧
      ∀ c ∈ line, c ≠ cr ∧ c ≠ lf ∧ c ≠ nul := by
    intro line member
    obtain ⟨field, _, rfl⟩ := List.mem_map.mp member
    exact ⟨field.line_ne_nil, field.startsWithLWS_line, field.line_chars⟩
  have written : status ++ [cr, lf] ++ writeHeaderLines headers ++ [cr, lf] =
      status ++ (headers.map HeaderField.line).flatMap (cr :: lf :: ·) ++ [cr, lf, cr, lf] := by
    rw [writeHeaderLines, ← List.flatMap_map _ (fun line => line ++ [cr, lf]), List.append_assoc status,
      crlf_flatMap]
    simp
  obtain ⟨status', lines'⟩ := head_parts http (fun c member => ⟨(plainStatus c member).1, (plainStatus c member).2.1⟩)
    fun line member => ⟨(plainLine line member).1,
      fun c inLine => ⟨((plainLine line member).2.2 c inLine).1, ((plainLine line member).2.2 c inLine).2.1⟩⟩
  have assembled : assembleRawHeaders (status ++ [cr, lf] ++ writeHeaderLines headers ++ [cr, lf]) =
      status ++ (headers.map HeaderField.line).flatMap (nul :: ·) ++ [nul, nul] := by
    rw [written, assembleRawHeaders_eq, status', lines',
      foldl_assembleLine_unjoined (fun line member => (plainLine line member).2.1)]
    exact assembleRawHeaders_lines (fun c member => ⟨(plainStatus c member).1, (plainStatus c member).2.1,
      (plainStatus c member).2.2.1⟩) fun line member => (plainLine line member).2.2
  have tokens : fields [nul] (status ++ (headers.map HeaderField.line).flatMap (nul :: ·) ++ [nul, nul]) =
      status :: headers.map HeaderField.line := by
    rw [List.append_assoc, fields_word_append statusNonempty
      (fun c member => by simpa using (plainStatus c member).2.2.1)]
    · exact congrArg _ (fields_flatMap [nul] (by simp) (by simp) (by simp)
        fun line member => ⟨(plainLine line member).1, fun c inLine => by
          simpa using ((plainLine line member).2.2 c inLine).2.2⟩)
    · cases headers <;> simp
  have noHeader : headerOfLine status = none := by
    rw [headerOfLine, findIndex_eq_none.mpr fun c member => beq_false_of_ne (plainStatus c member).2.2.2]
  rw [headers_eq_filterMap (over_init _ _), init, StringTokenizer.pieces_init, assembled, tokens,
    List.filterMap_cons, noHeader, HeaderField.filterMap_headerOfLine]

/-- A response written as a head, a status line without a colon, the header
fields one line each and an empty line, followed by any body: `LocateEndOfHeaders`
finds the end of the head, and the head, assembled by `AssembleRawHeaders` and
read with the NUL as line delimiter, gives back the fields' names and values in
order. -/
theorem locateEndOfHeaders_read_writeHeaderLines {status : Bytes} (headers : List HeaderField) (body : Bytes)
    (http : (status.take 4).map toLowerASCII = ascii "http")
    (plainStatus : ∀ c ∈ status, c ≠ cr ∧ c ≠ lf ∧ c ≠ nul ∧ c ≠ colon) :
    let head := status ++ [cr, lf] ++ writeHeaderLines headers ++ [cr, lf]
    locateEndOfHeaders (head ++ body) 0 = some head.length ∧
      (init (assembleRawHeaders ((head ++ body).take head.length)) [nul]).headers.map (fun h => (h.name, h.values)) =
        headers.map fun field => (field.name, field.value) := by
  have lines : writeHeaderLines headers = (headers.map HeaderField.line).flatMap (· ++ [cr, lf]) := by
    rw [writeHeaderLines, List.flatMap_map]
  have plainLines : ∀ line ∈ headers.map HeaderField.line, line ≠ [] ∧ ∀ c ∈ line, c ≠ cr ∧ c ≠ lf := by
    intro line member
    obtain ⟨field, _, rfl⟩ := List.mem_map.mp member
    exact ⟨field.line_ne_nil, fun c inLine => ⟨(field.line_chars c inLine).1, (field.line_chars c inLine).2.1⟩⟩
  dsimp only
  refine ⟨?_, by rw [List.take_left]; exact headersIterator_assembleRawHeaders_writeHeaderLines headers http plainStatus⟩
  rw [lines]
  exact locateEndOfHeaders_head (fun c member => ⟨(plainStatus c member).1, (plainStatus c member).2.1⟩) plainLines body

theorem locateEndOfHeaders_read_writeHeaderLines_ok :
    let headers : List HeaderField := [⟨ascii "Content-Type", ascii "text/html", by decide, by decide, by decide⟩]
    ((ascii "HTTP/1.1 200 OK").take 4).map toLowerASCII = ascii "http" ∧
      (∀ c ∈ ascii "HTTP/1.1 200 OK", c ≠ cr ∧ c ≠ lf ∧ c ≠ nul ∧ c ≠ colon) ∧
      let head := ascii "HTTP/1.1 200 OK" ++ [cr, lf] ++ writeHeaderLines headers ++ [cr, lf]
      locateEndOfHeaders (head ++ ascii "hi") 0 = some head.length ∧
        (init (assembleRawHeaders ((head ++ ascii "hi").take head.length)) [nul]).headers.map
            (fun h => (h.name, h.values)) =
          headers.map fun field => (field.name, field.value) :=
  ⟨by decide, by decide, locateEndOfHeaders_read_writeHeaderLines _ (ascii "hi") (by decide) (by decide)⟩

end HeadersIterator

end HttpUtil
