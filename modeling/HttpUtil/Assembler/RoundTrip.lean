import HttpUtil.Assembler

/-! # Round trips between the assembler and the back-converter

`AssembleRawHeaders` and `ConvertHeadersBackToHTTPResponse` undo each other on
heads whose status line starts with `http` and whose lines are plain: a
well-formed head survives assembling and converting back, and an assembled
block survives converting back and assembling again when the raw input had no
NUL byte and a status line was found.
-/

namespace HttpUtil

open Ascii

theorem locateStartOfStatusLine_of_http {input : Bytes}
    (http : (input.take 4).map toLowerASCII = ascii "http") :
    locateStartOfStatusLine input = some 0 := by
  have long : 4 ≤ input.length := by
    have := congrArg List.length http
    simp only [List.length_map, List.length_take] at this
    have four : (ascii "http").length = 4 := rfl
    omega
  rw [locateStartOfStatusLine, if_pos long, List.range_succ_eq_map, List.find?_cons]
  simp [lowerCaseEqualsASCII, http]

theorem skipSlop_of_http {input : Bytes} (http : (input.take 4).map toLowerASCII = ascii "http") :
    skipSlop input = input := by
  simp [skipSlop, locateStartOfStatusLine_of_http http]

theorem findStatusLineEnd_append {status : Bytes} (plain : ∀ c ∈ status, c ≠ cr ∧ c ≠ lf)
    (rest : Bytes) : findStatusLineEnd (status ++ cr :: rest) = status.length := by
  rw [findStatusLineEnd, findIndex_append_of_none _ fun c member => by simpa using plain c member]
  simp [findIndex_cons]

theorem foldl_assembleLine_unjoined {lines : List Bytes}
    (unjoined : ∀ line ∈ lines, startsWithLWS line = false) (acc : Bytes) (prev : Bool) :
    (lines.foldl assembleLine (acc, prev)).1 = acc ++ lines.flatMap (lf :: ·) := by
  induction lines generalizing acc prev with
  | nil => simp
  | cons line lines ih =>
      have notLWS := unjoined line (by simp)
      rw [List.foldl_cons, assembleLine]
      simp only [notLWS, Bool.and_false, Bool.false_eq_true, if_false]
      rw [ih (fun l member => unjoined l (by simp [member]))]
      simp

theorem crlf_flatMap (lines : List Bytes) :
    [cr, lf] ++ lines.flatMap (· ++ [cr, lf]) = lines.flatMap (cr :: lf :: ·) ++ [cr, lf] := by
  induction lines with
  | nil => rfl
  | cons line lines ih =>
      simp only [List.flatMap_cons, List.append_assoc]
      rw [ih]
      simp

/-- The status line and the header lines of a head `S CRLF L₁ CRLF … Lₙ CRLF CRLF`
whose status line starts with `http`. -/
theorem head_parts {status : Bytes} {lines : List Bytes}
    (http : (status.take 4).map toLowerASCII = ascii "http")
    (plainStatus : ∀ c ∈ status, c ≠ cr ∧ c ≠ lf)
    (plainLines : ∀ line ∈ lines, line ≠ [] ∧ ∀ c ∈ line, c ≠ cr ∧ c ≠ lf) :
    statusLine (status ++ lines.flatMap (cr :: lf :: ·) ++ [cr, lf, cr, lf]) = status ∧
      headerLines (status ++ lines.flatMap (cr :: lf :: ·) ++ [cr, lf, cr, lf]) = lines := by
  rw [List.append_assoc]
  set rest := lines.flatMap (cr :: lf :: ·) ++ [cr, lf, cr, lf] with restIs
  obtain ⟨tail, restCons⟩ : ∃ tail, rest = cr :: tail := by
    cases lines <;> simp [rest]
  have inputHttp : ((status ++ rest).take 4).map toLowerASCII = ascii "http" := by
    rw [List.take_append_of_le_length]
    · exact http
    · have := congrArg List.length http
      simp only [List.length_map, List.length_take] at this
      have four : (ascii "http").length = 4 := rfl
      omega
  have slop : skipSlop (status ++ rest) = status ++ rest := skipSlop_of_http inputHttp
  have statusEnd : findStatusLineEnd (status ++ rest) = status.length := by
    rw [restCons]
    exact findStatusLineEnd_append plainStatus tail
  refine ⟨by simp [statusLine, slop, statusEnd], ?_⟩
  simp only [headerLines, slop, statusEnd, List.drop_left]
  exact fields_flatMap [cr, lf] (by simp) (by simp) (by simp)
    fun line member => ⟨(plainLines line member).1, fun c inLine => by
      simpa [not_or] using (plainLines line member).2 c inLine⟩

theorem convertHeadersBackToHTTPResponse_lines {status : Bytes} {lines : List Bytes}
    (statusNonempty : status ≠ []) (plainStatus : ∀ c ∈ status, c ≠ nul)
    (plainLines : ∀ line ∈ lines, line ≠ [] ∧ ∀ c ∈ line, c ≠ nul) :
    convertHeadersBackToHTTPResponse (status ++ lines.flatMap (nul :: ·) ++ [nul, nul]) =
      status ++ lines.flatMap (cr :: lf :: ·) ++ [cr, lf, cr, lf] := by
  have back : fields [nul] (status ++ lines.flatMap (nul :: ·) ++ [nul, nul]) = status :: lines := by
    rw [List.append_assoc, fields_word_append statusNonempty (by simpa using plainStatus)]
    · exact congrArg _ (fields_flatMap [nul] (by simp) (by simp) (by simp)
        fun line member => ⟨(plainLines line member).1, by simpa using (plainLines line member).2⟩)
    · cases lines <;> simp
  rw [convertHeadersBackToHTTPResponse_eq, back, List.flatMap_cons, List.append_assoc status,
    crlf_flatMap]
  simp

theorem assembleRawHeaders_lines {status : Bytes} {logical : List Bytes}
    (plainStatus : ∀ c ∈ status, c ≠ cr ∧ c ≠ lf ∧ c ≠ nul)
    (plainLines : ∀ line ∈ logical, ∀ c ∈ line, c ≠ cr ∧ c ≠ lf ∧ c ≠ nul) :
    terminateWithNul (joinLines status logical ++ [lf, lf]) =
      status ++ logical.flatMap (nul :: ·) ++ [nul, nul] := by
  rw [terminateWithNul_append, terminateWithNul_joinLines
    (fun c member => ⟨(plainStatus c member).2.2, (plainStatus c member).2.1⟩)
    (fun line member c inLine => ⟨(plainLines line member c inLine).2.2,
      (plainLines line member c inLine).2.1⟩)]
  rfl

/-- A response head `S CRLF L₁ CRLF … Lₙ CRLF CRLF` with an `http` status line
and non-empty lines that neither start with LWS nor hold CR, LF or NUL comes
back unchanged from assembling and converting back. -/
theorem convertHeadersBackToHTTPResponse_assembleRawHeaders {status : Bytes} {lines : List Bytes}
    (http : (status.take 4).map toLowerASCII = ascii "http")
    (plainStatus : ∀ c ∈ status, c ≠ cr ∧ c ≠ lf ∧ c ≠ nul)
    (plainLines : ∀ line ∈ lines, line ≠ [] ∧ startsWithLWS line = false ∧
      ∀ c ∈ line, c ≠ cr ∧ c ≠ lf ∧ c ≠ nul) :
    convertHeadersBackToHTTPResponse
        (assembleRawHeaders (status ++ lines.flatMap (cr :: lf :: ·) ++ [cr, lf, cr, lf])) =
      status ++ lines.flatMap (cr :: lf :: ·) ++ [cr, lf, cr, lf] := by
  have statusNonempty : status ≠ [] := by
    rintro rfl
    cases http
  obtain ⟨status', lines'⟩ := head_parts http (fun c member => (plainStatus c member).imp_right And.left)
    fun line member => ⟨(plainLines line member).1,
      fun c inLine => ((plainLines line member).2.2 c inLine).imp_right And.left⟩
  rw [assembleRawHeaders_eq, status', lines',
    foldl_assembleLine_unjoined (fun line member => (plainLines line member).2.1)]
  rw [show status ++ lines.flatMap (lf :: ·) = joinLines status lines from rfl,
    assembleRawHeaders_lines plainStatus fun line member => (plainLines line member).2.2]
  exact convertHeadersBackToHTTPResponse_lines statusNonempty
    (fun c member => (plainStatus c member).2.2)
    fun line member => ⟨(plainLines line member).1,
      fun c inLine => ((plainLines line member).2.2 c inLine).2.2⟩

theorem convertHeadersBackToHTTPResponse_assembleRawHeaders_response :
    ((ascii "HTTP/1.1 200").take 4).map toLowerASCII = ascii "http" ∧
      (∀ c ∈ ascii "HTTP/1.1 200", c ≠ cr ∧ c ≠ lf ∧ c ≠ nul) ∧
      (∀ line ∈ [ascii "A: b"], line ≠ [] ∧ startsWithLWS line = false ∧
        ∀ c ∈ line, c ≠ cr ∧ c ≠ lf ∧ c ≠ nul) ∧
      convertHeadersBackToHTTPResponse (assembleRawHeaders
          (ascii "HTTP/1.1 200" ++ [ascii "A: b"].flatMap (cr :: lf :: ·) ++ [cr, lf, cr, lf])) =
        ascii "HTTP/1.1 200" ++ [ascii "A: b"].flatMap (cr :: lf :: ·) ++ [cr, lf, cr, lf] :=
  have http : ((ascii "HTTP/1.1 200").take 4).map toLowerASCII = ascii "http" := by decide
  have plainStatus : ∀ c ∈ ascii "HTTP/1.1 200", c ≠ cr ∧ c ≠ lf ∧ c ≠ nul := by decide
  have plainLines : ∀ line ∈ [ascii "A: b"], line ≠ [] ∧ startsWithLWS line = false ∧
      ∀ c ∈ line, c ≠ cr ∧ c ≠ lf ∧ c ≠ nul := by decide
  ⟨http, plainStatus, plainLines,
    convertHeadersBackToHTTPResponse_assembleRawHeaders http plainStatus plainLines⟩

theorem getLast?_map_getD_cons {f : Bytes → Bool} (line : Bytes) (logical : List Bytes)
    (default : Bool) :
    ((line :: logical).getLast?.map f).getD default = (logical.getLast?.map f).getD (f line) := by
  cases logical <;> simp [List.getLast?_cons]

/-- Logical lines that the loop would not join are assembled again unchanged,
one LF-led line each. -/
theorem foldl_assembleLine_logical {logical : List Bytes} (chain : logical.Chain' Unjoined)
    (acc : Bytes) {prev : Bool} (first : prev = true → ∀ line ∈ logical.head?, startsWithLWS line = false) :
    logical.foldl assembleLine (acc, prev) =
      (acc ++ logical.flatMap (lf :: ·), (logical.getLast?.map isLineSegmentContinuable).getD prev) := by
  induction logical generalizing acc prev with
  | nil => simp
  | cons line logical ih =>
      have notJoined : (prev && startsWithLWS line) = false := by
        cases prev
        · rfl
        · simpa using first rfl line rfl
      rw [List.foldl_cons, assembleLine]
      simp only [notJoined, Bool.false_eq_true, if_false]
      rw [ih (List.chain'_cons'.mp chain).2 _ fun continuable next head =>
          by_contra fun lws => ?_, getLast?_map_getD_cons]
      · simp
      · have unjoined := (List.chain'_cons'.mp chain).1 next head
        rw [Bool.not_eq_false] at lws
        rw [unjoined lws] at continuable
        cases continuable

theorem statusLine_http {x : Bytes} {k : Nat} (found : locateStartOfStatusLine x = some k) :
    ((statusLine x).take 4).map toLowerASCII = ascii "http" := by
  have http : ((x.drop k).take 4).map toLowerASCII = ascii "http" := by
    unfold locateStartOfStatusLine at found
    split at found
    · simpa [lowerCaseEqualsASCII] using List.find?_some found
    · cases found
  have slop : skipSlop x = x.drop k := by simp [skipSlop, found]
  have noBreak : ∀ c ∈ (x.drop k).take 4, (c == cr || c == lf) = false := by
    intro c member
    have lowered : toLowerASCII c ∈ ascii "http" := http ▸ List.mem_map_of_mem _ member
    have notBreak : c ≠ cr ∧ c ≠ lf := by
      constructor <;> rintro rfl <;> revert lowered <;> decide
    simpa using notBreak
  have long : 4 ≤ findStatusLineEnd (x.drop k) := by
    unfold findStatusLineEnd
    cases index : findIndex (fun c => c == cr || c == lf) (x.drop k) with
    | none =>
        have := congrArg List.length http
        simp only [List.length_map, List.length_take] at this
        have four : (ascii "http").length = 4 := rfl
        simp only [Option.getD_none]
        omega
    | some j =>
        obtain ⟨pre, c, post, split, rfl, hit, -⟩ := findIndex_split index
        rw [Option.getD_some]
        by_contra short
        have inPrefix : c ∈ (x.drop k).take 4 := by
          obtain ⟨m, room⟩ : ∃ m, 4 - pre.length = m + 1 := ⟨3 - pre.length, by omega⟩
          rw [split, List.take_append_eq_append_take, room]
          simp
        simp_all
  rw [statusLine, slop, List.take_take, Nat.min_eq_left long]
  exact http

/-- Converting an assembled block back and assembling it again gives the same
block, for a raw input without NUL bytes in which a status line is found. -/
theorem assembleRawHeaders_convertHeadersBackToHTTPResponse {x : Bytes}
    (noNul : ∀ c ∈ x, c ≠ nul) (found : locateStartOfStatusLine x ≠ none) :
    assembleRawHeaders (convertHeadersBackToHTTPResponse (assembleRawHeaders x)) =
      assembleRawHeaders x := by
  obtain ⟨k, located⟩ := Option.ne_none_iff_exists'.mp found
  obtain ⟨logical, prev, folded, inv⟩ := @foldl_assembleLine
    (fun c => c ≠ cr ∧ c ≠ lf ∧ c ≠ nul) (by simp) (fun _ => True) (fun _ _ _ => trivial) (statusLine x) (headerLines x)
    fun line member => ⟨(headerLines_bytes member).1, trivial, fun c inLine =>
      ⟨((headerLines_bytes member).2 c inLine).2.1, ((headerLines_bytes member).2 c inLine).2.2,
        noNul c ((headerLines_bytes member).2 c inLine).1⟩⟩
  have http := statusLine_http located
  have plainStatus : ∀ c ∈ statusLine x, c ≠ cr ∧ c ≠ lf ∧ c ≠ nul := fun c member =>
    ⟨(statusLine_bytes x c member).2.1, (statusLine_bytes x c member).2.2,
      noNul c (statusLine_bytes x c member).1⟩
  have statusNonempty : statusLine x ≠ [] := by
    intro empty
    rw [empty] at http
    cases http
  have assembled : assembleRawHeaders x =
      statusLine x ++ logical.flatMap (nul :: ·) ++ [nul, nul] := by
    rw [assembleRawHeaders_eq, folded, assembleRawHeaders_lines plainStatus inv.bytes]
  obtain ⟨status', lines'⟩ := head_parts http (fun c member => (plainStatus c member).imp_right And.left)
    fun line member => ⟨inv.nonempty line member,
      fun c inLine => (inv.bytes line member c inLine).imp_right And.left⟩
  rw [assembled, convertHeadersBackToHTTPResponse_lines statusNonempty
      (fun c member => (plainStatus c member).2.2)
      (fun line member => ⟨inv.nonempty line member,
        fun c inLine => (inv.bytes line member c inLine).2.2⟩),
    assembleRawHeaders_eq, status', lines', foldl_assembleLine_logical inv.unjoined _ (by simp)]
  exact assembleRawHeaders_lines plainStatus inv.bytes

theorem assembleRawHeaders_convertHeadersBackToHTTPResponse_head :
    (∀ c ∈ ascii "HTTP/1.1 200\r\nA: b", c ≠ nul) ∧
      locateStartOfStatusLine (ascii "HTTP/1.1 200\r\nA: b") ≠ none ∧
      assembleRawHeaders (convertHeadersBackToHTTPResponse
          (assembleRawHeaders (ascii "HTTP/1.1 200\r\nA: b"))) =
        assembleRawHeaders (ascii "HTTP/1.1 200\r\nA: b") :=
  ⟨by decide, by decide, assembleRawHeaders_convertHeadersBackToHTTPResponse (by decide) (by decide)⟩

/-- Without a status line, or with a NUL byte, the round trip changes the block:
`"\nA"` loses its empty status line, and a NUL-only line between a continuable
line and an LWS-led one turns into a join. -/
theorem assembleRawHeaders_convertHeadersBackToHTTPResponse_changes :
    assembleRawHeaders (convertHeadersBackToHTTPResponse (assembleRawHeaders [lf, 65])) ≠
        assembleRawHeaders [lf, 65] ∧
      assembleRawHeaders (convertHeadersBackToHTTPResponse
          (assembleRawHeaders (ascii "http" ++ [lf, 65, colon, lf, nul, lf, space]))) ≠
        assembleRawHeaders (ascii "http" ++ [lf, 65, colon, lf, nul, lf, space]) := by
  have emptyStatus : assembleRawHeaders [lf, 65] = [nul, 65, nul, nul] := by decide
  have emptyBack : convertHeadersBackToHTTPResponse [nul, 65, nul, nul] = [65, cr, lf, cr, lf] := by
    decide
  have nulLine : assembleRawHeaders (ascii "http" ++ [lf, 65, colon, lf, nul, lf, space]) =
      ascii "http" ++ [nul, 65, colon, nul, nul, space, nul, nul] := by decide
  have nulBack : convertHeadersBackToHTTPResponse
      (ascii "http" ++ [nul, 65, colon, nul, nul, space, nul, nul]) =
      ascii "http" ++ [cr, lf, 65, colon, cr, lf, space, cr, lf, cr, lf] := by decide
  rw [emptyStatus, emptyBack, nulLine, nulBack]
  decide

end HttpUtil
