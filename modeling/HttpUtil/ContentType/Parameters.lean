import HttpUtil.ContentType
import HttpUtil.Quoting

/-! # Parameters written by `Quote`

`ParseContentType` reads quoted parameter values with a loop of its own rather
than with `Unquote`.  Over a media type followed by parameters `; n="v"`, with
each value written by `Quote`, the loop is shown to read every parameter back
whole, whatever its value holds (`;`, `=`, quote marks, backslashes), and the
outputs are stated with the first parameter of each name.
-/

namespace HttpUtil

open Ascii

/-- The parameter `; n="v"`, with the value written by `Quote`. -/
def quotedParam (p : Bytes × Bytes) : Bytes := semicolon :: space :: (p.1 ++ equals :: quote p.2)

theorem quotedValue_escaped (v rest : Bytes) :
    quotedValue (v.flatMap escapeByte ++ dquote :: rest) = (v, (v.flatMap escapeByte).length) := by
  induction v with
  | nil => simp [quotedValue_cons]
  | cons c v ih =>
      simp only [Ascii.dquote] at ih
      by_cases special : c = dquote ∨ c = backslash
      · rcases special with rfl | rfl <;> simp [escapeByte, quotedValue_cons, ih]
      · have plain : escapeByte c = [c] := by simp_all [escapeByte]
        simp only [not_or, Ascii.dquote, Ascii.backslash] at special
        simp [plain, quotedValue_cons, ih, special.1, special.2, Nat.add_comm]

theorem readParam_quotedParam {s post n v : Bytes} {offset : Nat} (named : isToken n = true)
    (dropped : s.drop offset = quotedParam (n, v) ++ post) (next : ∀ c ∈ post.head?, c = semicolon) :
    readParam s offset = (offset + (quotedParam (n, v)).length, some (n, trimLWS v)) := by
  obtain ⟨nonempty, chars⟩ := isToken_iff.mp named
  obtain ⟨x, name, rfl⟩ := List.exists_cons_of_ne_nil nonempty
  have separators := fun c member => isTokenChar_separators (chars c member)
  have nameStart : findFirstOf (fun c => !isLWS c) s (offset + 1) = offset + 2 := by
    refine @findFirstOf_eq _ s [space] (name ++ equals :: (quote v ++ post)) _ x
      (by rw [drop_after dropped]; simp [quotedParam]) (by decide) ?_
    simpa using isTokenChar_not_lws (chars x (List.mem_cons_self _ _))
  have equalsAt : findFirstOf (fun c => c == semicolon || c == equals) s (offset + 2) =
      offset + 2 + (x :: name).length := by
    refine @findFirstOf_eq _ s (x :: name) (quote v ++ post) _ equals
      (by rw [drop_after dropped]; simp [quotedParam]) (fun c member => ?_) (by decide)
    obtain ⟨notEquals, -, notSemicolon, -⟩ := separators c member
    simpa using And.intro notSemicolon notEquals
  generalize equalsEq : offset + 2 + (x :: name).length = e at equalsAt
  have atEquals : s.drop e = equals :: (quote v ++ post) := by
    have split : quotedParam (x :: name, v) ++ post =
        (semicolon :: space :: x :: name) ++ equals :: (quote v ++ post) := by
      simp [quotedParam]
    rw [← equalsEq, Nat.add_assoc, drop_after dropped, split, List.drop_left' (by simp; omega)]
  have atQuote : s.drop (e + 1) = dquote :: (v.flatMap escapeByte ++ dquote :: post) := by
    rw [drop_after atEquals]; simp [quote]
  have paramName : slice s (offset + 2) e = x :: name := by
    rw [slice, drop_after dropped, ← equalsEq]; simp [quotedParam]
  have valueStart : findFirstOf (fun c => !isLWS c) s (e + 1) = e + 1 :=
    @findFirstOf_eq _ s [] _ _ _ (by simpa using atQuote) (by simp) (by decide)
  have quoted : quotedValue (s.drop (e + 1 + 1)) = (v, (v.flatMap escapeByte).length) := by
    rw [drop_after atQuote]; exact quotedValue_escaped v post
  have closing : s.drop (e + 1 + 1 + (v.flatMap escapeByte).length) = dquote :: post := by
    rw [Nat.add_assoc (e + 1), drop_after atQuote, Nat.add_comm, List.drop_succ_cons, List.drop_left]
  have total : e + 1 + 1 + (v.flatMap escapeByte).length + 1 = offset + (quotedParam (x :: name, v)).length := by
    simp [← equalsEq, quotedParam, quote]; omega
  have after : findFirstOf (· == semicolon) s (e + 1 + 1 + (v.flatMap escapeByte).length) =
      offset + (quotedParam (x :: name, v)).length := by
    cases post with
    | nil =>
        rw [findFirstOf_eq_length (by rw [closing]; decide)]
        have size := congrArg List.length dropped
        have inside := lt_length_of_drop closing
        simp only [List.length_drop, List.append_nil] at size
        omega
    | cons c rest =>
        obtain rfl : c = semicolon := next c rfl
        rw [@findFirstOf_eq _ s [dquote] _ _ _ (by simpa using closing) (by decide) (by decide)]
        simpa using total
  unfold readParam
  dsimp only
  rw [nameStart, equalsAt, byteAt_of_drop atEquals, paramName, valueStart, byteAt_of_drop atQuote,
    quoted, after]
  have notEnd : ¬s.length ≤ e := Nat.not_le.mpr (lt_length_of_drop atEquals)
  have notEnd' : ¬s.length ≤ e + 1 := Nat.not_le.mpr (lt_length_of_drop atQuote)
  simp [notEnd, notEnd']

/-- The body of the parameter loop once it has read the parameter
`(name, value)`: the first `charset` gives the charset, and the first `boundary`
the boundary where `boundary` is not null. -/
def keepParam (st : ParamState) (param : Bytes × Bytes) : ParamState :=
  if !st.typeHasCharset && lowerCaseEqualsASCII param.1 (ascii "charset") then
    { st with typeHasCharset := true, charsetValue := param.2 }
  else if st.boundary.isSome && !st.typeHasBoundary &&
      lowerCaseEqualsASCII param.1 (ascii "boundary") then
    { st with typeHasBoundary := true, boundary := some param.2 }
  else st

theorem paramStep_of_read {s : Bytes} {st : ParamState} {offset : Nat} {param : Bytes × Bytes}
    (read : readParam s st.offset = (offset, some param)) :
    paramStep s st = { keepParam st param with offset } := by
  unfold paramStep keepParam
  rw [read]
  dsimp only
  split_ifs <;> rfl

theorem keepParam_offset (st : ParamState) (param : Bytes × Bytes) (offset : Nat) :
    keepParam { st with offset } param = { keepParam st param with offset } := by
  unfold keepParam
  split_ifs <;> rfl

theorem foldl_keepParam_offset (params : List (Bytes × Bytes)) (st : ParamState) (offset : Nat) :
    params.foldl keepParam { st with offset } = { params.foldl keepParam st with offset } := by
  induction params generalizing st with
  | nil => rfl
  | cons param params ih => simp only [List.foldl_cons, keepParam_offset, ih]

theorem length_le_flatMap_quotedParam (params : List (Bytes × Bytes)) :
    params.length ≤ (params.flatMap quotedParam).length := by
  induction params with
  | nil => simp
  | cons param params ih =>
      simp only [List.flatMap_cons, List.length_append, List.length_cons, quotedParam]; omega

/-- Over `; n="v"` parameters with token names, the loop reads each parameter
once, in order, and ends past the last. -/
theorem paramsLoop_quotedParams {s : Bytes} :
    ∀ (params : List (Bytes × Bytes)) (fuel : Nat) (st : ParamState),
      (∀ p ∈ params, isToken p.1 = true) → s.drop st.offset = params.flatMap quotedParam →
      params.length ≤ fuel →
      paramsLoop s fuel st = { (params.map fun p => (p.1, trimLWS p.2)).foldl keepParam st with
        offset := st.offset + (params.flatMap quotedParam).length }
  | [], fuel, st, _, dropped, _ => by
      have beyond : s.length ≤ st.offset := by simpa using dropped
      cases fuel <;> simp [paramsLoop, Nat.not_lt.mpr beyond]
  | (n, v) :: params, fuel + 1, st, names, dropped, enough => by
      have read := @readParam_quotedParam s (params.flatMap quotedParam) n v st.offset
        (names (n, v) (List.mem_cons_self _ _)) dropped (by cases params <;> simp [quotedParam])
      have inside : st.offset < s.length := by
        have size := congrArg List.length dropped
        simp only [List.length_drop, List.flatMap_cons, List.length_append] at size
        simp [quotedParam] at size
        omega
      rw [paramsLoop, if_pos inside, paramStep_of_read read,
        paramsLoop_quotedParams params fuel _ (fun p member => names p (List.mem_cons_of_mem _ member))
          (by rw [drop_after dropped]; simp) (by simpa using enough)]
      simp [foldl_keepParam_offset, Nat.add_assoc]

section Fold

variable {params : List (Bytes × Bytes)}

theorem foldl_keepParam_charset_set {st : ParamState} (set : st.typeHasCharset = true) :
    (params.foldl keepParam st).typeHasCharset = true ∧
      (params.foldl keepParam st).charsetValue = st.charsetValue := by
  induction params generalizing st with
  | nil => exact ⟨set, rfl⟩
  | cons param params ih =>
      have kept : (keepParam st param).typeHasCharset = true ∧
          (keepParam st param).charsetValue = st.charsetValue := by
        unfold keepParam; split_ifs <;> simp_all
      exact (ih kept.1).imp id (·.trans kept.2)

theorem foldl_keepParam_charset {st : ParamState} (unset : st.typeHasCharset = false) :
    let found := params.find? fun p => lowerCaseEqualsASCII p.1 (ascii "charset")
    (params.foldl keepParam st).typeHasCharset = found.isSome ∧
      (params.foldl keepParam st).charsetValue = (found.map (·.2)).getD st.charsetValue := by
  induction params generalizing st with
  | nil => exact ⟨unset, rfl⟩
  | cons param params ih =>
      by_cases named : lowerCaseEqualsASCII param.1 (ascii "charset") = true
      · have set := @foldl_keepParam_charset_set params
          { st with typeHasCharset := true, charsetValue := param.2 } rfl
        simpa [keepParam, unset, named] using set
      · have other : (keepParam st param).typeHasCharset = false ∧
            (keepParam st param).charsetValue = st.charsetValue := by
          unfold keepParam; split_ifs <;> simp_all
        simpa [List.find?_cons, named, other.2] using ih other.1

theorem foldl_keepParam_boundary_set {st : ParamState} (set : st.typeHasBoundary = true) :
    (params.foldl keepParam st).typeHasBoundary = true ∧
      (params.foldl keepParam st).boundary = st.boundary := by
  induction params generalizing st with
  | nil => exact ⟨set, rfl⟩
  | cons param params ih =>
      have kept : (keepParam st param).typeHasBoundary = true ∧
          (keepParam st param).boundary = st.boundary := by
        unfold keepParam; split_ifs <;> simp_all
      exact (ih kept.1).imp id (·.trans kept.2)

theorem foldl_keepParam_boundary {st : ParamState} {b : Bytes} (unset : st.typeHasBoundary = false)
    (has : st.boundary = some b) :
    (params.foldl keepParam st).boundary =
      some (((params.find? fun p => lowerCaseEqualsASCII p.1 (ascii "boundary")).map (·.2)).getD b) := by
  induction params generalizing st with
  | nil => exact has
  | cons param params ih =>
      by_cases named : lowerCaseEqualsASCII param.1 (ascii "boundary") = true
      · have notCharset : lowerCaseEqualsASCII param.1 (ascii "charset") = false := by
          rw [lowerCaseEqualsASCII_iff] at named
          simp only [lowerCaseEqualsASCII, named]
          decide
        have set := @foldl_keepParam_boundary_set params
          { st with typeHasBoundary := true, boundary := some param.2 } rfl
        simpa [keepParam, unset, has, named, notCharset] using set.2
      · have other : (keepParam st param).typeHasBoundary = false ∧
            (keepParam st param).boundary = st.boundary := by
          unfold keepParam; split_ifs <;> simp_all
        simpa [List.find?_cons, named] using ih other.1 (other.2.trans has)

end Fold

theorem find?_map_value (P : Bytes → Bool) (g : Bytes → Bytes) (params : List (Bytes × Bytes)) :
    (params.map fun p => (p.1, g p.2)).find? (fun p => P p.1) =
      (params.find? fun p => P p.1).map fun p => (p.1, g p.2) := by
  simp [List.find?_map, Function.comp_def]

/-- `ParseContentType` on a media type `a/b` of tokens followed by parameters
`; n="v"` as `Quote` writes them, from empty outputs: the media type is stored
lower-cased; the boundary is the trimmed value of the first parameter named
`boundary` in any case, and the charset the lower-cased trimmed value of the
first named `charset` in any case, each left as it was where there is none. -/
theorem parseContentType_quotedParams {a b : Bytes} (typeToken : isToken a = true)
    (subtypeToken : isToken b = true) (notAny : a ++ slash :: b ≠ ascii "*/*")
    {params : List (Bytes × Bytes)} (names : ∀ p ∈ params, isToken p.1 = true) :
    let out := parseContentType (a ++ slash :: b ++ params.flatMap quotedParam) ⟨[], [], false, some []⟩
    let charset := params.find? fun p => lowerCaseEqualsASCII p.1 (ascii "charset")
    let boundary := params.find? fun p => lowerCaseEqualsASCII p.1 (ascii "boundary")
    out.mimeType = (a ++ slash :: b).map toLowerASCII ∧
      out.boundary = some ((boundary.map fun p => trimLWS p.2).getD []) ∧
      out.charset = (charset.map fun p => (trimLWS p.2).map toLowerASCII).getD [] ∧
      out.hadCharset = charset.isSome := by
  intro out charset boundary
  obtain ⟨aNonempty, aChars⟩ := isToken_iff.mp typeToken
  obtain ⟨bNonempty, bChars⟩ := isToken_iff.mp subtypeToken
  have tokenStop : ∀ c, isTokenChar c = true → (isLWS c || c == semicolon || c == lparen) = false :=
    fun c token => by
      have notParen : c ≠ lparen := by rintro rfl; revert token; decide
      rw [isTokenChar_not_lws token, beq_false_of_ne (isTokenChar_separators token).2.2.1,
        beq_false_of_ne notParen]
      rfl
  have typeChars : ∀ c ∈ a ++ slash :: b, (isLWS c || c == semicolon || c == lparen) = false := by
    intro c member
    rcases List.mem_append.mp member with inA | inRest
    · exact tokenStop c (aChars c inA)
    rcases List.mem_cons.mp inRest with rfl | inB
    · decide
    · exact tokenStop c (bChars c inB)
  have paramsStart : ∀ c ∈ (params.flatMap quotedParam).head?, c = semicolon := by
    cases params <;> simp [quotedParam]
  have typeVal0 : typeVal (a ++ slash :: b ++ params.flatMap quotedParam) = 0 := by
    obtain ⟨x, a', rfl⟩ := List.exists_cons_of_ne_nil aNonempty
    exact @findFirstOf_eq _ _ [] (a' ++ slash :: b ++ params.flatMap quotedParam) _ x
      (by simp) (by simp) (by simpa using isTokenChar_not_lws (aChars x (List.mem_cons_self _ _)))
  have typeEndT : typeEnd (a ++ slash :: b ++ params.flatMap quotedParam) = (a ++ slash :: b).length := by
    rw [typeEnd, typeVal0, findFirstOf_stop (List.drop_zero _) typeChars (fun c head => by
      rw [paramsStart c head]; rfl) (Nat.zero_le _), Nat.zero_add]
  have start : findFirstOf (· == semicolon) (a ++ slash :: b ++ params.flatMap quotedParam)
      (a ++ slash :: b).length = (a ++ slash :: b).length := by
    rw [@findFirstOf_stop _ _ [] (params.flatMap quotedParam) _ (by simp) (by simp)
      (fun c head => by simp [paramsStart c head]) (by simp), List.length_nil, Nat.add_zero]
  have loop := paramsLoop_quotedParams (s := a ++ slash :: b ++ params.flatMap quotedParam) params
    ((a ++ slash :: b ++ params.flatMap quotedParam).length + 1)
    ⟨(a ++ slash :: b).length, [], false, false, some []⟩ names (by simp)
    (by have := length_le_flatMap_quotedParam params; simp only [List.length_append, List.length_cons]; omega)
  have accepted : isAcceptedContentType (a ++ slash :: b ++ params.flatMap quotedParam) = true := by
    refine isAcceptedContentType_iff.mpr ⟨by simp [aNonempty], fun same => ?_, by simp⟩
    have size := congrArg List.length same
    have three : (ascii "*/*").length = 3 := by decide
    have aLong := List.length_pos.mpr aNonempty
    have bLong := List.length_pos.mpr bNonempty
    simp only [three, List.length_append, List.length_cons] at size
    rw [List.eq_nil_of_length_eq_zero (by omega : (params.flatMap quotedParam).length = 0),
      List.append_nil] at same
    exact notAny same
  have charsetFound := @foldl_keepParam_charset (params.map fun p => (p.1, trimLWS p.2))
    ⟨(a ++ slash :: b).length, [], false, false, some []⟩ rfl
  have boundaryFound := @foldl_keepParam_boundary (params.map fun p => (p.1, trimLWS p.2))
    ⟨(a ++ slash :: b).length, [], false, false, some []⟩ _ rfl rfl
  rw [find?_map_value (lowerCaseEqualsASCII · (ascii "charset"))] at charsetFound
  rw [find?_map_value (lowerCaseEqualsASCII · (ascii "boundary"))] at boundaryFound
  have typeStr : slice (a ++ slash :: b ++ params.flatMap quotedParam) 0 (a ++ slash :: b).length =
      a ++ slash :: b := by
    rw [slice, List.drop_zero, Nat.sub_zero, List.take_left]
  have notSame : isSameMimeType (a ++ slash :: b) [] = false := rfl
  simp only [out, parseContentType, contentTypeParams, typeEndT, start, loop, accepted, typeVal0,
    typeStr, notSame, charsetFound.1, charsetFound.2, boundaryFound]
  cases found : params.find? fun p => lowerCaseEqualsASCII p.1 (ascii "charset") <;>
    simp [charset, boundary, found, Option.map_map, Function.comp_def]

theorem parseContentType_quotedParams_multipart :
    isToken (ascii "multipart") = true ∧ isToken (ascii "form-data") = true ∧
      ascii "multipart" ++ slash :: ascii "form-data" ≠ ascii "*/*" ∧
      (∀ p ∈ [(ascii "Boundary", ascii "x;y"), (ascii "charset", ascii " UTF-8 ")], isToken p.1 = true) ∧
      let out := parseContentType (ascii "multipart" ++ slash :: ascii "form-data" ++
        [(ascii "Boundary", ascii "x;y"), (ascii "charset", ascii " UTF-8 ")].flatMap quotedParam)
        ⟨[], [], false, some []⟩
      let charset := [(ascii "Boundary", ascii "x;y"), (ascii "charset", ascii " UTF-8 ")].find?
        fun p => lowerCaseEqualsASCII p.1 (ascii "charset")
      let boundary := [(ascii "Boundary", ascii "x;y"), (ascii "charset", ascii " UTF-8 ")].find?
        fun p => lowerCaseEqualsASCII p.1 (ascii "boundary")
      out.mimeType = (ascii "multipart" ++ slash :: ascii "form-data").map toLowerASCII ∧
        out.boundary = some ((boundary.map fun p => trimLWS p.2).getD []) ∧
        out.charset = (charset.map fun p => (trimLWS p.2).map toLowerASCII).getD [] ∧
        out.hadCharset = charset.isSome :=
  ⟨by decide, by decide, by decide, by decide,
    parseContentType_quotedParams (by decide) (by decide) (by decide) (by decide)⟩

/-- Parameter names are compared in any case: a `CHARSET` parameter before a
`charset` one gives the charset. -/
theorem parseContentType_charset_case :
    let params := [(ascii "CHARSET", ascii "x"), (ascii "charset", ascii "y")]
    (parseContentType (ascii "text/html" ++ params.flatMap quotedParam) ⟨[], [], false, some []⟩).charset ≠
      ((params.find? (·.1 == ascii "charset")).map fun p => (trimLWS p.2).map toLowerASCII).getD [] := by
  decide

end HttpUtil
