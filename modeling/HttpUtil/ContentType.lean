import HttpUtil.Text.Bytes

/-! # `Content-Type` values

`HttpUtil::ParseContentType` folds one `Content-Type` value into the caller's
`*mime_type`, `*charset`, `*had_charset` and `*boundary`.  The parameter loop
walks the value from `;` to `;`; `std::string::npos` is written as the length,
which every use treats as an offset past the end.

Over a sequence of values, the media type is the last accepted one, and the
charset comes from the last value carrying one in the final block of accepted
values of that media type (`sequenceContentType`).  The block is compared with
`*mime_type` only while that is not empty, so an empty media type is a block of
its own.
-/

namespace HttpUtil

open Ascii

/-- `std::string::find_first_of` (`find_first_not_of` with the negated
predicate) from `pos`, with `npos` written as the length. -/
def findFirstOf (p : UInt8 → Bool) (s : Bytes) (pos : Nat) : Nat := (findFrom p s pos).getD s.length

/-- The bytes of a quoted parameter value after its opening quote, up to the
closing quote or the end, and how many bytes that took: a backslash that is not
the last byte takes the next byte as it is. -/
def quotedValue : Bytes → Bytes × Nat
  | [] => ([], 0)
  | c :: rest =>
      if c == dquote then ([], 0)
      else if c == backslash then
        match rest with
        | [] => ([c], 1)
        | d :: rest => let value := quotedValue rest; (d :: value.1, value.2 + 2)
      else let value := quotedValue rest; (c :: value.1, value.2 + 1)

/-- One parameter after the `;` at `offset`: the offset the loop goes on from,
and the parameter's name and value where it has a value. -/
def readParam (s : Bytes) (offset : Nat) : Nat × Option (Bytes × Bytes) :=
  let paramNameStart := findFirstOf (fun c => !isLWS c) s (offset + 1)
  let offset := findFirstOf (fun c => c == semicolon || c == equals) s paramNameStart
  if s.length ≤ offset || byteAt s offset == semicolon then (offset, none)
  else
    let paramName := slice s paramNameStart offset
    let offset := findFirstOf (fun c => !isLWS c) s (offset + 1)
    if s.length ≤ offset || byteAt s offset == semicolon then (offset, none)
    else if byteAt s offset != dquote then
      let valueEnd := findFirstOf (· == semicolon) s offset
      (valueEnd, some (paramName, (slice s offset valueEnd).rdropWhile isLWS))
    else
      let quoted := quotedValue (s.drop (offset + 1))
      (findFirstOf (· == semicolon) s (offset + 1 + quoted.2), some (paramName, trimLWS quoted.1))

/-- What the parameter loop keeps: `offset`, `charset_value`,
`type_has_charset`, `type_has_boundary`, and `*boundary` (`none` for a null
`boundary`). -/
structure ParamState where
  offset : Nat
  charsetValue : Bytes
  typeHasCharset : Bool
  typeHasBoundary : Bool
  boundary : Option Bytes
deriving DecidableEq, Repr

/-- One round of the parameter loop: the first `charset` parameter gives the
charset, and the first `boundary` parameter the boundary. -/
def paramStep (s : Bytes) (st : ParamState) : ParamState :=
  match readParam s st.offset with
  | (offset, none) => { st with offset }
  | (offset, some (paramName, paramValue)) =>
      if !st.typeHasCharset && lowerCaseEqualsASCII paramName (ascii "charset") then
        { st with offset, typeHasCharset := true, charsetValue := paramValue }
      else if st.boundary.isSome && !st.typeHasBoundary &&
          lowerCaseEqualsASCII paramName (ascii "boundary") then
        { st with offset, typeHasBoundary := true, boundary := some paramValue }
      else { st with offset }

/-- `while (offset < content_type_str.size())`.  `fuel` bounds the rounds; every
round moves `offset` forward, so the length gives enough. -/
def paramsLoop (s : Bytes) : Nat → ParamState → ParamState
  | 0, st => st
  | fuel + 1, st => if st.offset < s.length then paramsLoop s fuel (paramStep s st) else st

/-- `type_val`: the first byte that is not LWS. -/
def typeVal (s : Bytes) : Nat := findFirstOf (fun c => !isLWS c) s 0

/-- `type_end`: the first LWS, `;` or `(` from `type_val`. -/
def typeEnd (s : Bytes) : Nat :=
  findFirstOf (fun c => isLWS c || c == semicolon || c == lparen) s (typeVal s)

/-- The parameters of `s` as the loop reads them, from `*boundary`. -/
def contentTypeParams (s : Bytes) (boundary : Option Bytes) : ParamState :=
  paramsLoop s (s.length + 1) ⟨findFirstOf (· == semicolon) s (typeEnd s), [], false, false, boundary⟩

/-- The check after the loop: a value that is empty, `*/*`, or without a `/`
changes nothing but the boundary. -/
def isAcceptedContentType (s : Bytes) : Bool :=
  !(s.isEmpty || s == ascii "*/*" || (findFrom (· == slash) s 0).isNone)

/-- `eq`: `*mime_type` is set, and the media type `typeStr` lower-cased is the
C string `mime_type->data()`. -/
def isSameMimeType (typeStr mimeType : Bytes) : Bool :=
  !mimeType.isEmpty && lowerCaseEqualsASCII typeStr (cString mimeType 0)

/-- The caller's `*mime_type`, `*charset`, `*had_charset` and `*boundary`. -/
structure ContentType where
  mimeType : Bytes
  charset : Bytes
  hadCharset : Bool
  boundary : Option Bytes
deriving DecidableEq, Repr

/-- `HttpUtil::ParseContentType(content_type_str, ...)`. -/
def parseContentType (s : Bytes) (out : ContentType) : ContentType :=
  let params := contentTypeParams s out.boundary
  let out := { out with boundary := params.boundary }
  if !isAcceptedContentType s then out
  else
    let typeStr := slice s (typeVal s) (typeEnd s)
    let eq := isSameMimeType typeStr out.mimeType
    let out := if eq then out else { out with mimeType := typeStr.map toLowerASCII }
    if (!eq && out.hadCharset) || params.typeHasCharset then
      { out with hadCharset := true, charset := params.charsetValue.map toLowerASCII }
    else out

theorem findFirstOf_eq {p : UInt8 → Bool} {s skipped rest : Bytes} {pos : Nat} {x : UInt8}
    (dropped : s.drop pos = skipped ++ x :: rest) (absent : ∀ c ∈ skipped, p c = false)
    (hit : p x = true) : findFirstOf p s pos = pos + skipped.length := by
  simp [findFirstOf, findFrom, dropped, findIndex_append_cons rest absent hit, Nat.add_comm]

theorem findFirstOf_eq_length {p : UInt8 → Bool} {s : Bytes} {pos : Nat}
    (absent : ∀ c ∈ s.drop pos, p c = false) : findFirstOf p s pos = s.length := by
  simp [findFirstOf, findFrom, findIndex_eq_none.mpr absent]

theorem findFirstOf_stop {p : UInt8 → Bool} {s skipped rest : Bytes} {pos : Nat}
    (dropped : s.drop pos = skipped ++ rest) (absent : ∀ c ∈ skipped, p c = false)
    (stop : ∀ c ∈ rest.head?, p c = true) (inside : pos ≤ s.length) :
    findFirstOf p s pos = pos + skipped.length := by
  cases rest with
  | nil =>
      rw [findFirstOf_eq_length (by simpa [dropped] using absent)]
      have size := congrArg List.length dropped
      simp only [List.length_drop, List.append_nil] at size
      omega
  | cons x rest => exact findFirstOf_eq dropped absent (stop x rfl)

section Search

variable {p : UInt8 → Bool} {s : Bytes} {pos : Nat}

theorem findFirstOf_cases (p : UInt8 → Bool) (s : Bytes) (pos : Nat) :
    findFirstOf p s pos = s.length ∨
      (pos ≤ findFirstOf p s pos ∧ findFirstOf p s pos < s.length ∧
        p (byteAt s (findFirstOf p s pos)) = true) := by
  unfold findFirstOf findFrom
  cases found : findIndex p (s.drop pos) with
  | none => exact .inl rfl
  | some k =>
      obtain ⟨pre, c, post, dropped, rfl, hit, -⟩ := findIndex_split found
      have atHit : s.drop (pre.length + pos) = c :: post := by
        rw [Nat.add_comm, drop_after dropped, List.drop_left]
      simp only [Option.map_some', Option.getD_some]
      exact .inr ⟨Nat.le_add_left _ _, lt_length_of_drop atHit, by rw [byteAt_of_drop atHit]; exact hit⟩

theorem findFirstOf_le_length : findFirstOf p s pos ≤ s.length := by
  rcases findFirstOf_cases p s pos with found | ⟨-, found, -⟩ <;> omega

theorem findFirstOf_hit (found : findFirstOf p s pos < s.length) : p (byteAt s (findFirstOf p s pos)) = true := by
  rcases findFirstOf_cases p s pos with at_end | ⟨-, -, hit⟩
  · omega
  · exact hit

theorem le_findFirstOf (inside : pos ≤ s.length) : pos ≤ findFirstOf p s pos := by
  rcases findFirstOf_cases p s pos with found | ⟨found, -⟩ <;> omega

theorem lt_findFirstOf {offset : Nat} (inside : offset < s.length) (before : offset < pos) :
    offset < findFirstOf p s pos := by
  rcases findFirstOf_cases p s pos with found | ⟨found, -⟩ <;> omega

end Search

theorem quotedValue_cons (c : UInt8) (rest : Bytes) :
    quotedValue (c :: rest) =
      if c == dquote then ([], 0)
      else if c == backslash then
        match rest with
        | [] => ([c], 1)
        | d :: rest => ((d :: (quotedValue rest).1), (quotedValue rest).2 + 2)
      else (c :: (quotedValue rest).1, (quotedValue rest).2 + 1) := by
  cases rest <;> rfl

def mediaType (s : Bytes) : Bytes := (slice s (typeVal s) (typeEnd s)).map toLowerASCII

/-- The charset the parameter loop extracts from a value, if it has one. -/
def charsetOf (s : Bytes) : Option Bytes :=
  let params := contentTypeParams s none
  if params.typeHasCharset then some params.charsetValue else none

/-- The lower-cased charset of the last value of `block` that carries one, or
the empty string. -/
def lastCharset (block : List Bytes) : Bytes :=
  ((block.reverse.findSome? charsetOf).getD []).map toLowerASCII

/-- The final maximal block of `accepted` whose media types are `mime`. -/
def finalBlock (accepted : List Bytes) (mime : Bytes) : List Bytes :=
  (accepted.reverse.takeWhile (mediaType · == mime)).reverse

/-- The media type and the charset that a sequence of values leaves, as the
specification words it. -/
def specContentType (ss : List Bytes) : Bytes × Bytes :=
  let accepted := ss.filter isAcceptedContentType
  match accepted.getLast? with
  | none => ([], [])
  | some last => (mediaType last, lastCharset (finalBlock accepted (mediaType last)))

/-- The media type and the charset that a sequence of values leaves: as
`specContentType`, except that an empty final media type makes the last
accepted value a block of its own. -/
def sequenceContentType (ss : List Bytes) : Bytes × Bytes :=
  let accepted := ss.filter isAcceptedContentType
  match accepted.getLast? with
  | none => ([], [])
  | some last =>
      let mime := mediaType last
      (mime, lastCharset (if mime.isEmpty then [last] else finalBlock accepted mime))

/-- The two descriptions differ only where the final media type is empty. -/
theorem sequenceContentType_eq_spec {ss : List Bytes} (set : (specContentType ss).1 ≠ []) :
    sequenceContentType ss = specContentType ss := by
  cases last : (ss.filter isAcceptedContentType).getLast? with
  | none => simp [specContentType, last] at set
  | some last => simp_all [sequenceContentType, specContentType, List.isEmpty_iff]

def ParamState.charsetFields (st : ParamState) : Nat × Bytes × Bool :=
  (st.offset, st.charsetValue, st.typeHasCharset)

section Params

variable {s : Bytes}

theorem charsetFields_paramStep {st st' : ParamState} (same : st.charsetFields = st'.charsetFields) :
    (paramStep s st).charsetFields = (paramStep s st').charsetFields := by
  simp only [ParamState.charsetFields, Prod.mk.injEq] at same
  obtain ⟨sameOffset, sameValue, sameHas⟩ := same
  unfold paramStep
  rw [sameOffset]
  rcases readParam s st'.offset with ⟨offset, _ | ⟨name, value⟩⟩
  · simp [ParamState.charsetFields, sameValue, sameHas]
  · simp only [sameHas]
    split_ifs <;> simp [ParamState.charsetFields, sameValue, sameHas]

theorem charsetFields_paramsLoop (fuel : Nat) {st st' : ParamState}
    (same : st.charsetFields = st'.charsetFields) :
    (paramsLoop s fuel st).charsetFields = (paramsLoop s fuel st').charsetFields := by
  induction fuel generalizing st st' with
  | zero => exact same
  | succ fuel ih =>
      have sameOffset : st.offset = st'.offset := congrArg Prod.fst same
      simp only [paramsLoop, sameOffset]
      split
      · exact ih (charsetFields_paramStep same)
      · exact same

theorem charsetValue_paramStep {st : ParamState} (unset : st.typeHasCharset = false → st.charsetValue = []) :
    (paramStep s st).typeHasCharset = false → (paramStep s st).charsetValue = [] := by
  unfold paramStep
  rcases readParam s st.offset with ⟨offset, _ | ⟨name, value⟩⟩
  · exact unset
  · dsimp only
    split_ifs
    · exact fun unreachable => nomatch unreachable
    all_goals exact unset

theorem charsetValue_paramsLoop (fuel : Nat) {st : ParamState}
    (unset : st.typeHasCharset = false → st.charsetValue = []) :
    (paramsLoop s fuel st).typeHasCharset = false → (paramsLoop s fuel st).charsetValue = [] := by
  induction fuel generalizing st with
  | zero => exact unset
  | succ fuel ih =>
      simp only [paramsLoop]
      split
      · exact ih (charsetValue_paramStep unset)
      · exact unset

/-- Whatever `*boundary`, the loop finds the charset `charsetOf` names. -/
theorem contentTypeParams_charset (boundary : Option Bytes) :
    (contentTypeParams s boundary).typeHasCharset = (charsetOf s).isSome ∧
      (contentTypeParams s boundary).charsetValue = (charsetOf s).getD [] := by
  have same : (contentTypeParams s boundary).charsetFields = (contentTypeParams s none).charsetFields :=
    charsetFields_paramsLoop _ rfl
  have unset : (contentTypeParams s boundary).typeHasCharset = false →
      (contentTypeParams s boundary).charsetValue = [] :=
    charsetValue_paramsLoop _ fun _ => rfl
  simp only [ParamState.charsetFields, Prod.mk.injEq] at same
  simp only [charsetOf, ← same.2.1, ← same.2.2]
  cases has : (contentTypeParams s boundary).typeHasCharset
  · simp [unset has]
  · simp

end Params

theorem toLowerASCII_ne_nul {c : UInt8} (notNul : c ≠ nul) : toLowerASCII c ≠ nul := by
  by_cases upper : 65 ≤ c ∧ c ≤ 90
  · intro lowered
    have shifted := toNat_toLowerASCII_upper upper
    have zero : nul.toNat = 0 := rfl
    rw [lowered, zero] at shifted
    omega
  · rwa [toLowerASCII, if_neg upper]

theorem nul_not_mem_mediaType {s : Bytes} (noNul : nul ∉ s) : nul ∉ mediaType s := by
  intro member
  obtain ⟨c, inSlice, lowered⟩ := List.mem_map.mp member
  refine toLowerASCII_ne_nul ?_ lowered
  rintro rfl
  exact noNul (mem_slice inSlice)

theorem isSameMimeType_iff {s mime : Bytes} (noNul : nul ∉ mime) :
    isSameMimeType (slice s (typeVal s) (typeEnd s)) mime = true ↔ mime ≠ [] ∧ mediaType s = mime := by
  have whole : cString mime 0 = mime :=
    List.takeWhile_eq_self_iff.mpr fun c member => by
      simp only [bne_iff_ne, ne_eq]
      rintro rfl
      exact noNul member
  simp [isSameMimeType, whole, lowerCaseEqualsASCII_iff, mediaType, List.isEmpty_iff]

theorem isAcceptedContentType_iff {s : Bytes} :
    isAcceptedContentType s = true ↔ s ≠ [] ∧ s ≠ ascii "*/*" ∧ slash ∈ s := by
  have hasSlash : (findFrom (· == slash) s 0).isNone = false ↔ slash ∈ s := by
    rw [findFrom, List.drop_zero]
    cases found : findIndex (· == slash) s with
    | none =>
        exact iff_of_false (by simp) fun member => by
          simpa using findIndex_eq_none.mp found slash member
    | some k =>
        obtain ⟨pre, c, post, rfl, -, same, -⟩ := findIndex_split found
        exact iff_of_true rfl (by simp [beq_iff_eq.mp same])
  simp only [isAcceptedContentType, Bool.not_eq_true', Bool.or_eq_false_iff, hasSlash,
    List.isEmpty_eq_false, beq_eq_false_iff_ne, and_assoc]

theorem parseContentType_rejected {s : Bytes} {out : ContentType} (rejected : isAcceptedContentType s = false) :
    (parseContentType s out).mimeType = out.mimeType ∧ (parseContentType s out).charset = out.charset ∧
      (parseContentType s out).hadCharset = out.hadCharset := by
  simp [parseContentType, rejected]

/-- On an accepted value, `*mime_type` becomes its media type, and `*charset`
its charset where it has one; without one, `*charset` is cleared where the
media type changes and a charset was set before. -/
theorem parseContentType_accepted {s : Bytes} {out : ContentType} (accepted : isAcceptedContentType s = true)
    (noNul : nul ∉ out.mimeType) :
    (parseContentType s out).mimeType = mediaType s ∧
      (parseContentType s out).hadCharset = (out.hadCharset || (charsetOf s).isSome) ∧
      (parseContentType s out).charset =
        if (charsetOf s).isSome || (out.hadCharset && !decide (out.mimeType ≠ [] ∧ mediaType s = out.mimeType))
        then ((charsetOf s).getD []).map toLowerASCII else out.charset := by
  obtain ⟨has, value⟩ := contentTypeParams_charset (s := s) out.boundary
  have eq := isSameMimeType_iff (s := s) noNul
  unfold parseContentType
  simp only [accepted, Bool.not_true, Bool.false_eq_true, if_false, has, value]
  by_cases same : out.mimeType ≠ [] ∧ mediaType s = out.mimeType
  · simp only [eq.mpr same, if_true, same.2, decide_eq_true same]
    cases (charsetOf s).isSome <;> simp [same.1]
  · have differs : isSameMimeType (slice s (typeVal s) (typeEnd s)) out.mimeType = false :=
      Bool.eq_false_iff.mpr fun isSame => same (eq.mp isSame)
    simp only [differs, decide_eq_false same, if_false, Bool.false_eq_true]
    cases (charsetOf s).isSome <;> cases out.hadCharset <;> simp [mediaType]

theorem paramStep_boundary_none {s : Bytes} {st : ParamState} (unset : st.boundary = none) :
    (paramStep s st).boundary = none := by
  unfold paramStep
  rcases readParam s st.offset with ⟨offset, _ | ⟨name, value⟩⟩
  · exact unset
  · dsimp only
    split_ifs <;> simp_all

theorem paramsLoop_boundary_none {s : Bytes} (fuel : Nat) {st : ParamState}
    (unset : st.boundary = none) : (paramsLoop s fuel st).boundary = none := by
  induction fuel generalizing st with
  | zero => exact unset
  | succ fuel ih =>
      simp only [paramsLoop]
      split
      · exact ih (paramStep_boundary_none unset)
      · exact unset

/-- A rejected value leaves `*mime_type`, `*charset` and `*had_charset` as they
were, but the parameter loop has run before the check: `*boundary` is what the
loop left, and only with a null `boundary` does nothing change. -/
theorem parseContentType_rejected_outputs {s : Bytes} (rejected : isAcceptedContentType s = false)
    (out : ContentType) :
    parseContentType s out = { out with boundary := (contentTypeParams s out.boundary).boundary } ∧
      (out.boundary = none → parseContentType s out = out) := by
  have whole : parseContentType s out =
      { out with boundary := (contentTypeParams s out.boundary).boundary } := by
    simp [parseContentType, rejected]
  refine ⟨whole, fun unset => ?_⟩
  rw [whole, contentTypeParams, paramsLoop_boundary_none _ unset]
  cases out
  simp_all

theorem parseContentType_rejected_outputs_boundary :
    isAcceptedContentType (ascii ";boundary=x") = false ∧
      parseContentType (ascii ";boundary=x") ⟨[], [], false, some []⟩ =
        { (⟨[], [], false, some []⟩ : ContentType) with
          boundary := (contentTypeParams (ascii ";boundary=x") (some [])).boundary } ∧
      ((some [] : Option Bytes) = none →
        parseContentType (ascii ";boundary=x") ⟨[], [], false, some []⟩ = ⟨[], [], false, some []⟩) :=
  ⟨by decide, parseContentType_rejected_outputs (by decide) _⟩

/-- The rejected value `;boundary=x` still sets `*boundary`. -/
theorem parseContentType_rejected_sets_boundary :
    isAcceptedContentType (ascii ";boundary=x") = false ∧
      (parseContentType (ascii ";boundary=x") ⟨[], [], false, some []⟩).boundary = some (ascii "x") := by
  decide

/-- Where `*mime_type` changes, the value as a whole passed the check: it is not
empty, not `*/*`, and holds a `/`.  What is stored is the value's media type,
lower-cased, which the check never looked at on its own. -/
theorem parseContentType_mimeType_changed {s : Bytes} {out : ContentType}
    (changed : (parseContentType s out).mimeType ≠ out.mimeType) :
    s ≠ [] ∧ s ≠ ascii "*/*" ∧ slash ∈ s ∧ (parseContentType s out).mimeType = mediaType s := by
  cases accepted : isAcceptedContentType s
  · exact absurd (parseContentType_rejected accepted).1 changed
  have differs : isSameMimeType (slice s (typeVal s) (typeEnd s)) out.mimeType = false := by
    cases same : isSameMimeType (slice s (typeVal s) (typeEnd s)) out.mimeType
    · rfl
    · refine absurd ?_ changed
      unfold parseContentType
      simp only [accepted, same, Bool.not_true, Bool.false_eq_true, ↓reduceIte]
      split <;> rfl
  have stored : (parseContentType s out).mimeType = mediaType s := by
    unfold parseContentType
    simp only [accepted, differs, Bool.not_true, Bool.false_eq_true, ↓reduceIte]
    split <;> rfl
  obtain ⟨nonempty, notAny, hasSlash⟩ := isAcceptedContentType_iff.mp accepted
  exact ⟨nonempty, notAny, hasSlash, stored⟩

theorem parseContentType_mimeType_changed_html :
    (parseContentType (ascii "text/html") ⟨[], [], false, none⟩).mimeType ≠ [] ∧
      ascii "text/html" ≠ [] ∧ ascii "text/html" ≠ ascii "*/*" ∧ slash ∈ ascii "text/html" ∧
      (parseContentType (ascii "text/html") ⟨[], [], false, none⟩).mimeType =
        mediaType (ascii "text/html") :=
  ⟨by decide, parseContentType_mimeType_changed (by decide)⟩

/-- The media types `*/*`, followed by a parameter, and `text`, followed by a
parameter holding a `/`, are stored. -/
theorem parseContentType_stores_any :
    (parseContentType (ascii "*/*; charset=utf-8") ⟨[], [], false, none⟩).mimeType = ascii "*/*" ∧
      (parseContentType (ascii "text;a=b/c") ⟨[], [], false, none⟩).mimeType = ascii "text" := by
  decide

section Sequence

variable {ss : List Bytes} {s : Bytes}

theorem sequenceContentType_rejected (rejected : isAcceptedContentType s = false) :
    sequenceContentType (ss ++ [s]) = sequenceContentType ss := by
  simp [sequenceContentType, List.filter_append, rejected]

theorem sequenceContentType_accepted (accepted : isAcceptedContentType s = true) :
    sequenceContentType (ss ++ [s]) =
      (mediaType s, lastCharset (if (mediaType s).isEmpty then [s]
        else finalBlock (ss.filter isAcceptedContentType ++ [s]) (mediaType s))) := by
  simp [sequenceContentType, List.filter_append, accepted]

theorem nul_not_mem_sequenceContentType (noNul : ∀ t ∈ ss, nul ∉ t) :
    nul ∉ (sequenceContentType ss).1 := by
  dsimp only [sequenceContentType]
  split
  · simp
  · next last isLast =>
      exact nul_not_mem_mediaType (noNul last (List.mem_of_mem_filter (List.mem_of_mem_getLast? isLast)))

theorem sequenceContentType_charset (set : (sequenceContentType ss).1 ≠ []) :
    (sequenceContentType ss).2 =
      lastCharset (finalBlock (ss.filter isAcceptedContentType) (sequenceContentType ss).1) := by
  cases last : (ss.filter isAcceptedContentType).getLast? with
  | none => simp [sequenceContentType, last] at set
  | some last => simp_all [sequenceContentType, List.isEmpty_iff]

theorem finalBlock_other {mime : Bytes} (nonempty : mime ≠ [])
    (other : (sequenceContentType ss).1 = [] ∨ mime ≠ (sequenceContentType ss).1) :
    finalBlock (ss.filter isAcceptedContentType) mime = [] := by
  unfold finalBlock
  cases reversed : (ss.filter isAcceptedContentType).reverse with
  | nil => rfl
  | cons last rest =>
      have isLast : (ss.filter isAcceptedContentType).getLast? = some last := by
        rw [← List.head?_reverse, reversed]; rfl
      have current : (sequenceContentType ss).1 = mediaType last := by
        simp [sequenceContentType, isLast]
      have differs : (mediaType last == mime) = false := by
        rw [← current]
        rcases other with empty | other
        · simpa [empty] using nonempty.symm
        · simpa using Ne.symm other
      simp [differs]

theorem finalBlock_concat (accepted : List Bytes) (s : Bytes) :
    finalBlock (accepted ++ [s]) (mediaType s) = finalBlock accepted (mediaType s) ++ [s] := by
  simp [finalBlock]

theorem lastCharset_concat (block : List Bytes) (s : Bytes) :
    lastCharset (block ++ [s]) =
      match charsetOf s with
      | some charset => charset.map toLowerASCII
      | none => lastCharset block := by
  unfold lastCharset
  cases found : charsetOf s <;> simp [found]

end Sequence

/-- What the outputs keep over a sequence of values: the media type and the
charset `sequenceContentType` names, and no charset before one was set. -/
structure Describes (ss : List Bytes) (out : ContentType) : Prop where
  mimeType : out.mimeType = (sequenceContentType ss).1
  charset : out.charset = (sequenceContentType ss).2
  unset : out.hadCharset = false → out.charset = []

theorem describes_nil (boundary : Option Bytes) : Describes [] ⟨[], [], false, boundary⟩ :=
  ⟨rfl, rfl, fun _ => rfl⟩

theorem describes_parseContentType {ss : List Bytes} {s : Bytes} {out : ContentType}
    (noNul : ∀ t ∈ ss, nul ∉ t) (describes : Describes ss out) :
    Describes (ss ++ [s]) (parseContentType s out) := by
  cases accepted : isAcceptedContentType s
  · obtain ⟨mime, charset, had⟩ := @parseContentType_rejected s out accepted
    refine ⟨?_, ?_, ?_⟩ <;> simp only [mime, charset, had, sequenceContentType_rejected accepted]
    exacts [describes.mimeType, describes.charset, describes.unset]
  · obtain ⟨mime, had, charset⟩ :=
      @parseContentType_accepted s out accepted
        (describes.mimeType ▸ nul_not_mem_sequenceContentType noNul)
    have single : lastCharset [s] = ((charsetOf s).getD []).map toLowerASCII := by
      cases found : charsetOf s <;> simp [lastCharset, found]
    by_cases same : out.mimeType ≠ [] ∧ mediaType s = out.mimeType
    · have set : (sequenceContentType ss).1 ≠ [] := describes.mimeType ▸ same.1
      have block := sequenceContentType_charset set
      rw [← describes.mimeType, ← same.2] at block
      have nonempty : (mediaType s).isEmpty = false := by simpa [List.isEmpty_iff] using same.2 ▸ same.1
      refine ⟨?_, ?_, ?_⟩ <;>
        simp only [sequenceContentType_accepted accepted, mime, had, charset, nonempty, if_false,
          Bool.false_eq_true, finalBlock_concat, lastCharset_concat, decide_eq_true same, Bool.not_true,
          Bool.and_false, Bool.or_false]
      · cases found : charsetOf s <;> simp [describes.charset, block]
      · cases found : charsetOf s <;> cases hadBefore : out.hadCharset <;>
          simp [found, hadBefore, describes.unset]
    · have fresh : lastCharset (if (mediaType s).isEmpty then [s]
          else finalBlock (ss.filter isAcceptedContentType ++ [s]) (mediaType s)) = lastCharset [s] := by
        split
        · rfl
        · next nonempty =>
            rw [finalBlock_concat, finalBlock_other (by simpa [List.isEmpty_iff] using nonempty)
              (by rw [← describes.mimeType]; tauto), List.nil_append]
      refine ⟨?_, ?_, ?_⟩ <;>
        simp only [sequenceContentType_accepted accepted, mime, had, charset, fresh, single,
          decide_eq_false same, Bool.not_false, Bool.and_true]
      all_goals cases found : charsetOf s <;> cases hadBefore : out.hadCharset <;>
        simp [found, hadBefore, describes.unset]

/-- Folding `ParseContentType` over NUL-free values from an empty
`*mime_type`, `*charset` and `*had_charset`, whatever `*boundary`, leaves the
media type and the charset that `sequenceContentType` names. -/
theorem parseContentType_foldl (ss : List Bytes) (noNul : ∀ s ∈ ss, nul ∉ s) (boundary : Option Bytes) :
    let out := ss.foldl (fun out s => parseContentType s out) ⟨[], [], false, boundary⟩
    out.mimeType = (sequenceContentType ss).1 ∧ out.charset = (sequenceContentType ss).2 := by
  suffices run : Describes ss (ss.foldl (fun out s => parseContentType s out) ⟨[], [], false, boundary⟩) from
    ⟨run.mimeType, run.charset⟩
  induction ss using List.reverseRecOn with
  | nil => exact describes_nil boundary
  | append_singleton ss s ih =>
      rw [List.foldl_append, List.foldl_cons, List.foldl_nil]
      exact describes_parseContentType (fun t member => noNul t (by simp [member]))
        (ih fun t member => noNul t (by simp [member]))

theorem parseContentType_foldl_html :
    (∀ s ∈ [ascii "text/html; charset=UTF-8", ascii "TEXT/HTML"], nul ∉ s) ∧
      let out := [ascii "text/html; charset=UTF-8", ascii "TEXT/HTML"].foldl
        (fun out s => parseContentType s out) ⟨[], [], false, none⟩
      out.mimeType = (sequenceContentType [ascii "text/html; charset=UTF-8", ascii "TEXT/HTML"]).1 ∧
        out.charset = (sequenceContentType [ascii "text/html; charset=UTF-8", ascii "TEXT/HTML"]).2 :=
  ⟨by decide, parseContentType_foldl _ (by decide) none⟩

/-- An empty media type does not continue a block: after `;charset=a/` and
`;/`, both of empty media type, the charset is cleared, where the
specification's wording keeps `a/`. -/
theorem parseContentType_empty_type_block :
    ([ascii ";charset=a/", ascii ";/"].foldl (fun out s => parseContentType s out)
        ⟨[], [], false, none⟩).charset = [] ∧
      (specContentType [ascii ";charset=a/", ascii ";/"]).2 = ascii "a/" := by
  decide

end HttpUtil
