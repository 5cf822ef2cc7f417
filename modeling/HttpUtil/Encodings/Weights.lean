import HttpUtil.Encodings

/-! # The weights of an `Accept-Encoding` list

`ParseAcceptEncoding` cites RFC 7231 §5.3.4, whose elements are
`codings [ weight ]` with `weight = OWS ";" OWS "q=" qvalue`, and whose
q-values, RFC 7231 §5.3.1, are

    qvalue = ( "0" [ "." 0*3DIGIT ] ) / ( "1" [ "." 0*3("0") ] )

`Qvalue` transcribes that rule, with the weight in thousandths each q-value
stands for.  The checks the code makes by hand on a q-value, `readQvalue`,
accept what the rule derives with one exception: `0.`, which the rule admits
with weight zero, fails the code's length check.  Over the grammar, the code
reads a list written with its elements separated by `", "` as the RFC means
it: the set is `*` where every weight is zero, and otherwise `identity` with
every coding of positive weight and its `x-` alias.
-/

namespace HttpUtil

open Ascii

/-- RFC 7231 §5.3.1, `qvalue = ( "0" [ "." 0*3DIGIT ] ) / ( "1" [ "." 0*3("0") ] )`:
`Qvalue q w` where `q` derives from the rule, `w` being its weight in thousandths. -/
inductive Qvalue : Bytes → Nat → Prop where
  /-- `"0"` -/
  | zero : Qvalue [48] 0
  /-- `"0" "." 0*3DIGIT`: the digits are tenths, hundredths and thousandths. -/
  | zeroPoint {digits : Bytes} (short : digits.length ≤ 3) (decimal : ∀ d ∈ digits, isAsciiDigit d = true) :
      Qvalue (48 :: 46 :: digits) (digitsValue (digits ++ List.replicate (3 - digits.length) 48))
  /-- `"1"` -/
  | one : Qvalue [49] 1000
  /-- `"1" "." 0*3("0")` -/
  | onePoint {zeros : Bytes} (short : zeros.length ≤ 3) (allZero : ∀ z ∈ zeros, z = 48) :
      Qvalue (49 :: 46 :: zeros) 1000

theorem foldl_digitsValue_eq_zero (digits : Bytes) (acc : Nat) :
    digits.foldl (fun acc c => 10 * acc + (c - 48).toNat) acc = 0 ↔ acc = 0 ∧ ∀ d ∈ digits, d = 48 := by
  induction digits generalizing acc with
  | nil => simp
  | cons d digits ih =>
      have zero : (d - 48).toNat = 0 ↔ d = 48 := by
        have wrapped : (d - 48).toNat = (256 - 48 + d.toNat) % 256 := BitVec.toNat_sub _ _
        have small : d.toNat < 256 := UInt8.toNat_lt_size d
        have same : d = 48 ↔ d.toNat = 48 := ⟨fun h => h ▸ rfl, fun h => UInt8.eq_of_val_eq (Fin.ext h)⟩
        rw [wrapped, same]
        omega
      have split : 10 * acc + (d - 48).toNat = 0 ↔ acc = 0 ∧ (d - 48).toNat = 0 := by omega
      rw [List.foldl_cons, ih, split, zero, List.forall_mem_cons, and_assoc]

theorem digitsValue_eq_zero (digits : Bytes) : digitsValue digits = 0 ↔ ∀ d ∈ digits, d = 48 := by
  simp [digitsValue, foldl_digitsValue_eq_zero]

theorem eq_of_toLowerASCII_eq {c d : UInt8} (lowered : toLowerASCII c = d) (below : d < 65) : c = d := by
  by_cases upper : 65 ≤ c ∧ c ≤ 90
  · have shifted := toNat_toLowerASCII_upper upper
    have bounds : d.toNat < 65 ∧ 65 ≤ c.toNat := ⟨below, upper.1⟩
    subst lowered
    omega
  · exact (if_neg upper : toLowerASCII c = c).symm.trans lowered

theorem startsWith_oneThousand (rest : Bytes) :
    startsWithInsensitiveASCII (ascii "1.000") (49 :: rest) = true ↔
      rest = [] ∨ ∃ zeros, rest = 46 :: zeros ∧ zeros.length ≤ 3 ∧ ∀ z ∈ zeros, z = 48 := by
  have literal : (ascii "1.000").map toLowerASCII = 49 :: 46 :: List.replicate 3 48 := by decide
  have one : toLowerASCII 49 = 49 := by decide
  rw [startsWithInsensitiveASCII_iff, literal, List.map_cons, one, List.cons_prefix_cons,
    List.prefix_cons_iff, List.map_eq_nil_iff]
  refine (and_iff_right rfl).trans (or_congr_right ⟨?_, ?_⟩)
  · rintro ⟨t, shape, leading⟩
    obtain ⟨point, zeros, rfl, pointLower, rfl⟩ := List.map_eq_cons_iff.mp shape
    obtain ⟨short, same⟩ := List.isPrefix_replicate_iff.mp leading
    refine ⟨zeros, by rw [eq_of_toLowerASCII_eq pointLower (by decide)], by simpa using short, ?_⟩
    intro z member
    exact eq_of_toLowerASCII_eq (List.eq_of_mem_replicate (same ▸ List.mem_map_of_mem _ member)) (by decide)
  · rintro ⟨zeros, rfl, short, allZero⟩
    have lowered : zeros.map toLowerASCII = zeros := by
      conv_rhs => rw [← List.map_id zeros]
      exact List.map_congr_left fun z member => by rw [allZero z member]; rfl
    have point : toLowerASCII 46 = 46 := by decide
    refine ⟨zeros, by simp [lowered, point], ?_⟩
    rw [List.isPrefix_replicate_iff, List.eq_replicate_iff]
    exact ⟨short, rfl, allZero⟩

theorem weight_eq_zero (digits : Bytes) :
    digitsValue (digits ++ List.replicate (3 - digits.length) 48) = 0 ↔ digits.any (· != 48) = false := by
  rw [digitsValue_eq_zero]
  simp [or_imp, forall_and]

/-- Every q-value the rule derives, but `0.`, passes the code's checks, and the
entry's coding is inserted exactly where its weight is not zero. -/
theorem readQvalue_of_qvalue {qvalue : Bytes} {weight : Nat} (valid : Qvalue qvalue weight)
    (notPoint : qvalue ≠ ascii "0.") (encoding : Bytes) :
    readQvalue encoding qvalue = some (if weight = 0 then none else some encoding) := by
  cases valid with
  | zero => rfl
  | one => rfl
  | onePoint short allZero =>
      rename_i zeros
      simp [readQvalue, (startsWith_oneThousand (46 :: zeros)).mpr (.inr ⟨zeros, rfl, short, allZero⟩)]
  | zeroPoint short decimal =>
      rename_i digits
      have nonempty : digits ≠ [] := by
        rintro rfl
        exact notPoint rfl
      have long : ¬((48 :: 46 :: digits).length ≤ 2 || 5 < (48 :: 46 :: digits).length) = true := by
        have := List.length_pos.mpr nonempty
        simp only [List.length_cons, Bool.or_eq_true, decide_eq_true_eq]
        omega
      have allDigits : digits.all isAsciiDigit = true := List.all_eq_true.mpr decimal
      simp only [readQvalue, long]
      cases nonzero : digits.any (· != 48)
      · rw [if_pos ((weight_eq_zero digits).mpr nonzero)]
        simp [allDigits, nonzero]
      · have positive : digitsValue (digits ++ List.replicate (3 - digits.length) 48) ≠ 0 := fun zero => by
          simp [(weight_eq_zero digits).mp zero] at nonzero
        rw [if_neg positive]
        simp [allDigits, nonzero]

/-- Every q-value that passes the code's checks derives from the rule, and is
not `0.`; the coding is inserted exactly where the rule's weight is not zero. -/
theorem qvalue_of_readQvalue {encoding qvalue : Bytes} {result : Option Bytes}
    (read : readQvalue encoding qvalue = some result) :
    qvalue ≠ ascii "0." ∧ ∃ weight, Qvalue qvalue weight ∧ result = if weight = 0 then none else some encoding := by
  have point : ascii "0." = [48, 46] := rfl
  rw [point]
  rcases qvalue with _ | ⟨first, rest⟩
  · cases read
  by_cases one : first = 49
  · subst one
    have starts : startsWithInsensitiveASCII (ascii "1.000") (49 :: rest) = true := by
      by_contra refused
      simp [readQvalue, refused] at read
    have inserted : result = some encoding := by simpa [readQvalue, starts] using read.symm
    refine ⟨by simp, 1000, ?_, by simp [inserted]⟩
    rcases (startsWith_oneThousand rest).mp starts with rfl | ⟨zeros, rfl, short, allZero⟩
    exacts [.one, .onePoint short allZero]
  have zero : first = 48 := by
    by_contra other
    simp [readQvalue, one, other] at read
  subst zero
  rcases rest with _ | ⟨second, fraction⟩
  · refine ⟨by simp, 0, .zero, ?_⟩
    simpa [readQvalue] using read.symm
  have notOne : ((48 : UInt8) == 49) = false := rfl
  have isZero : ((48 : UInt8) != 48) = false := rfl
  simp only [readQvalue, List.length_cons, notOne, isZero, Bool.false_eq_true, if_false] at read
  split_ifs at read with long dot digits nonzero <;> cases read
  all_goals
    simp only [Bool.or_eq_true, decide_eq_true_eq, not_or, not_le, not_lt] at long
    simp only [bne_iff_ne, ne_eq, Decidable.not_not] at dot
    subst dot
    have short : fraction.length ≤ 3 := by omega
    have decimal : ∀ d ∈ fraction, isAsciiDigit d = true := by simpa using digits
    refine ⟨fun same => by cases same; simp at long, _, .zeroPoint short decimal, ?_⟩
  · rw [if_neg fun zero => by simp [(weight_eq_zero fraction).mp zero] at nonzero]
  · rw [if_pos ((weight_eq_zero fraction).mpr (Bool.eq_false_iff.mpr nonzero))]

/-- `ParseAcceptEncoding` reads a q-value as RFC 7231's rule does, but for
`0.`: a q-value passes its checks exactly when the rule derives it and it is
not `0.`, which the rule gives weight zero and the code refuses for its
length.  The entry's coding is then inserted exactly where the weight is not
zero. -/
theorem readQvalue_eq_some_iff (encoding qvalue : Bytes) (result : Option Bytes) :
    readQvalue encoding qvalue = some result ↔
      qvalue ≠ ascii "0." ∧ ∃ weight, Qvalue qvalue weight ∧ result = if weight = 0 then none else some encoding :=
  ⟨qvalue_of_readQvalue, fun ⟨notPoint, _, valid, chosen⟩ => chosen ▸ readQvalue_of_qvalue valid notPoint encoding⟩

/-- The rule derives `0.`, with weight zero; the code refuses it. -/
example : Qvalue (ascii "0.") 0 ∧ readQvalue (ascii "gzip") (ascii "0.") = none :=
  ⟨.zeroPoint (by decide) (by decide), rfl⟩

theorem Qvalue.mem {qvalue : Bytes} {weight : Nat} (valid : Qvalue qvalue weight) :
    qvalue ≠ [] ∧ ∀ b ∈ qvalue, b = 46 ∨ isAsciiDigit b = true := by
  cases valid with
  | zero | one => decide
  | zeroPoint _ decimal =>
      rw [List.forall_mem_cons, List.forall_mem_cons]
      exact ⟨List.cons_ne_nil _ _, .inr rfl, .inl rfl, fun d member => .inr (decimal d member)⟩
  | onePoint _ allZero =>
      rw [List.forall_mem_cons, List.forall_mem_cons]
      exact ⟨List.cons_ne_nil _ _, .inr rfl, .inl rfl, fun z member => .inr (by rw [allZero z member]; rfl)⟩

theorem plain_of_digit_or_point {b : UInt8} (kind : b = 46 ∨ isAsciiDigit b = true) :
    isLWS b = false ∧ b ≠ comma ∧ b ≠ dquote := by
  rcases kind with rfl | digit
  · decide
  · simp only [isAsciiDigit, Bool.and_eq_true, decide_eq_true_eq] at digit
    have bounds : 48 ≤ b.toNat ∧ b.toNat ≤ 57 := digit
    simp only [isLWS, Bool.or_eq_false_iff, beq_eq_false_iff_ne, ne_eq, comma, dquote, space, tab]
    refine ⟨⟨?_, ?_⟩, ?_, ?_⟩ <;> rintro rfl <;> revert bounds <;> decide

/-- An element `codings [ weight ]` of an `Accept-Encoding` list, RFC 7231
§5.3.4: its coding, a token, and where it has a weight, the q-value written
and the weight the rule gives it. -/
structure AcceptedCoding where
  coding : Bytes
  qvalue : Option (Bytes × Nat)
  token : isToken coding = true
  weighted : ∀ q ∈ qvalue, Qvalue q.1 q.2

namespace AcceptedCoding

def weight (c : AcceptedCoding) : Nat := (c.qvalue.map Prod.snd).getD 1000

def render (c : AcceptedCoding) : Bytes :=
  c.coding ++ (c.qvalue.map fun q => semicolon :: ascii "q=" ++ q.1).getD []

theorem render_plain (c : AcceptedCoding) :
    c.render ≠ [] ∧ ∀ b ∈ c.render, isLWS b = false ∧ b ≠ comma ∧ b ≠ dquote := by
  obtain ⟨nonempty, tokenChars⟩ := isToken_iff.mp c.token
  have coding : ∀ b ∈ c.coding, isLWS b = false ∧ b ≠ comma ∧ b ≠ dquote := fun b member =>
    have separators := isTokenChar_separators (tokenChars b member)
    ⟨isTokenChar_not_lws (tokenChars b member), separators.2.2.2, separators.2.1⟩
  refine ⟨by simp [render, nonempty], fun b member => ?_⟩
  rcases List.mem_append.mp member with inCoding | inWeight
  · exact coding b inCoding
  · obtain ⟨⟨q, w⟩, chosen, written⟩ : ∃ q, c.qvalue = some q ∧ b ∈ semicolon :: ascii "q=" ++ q.1 := by
      cases chosen : c.qvalue <;> simp_all
    rcases List.mem_cons.mp written with rfl | member
    · decide
    rcases List.mem_append.mp member with inName | inQvalue
    · have name : ∀ b ∈ ascii "q=", isLWS b = false ∧ b ≠ comma ∧ b ≠ dquote := by decide
      exact name b inName
    · exact plain_of_digit_or_point ((c.weighted _ chosen).mem.2 b inQvalue)

end AcceptedCoding

/-- A list of elements written out, `", "` between two. -/
def renderAcceptEncoding (codings : List AcceptedCoding) : Bytes :=
  [comma, space].intercalate (codings.map AcceptedCoding.render)

theorem trimLWS_of_noLWS {s : Bytes} (plain : ∀ b ∈ s, isLWS b = false) : trimLWS s = s :=
  trimLWS_eq_self (fun c head => plain c (List.mem_of_mem_head? head))
    (fun c last => plain c (List.mem_of_mem_getLast? last))

theorem acceptEncodingEntry_space (token : Bytes) :
    acceptEncodingEntry (space :: token) = acceptEncodingEntry token := by
  have trimmed : trimLWS (space :: token) = trimLWS token := by
    rw [trimLWS, List.dropWhile_cons_of_pos (by decide)]
    rfl
  simp only [acceptEncodingEntry, trimmed]

theorem acceptEncodingEntry_render (c : AcceptedCoding) (notPoint : ∀ q ∈ c.qvalue, q.1 ≠ ascii "0.") :
    acceptEncodingEntry c.render = some (if c.weight = 0 then none else some (c.coding.map toLowerASCII)) := by
  obtain ⟨-, plain⟩ := c.render_plain
  obtain ⟨-, tokenChars⟩ := isToken_iff.mp c.token
  have codingPlain : ∀ b ∈ c.coding, isLWS b = false := fun b member => isTokenChar_not_lws (tokenChars b member)
  have noSemicolon : ∀ b ∈ c.coding, (b == semicolon) = false := fun b member =>
    beq_false_of_ne (isTokenChar_separators (tokenChars b member)).2.2.1
  have noLWS : c.coding.any isLWS = false := by simpa using codingPlain
  simp only [acceptEncodingEntry, trimLWS_of_noLWS fun b member => (plain b member).1]
  rcases chosen : c.qvalue with _ | ⟨q, w⟩
  · have written : c.render = c.coding := by simp [AcceptedCoding.render, chosen]
    simp only [written, findIndex_eq_none.mpr noSemicolon, noLWS]
    simp [AcceptedCoding.weight, chosen]
  · have valid := c.weighted _ chosen
    have qvaluePlain : ∀ b ∈ q, isLWS b = false := fun b member => (plain_of_digit_or_point (valid.mem.2 b member)).1
    have namePlain : ∀ b ∈ ascii "q=", isLWS b = false := by decide
    have paramsPlain : ∀ b ∈ ascii "q=" ++ q, isLWS b = false := fun b member =>
      (List.mem_append.mp member).elim (namePlain b) (qvaluePlain b)
    have written : c.render = c.coding ++ semicolon :: (ascii "q=" ++ q) := by simp [AcceptedCoding.render, chosen]
    have equalsAt : findIndex (· == equals) (ascii "q=" ++ q) = some 1 := rfl
    have name : lowerCaseEqualsASCII (trimLWS ((ascii "q=" ++ q).take 1)) (ascii "q") = true := rfl
    have rest : (ascii "q=" ++ q).drop 2 = q := rfl
    have params : (c.coding ++ semicolon :: (ascii "q=" ++ q)).drop (c.coding.length + 1) = ascii "q=" ++ q := by
      simp
    simp only [written, findIndex_append_cons _ noSemicolon (beq_self_eq_true _), List.take_left' rfl,
      params, trimLWS_of_noLWS codingPlain, noLWS, trimLWS_of_noLWS paramsPlain, equalsAt, name,
      rest, trimLWS_of_noLWS qvaluePlain, readQvalue_of_qvalue valid (notPoint _ chosen)]
    simp [AcceptedCoding.weight, chosen]

theorem intercalate_eq_append_flatMap (sep x : Bytes) (xs : List Bytes) :
    sep.intercalate (x :: xs) = x ++ xs.flatMap (sep ++ ·) := by
  induction xs generalizing x with
  | nil => simp [List.intercalate]
  | cons y ys ih =>
      simp [List.intercalate, List.intersperse] at ih ⊢
      rw [← ih y]

theorem map_acceptEncodingEntry_fields (codings : List AcceptedCoding) :
    (fields [comma] (renderAcceptEncoding codings)).map acceptEncodingEntry =
      codings.map fun c => acceptEncodingEntry c.render := by
  cases codings with
  | nil => rfl
  | cons c cs =>
      have noComma : ∀ d : AcceptedCoding, ∀ b ∈ d.render, b ∉ [comma] := fun d b member => by
        simpa using (d.render_plain.2 b member).2.1
      have spaced : (cs.map AcceptedCoding.render).flatMap ([comma, space] ++ ·) =
          (cs.map fun d : AcceptedCoding => space :: d.render).flatMap ([comma] ++ ·) ++ [] := by
        simp [List.flatMap_map]
      have after : ∀ b ∈ ((cs.map fun d : AcceptedCoding => space :: d.render).flatMap ([comma] ++ ·) ++ []).head?, b ∈ [comma] := by
        cases cs <;> simp
      have words : ∀ w ∈ cs.map fun d : AcceptedCoding => space :: d.render, w ≠ [] ∧ ∀ b ∈ w, b ∉ [comma] := by
        simp only [List.mem_map]
        rintro _ ⟨d, -, rfl⟩
        exact ⟨List.cons_ne_nil _ _, fun b member => (List.mem_cons.mp member).elim (by rintro rfl; decide)
          (noComma d b)⟩
      rw [renderAcceptEncoding, List.map_cons, intercalate_eq_append_flatMap, spaced,
        fields_word_append c.render_plain.1 (noComma c) after,
        fields_flatMap [comma] (by simp) (List.cons_ne_nil _ _) (by simp) words]
      simp only [List.map_cons, List.map_map, Function.comp_def, acceptEncodingEntry_space]

theorem mem_mirrorAliases_iff {allowed : List Bytes} {x : Bytes} :
    x ∈ mirrorAliases allowed ↔ x ∈ allowed ∨ ∃ a ∈ allowed, (a, x) ∈ kAliases := by
  refine ⟨mem_mirrorAliases, ?_⟩
  rintro (member | ⟨a, member, pair⟩)
  · simp [mirrorAliases, kAliases, mem_mirrorAlias, member]
  · simp only [kAliases, List.mem_cons, Prod.mk.injEq, List.mem_nil_iff, or_false] at pair
    rcases pair with ⟨rfl, rfl⟩ | ⟨rfl, rfl⟩ | ⟨rfl, rfl⟩ | ⟨rfl, rfl⟩ <;>
      simp [mirrorAliases, kAliases, mem_mirrorAlias, member]

theorem mem_renderAcceptEncoding {codings : List AcceptedCoding} {b : UInt8}
    (member : b ∈ renderAcceptEncoding codings) : b = comma ∨ b = space ∨ ∃ c ∈ codings, b ∈ c.render := by
  cases codings with
  | nil => cases member
  | cons c cs =>
      rw [renderAcceptEncoding, List.map_cons, intercalate_eq_append_flatMap] at member
      simp only [List.mem_append, List.mem_flatMap, List.mem_map, List.mem_cons, List.mem_nil_iff,
        or_false] at member
      rcases member with inFirst | ⟨_, ⟨d, listed, rfl⟩, (rfl | rfl) | inRender⟩
      · exact .inr (.inr ⟨c, List.mem_cons_self _ _, inFirst⟩)
      · exact .inl rfl
      · exact .inr (.inl rfl)
      · exact .inr (.inr ⟨d, List.mem_cons_of_mem _ listed, inRender⟩)

/-- The entry loop of `ParseAcceptEncoding` accepts every element of a written
list and allows exactly its codings of positive weight, lower-cased. -/
theorem insertEntries_renderAcceptEncoding (codings : List AcceptedCoding)
    (notPoint : ∀ c ∈ codings, ∀ q ∈ c.qvalue, q.1 ≠ ascii "0.") :
    ∃ allowed, insertEntries acceptEncodingEntry (fields [comma] (renderAcceptEncoding codings)) [] = (true, allowed) ∧
      ∀ x, x ∈ allowed ↔ ∃ c ∈ codings, 0 < c.weight ∧ x = c.coding.map toLowerASCII := by
  have read : ∀ v, (∃ t ∈ fields [comma] (renderAcceptEncoding codings), acceptEncodingEntry t = v) ↔
      ∃ c ∈ codings, some (if c.weight = 0 then none else some (c.coding.map toLowerASCII)) = v := by
    intro v
    rw [← List.mem_map, map_acceptEncodingEntry_fields, List.mem_map]
    exact exists_congr fun c => and_congr_right fun member => by
      rw [acceptEncodingEntry_render c (notPoint c member)]
  have passed : (insertEntries acceptEncodingEntry (fields [comma] (renderAcceptEncoding codings)) []).1 = true := by
    rw [insertEntries_fst, List.all_eq_true]
    intro t member
    obtain ⟨c, -, same⟩ := (read _).mp ⟨t, member, rfl⟩
    rw [← same]
    rfl
  refine ⟨_, Prod.ext passed rfl, fun x => ?_⟩
  rw [(insertEntries_true (Prod.ext passed rfl)).2, read]
  simp only [List.not_mem_nil, false_or]
  refine exists_congr fun c => and_congr_right fun _ => ?_
  split_ifs with zero <;> simp [zero, Nat.pos_iff_ne_zero, eq_comm]

theorem contains_dquote_renderAcceptEncoding (codings : List AcceptedCoding) :
    (renderAcceptEncoding codings).contains dquote = false := by
  refine Bool.eq_false_iff.mpr fun found => ?_
  rcases mem_renderAcceptEncoding (List.elem_iff.mp found) with same | same | ⟨c, -, inRender⟩
  · exact absurd same (by decide)
  · exact absurd same (by decide)
  · exact (c.render_plain.2 _ inRender).2.2 rfl

/-- Over every list written by RFC 7231's grammar, `", "` between elements and
no q-value `0.`, `ParseAcceptEncoding` succeeds, and the set it leaves is what
the list means: `*` where every element has weight zero, and otherwise
`identity`, each coding of positive weight, lower-cased, and its `x-` alias. -/
theorem parseAcceptEncoding_renderAcceptEncoding (codings : List AcceptedCoding) (set : List Bytes)
    (notPoint : ∀ c ∈ codings, ∀ q ∈ c.qvalue, q.1 ≠ ascii "0.") :
    (parseAcceptEncoding (renderAcceptEncoding codings) set).1 = true ∧
      ∀ x, x ∈ (parseAcceptEncoding (renderAcceptEncoding codings) set).2 ↔
        if ∀ c ∈ codings, c.weight = 0 then x = ascii "*"
        else x = ascii "identity" ∨ ∃ c ∈ codings, 0 < c.weight ∧
          (x = c.coding.map toLowerASCII ∨ (c.coding.map toLowerASCII, x) ∈ kAliases) := by
  obtain ⟨allowed, run, members⟩ := insertEntries_renderAcceptEncoding codings notPoint
  have parsed : parseAcceptEncoding (renderAcceptEncoding codings) set =
      (true, if allowed.isEmpty then [ascii "*"] else mirrorAliases (allowed.insert (ascii "identity"))) := by
    simp only [parseAcceptEncoding, contains_dquote_renderAcceptEncoding, StringTokenizer.pieces_init, run,
      Bool.false_eq_true, if_false]
    split <;> rfl
  rw [parsed]
  refine ⟨rfl, fun x => ?_⟩
  by_cases zero : ∀ c ∈ codings, c.weight = 0
  · have empty : allowed = [] := List.eq_nil_iff_forall_not_mem.mpr fun y member => by
      obtain ⟨c, listed, positive, -⟩ := (members y).mp member
      exact absurd (zero c listed) (Nat.pos_iff_ne_zero.mp positive)
    rw [if_pos zero, empty]
    simp
  · obtain ⟨c, listed, positive⟩ : ∃ c ∈ codings, 0 < c.weight := by
      simpa [Nat.pos_iff_ne_zero] using zero
    have nonempty : allowed.isEmpty = false :=
      List.isEmpty_eq_false_iff_exists_mem.mpr ⟨_, (members _).mpr ⟨c, listed, positive, rfl⟩⟩
    have notIdentity : ∀ p ∈ kAliases, p.1 ≠ ascii "identity" := by decide
    simp only [nonempty, Bool.false_eq_true, if_false, if_neg zero, mem_mirrorAliases_iff, List.mem_insert_iff,
      members]
    constructor
    · rintro ((rfl | ⟨c, listed, positive, rfl⟩) | ⟨a, (rfl | ⟨c, listed, positive, rfl⟩), pair⟩)
      · exact .inl rfl
      · exact .inr ⟨c, listed, positive, .inl rfl⟩
      · exact absurd rfl (notIdentity _ pair)
      · exact .inr ⟨c, listed, positive, .inr pair⟩
    · rintro (rfl | ⟨c, listed, positive, rfl | pair⟩)
      · exact .inl (.inl rfl)
      · exact .inl (.inr ⟨c, listed, positive, rfl⟩)
      · exact .inr ⟨_, .inr ⟨c, listed, positive, rfl⟩, pair⟩

theorem parseAcceptEncoding_renderAcceptEncoding_gzip :
    let codings : List AcceptedCoding :=
      [⟨ascii "gzip", some (ascii "0.5", 500), rfl, fun _ chosen => by
          cases chosen
          exact @Qvalue.zeroPoint [53] (by decide) (by decide)⟩,
        ⟨ascii "br", none, rfl, fun _ chosen => by cases chosen⟩]
    (∀ c ∈ codings, ∀ q ∈ c.qvalue, q.1 ≠ ascii "0.") ∧
      (parseAcceptEncoding (renderAcceptEncoding codings) []).1 = true ∧
      ∀ x, x ∈ (parseAcceptEncoding (renderAcceptEncoding codings) []).2 ↔
        if ∀ c ∈ codings, c.weight = 0 then x = ascii "*"
        else x = ascii "identity" ∨ ∃ c ∈ codings, 0 < c.weight ∧
          (x = c.coding.map toLowerASCII ∨ (c.coding.map toLowerASCII, x) ∈ kAliases) := by
  intro codings
  have notPoint : ∀ c ∈ codings, ∀ q ∈ c.qvalue, q.1 ≠ ascii "0." := by
    intro c member q chosen
    simp only [codings, List.mem_cons, List.mem_nil_iff, or_false] at member
    rcases member with rfl | rfl <;> cases chosen
    decide
  exact ⟨notPoint, parseAcceptEncoding_renderAcceptEncoding codings [] notPoint⟩

end HttpUtil
