import HttpUtil.Ranges
import HttpUtil.Tables

/-! # Content codings

`HttpUtil::ParseAcceptEncoding` and `HttpUtil::ParseContentEncoding` read a
comma-separated list with a `StringTokenizer` and insert what each entry names
into a `std::set<std::string>`.  The set is modelled by a list without
duplicates, grown by `List.insert`: the code reads only which names it holds.
The two loops differ only in what one entry does, so they are one loop,
`insertEntries`, over that.

Both functions clear the set before their loop and return `false` from inside
it, so a failing call leaves the names of the entries before the one it failed
at; `ParseRangeHeader` never clears `*ranges` at all.  Where every entry of an
`Accept-Encoding` list has a zero q-value, the set is empty after the loop, and
the code reads an empty set as "no preference": it stores `*`.
-/

namespace HttpUtil

open Ascii

/-- The loop `while (tokenizer.GetNext())` of `ParseAcceptEncoding` and of
`ParseContentEncoding` over the tokens `tokens`, from the set `encodings`:
what the call returns, and the set.  `entry` is the body on one token: `none`
where it returns `false`, `some none` where it goes on to the next token, and
`some (some e)` where it inserts `e` first. -/
def insertEntries (entry : Bytes → Option (Option Bytes)) :
    List Bytes → List Bytes → Bool × List Bytes
  | [], encodings => (true, encodings)
  | token :: tokens, encodings =>
      match entry token with
      | none => (false, encodings)
      | some none => insertEntries entry tokens encodings
      | some (some encoding) => insertEntries entry tokens (encodings.insert encoding)

/-- The checks of `ParseAcceptEncoding` on the trimmed q-value `qvalue` of an
entry naming `encoding` (lower-cased): `1` up to `1.000` inserts it, `0` up to
three zero decimals skips it, other decimals of `0.` insert it. -/
def readQvalue (encoding qvalue : Bytes) : Option (Option Bytes) :=
  match qvalue with
  | [] => none
  | first :: rest =>
      if first == 49 then  -- `1`
        if startsWithInsensitiveASCII (ascii "1.000") qvalue then some (some encoding) else none
      else if first != 48 then none  -- `0`
      else
        match rest with
        | [] => some none
        | second :: fraction =>
            if qvalue.length ≤ 2 || 5 < qvalue.length then none
            else if second != 46 then none  -- `.`
            else if !fraction.all isAsciiDigit then none
            else if fraction.any (· != 48) then some (some encoding) else some none

/-- The body of the loop of `ParseAcceptEncoding` on one token. -/
def acceptEncodingEntry (token : Bytes) : Option (Option Bytes) :=
  let entry := trimLWS token
  match findIndex (· == semicolon) entry with
  | none => if entry.any isLWS then none else some (some (entry.map toLowerASCII))
  | some semicolonPos =>
      let encoding := trimLWS (entry.take semicolonPos)
      if encoding.any isLWS then none
      else
        let params := trimLWS (entry.drop (semicolonPos + 1))
        match findIndex (· == equals) params with
        | none => none
        | some equalsPos =>
            if !lowerCaseEqualsASCII (trimLWS (params.take equalsPos)) (ascii "q") then none
            else readQvalue (encoding.map toLowerASCII) (trimLWS (params.drop (equalsPos + 1)))

/-- `if (allowed_encodings->find(a) != end) allowed_encodings->insert(b)`. -/
def mirrorAlias (a b : Bytes) (allowed : List Bytes) : List Bytes :=
  if a ∈ allowed then allowed.insert b else allowed

/-- The aliases `ParseAcceptEncoding` mirrors, in the order of its statements:
`gzip` and `x-gzip`, then `compress` and `x-compress`. -/
def kAliases : List (Bytes × Bytes) :=
  [(ascii "gzip", ascii "x-gzip"), (ascii "x-gzip", ascii "gzip"),
    (ascii "compress", ascii "x-compress"), (ascii "x-compress", ascii "compress")]

/-- The four mirroring statements at the end of `ParseAcceptEncoding`. -/
def mirrorAliases (allowed : List Bytes) : List Bytes :=
  kAliases.foldl (fun allowed pair => mirrorAlias pair.1 pair.2 allowed) allowed

/-- `HttpUtil::ParseAcceptEncoding(accept_encoding, allowed_encodings)`: what it
returns, and `*allowed_encodings`. -/
def parseAcceptEncoding (acceptEncoding : Bytes) (allowedEncodings : List Bytes) :
    Bool × List Bytes :=
  if acceptEncoding.contains dquote then (false, allowedEncodings)
  else
    match insertEntries acceptEncodingEntry (StringTokenizer.init acceptEncoding 0 [comma]).pieces []
    with
    | (false, allowed) => (false, allowed)
    | (true, allowed) =>
        if allowed.isEmpty then (true, [ascii "*"])
        else (true, mirrorAliases (allowed.insert (ascii "identity")))

/-- The body of the loop of `ParseContentEncoding` on one token. -/
def contentEncodingEntry (token : Bytes) : Option (Option Bytes) :=
  let encoding := trimLWS token
  if encoding.any isLWS then none else some (some (encoding.map toLowerASCII))

/-- `HttpUtil::ParseContentEncoding(content_encoding, used_encodings)`: what it
returns, and `*used_encodings`. -/
def parseContentEncoding (contentEncoding : Bytes) (usedEncodings : List Bytes) :
    Bool × List Bytes :=
  if contentEncoding.any (fun c => c == dquote || c == equals || c == semicolon || c == 42) then
    (false, usedEncodings)
  else insertEntries contentEncodingEntry (StringTokenizer.init contentEncoding 0 [comma]).pieces []

section Loop

variable {entry : Bytes → Option (Option Bytes)}

/-- A run to the end of the tokens inserts exactly the names its entries give,
and meets no failing entry. -/
theorem insertEntries_true {tokens acc out : List Bytes}
    (returned : insertEntries entry tokens acc = (true, out)) :
    (∀ t ∈ tokens, entry t ≠ none) ∧ ∀ x, x ∈ out ↔ x ∈ acc ∨ ∃ t ∈ tokens, entry t = some (some x) := by
  induction tokens generalizing acc with
  | nil =>
      cases returned
      simp
  | cons t tokens ih =>
      rcases read : entry t with _ | _ | e
      · simp [insertEntries, read] at returned
      · simp only [insertEntries, read] at returned
        obtain ⟨passed, members⟩ := ih returned
        exact ⟨by simpa [read] using passed, fun x => by simp [members, read]⟩
      · simp only [insertEntries, read] at returned
        obtain ⟨passed, members⟩ := ih returned
        refine ⟨by simpa [read] using passed, fun x => ?_⟩
        rw [members, List.mem_insert_iff]
        by_cases same : x = e
        · subst same; simp [read]
        · simp [read, same, Ne.symm same]

theorem insertEntries_false {tokens acc out : List Bytes}
    (failed : insertEntries entry tokens acc = (false, out)) :
    ∃ pre bad post, tokens = pre ++ bad :: post ∧ entry bad = none ∧
      insertEntries entry pre acc = (true, out) := by
  induction tokens generalizing acc with
  | nil => cases failed
  | cons t tokens ih =>
      rcases read : entry t with _ | _ | e
      · simp only [insertEntries, read, Prod.mk.injEq, true_and] at failed
        exact ⟨[], t, tokens, rfl, read, by rw [failed]; rfl⟩
      all_goals
        simp only [insertEntries, read] at failed
        obtain ⟨pre, bad, post, rfl, rejected, run⟩ := ih failed
        exact ⟨t :: pre, bad, post, rfl, rejected, by simp only [insertEntries, read, run]⟩

theorem insertEntries_fst (tokens acc : List Bytes) :
    (insertEntries entry tokens acc).1 = tokens.all fun t => (entry t).isSome := by
  induction tokens generalizing acc with
  | nil => rfl
  | cons t tokens ih => rcases read : entry t with _ | _ | e <;> simp [insertEntries, read, ih]

end Loop

example : insertEntries contentEncodingEntry [ascii "gzip", ascii "a b", ascii "br"] [] =
    (false, [ascii "gzip"]) := by decide

theorem parseAcceptEncoding_true {s : Bytes} {set out : List Bytes}
    (returned : parseAcceptEncoding s set = (true, out)) :
    ∃ allowed, insertEntries acceptEncodingEntry (fields [comma] s) [] = (true, allowed) ∧
      out = if allowed.isEmpty then [ascii "*"] else mirrorAliases (allowed.insert (ascii "identity")) := by
  unfold parseAcceptEncoding at returned
  rw [StringTokenizer.pieces_init] at returned
  split_ifs at returned
  · cases returned
  split at returned
  · cases returned
  · rename_i allowed run
    refine ⟨allowed, run, ?_⟩
    split_ifs at returned <;> cases returned <;> simp_all

theorem parseAcceptEncoding_false {s : Bytes} {set out : List Bytes}
    (failed : parseAcceptEncoding s set = (false, out)) :
    out = set ∨ insertEntries acceptEncodingEntry (fields [comma] s) [] = (false, out) := by
  unfold parseAcceptEncoding at failed
  rw [StringTokenizer.pieces_init] at failed
  split_ifs at failed
  · exact .inl (Prod.mk.inj failed).2.symm
  split at failed
  · rename_i allowed run
    cases failed
    exact .inr run
  · split_ifs at failed <;> cases failed

theorem parseContentEncoding_false {s : Bytes} {set out : List Bytes}
    (failed : parseContentEncoding s set = (false, out)) :
    out = set ∨ insertEntries contentEncodingEntry (fields [comma] s) [] = (false, out) := by
  unfold parseContentEncoding at failed
  rw [StringTokenizer.pieces_init] at failed
  split_ifs at failed
  · exact .inl (Prod.mk.inj failed).2.symm
  · exact .inr failed

/-- `ParseContentEncoding` accepts exactly the lists without a quote mark, `=`,
`;` or `*` whose comma-separated entries, trimmed, hold no LWS; the set then
holds exactly those entries, trimmed and lower-cased. -/
theorem parseContentEncoding_accepts (s : Bytes) (set : List Bytes) :
    (parseContentEncoding s set).1 =
        (!s.any (fun c => c == dquote || c == equals || c == semicolon || c == 42) &&
          (fields [comma] s).all fun t => !(trimLWS t).any isLWS) ∧
      ((parseContentEncoding s set).1 = true →
        ∀ x, x ∈ (parseContentEncoding s set).2 ↔ ∃ t ∈ fields [comma] s, x = (trimLWS t).map toLowerASCII) := by
  unfold parseContentEncoding
  rw [StringTokenizer.pieces_init]
  split_ifs with forbidden
  · rw [forbidden]
    simp
  · rw [Bool.eq_false_iff.mpr forbidden]
    have entries : ∀ t, (contentEncodingEntry t).isSome = !(trimLWS t).any isLWS := fun t => by
      by_cases spaced : (trimLWS t).any isLWS <;> simp [contentEncodingEntry, spaced]
    refine ⟨by simp [insertEntries_fst, entries], fun accepted x => ?_⟩
    obtain ⟨passed, members⟩ := insertEntries_true (Prod.ext accepted rfl)
    rw [members]
    simp only [List.not_mem_nil, false_or]
    refine exists_congr fun t => and_congr_right fun member => ?_
    have clean : (trimLWS t).any isLWS = false := by
      simpa [entries] using Option.ne_none_iff_isSome.mp (passed t member)
    simp [contentEncodingEntry, clean, eq_comm]

/-- An entry of LWS only is taken as the empty name. -/
example : parseContentEncoding (ascii "gzip, ,BR") [] = (true, [ascii "br", [], ascii "gzip"]) := by decide

theorem mem_foldl_mirrorAlias {allowed : List Bytes} :
    ∀ (pairs : List (Bytes × Bytes)) (current : List Bytes), (∀ p ∈ pairs, p ∈ kAliases) →
      (∀ y ∈ current, y ∈ allowed ∨ ∃ a ∈ allowed, (a, y) ∈ kAliases) →
      ∀ y ∈ pairs.foldl (fun allowed pair => mirrorAlias pair.1 pair.2 allowed) current,
        y ∈ allowed ∨ ∃ a ∈ allowed, (a, y) ∈ kAliases
  | [], _, _, before => before
  | (a, b) :: pairs, current, table, before => by
      have paired : ∀ p ∈ kAliases, ∀ q ∈ kAliases, p.2 = q.1 → p.1 = q.2 := by decide
      refine mem_foldl_mirrorAlias pairs _ (fun p member => table p (List.mem_cons_of_mem _ member)) ?_
      intro y member
      dsimp only [mirrorAlias] at member
      split_ifs at member with present
      · rcases List.mem_insert_iff.mp member with rfl | old
        · rcases before a present with original | ⟨a', original, pair⟩
          · exact .inr ⟨a, original, table _ (List.mem_cons_self _ _)⟩
          · have same : a' = y := paired _ pair _ (table _ (List.mem_cons_self _ _)) rfl
            exact .inl (same ▸ original)
        · exact before y old
      · exact before y member

theorem mem_mirrorAliases {allowed : List Bytes} {x : Bytes} (member : x ∈ mirrorAliases allowed) :
    x ∈ allowed ∨ ∃ a ∈ allowed, (a, x) ∈ kAliases :=
  mem_foldl_mirrorAlias kAliases allowed (fun _ member => member) (fun _ member => .inl member) x member

theorem mem_mirrorAlias {a b x : Bytes} {allowed : List Bytes} :
    x ∈ mirrorAlias a b allowed ↔ x ∈ allowed ∨ x = b ∧ a ∈ allowed := by
  unfold mirrorAlias
  split_ifs with present <;> simp [List.mem_insert_iff, present, or_comm]

/-- Over a list `ParseAcceptEncoding` accepts, let `e` be a name other than
`identity` such that no entry inserts `e`, `*`, or a name that has `e` for an
alias.  The set ends holding `e` or `*` exactly when it is `{*}`, and it is
`{*}` exactly when every entry has a zero q-value: a list that refuses every
coding it names allows them all. -/
theorem parseAcceptEncoding_refused {s : Bytes} {set out : List Bytes}
    (returned : parseAcceptEncoding s set = (true, out)) {e : Bytes}
    (notIdentity : e.map toLowerASCII ≠ ascii "identity")
    (others : ∀ t ∈ fields [comma] s, ∀ x, acceptEncodingEntry t = some (some x) →
      x ≠ e.map toLowerASCII ∧ x ≠ ascii "*" ∧ (x, e.map toLowerASCII) ∉ kAliases) :
    (e.map toLowerASCII ∈ out ∨ ascii "*" ∈ out ↔ out = [ascii "*"]) ∧
      (out = [ascii "*"] ↔ ∀ t ∈ fields [comma] s, acceptEncodingEntry t = some none) := by
  obtain ⟨allowed, run, rfl⟩ := parseAcceptEncoding_true returned
  obtain ⟨passed, members⟩ := insertEntries_true run
  have inserted : ∀ x ∈ allowed, ∃ t ∈ fields [comma] s, acceptEncodingEntry t = some (some x) :=
    fun x member => by simpa using (members x).mp member
  cases allowed with
  | nil =>
      have zero : ∀ t ∈ fields [comma] s, acceptEncodingEntry t = some none := fun t member => by
        rcases read : acceptEncodingEntry t with _ | _ | x
        · exact absurd read (passed t member)
        · rfl
        · exact absurd ((members x).mpr (.inr ⟨t, member, read⟩)) (List.not_mem_nil x)
      simp only [List.isEmpty_nil, if_true]
      exact ⟨iff_of_true (.inr (List.mem_singleton_self _)) trivial, iff_of_true trivial zero⟩
  | cons y rest =>
      have identity : ∀ p ∈ kAliases, p.1 ≠ ascii "identity" ∧ p.2 ≠ ascii "*" := by decide
      have source : ∀ x ∈ (y :: rest).insert (ascii "identity"), x = ascii "identity" ∨
          x ≠ e.map toLowerASCII ∧ x ≠ ascii "*" ∧ (x, e.map toLowerASCII) ∉ kAliases := by
        intro x member
        rcases List.mem_insert_iff.mp member with rfl | old
        · exact .inl rfl
        · obtain ⟨t, listed, read⟩ := inserted x old
          exact .inr (others t listed x read)
      have notE : e.map toLowerASCII ∉ mirrorAliases ((y :: rest).insert (ascii "identity")) := by
        intro member
        rcases mem_mirrorAliases member with old | ⟨a, old, pair⟩
        · rcases source _ old with same | ⟨differs, -⟩
          exacts [notIdentity same, differs rfl]
        · rcases source a old with rfl | ⟨-, -, notPair⟩
          exacts [(identity _ pair).1 rfl, notPair pair]
      have notStar : ascii "*" ∉ mirrorAliases ((y :: rest).insert (ascii "identity")) := by
        intro member
        rcases mem_mirrorAliases member with old | ⟨a, -, pair⟩
        · rcases source _ old with same | ⟨-, differs, -⟩
          exacts [absurd same (by decide), differs rfl]
        · exact (identity _ pair).2 rfl
      obtain ⟨t, listed, read⟩ := inserted y (List.mem_cons_self _ _)
      have notZero : ¬∀ t ∈ fields [comma] s, acceptEncodingEntry t = some none :=
        fun zero => by simp [zero t listed] at read
      have notOnlyStar : mirrorAliases ((y :: rest).insert (ascii "identity")) ≠ [ascii "*"] :=
        fun only => notStar (by simp [only])
      simp only [List.isEmpty_cons, Bool.false_eq_true, if_false]
      exact ⟨iff_of_false (by simp [notE, notStar]) notOnlyStar, iff_of_false notOnlyStar notZero⟩

theorem parseAcceptEncoding_refused_gzip :
    parseAcceptEncoding (ascii "gzip;q=0") [] = (true, [ascii "*"]) ∧
      (ascii "gzip").map toLowerASCII ≠ ascii "identity" ∧
      (∀ t ∈ fields [comma] (ascii "gzip;q=0"), ∀ x, acceptEncodingEntry t = some (some x) →
        x ≠ (ascii "gzip").map toLowerASCII ∧ x ≠ ascii "*" ∧
          (x, (ascii "gzip").map toLowerASCII) ∉ kAliases) ∧
      ((ascii "gzip").map toLowerASCII ∈ [ascii "*"] ∨ ascii "*" ∈ [ascii "*"] ↔
        [ascii "*"] = [ascii "*"]) ∧
      ([ascii "*"] = [ascii "*"] ↔
        ∀ t ∈ fields [comma] (ascii "gzip;q=0"), acceptEncodingEntry t = some none) := by
  have returned : parseAcceptEncoding (ascii "gzip;q=0") [] = (true, [ascii "*"]) := by decide
  have tokens : fields [comma] (ascii "gzip;q=0") = [ascii "gzip;q=0"] := by decide
  have zero : acceptEncodingEntry (ascii "gzip;q=0") = some none := by decide
  have others : ∀ t ∈ fields [comma] (ascii "gzip;q=0"), ∀ x, acceptEncodingEntry t = some (some x) →
      x ≠ (ascii "gzip").map toLowerASCII ∧ x ≠ ascii "*" ∧
        (x, (ascii "gzip").map toLowerASCII) ∉ kAliases := by
    rw [tokens]
    simp [zero]
  exact ⟨returned, by decide, others, parseAcceptEncoding_refused returned (by decide) others⟩

/-- `Accept-Encoding: gzip;q=0` is one entry refusing `gzip`, and the call stores
`{*}`: the empty set the loop leaves is read as no preference. -/
theorem parseAcceptEncoding_only_zero :
    fields [comma] (ascii "gzip;q=0") = [ascii "gzip;q=0"] ∧
      acceptEncodingEntry (ascii "gzip;q=0") = some none ∧
      parseAcceptEncoding (ascii "gzip;q=0") [] = (true, [ascii "*"]) := by
  decide

theorem parseRanges_extends :
    ∀ (fuel : Nat) (it : ValuesIterator) (ranges : List HttpByteRange),
      ranges <+: (parseRanges fuel it ranges).2
  | 0, _, ranges => List.prefix_refl ranges
  | fuel + 1, it, ranges => by
      simp only [parseRanges]
      split
      · exact List.prefix_refl ranges
      · split
        · exact List.prefix_refl ranges
        · exact (List.prefix_append ranges _).trans (parseRanges_extends fuel _ _)

theorem parseRangeHeader_extends (s : Bytes) (ranges : List HttpByteRange) :
    ranges <+: (parseRangeHeader s ranges).2 := by
  unfold parseRangeHeader
  split
  · exact List.prefix_refl ranges
  · split_ifs
    · exact List.prefix_refl ranges
    · exact parseRanges_extends _ _ _

/-- A failing call of `ParseRangeHeader` keeps the ranges it was given, and
those it pushed before failing after them.  A failing call of
`ParseAcceptEncoding` or `ParseContentEncoding` leaves the set as it was, where
the string holds a rejected character, or else the set that a run over the
entries before the failing one builds from empty. -/
theorem parseFailure_outputs (s : Bytes) (ranges : List HttpByteRange) (encodings : List Bytes) :
    ((parseRangeHeader s ranges).1 = false → ranges <+: (parseRangeHeader s ranges).2) ∧
      ((parseAcceptEncoding s encodings).1 = false →
        (parseAcceptEncoding s encodings).2 = encodings ∨
          ∃ pre bad post, fields [comma] s = pre ++ bad :: post ∧ acceptEncodingEntry bad = none ∧
            insertEntries acceptEncodingEntry pre [] = (true, (parseAcceptEncoding s encodings).2)) ∧
      ((parseContentEncoding s encodings).1 = false →
        (parseContentEncoding s encodings).2 = encodings ∨
          ∃ pre bad post, fields [comma] s = pre ++ bad :: post ∧ contentEncodingEntry bad = none ∧
            insertEntries contentEncodingEntry pre [] = (true, (parseContentEncoding s encodings).2)) := by
  refine ⟨fun _ => parseRangeHeader_extends s ranges, fun failed => ?_, fun failed => ?_⟩
  · rcases parseAcceptEncoding_false (Prod.ext failed rfl) with kept | run
    · exact .inl kept
    · exact .inr (insertEntries_false run)
  · rcases parseContentEncoding_false (Prod.ext failed rfl) with kept | run
    · exact .inl kept
    · exact .inr (insertEntries_false run)

theorem parseFailure_outputs_partial :
    parseRangeHeader (ascii "bytes=0" ++ nul :: ascii "-,x") [] = (false, [⟨0, -1, -1⟩]) ∧
      parseAcceptEncoding (ascii "gzip, br;x=1") [ascii "br"] = (false, [ascii "gzip"]) ∧
      parseContentEncoding (ascii "gzip, a b") [ascii "br"] = (false, [ascii "gzip"]) ∧
      ∃ pre bad post, fields [comma] (ascii "gzip, a b") = pre ++ bad :: post ∧
        contentEncodingEntry bad = none ∧
        insertEntries contentEncodingEntry pre [] = (true, [ascii "gzip"]) := by
  have run : parseContentEncoding (ascii "gzip, a b") [ascii "br"] = (false, [ascii "gzip"]) := by
    decide
  have outputs := (parseFailure_outputs (ascii "gzip, a b") [] [ascii "br"]).2.2 (by rw [run])
  rw [run] at outputs
  exact ⟨by decide, by decide, run, outputs.resolve_left (by decide)⟩

end HttpUtil
