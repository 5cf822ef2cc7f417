import HttpUtil.Text.Tokenizer
import HttpUtil.Numbers

/-! # Language lists

`HttpUtil::ExpandLanguageList` adds to a preference list the base of each
language where the next one is of another family, and writes the result with
`AcceptLanguageBuilder`, which drops repeats.  `HttpUtil::GenerateAcceptLanguageHeader`
gives each language of a list after the first a q-value a tenth below the one
before, down to a tenth.

`gurl_base::SplitString` is library code the sources do not include; it is
modelled as Chromium's `SplitStringT` behaves with `TRIM_WHITESPACE` and
`SPLIT_WANT_ALL`: no pieces for an empty input, and otherwise every piece
between delimiters, empty ones included, trimmed of `kWhitespaceASCII`.

Both functions write languages after the first with `%s` of `c_str()`, which
stops at the first NUL of the `std::string`, and the builder writes no comma
while its string is still empty.  The builder's `seen_` set holds whole
strings, so it is the accumulator of `List.eraseDups`: the builder keeps the
first occurrence of each language, as that function does.

Chromium writes `Accept-Language` as
`GenerateAcceptLanguageHeader(ExpandLanguageList(prefs))`.  The tokens the
header reads back from the expanded list are the languages the builder kept,
so for preferences without a NUL the header names each language once.
-/

namespace HttpUtil

open Ascii

/-- `TrimString(piece, kWhitespaceASCII, TRIM_ALL)`: `kWhitespaceASCII` holds the
six bytes of `isAsciiSpace`. -/
def trimWhitespaceASCII (s : Bytes) : Bytes := (s.dropWhile isAsciiSpace).rdropWhile isAsciiSpace

/-- `gurl_base::SplitString(input, delimiter, TRIM_WHITESPACE, SPLIT_WANT_ALL)` for
a one-byte delimiter. -/
def splitString (input : Bytes) (delimiter : UInt8) : List Bytes :=
  if input.isEmpty then [] else (input.splitOnP (· == delimiter)).map trimWhitespaceASCII

/-- `GetBaseLanguageCode`: the trimmed text before the first `-`. -/
def getBaseLanguageCode (languageCode : Bytes) : Bytes :=
  match splitString languageCode minus with
  | [] => []
  | token :: _ => token

/-- `AcceptLanguageBuilder`: `str_`, and the strings of `seen_`. -/
structure AcceptLanguageBuilder where
  str : Bytes := []
  seen : List Bytes := []

namespace AcceptLanguageBuilder

/-- `AcceptLanguageBuilder::AddLanguageCode` as a release build runs it, where its
`QUICHE_DCHECK`s compile out.  A debug build aborts on a `language` holding `;`,
a space or a non-ASCII byte, which `ExpandLanguageList` passes on from a list
such as `en US` or `en;q=0.5`. -/
def addLanguageCode (builder : AcceptLanguageBuilder) (language : Bytes) : AcceptLanguageBuilder :=
  if language ∈ builder.seen then builder
  else
    { str := if builder.str.isEmpty then builder.str ++ cString language 0
             else builder.str ++ comma :: cString language 0
      seen := language :: builder.seen }

def getString (builder : AcceptLanguageBuilder) : Bytes := builder.str

end AcceptLanguageBuilder

/-- The loop of `ExpandLanguageList` from language `i` on, over `languages[i..]`:
`AddLanguageCode(language)`, then its base where the next language, if any,
has another base. -/
def expandLanguages (builder : AcceptLanguageBuilder) : List Bytes → AcceptLanguageBuilder
  | [] => builder
  | language :: rest =>
      let builder := builder.addLanguageCode language
      let baseLanguage := getBaseLanguageCode language
      let lookAhead := match rest with
        | [] => true
        | next :: _ => getBaseLanguageCode next != baseLanguage
      expandLanguages (if lookAhead then builder.addLanguageCode baseLanguage else builder) rest

/-- `HttpUtil::ExpandLanguageList(language_prefs)`. -/
def expandLanguageList (languagePrefs : Bytes) : Bytes :=
  let languages := splitString languagePrefs comma
  if languages.isEmpty then [] else (expandLanguages {} languages).getString

/-- The sequence `l₁, [b₁], l₂, [b₂], …, lₙ, [bₙ]` of languages `lᵢ` with bases
`bᵢ`, where `[bᵢ]` stands when `i = n` or `bᵢ₊₁ ≠ bᵢ`. -/
def languageSequence : List Bytes → List Bytes
  | [] => []
  | language :: rest =>
      let base := match rest with
        | [] => [getBaseLanguageCode language]
        | next :: _ =>
            if getBaseLanguageCode next ≠ getBaseLanguageCode language then
              [getBaseLanguageCode language]
            else []
      language :: (base ++ languageSequence rest)

/-- The comma-join the builder writes for the languages it kept, in order: each
up to its first NUL, with no comma before the first that is not then empty. -/
def joinLanguages (kept : List Bytes) : Bytes :=
  [comma].intercalate ((kept.map (cString · 0)).dropWhile List.isEmpty)

theorem intercalate_concat {y z : Bytes} (ys : List Bytes) :
    [comma].intercalate (y :: ys ++ [z]) = [comma].intercalate (y :: ys) ++ comma :: z := by
  rw [List.cons_append, intercalate_cons, intercalate_cons, List.flatMap_append]
  simp

theorem joinLanguages_concat (kept : List Bytes) (language : Bytes) :
    joinLanguages (kept ++ [language]) =
      if (joinLanguages kept).isEmpty then cString language 0
      else joinLanguages kept ++ comma :: cString language 0 := by
  unfold joinLanguages
  rw [List.map_append, List.dropWhile_append]
  cases leading : (kept.map (cString · 0)).dropWhile List.isEmpty with
  | nil => cases cut : cString language 0 <;> simp [cut, intercalate_cons, List.intercalate]
  | cons y ys =>
      have nonempty : y ≠ [] := by
        have first := List.head_dropWhile_not List.isEmpty (kept.map (cString · 0))
        simpa [leading] using first
      have written : ([comma].intercalate (y :: ys)).isEmpty = false := by
        rw [intercalate_cons]
        cases y
        exacts [absurd rfl nonempty, rfl]
      simp only [List.isEmpty_cons, Bool.false_eq_true, if_false, List.map_cons, List.map_nil,
        intercalate_concat, written]

namespace AcceptLanguageBuilder

/-- What the builder has written is the join of what it has seen, in order. -/
def Written (builder : AcceptLanguageBuilder) : Prop := builder.str = joinLanguages builder.seen.reverse

theorem Written.addLanguageCode {builder : AcceptLanguageBuilder} (written : builder.Written)
    (language : Bytes) : (builder.addLanguageCode language).Written := by
  unfold AcceptLanguageBuilder.addLanguageCode
  by_cases seen : language ∈ builder.seen
  · rwa [if_pos seen]
  rw [if_neg seen]
  unfold Written at written ⊢
  simp only [List.reverse_cons, joinLanguages_concat, ← written]
  split_ifs with empty
  · rw [List.isEmpty_iff.mp empty, List.nil_append]
  · rfl

theorem foldl_addLanguageCode (languages : List Bytes) {builder : AcceptLanguageBuilder}
    (written : builder.Written) :
    (languages.foldl addLanguageCode builder).str =
      joinLanguages (List.eraseDups.loop languages builder.seen) := by
  induction languages generalizing builder with
  | nil => exact written
  | cons language languages ih =>
      rw [List.foldl_cons, ih (written.addLanguageCode language), List.eraseDups.loop]
      by_cases seen : language ∈ builder.seen <;> simp [addLanguageCode, seen]

end AcceptLanguageBuilder

/-- The loop of `ExpandLanguageList` adds the elements of `languageSequence` in
order. -/
theorem expandLanguages_eq (builder : AcceptLanguageBuilder) (languages : List Bytes) :
    expandLanguages builder languages =
      (languageSequence languages).foldl AcceptLanguageBuilder.addLanguageCode builder := by
  induction languages generalizing builder with
  | nil => rfl
  | cons language rest ih =>
      simp only [expandLanguages, languageSequence, List.foldl_cons, List.foldl_append, ← ih]
      congr 1
      cases rest with
      | nil => rfl
      | cons next rest =>
          by_cases same : getBaseLanguageCode next = getBaseLanguageCode language <;> simp [same]

/-- `ExpandLanguageList` writes the first occurrence of each element of the
sequence `l₁, [b₁], l₂, [b₂], …` of the list's languages and their bases, each up
to its first NUL, joined by commas, with no comma before the first that is not
then empty. -/
theorem expandLanguageList_eq (languagePrefs : Bytes) :
    expandLanguageList languagePrefs =
      joinLanguages (languageSequence (splitString languagePrefs comma)).eraseDups := by
  simp only [expandLanguageList]
  split_ifs with empty
  · rw [List.isEmpty_iff.mp empty]
    rfl
  · rw [AcceptLanguageBuilder.getString, expandLanguages_eq,
      @AcceptLanguageBuilder.foldl_addLanguageCode _ {} rfl]
    rfl

/-- The list `,en`: its first language is empty, and the builder writes no comma
before `en`. -/
theorem expandLanguageList_empty_first :
    expandLanguageList (ascii ",en") = ascii "en" ∧
      [comma].intercalate (languageSequence (splitString (ascii ",en") comma)).eraseDups =
        ascii ",en" := by
  decide

def kQvalueDecrement10 : UInt32 := 1

/-- The variables of the loop of `GenerateAcceptLanguageHeader`: `qvalue10`, an
`unsigned int`, and `lang_list_with_q`. -/
structure QvalueList where
  qvalue10 : UInt32
  langListWithQ : Bytes

/-- One round of the loop of `GenerateAcceptLanguageHeader` on the token
`language`.  The `DCHECK_LT(qvalue10, 10U)` of the second branch changes nothing
it computes; `generateAcceptLanguageHeader_eq` shows that it holds. -/
def addQvalueLanguage (st : QvalueList) (language : Bytes) : QvalueList :=
  { langListWithQ :=
      if st.qvalue10 == 10 then language
      else st.langListWithQ ++ comma :: (cString language 0 ++ ascii ";q=0." ++ decimal st.qvalue10.toNat)
    qvalue10 :=
      if st.qvalue10 > kQvalueDecrement10 then st.qvalue10 - kQvalueDecrement10 else st.qvalue10 }

/-- `HttpUtil::GenerateAcceptLanguageHeader(raw_language_list)`. -/
def generateAcceptLanguageHeader (rawLanguageList : Bytes) : Bytes :=
  ((StringTokenizer.init rawLanguageList 0 [comma]).pieces.foldl addQvalueLanguage ⟨10, []⟩).langListWithQ

theorem addQvalueLanguage_qvalue10 {st : QvalueList} {k : Nat}
    (before : st.qvalue10.toNat = max (10 - k) 1) (language : Bytes) :
    (addQvalueLanguage st language).qvalue10.toNat = max (10 - (k + 1)) 1 := by
  have one : kQvalueDecrement10.toNat = 1 := rfl
  show (if st.qvalue10 > kQvalueDecrement10 then st.qvalue10 - kQvalueDecrement10
    else st.qvalue10).toNat = _
  by_cases above : 1 < st.qvalue10.toNat
  · rw [if_pos (show st.qvalue10 > kQvalueDecrement10 from above), UInt32.toNat_sub_of_le _ _
      (show kQvalueDecrement10 ≤ st.qvalue10 from Nat.le_of_lt above), one]
    omega
  · rw [if_neg (show ¬st.qvalue10 > kQvalueDecrement10 from above)]
    omega

theorem foldl_addQvalueLanguage_qvalue10 (languages : List Bytes) {st : QvalueList} {k : Nat}
    (before : st.qvalue10.toNat = max (10 - k) 1) :
    (languages.foldl addQvalueLanguage st).qvalue10.toNat = max (10 - (k + languages.length)) 1 := by
  induction languages generalizing st k with
  | nil => exact before
  | cons language languages ih =>
      rw [List.foldl_cons, ih (addQvalueLanguage_qvalue10 before language), List.length_cons,
        Nat.add_assoc, Nat.add_comm 1]

theorem foldl_addQvalueLanguage_text (languages : List Bytes) {st : QvalueList} {k : Nat}
    (after : 0 < k) (before : st.qvalue10.toNat = max (10 - k) 1) :
    (languages.foldl addQvalueLanguage st).langListWithQ =
      st.langListWithQ ++ (List.enumFrom (k + 1) languages).flatMap fun p =>
        comma :: (cString p.2 0 ++ ascii ";q=0." ++ decimal (max (11 - p.1) 1)) := by
  induction languages generalizing st k with
  | nil => simp
  | cons language languages ih =>
      have notFirst : (st.qvalue10 == 10) = false :=
        beq_false_of_ne fun first => by
          have ten : st.qvalue10.toNat = 10 := by rw [first]; rfl
          omega
      have place : st.qvalue10.toNat = max (11 - (k + 1)) 1 := by omega
      rw [List.foldl_cons, ih (Nat.succ_pos k) (addQvalueLanguage_qvalue10 before language)]
      simp [addQvalueLanguage, notFirst, place, List.enumFrom_cons]

/-- `GenerateAcceptLanguageHeader` writes the first non-empty comma-separated
token whole, then `,%s;q=0.%d` for the `k`-th token up to its first NUL, with
`max (11 - k) 1` tenths.  After `k` tokens `qvalue10` is `max (10 - k) 1`: it
stays within `[1, 10]`, never wraps, and is below `10` at every token after the
first, where the `DCHECK` reads it. -/
theorem generateAcceptLanguageHeader_eq (rawLanguageList : Bytes) :
    let tokens := fields [comma] rawLanguageList
    let after (k : Nat) := (tokens.take k).foldl addQvalueLanguage ⟨10, []⟩
    generateAcceptLanguageHeader rawLanguageList =
        (match tokens with
          | [] => []
          | first :: rest => first ++ (List.enumFrom 2 rest).flatMap fun p =>
              comma :: (cString p.2 0 ++ ascii ";q=0." ++ decimal (max (11 - p.1) 1))) ∧
      ∀ k ≤ tokens.length, (after k).qvalue10.toNat = max (10 - k) 1 ∧
        (0 < k → (after k).qvalue10 < 10) := by
  dsimp only
  refine ⟨?_, fun k within => ?_⟩
  · rw [generateAcceptLanguageHeader, StringTokenizer.pieces_init]
    cases fields [comma] rawLanguageList with
    | nil => rfl
    | cons first rest =>
        rw [List.foldl_cons,
          @foldl_addQvalueLanguage_text rest (addQvalueLanguage ⟨10, []⟩ first) 1 Nat.one_pos rfl]
        rfl
  · have counted := @foldl_addQvalueLanguage_qvalue10 ((fields [comma] rawLanguageList).take k) ⟨10, []⟩ 0 rfl
    rw [List.length_take, Nat.min_eq_left within, Nat.zero_add] at counted
    generalize (((fields [comma] rawLanguageList).take k).foldl addQvalueLanguage ⟨10, []⟩).qvalue10 = q
      at counted ⊢
    exact ⟨counted, fun later => show q.toNat < 10 by omega⟩

/-- The list `a,b` NUL `c`: its second token is written up to the NUL. -/
theorem generateAcceptLanguageHeader_nul :
    fields [comma] (ascii "a,b" ++ nul :: ascii "c") = [ascii "a", ascii "b" ++ nul :: ascii "c"] ∧
      generateAcceptLanguageHeader (ascii "a,b" ++ nul :: ascii "c") = ascii "a,b;q=0.9" ∧
      ascii "a,b;q=0.9" ≠ ascii "a" ++ comma :: (ascii "b" ++ nul :: ascii "c") ++ ascii ";q=0.9" := by
  decide

/-- From an accumulator without repeats, the loop of `List.eraseDups` ends
without repeats, holding only elements of the list or the accumulator. -/
theorem nodup_eraseDups_loop {α : Type} [BEq α] [LawfulBEq α] :
    ∀ (l acc : List α), acc.Nodup →
      (List.eraseDups.loop l acc).Nodup ∧ ∀ x ∈ List.eraseDups.loop l acc, x ∈ l ∨ x ∈ acc
  | [], acc, distinct =>
      ⟨List.pairwise_reverse.mpr (List.Pairwise.imp Ne.symm distinct), fun _ member => .inr (List.mem_reverse.mp member)⟩
  | a :: l, acc, distinct => by
      rw [List.eraseDups.loop]
      cases seen : acc.elem a with
      | true =>
          obtain ⟨nodup, mem⟩ := nodup_eraseDups_loop l acc distinct
          exact ⟨nodup, fun x member => (mem x member).imp (List.mem_cons_of_mem a) id⟩
      | false =>
          have fresh : a ∉ acc := by simpa using seen
          obtain ⟨nodup, mem⟩ := nodup_eraseDups_loop l (a :: acc) (List.nodup_cons.mpr ⟨fresh, distinct⟩)
          refine ⟨nodup, fun x member => ?_⟩
          rcases mem x member with inList | added
          · exact .inl (List.mem_cons_of_mem a inList)
          · rcases List.mem_cons.mp added with rfl | inAcc
            · exact .inl (List.mem_cons_self x l)
            · exact .inr inAcc

theorem trimWhitespaceASCII_subset (s : Bytes) : trimWhitespaceASCII s ⊆ s :=
  ((List.rdropWhile_prefix _ _).sublist.trans (List.dropWhile_sublist _)).subset

theorem mem_splitString {input piece : Bytes} {delimiter : UInt8} (member : piece ∈ splitString input delimiter) :
    ∀ c ∈ piece, c ∈ input ∧ c ≠ delimiter := by
  unfold splitString at member
  split at member
  · cases member
  · obtain ⟨raw, split, rfl⟩ := List.mem_map.mp member
    intro c trimmed
    have found := mem_splitOnP split c (trimWhitespaceASCII_subset raw trimmed)
    exact ⟨found.1, by simpa using found.2⟩

theorem getBaseLanguageCode_subset (languageCode : Bytes) : getBaseLanguageCode languageCode ⊆ languageCode := by
  unfold getBaseLanguageCode
  cases pieces : splitString languageCode minus with
  | nil => exact List.nil_subset _
  | cons token _ => exact fun c member => (mem_splitString (pieces ▸ List.mem_cons_self token _) c member).1

theorem mem_languageSequence {languages : List Bytes} {x : Bytes} (member : x ∈ languageSequence languages) :
    ∃ language ∈ languages, x ⊆ language := by
  induction languages with
  | nil => cases member
  | cons language rest ih =>
      rcases List.mem_cons.mp member with rfl | member
      · exact ⟨x, List.mem_cons_self _ _, List.Subset.refl _⟩
      rcases List.mem_append.mp member with inBase | inRest
      · have base : x = getBaseLanguageCode language := by
          split at inBase
          · exact List.mem_singleton.mp inBase
          · split_ifs at inBase
            exacts [List.mem_singleton.mp inBase, absurd inBase (List.not_mem_nil x)]
        exact ⟨language, List.mem_cons_self _ _, base ▸ getBaseLanguageCode_subset language⟩
      · obtain ⟨other, listed, within⟩ := ih inRest
        exact ⟨other, List.mem_cons_of_mem _ listed, within⟩

theorem cString_of_nul_not_mem {s : Bytes} (noNul : nul ∉ s) : cString s 0 = s := by
  rw [cString, List.drop_zero, List.takeWhile_eq_self_iff]
  exact fun c member => bne_iff_ne.mpr fun same => noNul (same ▸ member)

theorem filter_dropWhile_isEmpty (words : List Bytes) :
    ((words.dropWhile List.isEmpty).filter fun w => !w.isEmpty) = words.filter fun w => !w.isEmpty := by
  induction words with
  | nil => rfl
  | cons w words ih => cases w <;> simp [ih]

theorem fields_joinLanguages {kept : List Bytes} (clean : ∀ x ∈ kept, comma ∉ x ∧ nul ∉ x) :
    fields [comma] (joinLanguages kept) = kept.filter fun w => !w.isEmpty := by
  have whole : kept.map (cString · 0) = kept :=
    (List.map_congr_left fun x member => cString_of_nul_not_mem (clean x member).2).trans (List.map_id' kept)
  rw [joinLanguages, whole, fields_intercalate fun x member => (clean x ((List.dropWhile_sublist _).subset member)).1,
    filter_dropWhile_isEmpty]

/-- `GenerateAcceptLanguageHeader` on a list whose tokens hold no NUL writes
each token whole. -/
theorem generateAcceptLanguageHeader_of_noNul {rawLanguageList : Bytes}
    (noNul : ∀ x ∈ fields [comma] rawLanguageList, nul ∉ x) :
    generateAcceptLanguageHeader rawLanguageList =
      match fields [comma] rawLanguageList with
      | [] => []
      | first :: rest => first ++ (List.enumFrom 2 rest).flatMap fun p =>
          comma :: (p.2 ++ ascii ";q=0." ++ decimal (max (11 - p.1) 1)) := by
  rw [generateAcceptLanguageHeader, StringTokenizer.pieces_init]
  cases tokens : fields [comma] rawLanguageList with
  | nil => rfl
  | cons first rest =>
      rw [tokens] at noNul
      rw [List.foldl_cons, @foldl_addQvalueLanguage_text rest (addQvalueLanguage ⟨10, []⟩ first) 1 Nat.one_pos rfl]
      refine congrArg (first ++ ·) (List.flatMap_congr fun p member => ?_)
      rw [cString_of_nul_not_mem (noNul p.2 (List.mem_cons_of_mem first (List.snd_mem_of_mem_enumFrom member)))]

/-- The header built from the expanded form of preferences without a NUL: the
non-empty languages and bases the builder kept, each once, the first whole and
the `k`-th with `max (11 - k) 1` tenths. -/
theorem generateAcceptLanguageHeader_expandLanguageList (languagePrefs : Bytes) (noNul : nul ∉ languagePrefs) :
    let languages := (languageSequence (splitString languagePrefs comma)).eraseDups.filter fun l => !l.isEmpty
    languages.Nodup ∧
      generateAcceptLanguageHeader (expandLanguageList languagePrefs) =
        match languages with
        | [] => []
        | first :: rest => first ++ (List.enumFrom 2 rest).flatMap fun p =>
            comma :: (p.2 ++ ascii ";q=0." ++ decimal (max (11 - p.1) 1)) := by
  intro languages
  obtain ⟨distinct, fromSequence⟩ := nodup_eraseDups_loop (languageSequence (splitString languagePrefs comma)) []
    List.nodup_nil
  have clean : ∀ x ∈ (languageSequence (splitString languagePrefs comma)).eraseDups, comma ∉ x ∧ nul ∉ x := by
    intro x member
    obtain ⟨language, piece, within⟩ := mem_languageSequence ((fromSequence x member).resolve_right (List.not_mem_nil x))
    exact ⟨fun inX => (mem_splitString piece comma (within inX)).2 rfl,
      fun inX => noNul (mem_splitString piece nul (within inX)).1⟩
  have written : expandLanguageList languagePrefs =
      joinLanguages (languageSequence (splitString languagePrefs comma)).eraseDups := by
    simp only [expandLanguageList]
    split_ifs with empty
    · rw [List.isEmpty_iff.mp empty]
      rfl
    · rw [AcceptLanguageBuilder.getString, expandLanguages_eq, @AcceptLanguageBuilder.foldl_addLanguageCode _ {} rfl]
      rfl
  have tokens : fields [comma] (expandLanguageList languagePrefs) = languages := by
    rw [written, fields_joinLanguages clean]
  have noNulToken : ∀ x ∈ fields [comma] (expandLanguageList languagePrefs), nul ∉ x := by
    rw [tokens]
    exact fun x member => (clean x (List.mem_of_mem_filter member)).2
  rw [generateAcceptLanguageHeader_of_noNul noNulToken, tokens]
  exact ⟨List.Pairwise.filter _ distinct, rfl⟩

theorem generateAcceptLanguageHeader_expandLanguageList_enUS :
    nul ∉ ascii "en-US,fr" ∧
      let languages := (languageSequence (splitString (ascii "en-US,fr") comma)).eraseDups.filter fun l => !l.isEmpty
      languages.Nodup ∧
        generateAcceptLanguageHeader (expandLanguageList (ascii "en-US,fr")) =
          match languages with
          | [] => []
          | first :: rest => first ++ (List.enumFrom 2 rest).flatMap fun p =>
              comma :: (p.2 ++ ascii ";q=0." ++ decimal (max (11 - p.1) 1)) :=
  ⟨by decide, generateAcceptLanguageHeader_expandLanguageList _ (by decide)⟩

example : generateAcceptLanguageHeader (expandLanguageList (ascii "en-US,fr")) = ascii "en-US,en;q=0.9,fr;q=0.8" := by
  decide

/- With a NUL, two languages the builder keeps apart can be written alike: the
header then names `a` twice. -/
example :
    generateAcceptLanguageHeader (expandLanguageList (ascii "a" ++ nul :: ascii "b,a" ++ nul :: ascii "c")) =
      ascii "a,a;q=0.9" := by
  decide

end HttpUtil
