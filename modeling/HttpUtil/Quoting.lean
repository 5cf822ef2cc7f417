import HttpUtil.Text.Bytes

/-! # The quoting codec

`HttpUtil::Quote`, `HttpUtil::Unquote` and `HttpUtil::StrictUnquote`, all three
built on the anonymous `UnquoteImpl`.  A failed `UnquoteImpl` leaves its output
argument alone, so it is `none` here.
-/

namespace HttpUtil

open Ascii

/-- `IsQuote` of the anonymous namespace: only the double quote mark. -/
def isQuote (c : UInt8) : Bool := c == dquote

/-- The loop of `UnquoteImpl` over the bytes between the quote marks, from the
escape flag `prevEscape`: the final escape flag and the unescaped bytes, or
`none` where strict mode returns `false` on an unescaped quote mark. -/
def unescape (strictQuotes : Bool) : Bool → Bytes → Option (Bool × Bytes)
  | prevEscape, [] => some (prevEscape, [])
  | prevEscape, c :: s =>
      if c == backslash && !prevEscape then unescape strictQuotes true s
      else if strictQuotes && !prevEscape && isQuote c then none
      else (unescape strictQuotes false s).map fun result => (result.1, c :: result.2)

/-- `UnquoteImpl(str, strict_quotes, out)`: the unquoted value, or `none` for
`false`. -/
def unquoteImpl (str : Bytes) (strictQuotes : Bool) : Option Bytes :=
  match str with
  | [] => none
  | first :: _ =>
      if !isQuote first then none
      else if str.length < 2 || str.head? != str.getLast? then none
      else
        match unescape strictQuotes false (str.drop 1).dropLast with
        | none => none
        | some (prevEscape, unescaped) =>
            if strictQuotes && prevEscape then none else some unescaped

/-- `HttpUtil::Unquote`: the lenient decoder, the identity where `UnquoteImpl`
fails. -/
def unquote (str : Bytes) : Bytes := (unquoteImpl str false).getD str

/-- `HttpUtil::StrictUnquote`. -/
def strictUnquote (str : Bytes) : Option Bytes := unquoteImpl str true

/-- The body of the loop of `HttpUtil::Quote`: a quote mark or a backslash gets
a backslash in front. -/
def escapeByte (c : UInt8) : Bytes := if c == dquote || c == backslash then [backslash, c] else [c]

/-- `HttpUtil::Quote`. -/
def quote (str : Bytes) : Bytes := dquote :: (str.flatMap escapeByte ++ [dquote])

theorem unescape_escapeByte (strictQuotes : Bool) (c : UInt8) (rest : Bytes) :
    unescape strictQuotes false (escapeByte c ++ rest) =
      (unescape strictQuotes false rest).map fun result => (result.1, c :: result.2) := by
  by_cases special : c = dquote ∨ c = backslash
  · rcases special with rfl | rfl <;> simp [escapeByte, unescape]
  · have plain : escapeByte c = [c] := by simp_all [escapeByte]
    simp only [plain, List.singleton_append, unescape]
    simp_all [isQuote]

/-- Unescaping undoes the escaping loop of `Quote`, in either mode, and ends
outside an escape. -/
theorem unescape_flatMap_escapeByte (strictQuotes : Bool) (s : Bytes) :
    unescape strictQuotes false (s.flatMap escapeByte) = some (false, s) := by
  induction s with
  | nil => rfl
  | cons c s ih => simp [List.flatMap_cons, unescape_escapeByte, ih]

@[simp] theorem head?_quote (s : Bytes) : (quote s).head? = some dquote := rfl

@[simp] theorem getLast?_quote (s : Bytes) : (quote s).getLast? = some dquote := by
  rw [quote, ← List.cons_append, List.getLast?_append]
  simp

theorem length_quote (s : Bytes) : 2 ≤ (quote s).length := by
  simp [quote]

theorem unquoteImpl_quote (strictQuotes : Bool) (s : Bytes) :
    unquoteImpl (quote s) strictQuotes = some s := by
  have interior : ((quote s).drop 1).dropLast = s.flatMap escapeByte := by
    simp [quote]
  have last := getLast?_quote s
  simp [unquoteImpl, quote, interior, unescape_flatMap_escapeByte, isQuote] at last ⊢
  exact last.symm

/-- Decoding undoes `Quote` for every byte string: the strict decoder accepts
it and returns the original, and so does the lenient one. -/
theorem strictUnquote_quote (s : Bytes) :
    strictUnquote (quote s) = some s ∧ unquote (quote s) = s := by
  simp [strictUnquote, unquote, unquoteImpl_quote]

theorem unescape_lenient_of_strict {prevEscape : Bool} {s : Bytes} {result : Bool × Bytes}
    (strict : unescape true prevEscape s = some result) :
    unescape false prevEscape s = some result := by
  induction s generalizing prevEscape result with
  | nil => exact strict
  | cons c s ih =>
      unfold unescape at strict ⊢
      by_cases escape : (c == backslash && !prevEscape) = true
      · simp only [escape, if_true] at strict ⊢
        exact ih strict
      · simp only [escape, Bool.false_and, Bool.false_eq_true, if_false] at strict ⊢
        split at strict
        · cases strict
        · obtain ⟨tail, found, rfl⟩ := Option.map_eq_some'.mp strict
          simp [ih found]

theorem strictUnquote_shape {str unquoted : Bytes} (strict : strictUnquote str = some unquoted) :
    ∃ mid, str = dquote :: (mid ++ [dquote]) := by
  unfold strictUnquote unquoteImpl at strict
  split at strict
  · cases strict
  · rename_i first rest
    split at strict
    · cases strict
    · split at strict
      · cases strict
      · rename_i opening framed
        have quoteFirst : first = dquote := by simpa [isQuote] using opening
        simp only [Bool.or_eq_true, decide_eq_true_eq, bne_iff_ne, ne_eq, not_or, not_lt,
          Decidable.not_not, List.length_cons, List.head?_cons] at framed
        subst quoteFirst
        have nonempty : rest ≠ [] := by rintro rfl; simp at framed
        rw [List.getLast?_cons, List.getLast?_eq_getLast _ nonempty] at framed
        refine ⟨rest.dropLast, ?_⟩
        simp only [Option.getD_some, Option.some.injEq] at framed
        rw [framed.2, List.dropLast_append_getLast]

/-- Wherever `StrictUnquote` succeeds, the lenient `UnquoteImpl` succeeds with
the same value. -/
theorem unquoteImpl_lenient_of_strict {str unquoted : Bytes}
    (strict : strictUnquote str = some unquoted) : unquoteImpl str false = some unquoted := by
  unfold strictUnquote unquoteImpl at strict
  unfold unquoteImpl
  split at strict
  · cases strict
  · split at strict
    · cases strict
    · split at strict
      · cases strict
      · simp only [*, if_false]
        split at strict
        · cases strict
        · rename_i found
          simp only [unescape_lenient_of_strict found, Bool.false_and, Bool.false_eq_true,
            if_false]
          split at strict
          · cases strict
          · exact strict

/-- One item of the body of a quoted string: a byte other than the quote mark
and the backslash, or a backslash and the byte it escapes. -/
inductive QuotedItem
  | plain (c : UInt8) (ordinary : c ≠ dquote ∧ c ≠ backslash)
  | escaped (c : UInt8)

namespace QuotedItem

def bytes : QuotedItem → Bytes
  | plain c _ => [c]
  | escaped c => [backslash, c]

def payload : QuotedItem → UInt8
  | plain c _ => c
  | escaped c => c

end QuotedItem

theorem unescape_item (item : QuotedItem) (rest : Bytes) :
    unescape true false (item.bytes ++ rest) =
      (unescape true false rest).map fun result => (result.1, item.payload :: result.2) := by
  cases item with
  | plain c ordinary =>
      have notQuote : c ≠ 34 := ordinary.1
      have notBackslash : c ≠ 92 := ordinary.2
      simp [QuotedItem.bytes, QuotedItem.payload, unescape, isQuote, notQuote, notBackslash]
  | escaped c => simp [QuotedItem.bytes, QuotedItem.payload, unescape]

theorem unescape_items (items : List QuotedItem) :
    unescape true false (items.flatMap QuotedItem.bytes) = some (false, items.map QuotedItem.payload) := by
  induction items with
  | nil => rfl
  | cons item items ih => simp [List.flatMap_cons, unescape_item, ih]

theorem items_of_unescape : ∀ {body out : Bytes}, unescape true false body = some (false, out) →
    ∃ items : List QuotedItem, body = items.flatMap QuotedItem.bytes ∧ out = items.map QuotedItem.payload
  | [], out, done => ⟨[], rfl, by simpa [unescape, eq_comm] using done⟩
  | c :: rest, out, done => by
      by_cases escape : c = backslash
      · subst escape
        cases rest with
        | nil => simp [unescape] at done
        | cons d rest =>
            have : unescape true false (QuotedItem.bytes (.escaped d) ++ rest) = some (false, out) := done
            rw [unescape_item] at this
            obtain ⟨⟨_, tail⟩, found, same⟩ := Option.map_eq_some'.mp this
            simp only [Prod.mk.injEq] at same
            obtain ⟨items, rfl, rfl⟩ := items_of_unescape (same.1 ▸ found)
            exact ⟨.escaped d :: items, rfl, same.2.symm⟩
      by_cases quoteMark : c = dquote
      · subst quoteMark; simp [unescape, isQuote] at done
      · have : unescape true false (QuotedItem.bytes (.plain c ⟨quoteMark, escape⟩) ++ rest) = some (false, out) := done
        rw [unescape_item] at this
        obtain ⟨⟨_, tail⟩, found, same⟩ := Option.map_eq_some'.mp this
        simp only [Prod.mk.injEq] at same
        obtain ⟨items, rfl, rfl⟩ := items_of_unescape (same.1 ▸ found)
        exact ⟨.plain c ⟨quoteMark, escape⟩ :: items, rfl, same.2.symm⟩

theorem strictUnquote_framed {body out : Bytes} :
    strictUnquote (dquote :: (body ++ [dquote])) = some out ↔
      unescape true false body = some (false, out) := by
  have last : (dquote :: (body ++ [dquote])).getLast? = some dquote := by
    rw [← List.cons_append, List.getLast?_append]; rfl
  have long : ¬body.length + 1 + 1 < 2 := by omega
  simp only [Ascii.dquote] at last
  simp only [strictUnquote, unquoteImpl, isQuote]
  simp [last, long]
  cases unescape true false body <;> simp [Prod.ext_iff]

/-- `StrictUnquote` accepts exactly a quote mark, a sequence of items and a
quote mark, and returns the bytes the items stand for; where it returns
`false` it writes nothing. -/
theorem strictUnquote_items (str out : Bytes) :
    strictUnquote str = some out ↔ ∃ items : List QuotedItem,
      str = dquote :: (items.flatMap QuotedItem.bytes ++ [dquote]) ∧
        out = items.map QuotedItem.payload := by
  constructor
  · intro accepted
    obtain ⟨body, rfl⟩ := strictUnquote_shape accepted
    obtain ⟨items, rfl, rfl⟩ := items_of_unescape (strictUnquote_framed.mp accepted)
    exact ⟨items, rfl, rfl⟩
  · rintro ⟨items, rfl, rfl⟩
    exact strictUnquote_framed.mpr (unescape_items items)

example : strictUnquote (ascii "\"a\\\"b\\\\\"") = some (ascii "a\"b\\") ∧
    strictUnquote (ascii "\"a\"b\"") = none ∧ strictUnquote (ascii "\"a\\\"") = none := by decide

end HttpUtil
