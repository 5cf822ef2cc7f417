import HttpUtil.Iterators.Properties
import HttpUtil.Iterators.Refinement

/-! # Values with quoted strings

A `ValuesIterator` gives its tokenizer the quote mark as quote character, so
that a delimiter inside a quoted string does not end a value.  Values are
described here as HTTP writes them: stretches of plain bytes and strings
written by `Quote`, whatever bytes those strings hold.  The tokenizer is shown
once to find any words joined by its delimiter that its slurping loop takes
whole (`pieces_of_words`); the slurping loop takes a written value whole
(`slurp_writeValue`), so a run of the iterator yields the written values, each
trimmed of LWS, with no offset and no quote state left in the description.
-/

namespace HttpUtil

open Ascii

namespace StringTokenizer

theorem next?_word {t : StringTokenizer} {w rest : Bytes} (atDelim : t.tokenIsDelim = true)
    (remaining : t.input.drop t.tokenEnd = w ++ rest)
    (slurped : slurp t.delims t.quotes {} (w ++ rest) = w.length)
    (kept : t.returnEmptyTokens = true ∨ w ≠ []) :
    t.next? = some (w,
      { t with tokenBegin := t.tokenEnd, tokenEnd := t.tokenEnd + w.length, tokenIsDelim := false }) := by
  have found := next?_slurp atDelim (by
    rw [remaining, slurped]
    exact kept.symm.imp (mt List.length_eq_zero.mp) id)
  rwa [remaining, slurped, List.take_left' rfl] at found

/-- A tokenizer on the delimiter `d`, before a token, in front of the words `w`
and `ws` joined by `d`, each of which its slurping loop takes whole up to a
following delimiter or the end, finds those words: all of them with
`RETURN_EMPTY_TOKENS`, the non-empty ones without. -/
theorem pieces_of_words {d : UInt8} :
    ∀ (w : Bytes) (ws : List Bytes) {t : StringTokenizer}, t.delims = [d] → t.tokenIsDelim = true →
      t.input.drop t.tokenEnd = w ++ ws.flatMap (d :: ·) →
      (∀ v ∈ w :: ws, ∀ rest : Bytes, (∀ c ∈ rest.head?, c = d) → slurp [d] t.quotes {} (v ++ rest) = v.length) →
      t.pieces = (w :: ws).filter fun v => t.returnEmptyTokens || !v.isEmpty
  | w, ws, t, single, atDelim, remaining, whole => by
      have slurped : slurp t.delims t.quotes {} (w ++ ws.flatMap (d :: ·)) = w.length :=
        single ▸ whole w (List.mem_cons_self _ _) _ (by cases ws <;> simp)
      have rest : ∀ v ∈ ws, ∀ rest : Bytes, (∀ c ∈ rest.head?, c = d) →
          slurp [d] t.quotes {} (v ++ rest) = v.length :=
        fun v member => whole v (List.mem_cons_of_mem _ member)
      by_cases kept : t.returnEmptyTokens = true ∨ w ≠ []
      · have keep : (t.returnEmptyTokens || !w.isEmpty) = true := by
          rcases kept with empty | nonempty
          · simp [empty]
          · simp [nonempty]
        let t' : StringTokenizer :=
          { t with tokenBegin := t.tokenEnd, tokenEnd := t.tokenEnd + w.length, tokenIsDelim := false }
        have afterWord : t'.input.drop t'.tokenEnd = ws.flatMap (d :: ·) := by
          simp [t', ← List.drop_drop, remaining]
        rw [pieces_of_next? (next?_word atDelim remaining slurped kept)]
        simp only [List.filter_cons, keep, if_true]
        congr 1
        cases ws with
        | nil => exact pieces_of_next?_none (next?_eq_none (getNext_end rfl afterWord))
        | cons v vs =>
            rw [@pieces_skip t' d _ afterWord rfl]
            exact pieces_of_words v vs single rfl (drop_succ_of_drop afterWord) rest
      · obtain ⟨noEmpty, rfl⟩ : t.returnEmptyTokens = false ∧ w = [] := by simpa using kept
        rw [List.filter_cons_of_neg (by simp [noEmpty])]
        cases ws with
        | nil =>
            refine pieces_of_next?_none (next?_eq_none ?_)
            simp [getNext, remaining, scan, slurp, noEmpty]
        | cons v vs =>
            have atD : t.input.drop t.tokenEnd = d :: (v ++ vs.flatMap (d :: ·)) := by simpa using remaining
            rw [@pieces_congr t { t with tokenEnd := t.tokenEnd + 1, tokenIsDelim := true }
              (by simp only [next?, getNext_skip atD (.inr ⟨by simpa using slurped, noEmpty⟩)])]
            exact pieces_of_words v vs single rfl (drop_succ_of_drop atD) rest

end StringTokenizer

/-- A stretch of a value: bytes written as they are, or a string written by
`Quote`. -/
inductive Segment where
  | plain (bytes : Bytes)
  | quoted (text : Bytes)
deriving DecidableEq, Repr

namespace Segment

def render : Segment → Bytes
  | plain bytes => bytes
  | quoted text => quote text

/-- Plain bytes hold neither the delimiter `d` nor a quote mark; a quoted string
may hold any byte. -/
def fits (d : UInt8) : Segment → Bool
  | plain bytes => !bytes.contains d && !bytes.contains dquote
  | quoted _ => true

end Segment

/-- A value written out: its stretches one after another. -/
def writeValue (segments : List Segment) : Bytes := segments.flatMap Segment.render

theorem slurp_writeValue {d : UInt8} (notQuote : d ≠ dquote) {rest : Bytes} (after : ∀ c ∈ rest.head?, c = d) :
    ∀ (segments : List Segment) (q : UInt8), (∀ s ∈ segments, s.fits d = true) →
      slurp [d] [dquote] ⟨false, false, q⟩ (writeValue segments ++ rest) = (writeValue segments).length
  | [], q, _ => by
      cases rest with
      | nil => rfl
      | cons c rest =>
          obtain rfl := after c rfl
          simp [writeValue, slurp, advanceOne]
  | .plain bytes :: segments, q, fit => by
      have plain : d ∉ bytes ∧ dquote ∉ bytes := by simpa [Segment.fits] using fit _ (List.mem_cons_self _ _)
      have clear : ∀ c ∈ bytes, c ∉ [d] ∧ c ∉ [dquote] := fun c member =>
        ⟨fun same => plain.1 (List.mem_singleton.mp same ▸ member),
          fun same => plain.2 (List.mem_singleton.mp same ▸ member)⟩
      obtain ⟨q', walked⟩ := slurp_plain [d] [dquote] clear false q (writeValue segments ++ rest)
      have split : writeValue (.plain bytes :: segments) = bytes ++ writeValue segments := rfl
      rw [split, List.append_assoc, walked,
        slurp_writeValue notQuote after segments q' fun s member => fit s (List.mem_cons_of_mem _ member),
        List.length_append, Nat.add_comm]
  | .quoted text :: segments, q, fit => by
      have opening : advanceOne [d] [dquote] ⟨false, false, q⟩ dquote = some ⟨true, false, dquote⟩ := by
        have notDelim : dquote ∉ [d] := fun same => notQuote (List.mem_singleton.mp same).symm
        rw [advanceOne, if_neg Bool.false_ne_true, if_neg notDelim]
        rfl
      have split : writeValue (.quoted text :: segments) ++ rest =
          dquote :: (text.flatMap escapeByte ++ dquote :: (writeValue segments ++ rest)) := by
        simp [writeValue, Segment.render, quote]
      rw [split, slurp, opening]
      dsimp only
      rw [slurp_escaped, slurp, advanceOne_closing]
      dsimp only
      rw [slurp_writeValue notQuote after segments dquote fun s member => fit s (List.mem_cons_of_mem _ member)]
      simp only [writeValue, List.flatMap_cons, Segment.render, quote, List.length_cons, List.length_append,
        List.length_nil]
      omega

namespace ValuesIterator

/-- Over values written with plain bytes and `Quote`d strings and joined by a
delimiter other than the quote mark, the values a `ValuesIterator` yields are
the written values, each trimmed of LWS, with the empty ones dropped where
empty values are ignored: a delimiter, quote mark or backslash inside a quoted
string neither splits nor ends a value. -/
theorem valuesIterator_quoted (d : UInt8) (ignore : Bool) (notQuote : d ≠ dquote)
    {values : List (List Segment)} (nonempty : values ≠ []) (fit : ∀ v ∈ values, ∀ s ∈ v, s.fits d = true) :
    (init ([d].intercalate (values.map writeValue)) d ignore).run.map value =
      ((values.map writeValue).map trimLWS).filter fun v => !ignore || !v.isEmpty := by
  obtain ⟨v, vs, rfl⟩ := List.exists_cons_of_ne_nil nonempty
  refine run_map_value_of_pieces (StringTokenizer.pieces_of_words (writeValue v) (vs.map writeValue) rfl rfl
    (by simp [init, StringTokenizer.init, intercalate_cons]) ?_)
  simp only [List.map_cons, List.mem_cons, List.mem_map]
  rintro _ (rfl | ⟨u, listed, rfl⟩) rest after
  · exact slurp_writeValue notQuote after v 0 (fit v (List.mem_cons_self _ _))
  · exact slurp_writeValue notQuote after u 0 (fit u (List.mem_cons_of_mem _ listed))

theorem valuesIterator_quoted_comma :
    let values := [[Segment.plain (ascii "a")], [.plain (ascii " b="), .quoted (ascii "x, y")]]
    comma ≠ dquote ∧ values ≠ [] ∧ (∀ v ∈ values, ∀ s ∈ v, s.fits comma = true) ∧
      (init ([comma].intercalate (values.map writeValue)) comma false).run.map value =
        ((values.map writeValue).map trimLWS).filter fun v => !false || !v.isEmpty :=
  ⟨by decide, by decide, by decide, valuesIterator_quoted comma false (by decide) (by decide) (by decide)⟩

end ValuesIterator

end HttpUtil
