import HttpUtil.Text.Bytes

/-! # The string tokenizer

`base::StringTokenizer` (and `base::CStringTokenizer`, the same template over
`const char*`) is library code that every loop of `http_util.cc` walks.  It is
modelled from its implementation: `FullGetNext` with its per-call
`AdvanceState` for quote characters, the `RETURN_EMPTY_TOKENS` option, and the
state the tokenizer keeps between calls.  `RETURN_DELIMS` is never set in this
file and is left out.

`collect` turns a `GetNext` into the list of what successive calls yield; it is
how the `while (t.GetNext())` loops of the parsers are written below.
-/

namespace HttpUtil

open Ascii

/-- What successive calls of `step` yield from `s` until it yields `none`, for
at most `fuel` calls. -/
def collect {σ α : Type} (step : σ → Option (α × σ)) : Nat → σ → List α
  | 0, _ => []
  | fuel + 1, s =>
      match step s with
      | none => []
      | some (a, s') => a :: collect step fuel s'

section Collect

variable {σ α : Type} (step : σ → Option (α × σ)) (μ : σ → Nat)
  (decreasing : ∀ s a s', step s = some (a, s') → μ s' < μ s)

include decreasing in
theorem collect_fuel_congr {s : σ} {f g : Nat} (enoughF : μ s < f) (enoughG : μ s < g) :
    collect step f s = collect step g s := by
  induction f generalizing s g with
  | zero => omega
  | succ f ih =>
      obtain ⟨g, rfl⟩ : ∃ g', g = g' + 1 := ⟨g - 1, by omega⟩
      simp only [collect]
      split
      · rfl
      · rename_i a s' found
        have smaller := decreasing s a s' found
        rw [ih (by omega) (g := g) (by omega)]

include decreasing in
theorem collect_of_some {s s' : σ} {a : α} (found : step s = some (a, s')) :
    collect step (μ s + 1) s = a :: collect step (μ s' + 1) s' := by
  have smaller := decreasing s a s' found
  rw [collect.eq_2, found]
  dsimp only
  rw [collect_fuel_congr step μ decreasing (by omega) (g := μ s' + 1) (by omega)]

theorem collect_of_none {s : σ} (fuel : Nat) (finished : step s = none) :
    collect step (fuel + 1) s = [] := by
  simp [collect, finished]

include decreasing in
theorem collect_congr {s s' : σ} (same : step s = step s') :
    collect step (μ s + 1) s = collect step (μ s' + 1) s' := by
  cases found : step s' with
  | none => rw [collect_of_none _ _ (same.trans found), collect_of_none _ _ found]
  | some next =>
      rw [collect_of_some step μ decreasing (same.trans found), collect_of_some step μ decreasing found]

end Collect

/-- `StringTokenizer::AdvanceState`. -/
structure AdvanceState where
  inQuote : Bool := false
  inEscape : Bool := false
  quoteChar : UInt8 := 0
deriving DecidableEq, Repr

/-- `StringTokenizer::AdvanceOne`: the next state, or `none` where `c` is a
delimiter outside quotes. -/
def advanceOne (delims quotes : Bytes) (state : AdvanceState) (c : UInt8) :
    Option AdvanceState :=
  if state.inQuote then
    if state.inEscape then some { state with inEscape := false }
    else if c == backslash then some { state with inEscape := true }
    else if c == state.quoteChar then some { state with inQuote := false }
    else some state
  else if c ∈ delims then none
  else some { state with quoteChar := c, inQuote := decide (c ∈ quotes) }

/-- The length of the token that the slurping loop of `FullGetNext` takes from
`rest`. -/
def slurp (delims quotes : Bytes) : AdvanceState → Bytes → Nat
  | _, [] => 0
  | state, c :: rest =>
      match advanceOne delims quotes state c with
      | none => 0
      | some state => slurp delims quotes state rest + 1

/-- `FullGetNext` on the bytes `rest` from offset `pos`, where `isDelim` says
the last token was a delimiter: the bounds of the next token, or `none` when
the end is reached. -/
def scan (delims quotes : Bytes) (returnEmptyTokens : Bool) :
    Bytes → Nat → Bool → Option (Nat × Nat)
  | rest, pos, isDelim =>
      if isDelim && (slurp delims quotes {} rest != 0 || returnEmptyTokens) then
        some (pos, pos + slurp delims quotes {} rest)
      else
        match rest with
        | [] => none
        | _ :: rest => scan delims quotes returnEmptyTokens rest (pos + 1) true

/-- A tokenizer over `input`, the bytes before the iterator `end_`; positions
are offsets into `input`. -/
structure StringTokenizer where
  input : Bytes
  delims : Bytes
  quotes : Bytes := []
  returnEmptyTokens : Bool := false
  tokenBegin : Nat
  tokenEnd : Nat
  tokenIsDelim : Bool := true

namespace StringTokenizer

/-- `Init(string_begin, string_end, delims)`, from the offset `start`. -/
def init (input : Bytes) (start : Nat) (delims : Bytes) : StringTokenizer :=
  { input, delims, tokenBegin := start, tokenEnd := start }

/-- `StringTokenizer::GetNext`.  `QuickGetNext`, which it takes when there are
no quote characters and no options, finds the same tokens. -/
def getNext (t : StringTokenizer) : Bool × StringTokenizer :=
  match scan t.delims t.quotes t.returnEmptyTokens (t.input.drop t.tokenEnd) t.tokenEnd
      t.tokenIsDelim with
  | some (first, last) =>
      (true, { t with tokenBegin := first, tokenEnd := last, tokenIsDelim := false })
  | none =>
      (false, { t with tokenBegin := t.input.length, tokenEnd := t.input.length,
                       tokenIsDelim := true })

def token (t : StringTokenizer) : Bytes := slice t.input t.tokenBegin t.tokenEnd

def next? (t : StringTokenizer) : Option (Bytes × StringTokenizer) :=
  match t.getNext with
  | (true, t') => some (t'.token, t')
  | (false, _) => none

/-- Twice the bytes left, and one more before a token: what a successful
`GetNext` lowers. -/
def remaining (t : StringTokenizer) : Nat :=
  2 * (t.input.length - t.tokenEnd) + if t.tokenIsDelim then 1 else 0

/-- The tokens that successive calls of `GetNext` find. -/
def pieces (t : StringTokenizer) : List Bytes := collect next? (t.remaining + 1) t

end StringTokenizer

theorem slurp_le (delims quotes : Bytes) (state : AdvanceState) (rest : Bytes) :
    slurp delims quotes state rest ≤ rest.length := by
  induction rest generalizing state with
  | nil => simp [slurp]
  | cons c rest ih =>
      simp only [slurp, List.length_cons]
      split
      · omega
      · exact Nat.succ_le_succ (ih _)

theorem scan_bounds {delims quotes : Bytes} {returnEmptyTokens : Bool} {rest : Bytes}
    {pos first last : Nat} {isDelim : Bool}
    (found : scan delims quotes returnEmptyTokens rest pos isDelim = some (first, last)) :
    pos ≤ first ∧ first ≤ last ∧ last ≤ pos + rest.length ∧ (isDelim = false → pos < first) := by
  induction rest generalizing pos isDelim with
  | nil =>
      unfold scan at found
      split at found
      · cases found
        simp_all [slurp]
      · cases found
  | cons c rest ih =>
      unfold scan at found
      split at found
      · cases found
        have := slurp_le delims quotes {} (c :: rest)
        simp_all
      · obtain ⟨lower, ordered, upper, -⟩ := ih found
        simp only [List.length_cons]
        omega

section Plain

variable (delims quotes : Bytes)

theorem advanceOne_plain {c : UInt8} (notDelim : c ∉ delims) (notQuote : c ∉ quotes)
    (inEscape : Bool) (q : UInt8) :
    advanceOne delims quotes ⟨false, inEscape, q⟩ c = some ⟨false, inEscape, c⟩ := by
  simp [advanceOne, notDelim, notQuote]

theorem slurp_plain {p : Bytes} (plain : ∀ c ∈ p, c ∉ delims ∧ c ∉ quotes)
    (inEscape : Bool) (q : UInt8) (rest : Bytes) :
    ∃ q', slurp delims quotes ⟨false, inEscape, q⟩ (p ++ rest) =
      slurp delims quotes ⟨false, inEscape, q'⟩ rest + p.length := by
  induction p generalizing q with
  | nil => exact ⟨q, by simp⟩
  | cons c p ih =>
      obtain ⟨notDelim, notQuote⟩ := plain c (by simp)
      obtain ⟨q', step⟩ := ih (fun x member => plain x (by simp [member])) c
      refine ⟨q', ?_⟩
      rw [List.cons_append, slurp, advanceOne_plain _ _ notDelim notQuote]
      dsimp only
      rw [step, List.length_cons, Nat.add_assoc]

end Plain

namespace StringTokenizer

theorem remaining_of_getNext {t t' : StringTokenizer} (found : t.getNext = (true, t')) :
    t'.remaining < t.remaining := by
  unfold getNext at found
  split at found
  · rename_i first last scanned
    cases found
    obtain ⟨lower, ordered, upper, after⟩ := scan_bounds scanned
    simp only [List.length_drop] at upper
    simp only [remaining, Bool.false_eq_true, if_false]
    cases isDelim : t.tokenIsDelim
    · have moved := after isDelim
      simp only [Bool.false_eq_true, if_false]
      omega
    · simp only [if_true]
      omega
  · cases found

theorem remaining_of_next? {t t' : StringTokenizer} {token : Bytes}
    (found : t.next? = some (token, t')) : t'.remaining < t.remaining := by
  unfold next? at found
  split at found
  · rename_i t'' stepped
    cases found
    exact remaining_of_getNext stepped
  · cases found

theorem pieces_of_next? {t t' : StringTokenizer} {token : Bytes}
    (found : t.next? = some (token, t')) : t.pieces = token :: t'.pieces :=
  collect_of_some next? remaining (fun _ _ _ => remaining_of_next?) found

theorem pieces_of_next?_none {t : StringTokenizer} (finished : t.next? = none) :
    t.pieces = [] :=
  collect_of_none next? _ finished

theorem pieces_congr {t u : StringTokenizer} (same : t.next? = u.next?) :
    t.pieces = u.pieces := by
  cases found : u.next? with
  | none => rw [pieces_of_next?_none found, pieces_of_next?_none (same.trans found)]
  | some step =>
      rw [pieces_of_next? found, pieces_of_next? (same.trans (by rw [found]))]

theorem drop_succ_of_drop {input r : Bytes} {pos : Nat} {c : UInt8}
    (rest : input.drop pos = c :: r) : input.drop (pos + 1) = r := by
  rw [← List.tail_drop, rest, List.tail_cons]

theorem getNext_skip {t : StringTokenizer} {c : UInt8} {r : Bytes}
    (rest : t.input.drop t.tokenEnd = c :: r)
    (skipped : t.tokenIsDelim = false ∨
      (slurp t.delims t.quotes {} (c :: r) = 0 ∧ t.returnEmptyTokens = false)) :
    t.getNext = { t with tokenEnd := t.tokenEnd + 1, tokenIsDelim := true }.getNext := by
  have unchanged : scan t.delims t.quotes t.returnEmptyTokens (c :: r) t.tokenEnd t.tokenIsDelim =
      scan t.delims t.quotes t.returnEmptyTokens r (t.tokenEnd + 1) true := by
    rw [scan]
    rcases skipped with after | ⟨empty, noEmpty⟩ <;> simp_all
  simp only [getNext, rest, unchanged, drop_succ_of_drop rest]

theorem pieces_skip {t : StringTokenizer} {c : UInt8} {r : Bytes} (rest : t.input.drop t.tokenEnd = c :: r)
    (afterToken : t.tokenIsDelim = false) :
    t.pieces = { t with tokenEnd := t.tokenEnd + 1, tokenIsDelim := true }.pieces :=
  pieces_congr (by simp only [next?, getNext_skip rest (.inl afterToken)])

@[simp] theorem getNext_input (t : StringTokenizer) : t.getNext.2.input = t.input := by
  unfold getNext; split <;> rfl

@[simp] theorem getNext_delims (t : StringTokenizer) : t.getNext.2.delims = t.delims := by
  unfold getNext; split <;> rfl

@[simp] theorem getNext_quotes (t : StringTokenizer) : t.getNext.2.quotes = t.quotes := by
  unfold getNext; split <;> rfl

@[simp] theorem getNext_returnEmptyTokens (t : StringTokenizer) :
    t.getNext.2.returnEmptyTokens = t.returnEmptyTokens := by
  unfold getNext; split <;> rfl

theorem getNext_found {t t' : StringTokenizer} (found : t.getNext = (true, t')) :
    ∃ first last, scan t.delims t.quotes t.returnEmptyTokens (t.input.drop t.tokenEnd) t.tokenEnd
        t.tokenIsDelim = some (first, last) ∧
      t' = { t with tokenBegin := first, tokenEnd := last, tokenIsDelim := false } := by
  unfold getNext at found
  split at found
  · rename_i first last scanned
    exact ⟨first, last, scanned, (Prod.mk.inj found).2.symm⟩
  · cases found

theorem getNext_tokenEnd_le {t : StringTokenizer} (bound : t.tokenEnd ≤ t.input.length) :
    t.getNext.2.tokenEnd ≤ t.input.length := by
  unfold getNext
  split
  · rename_i first last scanned
    have := (scan_bounds scanned).2.2.1
    simp only [List.length_drop] at this
    dsimp only
    omega
  · exact Nat.le_refl _

theorem getNext_bounds {t t' : StringTokenizer} (found : t.getNext = (true, t'))
    (bound : t.tokenEnd ≤ t.input.length) :
    t'.tokenBegin ≤ t'.tokenEnd ∧ t'.tokenEnd ≤ t'.input.length := by
  obtain ⟨first, last, scanned, rfl⟩ := getNext_found found
  have ⟨_, ordered, upper, _⟩ := scan_bounds scanned
  simp only [List.length_drop] at upper
  exact ⟨ordered, by dsimp only; omega⟩

end StringTokenizer

theorem scan_token {delims quotes input rest : Bytes} {returnEmptyTokens isDelim : Bool}
    {pos first last : Nat} (remaining : input.drop pos = rest)
    (found : scan delims quotes returnEmptyTokens rest pos isDelim = some (first, last)) :
    last = first + slurp delims quotes {} (input.drop first) := by
  induction rest generalizing pos isDelim with
  | nil =>
      unfold scan at found
      split at found
      · cases found; rw [remaining]
      · cases found
  | cons c rest ih =>
      unfold scan at found
      split at found
      · cases found; rw [remaining]
      · exact ih (StringTokenizer.drop_succ_of_drop remaining) found

namespace StringTokenizer

theorem token_of_getNext {t t' : StringTokenizer} (found : t.getNext = (true, t')) :
    t'.token = (t.input.drop t'.tokenBegin).take
      (slurp t.delims t.quotes {} (t.input.drop t'.tokenBegin)) := by
  obtain ⟨first, last, scanned, rfl⟩ := getNext_found found
  simp [token, slice, scan_token rfl scanned]

theorem getNext_word {t : StringTokenizer} {w rest : Bytes} (atDelim : t.tokenIsDelim = true)
    (remaining : t.input.drop t.tokenEnd = w ++ rest)
    (slurped : slurp t.delims t.quotes {} (w ++ rest) = w.length) (nonempty : w ≠ []) :
    t.getNext =
      (true, { t with tokenBegin := t.tokenEnd, tokenEnd := t.tokenEnd + w.length, tokenIsDelim := false }) := by
  have long : w.length ≠ 0 := by simpa using nonempty
  simp only [getNext, remaining]
  unfold scan
  simp [atDelim, slurped, long]

theorem getNext_end {t : StringTokenizer} (afterToken : t.tokenIsDelim = false)
    (finished : t.input.drop t.tokenEnd = []) : t.getNext.1 = false := by
  simp [getNext, finished, scan, afterToken]

end StringTokenizer

/-- The tokens a tokenizer without quote characters or options finds in `s`: the
non-empty runs between delimiters. -/
def fields (delims s : Bytes) : List Bytes :=
  (s.splitOnP fun c => decide (c ∈ delims)).filter fun w => !w.isEmpty

theorem fields_nil (delims : Bytes) : fields delims [] = [] := rfl

theorem fields_delim_cons {delims : Bytes} {c : UInt8} (delim : c ∈ delims) (s : Bytes) :
    fields delims (c :: s) = fields delims s := by
  simp [fields, delim]

theorem fields_word {delims w : Bytes} (nonempty : w ≠ []) (clear : ∀ c ∈ w, c ∉ delims) :
    fields delims w = [w] := by
  rw [fields, List.splitOnP_eq_single _ _ (by simpa using clear)]
  simp [nonempty]

theorem fields_word_delim {delims w : Bytes} {d : UInt8} (nonempty : w ≠ [])
    (clear : ∀ c ∈ w, c ∉ delims) (delim : d ∈ delims) (s : Bytes) :
    fields delims (w ++ d :: s) = w :: fields delims s := by
  rw [fields, List.splitOnP_first _ _ (by simpa using clear) d (by simpa using delim)]
  simp [fields, nonempty]

theorem fields_of_delims {delims s : Bytes} (allDelims : ∀ c ∈ s, c ∈ delims) :
    fields delims s = [] := by
  induction s with
  | nil => rfl
  | cons c s ih =>
      simp only [List.mem_cons, forall_eq_or_imp] at allDelims
      rw [fields_delim_cons allDelims.1, ih allDelims.2]

theorem fields_delims_append {delims sep : Bytes} (allDelims : ∀ c ∈ sep, c ∈ delims)
    (s : Bytes) : fields delims (sep ++ s) = fields delims s := by
  induction sep with
  | nil => rfl
  | cons c sep ih =>
      simp only [List.mem_cons, forall_eq_or_imp] at allDelims
      rw [List.cons_append, fields_delim_cons allDelims.1, ih allDelims.2]

theorem fields_word_append {delims w rest : Bytes} (nonempty : w ≠ [])
    (clear : ∀ c ∈ w, c ∉ delims) (after : ∀ c ∈ rest.head?, c ∈ delims) :
    fields delims (w ++ rest) = w :: fields delims rest := by
  cases rest with
  | nil => rw [List.append_nil, fields_word nonempty clear, fields_nil]
  | cons d rest =>
      have delim : d ∈ delims := after d rfl
      rw [fields_word_delim nonempty clear delim, fields_delim_cons delim]

theorem fields_flatMap {delims tail : Bytes} (sep : Bytes) {words : List Bytes}
    (sepDelims : ∀ c ∈ sep, c ∈ delims) (sepNonempty : sep ≠ [])
    (tailDelims : ∀ c ∈ tail, c ∈ delims)
    (wellFormed : ∀ w ∈ words, w ≠ [] ∧ ∀ c ∈ w, c ∉ delims) :
    fields delims (words.flatMap (sep ++ ·) ++ tail) = words := by
  induction words with
  | nil => simpa using fields_of_delims tailDelims
  | cons w words ih =>
      obtain ⟨nonempty, clear⟩ := wellFormed w (by simp)
      rw [List.flatMap_cons, List.append_assoc, List.append_assoc, fields_delims_append sepDelims,
        fields_word_append nonempty clear, ih fun v member => wellFormed v (by simp [member])]
      cases words with
      | nil => simpa using fun c head => tailDelims c (List.mem_of_mem_head? head)
      | cons v words =>
          obtain ⟨c, sep, rfl⟩ := List.exists_cons_of_ne_nil sepNonempty
          simpa using sepDelims c (by simp)

theorem fields_terminated {delims : Bytes} (terminator : Bytes) {words : List Bytes}
    (allDelims : ∀ c ∈ terminator, c ∈ delims) (nonempty : terminator ≠ [])
    (wellFormed : ∀ w ∈ words, w ≠ [] ∧ ∀ c ∈ w, c ∉ delims) :
    fields delims (words.flatMap (· ++ terminator)) = words := by
  induction words with
  | nil => rfl
  | cons w words ih =>
      obtain ⟨c, rest, rfl⟩ := List.exists_cons_of_ne_nil nonempty
      obtain ⟨filled, clear⟩ := wellFormed w (List.mem_cons_self w words)
      have ended : ∀ d ∈ (c :: rest ++ words.flatMap (· ++ c :: rest)).head?, d ∈ delims := by
        simpa using allDelims c (List.mem_cons_self c rest)
      rw [List.flatMap_cons, List.append_assoc, fields_word_append filled clear ended,
        fields_delims_append allDelims, ih fun v member => wellFormed v (List.mem_cons_of_mem w member)]

theorem fields_intercalate {d : UInt8} {words : List Bytes} (clear : ∀ w ∈ words, d ∉ w) :
    fields [d] ([d].intercalate words) = words.filter fun w => !w.isEmpty := by
  cases words with
  | nil => rfl
  | cons w ws =>
      have single : (fun c => decide (c ∈ [d])) = (· == d) :=
        funext fun c => by simp only [Bool.beq_eq_decide_eq, List.mem_singleton]
      rw [fields, single]
      exact congrArg _ (List.splitOn_intercalate _ d clear (List.cons_ne_nil w ws))

theorem mem_splitOnP {p : UInt8 → Bool} {s w : Bytes} (member : w ∈ s.splitOnP p) :
    ∀ c ∈ w, c ∈ s ∧ p c = false := by
  induction s generalizing w with
  | nil => simp_all
  | cons x xs ih =>
      rw [List.splitOnP_cons] at member
      split at member
      · rcases List.mem_cons.mp member with rfl | member
        · simp
        · exact fun c inW => ⟨List.mem_cons_of_mem _ (ih member c inW).1, (ih member c inW).2⟩
      · obtain ⟨head, tail, split⟩ := List.exists_cons_of_ne_nil (List.splitOnP_ne_nil p xs)
        rw [split, List.modifyHead_cons] at member
        rcases List.mem_cons.mp member with rfl | member
        · intro c inW
          rcases List.mem_cons.mp inW with rfl | inHead
          · simp_all
          · have := ih (split ▸ List.mem_cons_self head tail) c inHead
            exact ⟨List.mem_cons_of_mem _ this.1, this.2⟩
        · intro c inW
          have := ih (split ▸ List.mem_cons_of_mem head member) c inW
          exact ⟨List.mem_cons_of_mem _ this.1, this.2⟩

theorem mem_fields {delims s w : Bytes} (member : w ∈ fields delims s) :
    w ≠ [] ∧ ∀ c ∈ w, c ∈ s ∧ c ∉ delims := by
  simp only [fields, List.mem_filter, Bool.not_eq_true', List.isEmpty_eq_false] at member
  exact ⟨by simpa using member.2, fun c inW => by simpa using mem_splitOnP member.1 c inW⟩

theorem slurp_unquoted (delims : Bytes) {state : AdvanceState} (outside : state.inQuote = false)
    (rest : Bytes) :
    slurp delims [] state rest = (rest.takeWhile fun c => !decide (c ∈ delims)).length := by
  induction rest generalizing state with
  | nil => rfl
  | cons c rest ih =>
      by_cases delim : c ∈ delims
      · simp [slurp, advanceOne, outside, delim]
      · simp [slurp, advanceOne, outside, delim, ih]

namespace StringTokenizer

theorem token_unquoted {t t' : StringTokenizer} (found : t.getNext = (true, t'))
    (noQuotes : t.quotes = []) : ∀ c ∈ t'.token, c ∉ t.delims := by
  intro c member
  rw [token_of_getNext found, noQuotes, slurp_unquoted _ rfl,
    ← List.prefix_iff_eq_take.mp (List.takeWhile_prefix _)] at member
  simpa using List.mem_takeWhile_imp member

/-- Without quote characters or options, and before a token, the tokens of a
tokenizer are the `fields` of what it has left. -/
theorem pieces_eq_fields {t : StringTokenizer} (noQuotes : t.quotes = [])
    (noEmpty : t.returnEmptyTokens = false) (atDelim : t.tokenIsDelim = true) :
    t.pieces = fields t.delims (t.input.drop t.tokenEnd) := by
  obtain ⟨n, hlen⟩ : ∃ n, (t.input.drop t.tokenEnd).length = n := ⟨_, rfl⟩
  induction n using Nat.strong_induction_on generalizing t with
  | _ n ih =>
  cases rest : t.input.drop t.tokenEnd with
  | nil =>
      apply pieces_of_next?_none
      simp [next?, getNext, rest, scan, slurp, atDelim, noEmpty]
  | cons c r =>
      by_cases delim : c ∈ t.delims
      · let u : StringTokenizer := { t with tokenEnd := t.tokenEnd + 1, tokenIsDelim := true }
        have skipped : t.getNext = u.getNext :=
          getNext_skip rest (.inr ⟨by simp [slurp, advanceOne, noQuotes, delim], noEmpty⟩)
        have uRest : u.input.drop u.tokenEnd = r := drop_succ_of_drop rest
        have shorter : r.length < n := by rw [← hlen, rest]; simp
        rw [pieces_congr (u := u) (by simp only [next?, skipped]), fields_delim_cons delim,
          ih r.length shorter (t := u) noQuotes noEmpty rfl (by rw [uRest]), uRest]
      · let p : UInt8 → Bool := fun c => !decide (c ∈ t.delims)
        obtain ⟨w, after, split, word, dropped⟩ : ∃ w after, c :: r = w ++ after ∧
            w = (c :: r).takeWhile p ∧ after = (c :: r).dropWhile p :=
          ⟨_, _, (List.takeWhile_append_dropWhile p _).symm, rfl, rfl⟩
        have nonempty : w ≠ [] := by simp [word, p, delim]
        have clear : ∀ x ∈ w, x ∉ t.delims := fun x member => by
          have kept : p x = true := List.mem_takeWhile_imp (word ▸ member)
          simpa [p] using kept
        have slurped : slurp t.delims t.quotes {} (c :: r) = w.length := by
          rw [noQuotes, slurp_unquoted _ rfl, ← word]
        let t' : StringTokenizer :=
          { t with tokenBegin := t.tokenEnd, tokenEnd := t.tokenEnd + w.length, tokenIsDelim := false }
        have found : t.next? = some (w, t') := by
          have wordLength : w.length ≠ 0 := by simpa using nonempty
          simp only [next?, getNext, rest, scan, atDelim, slurped, noEmpty]
          simp [wordLength, token, slice, t', rest, split, List.take_left', noEmpty]
        have afterRest : t'.input.drop t'.tokenEnd = after := by
          simp only [t']
          rw [← List.drop_drop, rest, split, List.drop_left]
        rw [pieces_of_next? found]
        cases afterShape : after with
        | nil =>
            have finished : t'.next? = none := by
              simp [next?, getNext, afterRest, afterShape, scan, t']
            rw [pieces_of_next?_none finished, split, afterShape, List.append_nil,
              fields_word nonempty clear]
        | cons d r' =>
            have stop : d ∈ t.delims := by
              have := List.head_dropWhile_not p (c :: r) (by rw [← dropped, afterShape]; simp)
              simpa [p, ← dropped, afterShape] using this
            let u : StringTokenizer := { t' with tokenEnd := t'.tokenEnd + 1, tokenIsDelim := true }
            have skipped : t'.getNext = u.getNext := getNext_skip (afterRest.trans afterShape) (.inl rfl)
            have uRest : u.input.drop u.tokenEnd = r' := drop_succ_of_drop (afterRest.trans afterShape)
            have shorter : r'.length < n := by
              rw [← hlen, rest, split, afterShape]
              simp only [List.length_append, List.length_cons]
              have := List.length_pos.mpr nonempty
              omega
            rw [pieces_congr (u := u) (by simp only [next?, skipped]),
              ih r'.length shorter (t := u) noQuotes noEmpty rfl (by rw [uRest]), uRest, split,
              afterShape, fields_word_delim nonempty clear stop]

theorem pieces_init (s delims : Bytes) : (init s 0 delims).pieces = fields delims s :=
  pieces_eq_fields rfl rfl rfl

/-- With `RETURN_EMPTY_TOKENS`, without quote characters and before a token, the
tokens of a tokenizer are all the runs between delimiters of what it has left,
the empty ones included. -/
theorem pieces_eq_splitOnP {t : StringTokenizer} (noQuotes : t.quotes = [])
    (empty : t.returnEmptyTokens = true) (atDelim : t.tokenIsDelim = true) :
    t.pieces = (t.input.drop t.tokenEnd).splitOnP fun c => decide (c ∈ t.delims) := by
  obtain ⟨n, hlen⟩ : ∃ n, (t.input.drop t.tokenEnd).length = n := ⟨_, rfl⟩
  induction n using Nat.strong_induction_on generalizing t with
  | _ n ih =>
  let p : UInt8 → Bool := fun c => !decide (c ∈ t.delims)
  obtain ⟨w, after, split, word, dropped⟩ : ∃ w after, t.input.drop t.tokenEnd = w ++ after ∧
      w = (t.input.drop t.tokenEnd).takeWhile p ∧ after = (t.input.drop t.tokenEnd).dropWhile p :=
    ⟨_, _, (List.takeWhile_append_dropWhile p _).symm, rfl, rfl⟩
  have clear : ∀ x ∈ w, x ∉ t.delims := fun x member => by
    have kept : p x = true := List.mem_takeWhile_imp (word ▸ member)
    simpa [p] using kept
  let t' : StringTokenizer :=
    { t with tokenBegin := t.tokenEnd, tokenEnd := t.tokenEnd + w.length, tokenIsDelim := false }
  have found : t.next? = some (w, t') := by
    have slurped : slurp t.delims t.quotes {} (t.input.drop t.tokenEnd) = w.length := by
      rw [noQuotes, slurp_unquoted _ rfl, ← word]
    simp only [next?, getNext]
    unfold scan
    rw [if_pos (by simp [atDelim, empty]), slurped]
    simp [token, slice, t', split, List.take_left']
  have afterRest : t'.input.drop t'.tokenEnd = after := by
    simp only [t']
    rw [← List.drop_drop, split, List.drop_left]
  rw [pieces_of_next? found, split]
  cases afterShape : after with
  | nil =>
      rw [pieces_of_next?_none (by simp [next?, getNext, afterRest, afterShape, scan, t']),
        List.append_nil, List.splitOnP_eq_single _ _ (by simpa using clear)]
  | cons d r =>
      have stop : d ∈ t.delims := by
        have := List.head_dropWhile_not p (t.input.drop t.tokenEnd) (by rw [← dropped, afterShape]; simp)
        simpa [p, ← dropped, afterShape] using this
      let u : StringTokenizer := { t' with tokenEnd := t'.tokenEnd + 1, tokenIsDelim := true }
      have uRest : u.input.drop u.tokenEnd = r := drop_succ_of_drop (afterRest.trans afterShape)
      have shorter : r.length < n := by
        rw [← hlen, split, afterShape]
        simp only [List.length_append, List.length_cons]
        omega
      rw [pieces_skip (afterRest.trans afterShape) rfl,
        ih r.length shorter (t := u) noQuotes empty rfl (by rw [uRest]), uRest,
        List.splitOnP_first _ _ (by simpa using clear) d (by simpa using stop)]

end StringTokenizer

theorem slurp_quotes_absent (delims : Bytes) {quotes : Bytes} :
    ∀ {state : AdvanceState} {rest : Bytes}, state.inQuote = false → (∀ c ∈ rest, c ∉ quotes) →
      slurp delims quotes state rest = slurp delims [] state rest
  | _, [], _, _ => rfl
  | state, c :: rest, outside, absent => by
      by_cases delim : c ∈ delims
      · simp [slurp, advanceOne, outside, delim]
      · simp [slurp, advanceOne, outside, delim, absent c (List.mem_cons_self _ _)]
        refine slurp_quotes_absent delims ?_ fun x member => absent x (List.mem_cons_of_mem _ member)
        rfl

theorem scan_quotes_absent (delims : Bytes) {quotes : Bytes} (returnEmptyTokens : Bool) :
    ∀ {rest : Bytes} (pos : Nat) (isDelim : Bool), (∀ c ∈ rest, c ∉ quotes) →
      scan delims quotes returnEmptyTokens rest pos isDelim = scan delims [] returnEmptyTokens rest pos isDelim
  | [], pos, isDelim, _ => by simp [scan, slurp]
  | c :: rest, pos, isDelim, absent => by
      rw [scan, scan, slurp_quotes_absent delims rfl absent,
        scan_quotes_absent delims returnEmptyTokens (pos + 1) true (fun x member => absent x (List.mem_cons_of_mem _ member))]

namespace StringTokenizer

theorem getNext_quotes_absent {t t' : StringTokenizer} {found : Bool} (stepped : t.getNext = (found, t'))
    (absent : ∀ c ∈ t.input.drop t.tokenEnd, c ∉ t.quotes) :
    { t with quotes := [] }.getNext = (found, { t' with quotes := [] }) := by
  have unquoted : { t with quotes := [] }.getNext = (t.getNext.1, { t.getNext.2 with quotes := [] }) := by
    unfold getNext
    dsimp only
    rw [scan_quotes_absent _ _ _ _ absent]
    split <;> rfl
  rw [unquoted, stepped]

/-- Quote characters that do not occur in what a tokenizer has left change none
of the tokens it finds. -/
theorem pieces_quotes_absent : ∀ (fuel : Nat) {t : StringTokenizer}, t.remaining < fuel →
    (∀ c ∈ t.input.drop t.tokenEnd, c ∉ t.quotes) → { t with quotes := [] }.pieces = t.pieces
  | 0, _, enough, _ => absurd enough (Nat.not_lt_zero _)
  | fuel + 1, t, enough, absent => by
      cases stepped : t.getNext with
      | mk found t' =>
      have unquoted := getNext_quotes_absent stepped absent
      cases found with
      | false =>
          rw [pieces_of_next?_none (by simp [next?, unquoted]),
            pieces_of_next?_none (by simp [next?, stepped])]
      | true =>
          have shorter := remaining_of_getNext stepped
          obtain ⟨first, last, scanned, reached⟩ := getNext_found stepped
          obtain ⟨lower, ordered, -, -⟩ := scan_bounds scanned
          rw [@pieces_of_next? _ { t' with quotes := [] } t'.token (by simp [next?, unquoted, token]),
            @pieces_of_next? t t' t'.token (by simp [next?, stepped])]
          congr 1
          refine pieces_quotes_absent fuel (by omega) fun c member => ?_
          subst reached
          dsimp only at member
          rw [show last = t.tokenEnd + (last - t.tokenEnd) by omega, ← List.drop_drop] at member
          exact absent c (List.mem_of_mem_drop member)

end StringTokenizer

theorem advanceOne_eq_none {delims quotes : Bytes} {state : AdvanceState} {c : UInt8}
    (stopped : advanceOne delims quotes state c = none) : c ∈ delims := by
  unfold advanceOne at stopped
  split_ifs at stopped
  assumption

theorem slurp_stop (delims quotes : Bytes) :
    ∀ (state : AdvanceState) (rest : Bytes), ∀ c ∈ (rest.drop (slurp delims quotes state rest)).head?, c ∈ delims
  | _, [] => by simp
  | state, c :: rest => by
      cases stepped : advanceOne delims quotes state c with
      | none => simpa [slurp, stepped] using advanceOne_eq_none stepped
      | some next => simpa [slurp, stepped] using slurp_stop delims quotes next rest

namespace StringTokenizer

theorem next?_slurp {t : StringTokenizer} (atDelim : t.tokenIsDelim = true)
    (kept : slurp t.delims t.quotes {} (t.input.drop t.tokenEnd) ≠ 0 ∨ t.returnEmptyTokens = true) :
    t.next? = some ((t.input.drop t.tokenEnd).take (slurp t.delims t.quotes {} (t.input.drop t.tokenEnd)),
      { t with tokenBegin := t.tokenEnd, tokenEnd := t.tokenEnd + slurp t.delims t.quotes {} (t.input.drop t.tokenEnd),
               tokenIsDelim := false }) := by
  simp only [next?, getNext]
  unfold scan
  have scanned : (t.tokenIsDelim && (slurp t.delims t.quotes {} (t.input.drop t.tokenEnd) != 0 ||
      t.returnEmptyTokens)) = true := by
    rcases kept with taken | empty
    · simp [atDelim, taken]
    · simp [atDelim, empty]
  rw [if_pos scanned]
  simp [token, slice]

theorem next?_returnEmpty {t : StringTokenizer} (empty : t.returnEmptyTokens = true)
    (atDelim : t.tokenIsDelim = true) :
    t.next? = some ((t.input.drop t.tokenEnd).take (slurp t.delims t.quotes {} (t.input.drop t.tokenEnd)),
      { t with tokenBegin := t.tokenEnd, tokenEnd := t.tokenEnd + slurp t.delims t.quotes {} (t.input.drop t.tokenEnd),
               tokenIsDelim := false }) :=
  next?_slurp atDelim (.inr empty)

theorem next?_eq_none {t : StringTokenizer} (stopped : t.getNext.1 = false) : t.next? = none := by
  unfold next?
  split <;> simp_all

theorem intercalate_pieces {t : StringTokenizer} {d : UInt8} (single : t.delims = [d])
    (empty : t.returnEmptyTokens = true) (atDelim : t.tokenIsDelim = true) :
    [d].intercalate t.pieces = t.input.drop t.tokenEnd := by
  obtain ⟨n, hlen⟩ : ∃ n, (t.input.drop t.tokenEnd).length = n := ⟨_, rfl⟩
  induction n using Nat.strong_induction_on generalizing t with
  | _ n ih =>
  obtain ⟨k, slurped⟩ : ∃ k, slurp t.delims t.quotes {} (t.input.drop t.tokenEnd) = k := ⟨_, rfl⟩
  have found := next?_returnEmpty empty atDelim
  rw [slurped] at found
  let t' : StringTokenizer := { t with tokenBegin := t.tokenEnd, tokenEnd := t.tokenEnd + k, tokenIsDelim := false }
  have afterRest : t'.input.drop t'.tokenEnd = (t.input.drop t.tokenEnd).drop k := by
    simp only [t', List.drop_drop]
  have whole := List.take_append_drop k (t.input.drop t.tokenEnd)
  rw [pieces_of_next? found]
  cases afterShape : (t.input.drop t.tokenEnd).drop k with
  | nil =>
      have finished : t'.next? = none := by simp [next?, getNext, afterRest, afterShape, scan, t']
      rw [pieces_of_next?_none finished]
      rw [afterShape, List.append_nil] at whole
      simpa [List.intercalate] using whole
  | cons c r =>
      have stop : c = d := by
        have := slurp_stop t.delims t.quotes {} (t.input.drop t.tokenEnd)
        rw [slurped, afterShape] at this
        simpa [single] using this c rfl
      let u : StringTokenizer := { t' with tokenEnd := t'.tokenEnd + 1, tokenIsDelim := true }
      have uRest : u.input.drop u.tokenEnd = r := drop_succ_of_drop (afterRest.trans afterShape)
      have shorter : r.length < n := by
        rw [← hlen, ← whole, afterShape, List.length_append, List.length_cons]
        omega
      have rest := ih r.length shorter (t := u) single empty rfl (by rw [uRest])
      obtain ⟨w, u', next⟩ : ∃ w u', u.next? = some (w, u') := ⟨_, _, next?_returnEmpty empty rfl⟩
      rw [pieces_of_next? next, uRest] at rest
      rw [pieces_skip (afterRest.trans afterShape) rfl, pieces_of_next? next]
      conv_rhs => rw [← whole, afterShape, stop, ← rest]
      simp [List.intercalate]

theorem getNext_tokenBegin (t : StringTokenizer) (b : Nat) : { t with tokenBegin := b }.getNext = t.getNext :=
  rfl

theorem pieces_tokenBegin (t : StringTokenizer) (b : Nat) : { t with tokenBegin := b }.pieces = t.pieces :=
  pieces_congr (by unfold next?; rw [getNext_tokenBegin])

theorem pieces_returnEmptyTokens_false {t : StringTokenizer} (atDelim : t.tokenIsDelim = true) :
    { t with returnEmptyTokens := false }.pieces =
      { t with returnEmptyTokens := true }.pieces.filter fun w => !w.isEmpty := by
  obtain ⟨n, hlen⟩ : ∃ n, (t.input.drop t.tokenEnd).length = n := ⟨_, rfl⟩
  induction n using Nat.strong_induction_on generalizing t with
  | _ n ih =>
  obtain ⟨k, slurped⟩ : ∃ k, slurp t.delims t.quotes {} (t.input.drop t.tokenEnd) = k := ⟨_, rfl⟩
  have taken : ((t.input.drop t.tokenEnd).take k).length = k := by
    rw [List.length_take, ← slurped]
    exact Nat.min_eq_left (slurp_le _ _ _ _)
  -- the tokenizers after the token, with the option and without it
  let withToken : StringTokenizer :=
    { t with returnEmptyTokens := true, tokenBegin := t.tokenEnd, tokenEnd := t.tokenEnd + k, tokenIsDelim := false }
  let withoutToken : StringTokenizer := { withToken with returnEmptyTokens := false }
  have withEmpty : { t with returnEmptyTokens := true }.next? =
      some ((t.input.drop t.tokenEnd).take k, withToken) := by
    have found := @next?_returnEmpty { t with returnEmptyTokens := true } rfl atDelim
    simp only [slurped] at found
    exact found
  have withoutEmpty : k ≠ 0 → { t with returnEmptyTokens := false }.next? =
      some ((t.input.drop t.tokenEnd).take k, withoutToken) := fun nonzero => by
    have found := @next?_slurp { t with returnEmptyTokens := false } atDelim (.inl (slurped ▸ nonzero))
    simp only [slurped] at found
    exact found
  have kept : k ≠ 0 → ((t.input.drop t.tokenEnd).take k).isEmpty = false := fun nonzero => by
    cases piece : (t.input.drop t.tokenEnd).take k with
    | nil =>
        rw [piece] at taken
        exact absurd taken.symm nonzero
    | cons => rfl
  rw [pieces_of_next? withEmpty]
  cases after : (t.input.drop t.tokenEnd).drop k with
  | nil =>
      have finished : t.input.drop (t.tokenEnd + k) = [] := by rw [← List.drop_drop, after]
      rw [pieces_of_next?_none (next?_eq_none (@getNext_end withToken rfl finished))]
      by_cases nonzero : k = 0
      · subst nonzero
        have empty : t.input.drop t.tokenEnd = [] := after
        refine (pieces_of_next?_none (next?_eq_none ?_)).trans (by simp)
        simp [getNext, empty, scan, slurp]
      · rw [pieces_of_next? (withoutEmpty nonzero),
          pieces_of_next?_none (next?_eq_none (@getNext_end withoutToken rfl finished))]
        simp [kept nonzero]
  | cons c r =>
      have afterToken : t.input.drop (t.tokenEnd + k) = c :: r := by rw [← List.drop_drop, after]
      let u : StringTokenizer := { t with tokenEnd := t.tokenEnd + k + 1, tokenIsDelim := true }
      have shorter : r.length < n := by
        have whole := List.take_append_drop k (t.input.drop t.tokenEnd)
        rw [after] at whole
        have lengths := congrArg List.length whole
        simp only [List.length_append, List.length_cons] at lengths
        omega
      have rest := ih r.length shorter (t := u) rfl (by rw [drop_succ_of_drop afterToken])
      have skipWith : withToken.pieces = { u with returnEmptyTokens := true }.pieces :=
        (@pieces_skip withToken c r afterToken rfl).trans
          (pieces_tokenBegin { u with returnEmptyTokens := true } t.tokenEnd)
      rw [skipWith]
      by_cases nonzero : k = 0
      · subst nonzero
        have atDelimiter : t.input.drop t.tokenEnd = c :: r := after
        have stops : slurp t.delims t.quotes {} (c :: r) = 0 := atDelimiter ▸ slurped
        have skipWithout : { t with returnEmptyTokens := false }.pieces = { u with returnEmptyTokens := false }.pieces :=
          pieces_congr (by simp only [next?, getNext_skip (t := { t with returnEmptyTokens := false }) atDelimiter
            (.inr ⟨stops, rfl⟩)])
        rw [skipWithout, rest]
        simp
      · have skipWithout : withoutToken.pieces = { u with returnEmptyTokens := false }.pieces :=
          (@pieces_skip withoutToken c r afterToken rfl).trans
            (pieces_tokenBegin { u with returnEmptyTokens := false } t.tokenEnd)
        rw [pieces_of_next? (withoutEmpty nonzero), skipWithout, rest]
        simp [kept nonzero]

end StringTokenizer

end HttpUtil
