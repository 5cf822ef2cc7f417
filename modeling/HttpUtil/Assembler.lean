import Mathlib.Data.List.Chain
import HttpUtil.Text.Tokenizer

/-! # The raw header assembler

`HttpUtil::AssembleRawHeaders` turns a raw response head into the canonical
block: slop before the status line dropped, continuation lines joined, NULs
erased and every line terminated by a NUL.  `ConvertHeadersBackToHTTPResponse`
writes a canonical block back with CRLF line ends.

The line loop is a fold of `assembleLine` over the tokens of the CR/LF
tokenizer; its output is described by the logical lines it builds
(`joinLines`), which is what the theorems below are about.
-/

namespace HttpUtil

open Ascii

/-- `HttpUtil::LocateStartOfStatusLine`: the first offset `i ≤ min(len - 4, 4)`
at which `http` starts, in any case. -/
def locateStartOfStatusLine (buf : Bytes) : Option Nat :=
  if buf.length ≥ 4 then
    (List.range (min (buf.length - 4) 4 + 1)).find? fun i =>
      lowerCaseEqualsASCII ((buf.drop i).take 4) (ascii "http")
  else none

/-- `IsLineSegmentContinuable`: a non-empty name before a colon, not starting
with LWS. -/
def isLineSegmentContinuable (line : Bytes) : Bool :=
  if line.isEmpty then false
  else
    match findIndex (· == colon) line with
    | none => false
    | some colon =>
        let name := line.take colon
        if name.isEmpty then false
        else if isLWS (name.headD nul) then false
        else true

/-- `FindStatusLineEnd`: the first CR or LF, or the end. -/
def findStatusLineEnd (str : Bytes) : Nat :=
  (findIndex (fun c => c == cr || c == lf) str).getD str.length

/-- `RemoveLeadingNonLWS`: what follows the leading LWS. -/
def removeLeadingNonLWS (str : Bytes) : Bytes := str.dropWhile isLWS

def startsWithLWS (line : Bytes) : Bool := isLWS (line.headD nul)

/-- One pass of the line loop of `AssembleRawHeaders`, on the output so far and
`prev_line_continuable`: an LWS-led line continues a continuable line after a
single space, any other line is terminated by LF and decides continuability. -/
def assembleLine (acc : Bytes × Bool) (line : Bytes) : Bytes × Bool :=
  if acc.2 && startsWithLWS line then (acc.1 ++ space :: removeLeadingNonLWS line, acc.2)
  else (acc.1 ++ lf :: line, isLineSegmentContinuable line)

/-- The last two statements of `AssembleRawHeaders`: erase every NUL, then
replace every LF by a NUL. -/
def terminateWithNul (raw : Bytes) : Bytes :=
  (raw.filter (· != nul)).map fun c => if c == lf then nul else c

/-- `HttpUtil::AssembleRawHeaders`. -/
def assembleRawHeaders (input : Bytes) : Bytes :=
  let input :=
    match locateStartOfStatusLine input with
    | some statusBeginOffset => input.drop statusBeginOffset
    | none => input
  let statusLineEnd := findStatusLineEnd input
  let lines := (StringTokenizer.init (input.drop statusLineEnd) 0 [cr, lf]).pieces
  terminateWithNul ((lines.foldl assembleLine (input.take statusLineEnd, false)).1 ++ [lf, lf])

/-- `HttpUtil::ConvertHeadersBackToHTTPResponse`. -/
def convertHeadersBackToHTTPResponse (str : Bytes) : Bytes :=
  ((StringTokenizer.init str 0 [nul]).pieces.flatMap fun token => token ++ [cr, lf]) ++ [cr, lf]

/-- The input from the start of the status line, where one is found. -/
def skipSlop (input : Bytes) : Bytes :=
  match locateStartOfStatusLine input with
  | some statusBeginOffset => input.drop statusBeginOffset
  | none => input

/-- The status line: up to the first CR or LF after the slop. -/
def statusLine (input : Bytes) : Bytes :=
  (skipSlop input).take (findStatusLineEnd (skipSlop input))

/-- The header line segments: the CR/LF-delimited tokens after the status line. -/
def headerLines (input : Bytes) : List Bytes :=
  fields [cr, lf] ((skipSlop input).drop (findStatusLineEnd (skipSlop input)))

theorem assembleRawHeaders_eq (input : Bytes) :
    assembleRawHeaders input = terminateWithNul
      (((headerLines input).foldl assembleLine (statusLine input, false)).1 ++ [lf, lf]) := by
  have lines := StringTokenizer.pieces_eq_fields
    (t := StringTokenizer.init ((skipSlop input).drop (findStatusLineEnd (skipSlop input))) 0
      [cr, lf]) rfl rfl rfl
  simp only [StringTokenizer.init, List.drop_zero] at lines
  simp only [assembleRawHeaders, headerLines, statusLine, skipSlop] at lines ⊢
  split <;> simp_all [StringTokenizer.init]

theorem convertHeadersBackToHTTPResponse_eq (str : Bytes) :
    convertHeadersBackToHTTPResponse str =
      ((fields [nul] str).flatMap fun token => token ++ [cr, lf]) ++ [cr, lf] := by
  have tokens := StringTokenizer.pieces_eq_fields (t := StringTokenizer.init str 0 [nul]) rfl rfl rfl
  simp only [StringTokenizer.init, List.drop_zero] at tokens
  simp only [convertHeadersBackToHTTPResponse, StringTokenizer.init, tokens]

/-- The text the line loop has built from the status line and the logical lines
`logical`, each preceded by an LF. -/
def joinLines (status : Bytes) (logical : List Bytes) : Bytes :=
  status ++ logical.flatMap (lf :: ·)

/-- `after` can follow `before` as a logical line: the loop would not have
joined it to `before`. -/
def Unjoined (before after : Bytes) : Prop :=
  startsWithLWS after = true → isLineSegmentContinuable before = false

/-- What the line loop keeps true of the logical lines it has built, whose bytes
all satisfy `ok` and which all satisfy `keep`, and of `prev_line_continuable`. -/
structure LogicalLines (ok : UInt8 → Prop) (keep : Bytes → Prop) (logical : List Bytes)
    (prevContinuable : Bool) : Prop where
  nonempty : ∀ line ∈ logical, line ≠ []
  kept : ∀ line ∈ logical, keep line
  bytes : ∀ line ∈ logical, ∀ c ∈ line, ok c
  continuable : prevContinuable = (logical.getLast?.map isLineSegmentContinuable).getD false
  unjoined : logical.Chain' Unjoined

theorem logicalLines_nil (ok : UInt8 → Prop) (keep : Bytes → Prop) : LogicalLines ok keep [] false :=
  ⟨by simp, by simp, by simp, rfl, List.chain'_nil⟩

theorem joinLines_append (status : Bytes) (logical more : List Bytes) :
    joinLines status (logical ++ more) = joinLines status logical ++ more.flatMap (lf :: ·) := by
  simp [joinLines]

theorem isLineSegmentContinuable_append {line : Bytes} (rest : Bytes)
    (continuable : isLineSegmentContinuable line = true) :
    isLineSegmentContinuable (line ++ rest) = true := by
  unfold isLineSegmentContinuable at continuable ⊢
  split at continuable
  · cases continuable
  · rename_i nonempty
    cases found : findIndex (· == colon) line with
    | none => simp only [found] at continuable; cases continuable
    | some k =>
        have prefixName : (line ++ rest).take k = line.take k :=
          List.take_append_of_le_length (Nat.le_of_lt (findIndex_lt found))
        rw [if_neg (by simp_all), findIndex_append_of_some rest found]
        rw [found] at continuable
        simpa only [prefixName] using continuable

theorem startsWithLWS_append {line : Bytes} (nonempty : line ≠ []) (rest : Bytes) :
    startsWithLWS (line ++ rest) = startsWithLWS line := by
  obtain ⟨c, tail, rfl⟩ := List.exists_cons_of_ne_nil nonempty
  rfl

theorem exists_last_of_continuable {ok : UInt8 → Prop} {keep : Bytes → Prop} {logical : List Bytes}
    (inv : LogicalLines ok keep logical true) :
    ∃ before last, logical = before ++ [last] ∧ isLineSegmentContinuable last = true := by
  rcases List.eq_nil_or_concat logical with rfl | ⟨before, last, rfl⟩
  · simpa using inv.continuable
  · exact ⟨before, last, List.concat_eq_append _ _, by simpa using inv.continuable.symm⟩

/-- One pass of the line loop keeps the logical-line invariant: a continuation
extends the last logical line, any other line starts a new one. -/
theorem assembleLine_logicalLines {ok : UInt8 → Prop} (okSpace : ok space) {keep : Bytes → Prop}
    (keepJoin : ∀ l r, keep l → keep (l ++ r)) {status line : Bytes}
    {logical : List Bytes} {prev : Bool} (inv : LogicalLines ok keep logical prev)
    (nonempty : line ≠ []) (keepLine : keep line) (bytes : ∀ c ∈ line, ok c) :
    ∃ logical' prev', assembleLine (joinLines status logical, prev) line =
      (joinLines status logical', prev') ∧ LogicalLines ok keep logical' prev' := by
  by_cases join : prev = true ∧ startsWithLWS line = true
  · obtain ⟨rfl, lws⟩ := join
    obtain ⟨before, last, rfl, continuable⟩ := exists_last_of_continuable inv
    have lastNonempty : last ≠ [] := inv.nonempty last (by simp)
    refine ⟨before ++ [last ++ space :: removeLeadingNonLWS line], true, ?_, ?_⟩
    · simp [assembleLine, lws, joinLines]
    · refine ⟨?_, ?_, ?_, ?_, ?_⟩
      · simp only [List.mem_append, List.mem_singleton]
        rintro l (member | rfl)
        · exact inv.nonempty l (by simp [member])
        · simp
      · simp only [List.mem_append, List.mem_singleton]
        rintro l (member | rfl)
        · exact inv.kept l (by simp [member])
        · exact keepJoin _ _ (inv.kept last (by simp))
      · simp only [List.mem_append, List.mem_singleton]
        rintro l (member | rfl) c inL
        · exact inv.bytes l (by simp [member]) c inL
        · simp only [List.mem_append, List.mem_cons] at inL
          rcases inL with inLast | rfl | inRest
          · exact inv.bytes last (by simp) c inLast
          · exact okSpace
          · exact bytes c (List.dropWhile_subset _ inRest)
      · simp [isLineSegmentContinuable_append _ continuable]
      · have chain := List.chain'_append.mp inv.unjoined
        refine List.Chain'.append chain.1 (List.chain'_singleton _) ?_
        intro a aLast b bHead
        simp only [List.head?_cons, Option.mem_def, Option.some.injEq] at bHead
        subst bHead
        have kept := chain.2.2 a aLast last (by simp)
        simpa only [Unjoined, startsWithLWS_append lastNonempty] using kept
  · refine ⟨logical ++ [line], isLineSegmentContinuable line, ?_, ?_⟩
    · have notJoined : (prev && startsWithLWS line) = false := by
        cases prev <;> simp_all
      simp [assembleLine, notJoined, joinLines_append]
    · refine ⟨?_, ?_, ?_, by simp, ?_⟩
      · simp only [List.mem_append, List.mem_singleton]
        rintro l (member | rfl)
        · exact inv.nonempty l member
        · exact nonempty
      · simp only [List.mem_append, List.mem_singleton]
        rintro l (member | rfl)
        · exact inv.kept l member
        · exact keepLine
      · simp only [List.mem_append, List.mem_singleton]
        rintro l (member | rfl)
        · exact inv.bytes l member
        · exact bytes
      · refine List.Chain'.append inv.unjoined (List.chain'_singleton _) ?_
        intro a aLast b bHead lws
        simp only [List.head?_cons, Option.mem_def, Option.some.injEq] at bHead
        subst bHead
        have prevIs := inv.continuable
        rw [aLast] at prevIs
        simp_all

/-- The whole line loop builds logical lines: from the status line, the output
is the status line followed by LF-led logical lines satisfying the invariant. -/
theorem foldl_assembleLine {ok : UInt8 → Prop} (okSpace : ok space) {keep : Bytes → Prop}
    (keepJoin : ∀ l r, keep l → keep (l ++ r)) (status : Bytes) {lines : List Bytes}
    (wellFormed : ∀ line ∈ lines, line ≠ [] ∧ keep line ∧ ∀ c ∈ line, ok c) :
    ∃ logical prev, lines.foldl assembleLine (status, false) = (joinLines status logical, prev) ∧
      LogicalLines ok keep logical prev := by
  suffices general : ∀ logical prev, LogicalLines ok keep logical prev →
      ∃ logical' prev', lines.foldl assembleLine (joinLines status logical, prev) =
        (joinLines status logical', prev') ∧ LogicalLines ok keep logical' prev' by
    simpa [joinLines] using general [] false (logicalLines_nil ok keep)
  induction lines with
  | nil => exact fun logical prev inv => ⟨logical, prev, rfl, inv⟩
  | cons line lines ih =>
      intro logical prev inv
      have ⟨nonempty, keepLine, bytes⟩ := wellFormed line (by simp)
      obtain ⟨logical', prev', stepped, inv'⟩ :=
        assembleLine_logicalLines okSpace keepJoin inv nonempty keepLine bytes
      rw [List.foldl_cons, stepped]
      exact ih (fun l member => wellFormed l (by simp [member])) logical' prev' inv'

theorem skipSlop_subset (input : Bytes) : skipSlop input ⊆ input := by
  unfold skipSlop
  split
  · exact List.drop_subset _ _
  · exact List.Subset.refl _

theorem statusLine_bytes (input : Bytes) :
    ∀ c ∈ statusLine input, c ∈ input ∧ c ≠ cr ∧ c ≠ lf := by
  intro c member
  have within := skipSlop_subset input (List.mem_of_mem_take member)
  unfold statusLine findStatusLineEnd at member
  cases found : findIndex (fun c => c == cr || c == lf) (skipSlop input) with
  | none =>
      rw [found, Option.getD_none, List.take_length] at member
      have := findIndex_eq_none.mp found c member
      simp_all
  | some k =>
      obtain ⟨pre, d, post, split, rfl, -, before⟩ := findIndex_split found
      rw [found, Option.getD_some, split, List.take_left] at member
      have := before c member
      simp_all

theorem headerLines_bytes {input line : Bytes} (member : line ∈ headerLines input) :
    line ≠ [] ∧ ∀ c ∈ line, c ∈ input ∧ c ≠ cr ∧ c ≠ lf := by
  obtain ⟨nonempty, bytes⟩ := mem_fields member
  refine ⟨nonempty, fun c inLine => ?_⟩
  obtain ⟨inRest, notBreak⟩ := bytes c inLine
  exact ⟨skipSlop_subset input (List.mem_of_mem_drop inRest), by simpa [not_or] using notBreak⟩

theorem terminateWithNul_append (a b : Bytes) :
    terminateWithNul (a ++ b) = terminateWithNul a ++ terminateWithNul b := by
  simp [terminateWithNul]

theorem terminateWithNul_bytes {raw : Bytes} {c : UInt8} (member : c ∈ terminateWithNul raw) :
    c ≠ lf ∧ (c = nul ∨ c ∈ raw) := by
  simp only [terminateWithNul, List.mem_map, List.mem_filter] at member
  obtain ⟨d, ⟨inRaw, -⟩, rfl⟩ := member
  by_cases isLF : d = lf <;> simp_all

theorem terminateWithNul_of_noLF {raw : Bytes} (noLF : ∀ c ∈ raw, c ≠ lf) :
    terminateWithNul raw = raw.filter (· != nul) := by
  refine (List.map_congr_left fun c member => ?_).trans (List.map_id' _)
  exact if_neg (by simpa using noLF c (List.mem_of_mem_filter member))

/-- Without LFs inside, the last two statements of `AssembleRawHeaders` erase the
NULs of the status line and of each logical line, and end each logical line
with a NUL. -/
theorem terminateWithNul_joinLines_erased {status : Bytes} {logical : List Bytes}
    (plainStatus : ∀ c ∈ status, c ≠ lf) (plainLines : ∀ line ∈ logical, ∀ c ∈ line, c ≠ lf) :
    terminateWithNul (joinLines status logical) =
      status.filter (· != nul) ++ (logical.map (·.filter (· != nul))).flatMap (nul :: ·) := by
  rw [joinLines, terminateWithNul_append, terminateWithNul_of_noLF plainStatus]
  congr 1
  induction logical with
  | nil => rfl
  | cons line logical ih =>
      have step : terminateWithNul (lf :: line) = nul :: line.filter (· != nul) :=
        congrArg (nul :: ·) (terminateWithNul_of_noLF (plainLines line (List.mem_cons_self _ _)))
      rw [List.flatMap_cons, terminateWithNul_append, step,
        ih fun l member => plainLines l (List.mem_cons_of_mem _ member), List.map_cons, List.flatMap_cons]

theorem terminateWithNul_joinLines {status : Bytes} {logical : List Bytes}
    (plainStatus : ∀ c ∈ status, c ≠ nul ∧ c ≠ lf)
    (plainLines : ∀ line ∈ logical, ∀ c ∈ line, c ≠ nul ∧ c ≠ lf) :
    terminateWithNul (joinLines status logical) = status ++ logical.flatMap (nul :: ·) := by
  have kept : ∀ l : Bytes, (∀ c ∈ l, c ≠ nul) → l.filter (· != nul) = l := fun l free =>
    List.filter_eq_self.mpr fun c member => by simpa using free c member
  rw [terminateWithNul_joinLines_erased (fun c member => (plainStatus c member).2)
      (fun line member c inLine => (plainLines line member c inLine).2),
    kept status fun c member => (plainStatus c member).1,
    List.map_congr_left fun line member => kept line fun c inLine => (plainLines line member c inLine).1,
    List.map_id']

def NotBothNul (a b : UInt8) : Prop := ¬(a = nul ∧ b = nul)

theorem chain'_notBothNul {l : Bytes} (free : ∀ c ∈ l, c ≠ nul) : l.Chain' NotBothNul := by
  induction l with
  | nil => exact List.chain'_nil
  | cons c l ih =>
      simp only [List.mem_cons, forall_eq_or_imp] at free
      exact List.chain'_cons'.mpr ⟨fun d _ both => free.1 both.1, ih free.2⟩

theorem chain'_lines {status : Bytes} {logical : List Bytes} (freeStatus : ∀ c ∈ status, c ≠ nul)
    (freeLines : ∀ line ∈ logical, line ≠ [] ∧ ∀ c ∈ line, c ≠ nul) :
    (status ++ logical.flatMap (nul :: ·) ++ [nul]).Chain' NotBothNul := by
  suffices general : ∀ acc : Bytes, acc.Chain' NotBothNul → nul ∉ acc.getLast? →
      (acc ++ logical.flatMap (nul :: ·) ++ [nul]).Chain' NotBothNul from
    general status (chain'_notBothNul freeStatus) fun last => freeStatus nul
      (List.mem_of_getLast?_eq_some last) rfl
  induction logical with
  | nil =>
      intro acc chain notLast
      refine List.Chain'.append (by simpa using chain) (List.chain'_singleton _) ?_
      intro a aLast _ _ both
      exact notLast (by simpa [both.1] using aLast)
  | cons line logical ih =>
      intro acc chain notLast
      obtain ⟨nonempty, free⟩ := freeLines line (by simp)
      obtain ⟨c, tail, rfl⟩ := List.exists_cons_of_ne_nil nonempty
      have extended : (acc ++ nul :: c :: tail).Chain' NotBothNul := by
        refine List.Chain'.append chain ?_ ?_
        · exact List.chain'_cons.mpr ⟨fun both => free c (by simp) both.2,
            chain'_notBothNul free⟩
        · intro a aLast _ _ both
          exact notLast (by simpa [both.1] using aLast)
      have lastOk : nul ∉ (acc ++ nul :: c :: tail).getLast? := by
        rw [List.getLast?_append_of_ne_nil _ (by simp)]
        intro last
        exact free nul (List.mem_of_getLast?_eq_some (by simpa using last)) rfl
      simpa using ih (fun l member => freeLines l (by simp [member])) _ extended lastOk

theorem eq_nil_of_nul_pair {block pre post : Bytes} (chain : (block ++ [nul]).Chain' NotBothNul)
    (split : block ++ [nul, nul] = pre ++ nul :: nul :: post) : post = [] := by
  rcases List.eq_nil_or_concat post with rfl | ⟨post, z, rfl⟩
  · rfl
  · have cut : block ++ [nul] = pre ++ nul :: nul :: post := by
      have := split
      rw [show block ++ [nul, nul] = (block ++ [nul]) ++ [nul] by simp,
        show pre ++ nul :: nul :: post.concat z = (pre ++ nul :: nul :: post) ++ [z] by simp] at this
      exact (List.append_inj' this rfl).1
    rw [cut] at chain
    exact absurd (List.chain'_cons.mp (List.chain'_append.mp chain).2.1).1 (by simp [NotBothNul])

theorem mem_joinLines {status : Bytes} {logical : List Bytes} {c : UInt8}
    (member : c ∈ joinLines status logical) :
    c ∈ status ∨ c = lf ∨ ∃ line ∈ logical, c ∈ line := by
  simp only [joinLines, List.mem_append, List.mem_flatMap, List.mem_cons] at member
  rcases member with inStatus | ⟨line, inLogical, rfl | inLine⟩
  · exact .inl inStatus
  · exact .inr (.inl rfl)
  · exact .inr (.inr ⟨line, inLogical, inLine⟩)

/-- An assembled block is its logical lines, terminated by NULs, and a final
NUL; every byte of a logical line is a space or a byte of the input, and none is
a CR or an LF. -/
theorem assembleRawHeaders_logical (x : Bytes) (keep : Bytes → Prop) (keepJoin : ∀ l r, keep l → keep (l ++ r))
    (keepLines : ∀ line ∈ headerLines x, keep line) :
    ∃ logical prev, LogicalLines (fun c => c ≠ cr ∧ c ≠ lf ∧ (c = space ∨ c ∈ x)) keep logical prev ∧
      assembleRawHeaders x = terminateWithNul (joinLines (statusLine x) logical) ++ [nul, nul] := by
  obtain ⟨logical, prev, folded, inv⟩ := @foldl_assembleLine
    (fun c => c ≠ cr ∧ c ≠ lf ∧ (c = space ∨ c ∈ x)) (by simp) keep keepJoin (statusLine x) (headerLines x)
    fun line member => by
      obtain ⟨nonempty, bytes⟩ := headerLines_bytes member
      exact ⟨nonempty, keepLines line member, fun c inLine => ⟨(bytes c inLine).2.1, (bytes c inLine).2.2,
        .inr (bytes c inLine).1⟩⟩
  refine ⟨logical, prev, inv, ?_⟩
  rw [assembleRawHeaders_eq, folded, terminateWithNul_append]
  rfl

theorem mem_assembleRawHeaders {x : Bytes} {c : UInt8} (member : c ∈ assembleRawHeaders x) :
    c ≠ cr ∧ c ≠ lf := by
  obtain ⟨logical, prev, inv, output⟩ :=
    assembleRawHeaders_logical x (fun _ => True) (fun _ _ _ => trivial) (fun _ _ => trivial)
  rw [output] at member
  simp only [List.mem_append, List.mem_cons, List.not_mem_nil, or_false] at member
  rcases member with inBlock | rfl | rfl
  · refine ⟨fun isCR => ?_, (terminateWithNul_bytes inBlock).1⟩
    subst isCR
    rcases (terminateWithNul_bytes inBlock).2 with isNul | raw
    · exact absurd isNul (by decide)
    · rcases mem_joinLines raw with inStatus | isLF | ⟨line, inLogical, inLine⟩
      · exact (statusLine_bytes x cr inStatus).2.1 rfl
      · exact absurd isLF (by decide)
      · exact (inv.bytes line inLogical cr inLine).1 rfl
  all_goals decide

/-- The shape of an assembled block: no CR, no LF, and a final pair of NULs;
when no header line of the input is made only of NUL bytes, that final pair is
the only pair of adjacent NULs, i.e. no logical line but the last is empty. -/
theorem assembleRawHeaders_terminators (x : Bytes) :
    cr ∉ assembleRawHeaders x ∧ lf ∉ assembleRawHeaders x ∧
      (∃ block, assembleRawHeaders x = block ++ [nul, nul]) ∧
      ((∀ line ∈ headerLines x, ∃ c ∈ line, c ≠ nul) →
        ∀ pre post, assembleRawHeaders x = pre ++ nul :: nul :: post → post = []) := by
  obtain ⟨_, _, _, output⟩ := assembleRawHeaders_logical x (fun _ => True) (fun _ _ _ => trivial) (fun _ _ => trivial)
  refine ⟨fun member => (mem_assembleRawHeaders member).1 rfl,
    fun member => (mem_assembleRawHeaders member).2 rfl, ⟨_, output⟩, fun visible pre post split => ?_⟩
  obtain ⟨logical, prev, inv, output⟩ := assembleRawHeaders_logical x (fun line => ∃ c ∈ line, c ≠ nul)
    (fun _ r ⟨c, inL, notNul⟩ => ⟨c, List.mem_append_left r inL, notNul⟩) visible
  rw [output, terminateWithNul_joinLines_erased (fun c member => (statusLine_bytes x c member).2.2)
    (fun line member c inLine => (inv.bytes line member c inLine).2.1)] at split
  refine eq_nil_of_nul_pair (chain'_lines (fun c member => by simpa using (List.mem_filter.mp member).2) ?_) split
  simp only [List.mem_map]
  rintro _ ⟨line, member, rfl⟩
  obtain ⟨c, inLine, notNul⟩ := inv.kept line member
  exact ⟨List.ne_nil_of_mem (List.mem_filter.mpr ⟨inLine, by simpa using notNul⟩),
    fun d erased => by simpa using (List.mem_filter.mp erased).2⟩

/-- A line of NUL bytes becomes an empty logical line: `"\n\0"` assembles to
three NULs in a row, so the final pair is not the only pair of adjacent NULs. -/
theorem assembleRawHeaders_nul_line :
    ¬ ∀ pre post, assembleRawHeaders [lf, nul] = pre ++ nul :: nul :: post → post = [] := by
  intro onlyFinal
  have evaluated : assembleRawHeaders [lf, nul] = [] ++ nul :: nul :: [nul] := by decide
  exact absurd (onlyFinal [] [nul] evaluated) (by simp)

end HttpUtil
