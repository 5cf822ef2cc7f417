import Mathlib.Data.List.DropRight

/-! # Bytes and character classes

A `std::string` or a string view is modelled by its bytes.  The classifiers
and the searching and trimming helpers below are the leaf layer that every
parser of `http_util.cc` is written against.  Positions are byte offsets;
`npos` is `none`.
-/

namespace HttpUtil

/-- The contents of a `std::string` or of a string view. -/
abbrev Bytes := List UInt8

def ascii (s : String) : Bytes := s.toList.map Char.toUInt8

namespace Ascii

@[simp] def nul : UInt8 := 0
@[simp] def tab : UInt8 := 9
@[simp] def lf : UInt8 := 10
@[simp] def cr : UInt8 := 13
@[simp] def space : UInt8 := 32
@[simp] def dquote : UInt8 := 34
@[simp] def lparen : UInt8 := 40
@[simp] def plus : UInt8 := 43
@[simp] def comma : UInt8 := 44
@[simp] def minus : UInt8 := 45
@[simp] def slash : UInt8 := 47
@[simp] def colon : UInt8 := 58
@[simp] def semicolon : UInt8 := 59
@[simp] def equals : UInt8 := 61
@[simp] def backslash : UInt8 := 92

end Ascii

open Ascii

/-- `HttpUtil::IsLWS`: membership in `HTTP_LWS`, the space and the tab. -/
def isLWS (c : UInt8) : Bool := c == space || c == tab

/-- `HttpUtil::IsTokenChar`: RFC 7230 `tchar`. -/
def isTokenChar (c : UInt8) : Bool :=
  !(c ≥ 0x7F || c ≤ 0x20 || c == 40 || c == 41 || c == 60 || c == 62 || c == 64 ||
    c == 44 || c == 59 || c == 58 || c == 92 || c == 34 || c == 47 || c == 91 ||
    c == 93 || c == 63 || c == 61 || c == 123 || c == 125)

/-- `HttpUtil::IsToken`: a non-empty string of token characters. -/
def isToken (s : Bytes) : Bool := !s.isEmpty && s.all isTokenChar

def isValidHeaderName (name : Bytes) : Bool := isToken name

/-- `HttpUtil::IsValidHeaderValue`: no NUL, CR or LF. -/
def isValidHeaderValue (value : Bytes) : Bool :=
  value.all fun c => !(c == nul || c == cr || c == lf)

theorem isTokenChar_not_lws {c : UInt8} (token : isTokenChar c = true) : isLWS c = false := by
  cases lws : isLWS c
  · rfl
  · simp only [isLWS, space, tab, Bool.or_eq_true, beq_iff_eq] at lws
    rcases lws with rfl | rfl <;> revert token <;> decide

theorem isToken_iff {s : Bytes} : isToken s = true ↔ s ≠ [] ∧ ∀ c ∈ s, isTokenChar c = true := by
  simp [isToken]

theorem isTokenChar_separators {c : UInt8} (token : isTokenChar c = true) :
    c ≠ equals ∧ c ≠ dquote ∧ c ≠ semicolon ∧ c ≠ comma := by
  refine ⟨?_, ?_, ?_, ?_⟩ <;> rintro rfl <;> revert token <;> decide

/-- `base::ToLowerASCII` on one byte. -/
def toLowerASCII (c : UInt8) : UInt8 := if 65 ≤ c ∧ c ≤ 90 then c + 32 else c

/-- `base::LowerCaseEqualsASCII(str, lowercase_ascii)`. -/
def lowerCaseEqualsASCII (str lowercase : Bytes) : Bool := str.map toLowerASCII == lowercase

def findIndex (p : UInt8 → Bool) : Bytes → Option Nat
  | [] => none
  | c :: s => if p c then some 0 else (findIndex p s).map (· + 1)

/-- `std::string::find`, `find_first_of` and `find_first_not_of` from `pos`:
the first offset at or after `pos` whose byte satisfies `p`. -/
def findFrom (p : UInt8 → Bool) (s : Bytes) (pos : Nat) : Option Nat :=
  (findIndex p (s.drop pos)).map (· + pos)

def slice (s : Bytes) (first last : Nat) : Bytes := (s.drop first).take (last - first)

/-- `std::find(first, last, c)` and `std::find_if`: the first offset in
`[first, last)` whose byte satisfies `p`, or `last`. -/
def find (p : UInt8 → Bool) (s : Bytes) (first last : Nat) : Nat :=
  ((findIndex p (slice s first last)).map (first + ·)).getD last

def byteAt (s : Bytes) (i : Nat) : UInt8 := (s.drop i).headD nul

/-- The bytes a `const char*` conversion sees from `first`: everything up to the
next NUL.  The buffer of a `std::string` is NUL-terminated after its last byte. -/
def cString (s : Bytes) (first : Nat) : Bytes := (s.drop first).takeWhile (· != nul)

/-- `HttpUtil::TrimLWS` on a string view, by its contents. -/
def trimLWS (s : Bytes) : Bytes := (s.dropWhile isLWS).rdropWhile isLWS

/-- `TrimLWSImplementation` on the iterator pair `[first, last)` of `s`: the
first loop moves `first` over the leading LWS, the second moves `last` back
over the trailing LWS of what is left. -/
def trimLWSBounds (s : Bytes) (first last : Nat) : Nat × Nat :=
  let lead := ((slice s first last).takeWhile isLWS).length
  let trail := (((slice s first last).drop lead).rtakeWhile isLWS).length
  (first + lead, last - trail)

@[simp] theorem findIndex_nil (p : UInt8 → Bool) : findIndex p [] = none := rfl

theorem findIndex_cons (p : UInt8 → Bool) (c : UInt8) (s : Bytes) :
    findIndex p (c :: s) = if p c then some 0 else (findIndex p s).map (· + 1) := rfl

theorem findIndex_append_of_none {p : UInt8 → Bool} {s : Bytes} (t : Bytes)
    (absent : ∀ c ∈ s, p c = false) : findIndex p (s ++ t) = (findIndex p t).map (· + s.length) := by
  induction s with
  | nil => simp
  | cons c s ih =>
      simp only [List.mem_cons, forall_eq_or_imp] at absent
      simp [findIndex_cons, absent.1, ih absent.2, Option.map_map, Function.comp_def,
        Nat.add_assoc, Nat.add_comm 1]

theorem findIndex_append_cons {p : UInt8 → Bool} {pre : Bytes} {x : UInt8} (rest : Bytes)
    (absent : ∀ c ∈ pre, p c = false) (hit : p x = true) :
    findIndex p (pre ++ x :: rest) = some pre.length := by
  simp [findIndex_append_of_none _ absent, findIndex_cons, hit]

theorem findIndex_lt {p : UInt8 → Bool} {s : Bytes} {k : Nat} (found : findIndex p s = some k) :
    k < s.length := by
  induction s generalizing k with
  | nil => cases found
  | cons c s ih =>
      rw [findIndex_cons] at found
      split at found
      · cases found; simp
      · obtain ⟨j, inner, rfl⟩ := Option.map_eq_some'.mp found
        simpa using ih inner

theorem findIndex_split {p : UInt8 → Bool} {s : Bytes} {k : Nat} (found : findIndex p s = some k) :
    ∃ pre c post, s = pre ++ c :: post ∧ pre.length = k ∧ p c = true ∧ ∀ x ∈ pre, p x = false := by
  induction s generalizing k with
  | nil => cases found
  | cons c s ih =>
      rw [findIndex_cons] at found
      split at found
      · cases found
        exact ⟨[], c, s, rfl, rfl, by assumption, by simp⟩
      · obtain ⟨j, inner, rfl⟩ := Option.map_eq_some'.mp found
        obtain ⟨pre, d, post, rfl, rfl, hit, before⟩ := ih inner
        refine ⟨c :: pre, d, post, rfl, rfl, hit, ?_⟩
        simp_all

theorem findIndex_append_of_some {p : UInt8 → Bool} {s : Bytes} {k : Nat} (t : Bytes)
    (found : findIndex p s = some k) : findIndex p (s ++ t) = some k := by
  induction s generalizing k with
  | nil => cases found
  | cons c s ih =>
      rw [findIndex_cons] at found
      rw [List.cons_append, findIndex_cons]
      split at found
      · simp_all
      · obtain ⟨j, inner, rfl⟩ := Option.map_eq_some'.mp found
        simp_all

theorem findIndex_eq_none {p : UInt8 → Bool} {s : Bytes} :
    findIndex p s = none ↔ ∀ c ∈ s, p c = false := by
  induction s with
  | nil => simp
  | cons c s ih => cases h : p c <;> simp [findIndex_cons, h, ih]

theorem lowerCaseEqualsASCII_iff {str lowercase : Bytes} :
    lowerCaseEqualsASCII str lowercase = true ↔ str.map toLowerASCII = lowercase := by
  simp [lowerCaseEqualsASCII]

theorem toNat_toLowerASCII_upper {c : UInt8} (upper : 65 ≤ c ∧ c ≤ 90) :
    (toLowerASCII c).toNat = c.toNat + 32 := by
  have bounds : 65 ≤ c.toNat ∧ c.toNat ≤ 90 := upper
  have shifted : (toLowerASCII c).toNat = (c.toBitVec + 32).toNat := by
    rw [toLowerASCII, if_pos upper]
    rfl
  have value : c.toBitVec.toNat = c.toNat := rfl
  have shift : (32 : BitVec 8).toNat = 32 := rfl
  rw [shifted, BitVec.toNat_add, value, shift]
  omega

@[simp] theorem toLowerASCII_toLowerASCII (c : UInt8) : toLowerASCII (toLowerASCII c) = toLowerASCII c := by
  by_cases upper : 65 ≤ c ∧ c ≤ 90
  · have lowered := toNat_toLowerASCII_upper upper
    have bounds : 65 ≤ c.toNat ∧ c.toNat ≤ 90 := upper
    have notUpper : ¬ (65 ≤ toLowerASCII c ∧ toLowerASCII c ≤ 90) := fun again => by
      have : 65 ≤ (toLowerASCII c).toNat ∧ (toLowerASCII c).toNat ≤ 90 := again
      omega
    exact if_neg notUpper
  · have same : toLowerASCII c = c := if_neg upper
    rw [same, same]

theorem lowerCaseEqualsASCII_iff_lowered {str lowercase : Bytes} :
    lowerCaseEqualsASCII str lowercase = true ↔
      lowercase.map toLowerASCII = lowercase ∧ str.map toLowerASCII = lowercase.map toLowerASCII := by
  rw [lowerCaseEqualsASCII_iff]
  constructor
  · rintro rfl
    simp [List.map_map, Function.comp_def]
  · rintro ⟨lowered, same⟩
    rw [same, lowered]

theorem mem_slice {s : Bytes} {first last : Nat} {c : UInt8} (member : c ∈ slice s first last) :
    c ∈ s :=
  List.mem_of_mem_drop (List.mem_of_mem_take member)

theorem length_slice {s : Bytes} (first : Nat) {last : Nat} (bound : last ≤ s.length) :
    (slice s first last).length = last - first := by
  simp only [slice, List.length_take, List.length_drop]
  omega

theorem lt_of_slice_ne_nil {s : Bytes} {first last : Nat} (nonempty : slice s first last ≠ []) :
    first < last := by
  by_contra after
  simp [slice, show last - first = 0 by omega] at nonempty

theorem slice_drop {s : Bytes} {first first' : Nat} (last : Nat) (le : first ≤ first') :
    slice s first' last = (slice s first last).drop (first' - first) := by
  simp only [slice, List.drop_take, List.drop_drop]
  rw [show first + (first' - first) = first' by omega,
    show last - first - (first' - first) = last - first' by omega]

theorem slice_take {s : Bytes} (first : Nat) {last last' : Nat} (le : last' ≤ last) :
    slice s first last' = (slice s first last).take (last' - first) := by
  simp only [slice, List.take_take]
  congr 1
  omega

theorem find_eq_add {p : UInt8 → Bool} {s : Bytes} {first last : Nat} (ordered : first ≤ last)
    (bound : last ≤ s.length) :
    find p s first last = first + (findIndex p (slice s first last)).getD (slice s first last).length := by
  cases found : findIndex p (slice s first last) with
  | none =>
      simp only [find, found, Option.map_none', Option.getD_none, length_slice first bound]
      omega
  | some k => simp only [find, found, Option.map_some', Option.getD_some]

theorem byteAt_of_slice {s rest : Bytes} {first last : Nat} {c : UInt8}
    (sliced : slice s first last = c :: rest) : byteAt s first = c := by
  unfold slice at sliced
  unfold byteAt
  cases dropped : s.drop first with
  | nil => simp [dropped] at sliced
  | cons d tail =>
      rw [dropped] at sliced
      cases room : last - first with
      | zero => simp [room] at sliced
      | succ k => simp_all

theorem byteAt_pred_of_slice {s w : Bytes} {first last : Nat} {c : UInt8}
    (sliced : slice s first last = w ++ [c]) (bound : last ≤ s.length) :
    byteAt s (last - 1) = c := by
  have size := length_slice first bound
  rw [sliced, List.length_append, List.length_singleton] at size
  have whole : s.drop first = w ++ c :: s.drop last := by
    rw [← List.take_append_drop (last - first) (s.drop first), List.drop_drop]
    simp only [slice] at sliced
    rw [sliced, show first + (last - first) = last by omega, List.append_assoc,
      List.singleton_append]
  unfold byteAt
  rw [show last - 1 = first + w.length by omega, ← List.drop_drop, whole, List.drop_left]
  rfl

theorem byteAt_last_of_slice {s rest : Bytes} {first last : Nat} {c : UInt8}
    (sliced : slice s first last = c :: rest) (bound : last ≤ s.length) :
    byteAt s (last - 1) = rest.getLastD c := by
  have whole : c :: rest = (c :: rest).dropLast ++ [rest.getLastD c] := by
    rw [← List.getLast_eq_getLastD c rest (List.cons_ne_nil c rest), List.dropLast_append_getLast]
  exact byteAt_pred_of_slice (sliced.trans whole) bound

theorem find_of_split {p : UInt8 → Bool} {s pre post : Bytes} {first last : Nat} {c : UInt8}
    (sliced : slice s first last = pre ++ c :: post) (hit : p c = true)
    (before : ∀ x ∈ pre, p x = false) : find p s first last = first + pre.length := by
  simp [find, sliced, findIndex_append_of_none _ before, findIndex_cons, hit]

theorem find_of_none {p : UInt8 → Bool} {s : Bytes} {first last : Nat}
    (absent : ∀ x ∈ slice s first last, p x = false) : find p s first last = last := by
  simp [find, findIndex_eq_none.mpr absent]

theorem find_bounds {p : UInt8 → Bool} {s : Bytes} {first last : Nat} (ordered : first ≤ last) :
    first ≤ find p s first last ∧ find p s first last ≤ last := by
  unfold find
  cases found : findIndex p (slice s first last) with
  | none => simpa using ordered
  | some k =>
      have within := findIndex_lt found
      have short : (slice s first last).length ≤ last - first := by
        simp only [slice, List.length_take]
        omega
      simp only [Option.map_some', Option.getD_some]
      omega

theorem rdropWhile_append_rtakeWhile {α : Type} (p : α → Bool) (l : List α) :
    l.rdropWhile p ++ l.rtakeWhile p = l := by
  rw [List.rdropWhile, List.rtakeWhile, ← List.reverse_append, List.takeWhile_append_dropWhile,
    List.reverse_reverse]

theorem rdropWhile_eq_take {α : Type} (p : α → Bool) (l : List α) :
    l.rdropWhile p = l.take (l.length - (l.rtakeWhile p).length) := by
  have size := congrArg List.length (rdropWhile_append_rtakeWhile p l)
  rw [List.length_append] at size
  rw [show l.length - (l.rtakeWhile p).length = (l.rdropWhile p).length by omega]
  exact List.prefix_iff_eq_take.mp (List.rdropWhile_prefix p l)

/-- The iterator form of `TrimLWS` bounds the bytes of the string-view form. -/
theorem slice_trimLWSBounds (s : Bytes) (first : Nat) {last : Nat} (bound : last ≤ s.length) :
    slice s (trimLWSBounds s first last).1 (trimLWSBounds s first last).2 =
      trimLWS (slice s first last) := by
  by_cases ordered : first ≤ last
  · obtain ⟨w, sliced⟩ : ∃ w, slice s first last = w := ⟨_, rfl⟩
    have lead : w.drop (w.takeWhile isLWS).length = w.dropWhile isLWS :=
      calc w.drop (w.takeWhile isLWS).length
          = (w.takeWhile isLWS ++ w.dropWhile isLWS).drop (w.takeWhile isLWS).length := by
            rw [List.takeWhile_append_dropWhile]
        _ = w.dropWhile isLWS := List.drop_left _ _
    have size : w.length = last - first := sliced ▸ length_slice first bound
    have restSize : (w.dropWhile isLWS).length = w.length - (w.takeWhile isLWS).length := by
      rw [← lead, List.length_drop]
    have trailLe : ((w.dropWhile isLWS).rtakeWhile isLWS).length ≤ (w.dropWhile isLWS).length :=
      (List.rtakeWhile_suffix _ _).sublist.length_le
    simp only [trimLWSBounds, trimLWS, sliced]
    rw [slice_take _ (Nat.sub_le _ _), slice_drop _ (Nat.le_add_right _ _), Nat.add_sub_cancel_left,
      sliced, lead, rdropWhile_eq_take]
    congr 1
    omega
  · have empty : slice s first last = [] := by simp [slice, show last - first = 0 by omega]
    simp [trimLWSBounds, empty, trimLWS]

theorem trimLWS_sublist (s : Bytes) : (trimLWS s).Sublist s :=
  (List.rdropWhile_prefix _ _).sublist.trans (List.dropWhile_sublist _)

theorem trimLWS_head {s : Bytes} : ∀ c ∈ (trimLWS s).head?, isLWS c = false := by
  intro c head
  obtain ⟨tail, prefixed⟩ := List.rdropWhile_prefix isLWS (s.dropWhile isLWS)
  rw [trimLWS] at head
  cases trimmed : (s.dropWhile isLWS).rdropWhile isLWS with
  | nil => simp [trimmed] at head
  | cons d rest =>
      simp only [trimmed, List.head?_cons, Option.mem_def, Option.some.injEq] at head
      subst head
      rw [trimmed] at prefixed
      have := List.head_dropWhile_not isLWS s (by rw [← prefixed]; simp)
      simpa only [← prefixed, List.cons_append, List.head_cons] using this

theorem trimLWS_ne_nil {c : UInt8} {s : Bytes} (first : isLWS c = false) : trimLWS (c :: s) ≠ [] := by
  rw [trimLWS, List.dropWhile_cons_of_neg (by simp [first]), Ne, List.rdropWhile_eq_nil_iff]
  exact fun all => by simpa [first] using all c (List.mem_cons_self _ _)

theorem trimLWS_getLast {s : Bytes} : ∀ c ∈ (trimLWS s).getLast?, isLWS c = false := by
  intro c last
  have nonempty : trimLWS s ≠ [] := by rintro empty; simp [empty] at last
  rw [List.getLast?_eq_getLast _ nonempty, Option.mem_some_iff] at last
  subst last
  simpa using List.rdropWhile_last_not isLWS (s.dropWhile isLWS) nonempty

theorem trimLWS_eq_self {s : Bytes} (first : ∀ c ∈ s.head?, isLWS c = false)
    (last : ∀ c ∈ s.getLast?, isLWS c = false) : trimLWS s = s := by
  cases s with
  | nil => rfl
  | cons a t =>
      rw [trimLWS, List.dropWhile_cons_of_neg (by simpa using first a rfl)]
      exact List.rdropWhile_eq_self_iff.mpr fun nonempty =>
        by simpa using last _ (List.getLast?_eq_getLast _ nonempty)

theorem trimLWSBounds_of_ends {s : Bytes} {first last : Nat}
    (firstByte : ∀ c ∈ (slice s first last).head?, isLWS c = false)
    (lastByte : ∀ c ∈ (slice s first last).getLast?, isLWS c = false) :
    trimLWSBounds s first last = (first, last) := by
  have lead : (slice s first last).takeWhile isLWS = [] := by
    cases sliced : slice s first last with
    | nil => rfl
    | cons a t => simpa [sliced] using firstByte a (by simp [sliced])
  have trail : (slice s first last).rtakeWhile isLWS = [] :=
    List.rtakeWhile_eq_nil_iff.mpr fun nonempty =>
      by simpa using lastByte _ (List.getLast?_eq_getLast _ nonempty)
  simp [trimLWSBounds, lead, trail]

theorem trimLWSBounds_snd_le (s : Bytes) (first last : Nat) : (trimLWSBounds s first last).2 ≤ last :=
  Nat.sub_le _ _

theorem trimLWSBounds_ordered (s : Bytes) {first last : Nat} (ordered : first ≤ last)
    (bound : last ≤ s.length) : (trimLWSBounds s first last).1 ≤ (trimLWSBounds s first last).2 := by
  obtain ⟨w, sliced⟩ : ∃ w, slice s first last = w := ⟨_, rfl⟩
  have size : w.length = last - first := sliced ▸ length_slice first bound
  have lead : (w.takeWhile isLWS).length ≤ w.length := (List.takeWhile_prefix _).sublist.length_le
  have trail : ((w.drop (w.takeWhile isLWS).length).rtakeWhile isLWS).length ≤
      w.length - (w.takeWhile isLWS).length :=
    (List.rtakeWhile_suffix _ _).sublist.length_le.trans (List.length_drop _ _).le
  simp only [trimLWSBounds, sliced]
  omega

theorem trimLWSBounds_beq (s : Bytes) {first last : Nat} (ordered : first ≤ last) (bound : last ≤ s.length) :
    ((trimLWSBounds s first last).1 == (trimLWSBounds s first last).2) = (trimLWS (slice s first last)).isEmpty := by
  have inOrder := trimLWSBounds_ordered s ordered bound
  have size := length_slice (trimLWSBounds s first last).1 (Nat.le_trans (trimLWSBounds_snd_le s first last) bound)
  rw [slice_trimLWSBounds s first bound] at size
  cases trimmed : trimLWS (slice s first last) <;> rw [trimmed] at size <;> simp at size ⊢ <;> omega

theorem trimLWS_dropWhile (s : Bytes) : trimLWS (s.dropWhile isLWS) = trimLWS s := by
  simp [trimLWS, List.dropWhile_idempotent]

theorem intercalate_cons (d : UInt8) (x : Bytes) (xs : List Bytes) :
    [d].intercalate (x :: xs) = x ++ xs.flatMap (d :: ·) := by
  induction xs generalizing x with
  | nil => simp [List.intercalate]
  | cons y ys ih =>
      simp [List.intercalate, List.intersperse] at ih ⊢
      rw [← ih y]

theorem getElem?_of_drop_eq_cons {buf rest : Bytes} {k : Nat} {c : UInt8}
    (dropped : buf.drop k = c :: rest) : buf[k]? = some c := by
  rw [← Nat.add_zero k, ← List.getElem?_drop, dropped, List.getElem?_cons_zero]

theorem drop_after {s t : Bytes} {i : Nat} (dropped : s.drop i = t) (k : Nat) :
    s.drop (i + k) = t.drop k := by
  rw [← List.drop_drop, dropped]

theorem byteAt_of_drop {s rest : Bytes} {i : Nat} {c : UInt8} (dropped : s.drop i = c :: rest) :
    byteAt s i = c := by
  simp [byteAt, dropped]

theorem lt_length_of_drop {s rest : Bytes} {i : Nat} {c : UInt8} (dropped : s.drop i = c :: rest) :
    i < s.length := by
  have size := congrArg List.length dropped
  simp only [List.length_drop, List.length_cons] at size
  omega

theorem drop_eq_byteAt_cons {s : Bytes} {i : Nat} (inside : i < s.length) :
    s.drop i = byteAt s i :: s.drop (i + 1) := by
  rw [byteAt, List.drop_eq_getElem_cons inside, List.headD_cons]

theorem slice_succ {buf rest : Bytes} {i k : Nat} {c : UInt8} (le : i ≤ k)
    (dropped : buf.drop k = c :: rest) : slice buf i (k + 1) = slice buf i k ++ [c] := by
  rw [slice, slice, Nat.sub_add_comm le, List.take_succ, List.getElem?_drop,
    Nat.add_sub_cancel' le, getElem?_of_drop_eq_cons dropped]
  rfl

end HttpUtil
