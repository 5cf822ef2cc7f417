import HttpUtil.Text.Bytes

/-! # Methods, header names and status codes

The fixed tables of `http_util.cc` and the predicates that read them:
`IsMethodSafe`, `IsMethodIdempotent`, `IsSafeHeader` with
`kForbiddenHeaderFields`, `IsNonCoalescingHeader`, `IsParmName`, and the status
codes of the histogram.

`IsSafeHeader` compares prefixes with `base::StartsWith`, which lower-cases
both sides, and both header predicates compare whole names with
`LowerCaseEqualsASCII`, which lower-cases only the name; what they decide is
stated once on the lower-cased name.
-/

namespace HttpUtil

/-- `HttpUtil::IsMethodSafe`. -/
def isMethodSafe (method : Bytes) : Bool :=
  method == ascii "GET" || method == ascii "HEAD" || method == ascii "OPTIONS" ||
    method == ascii "TRACE"

/-- `HttpUtil::IsMethodIdempotent`. -/
def isMethodIdempotent (method : Bytes) : Bool :=
  isMethodSafe method || method == ascii "PUT" || method == ascii "DELETE"

/-- `base::StartsWith(str, search_for, CompareCase::INSENSITIVE_ASCII)`: `str`
is at least as long as `search_for`, and its first bytes equal those of
`search_for` after `ToLowerASCII` on both sides. -/
def startsWithInsensitiveASCII (str searchFor : Bytes) : Bool :=
  decide (searchFor.length ≤ str.length) &&
    (str.take searchFor.length).map toLowerASCII == searchFor.map toLowerASCII

/-- The loop of `IsSafeHeader` and of `IsNonCoalescingHeader` over their table:
whether `LowerCaseEqualsASCII(name, entry)` holds for some entry. -/
def matchesTable (table : List Bytes) (name : Bytes) : Bool :=
  table.any (lowerCaseEqualsASCII name)

def kForbiddenHeaderFields : List Bytes :=
  [ascii "accept-charset", ascii "accept-encoding", ascii "access-control-request-headers",
    ascii "access-control-request-method", ascii "connection", ascii "content-length",
    ascii "cookie", ascii "cookie2", ascii "date", ascii "dnt", ascii "expect", ascii "host",
    ascii "keep-alive", ascii "origin", ascii "referer", ascii "te", ascii "trailer",
    ascii "transfer-encoding", ascii "upgrade", ascii "user-agent", ascii "via"]

/-- `HttpUtil::IsSafeHeader`. -/
def isSafeHeader (name : Bytes) : Bool :=
  if startsWithInsensitiveASCII name (ascii "proxy-") ||
      startsWithInsensitiveASCII name (ascii "sec-") then false
  else !matchesTable kForbiddenHeaderFields name

def kNonCoalescingHeaders : List Bytes :=
  [ascii "date", ascii "expires", ascii "last-modified", ascii "location", ascii "retry-after",
    ascii "set-cookie", ascii "www-authenticate", ascii "proxy-authenticate",
    ascii "strict-transport-security"]

/-- `HttpUtil::IsNonCoalescingHeader`. -/
def isNonCoalescingHeader (name : Bytes) : Bool := matchesTable kNonCoalescingHeaders name

/-- `HttpUtil::IsParmName`: RFC 5987 `parmname`, a token without `*`, the
apostrophe and `%`. -/
def isParmName (str : Bytes) : Bool :=
  !str.isEmpty && str.all fun c => !(!isTokenChar c || c == 42 || c == 39 || c == 37)

theorem startsWithInsensitiveASCII_iff {str searchFor : Bytes} :
    startsWithInsensitiveASCII str searchFor = true ↔
      searchFor.map toLowerASCII <+: str.map toLowerASCII := by
  rw [List.prefix_iff_eq_take, List.length_map, ← List.map_take]
  simp only [startsWithInsensitiveASCII, Bool.and_eq_true, decide_eq_true_eq, beq_iff_eq]
  refine ⟨fun ⟨_, equal⟩ => equal.symm, fun equal => ⟨?_, equal.symm⟩⟩
  have length := congrArg List.length equal
  simp only [List.length_map, List.length_take] at length
  omega

def histogramMinHttpStatusCode : Int := 100

def histogramMaxHttpStatusCode : Int := 599

/-- `HttpUtil::GetStatusCodesForHistogram`: `0`, the code kept for invalid
status codes, then every code from the least to the greatest. -/
def getStatusCodesForHistogram : List Int :=
  0 :: (List.range (histogramMaxHttpStatusCode - histogramMinHttpStatusCode + 1).toNat).map
    fun i : Nat => histogramMinHttpStatusCode + i

/-- `HttpUtil::MapStatusCodeForHistogram`. -/
def mapStatusCodeForHistogram (code : Int) : Int :=
  if histogramMinHttpStatusCode ≤ code ∧ code ≤ histogramMaxHttpStatusCode then code else 0

end HttpUtil
