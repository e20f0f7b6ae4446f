/-
Header names with a meaning of their own: the prefixes that only the proxy may use, the fields of
one hop, and the fields that a `Connection` token cannot remove.
-/
import Praxis.Lib.Ascii
import Praxis.Lib.Http
import Praxis.Pipeline.Condition

namespace Praxis.Headers

open String Char Praxis.Lib
open Praxis.Pipeline (headerNameFromBytes)

def reservedHeaderPrefixes : List String := ["x-praxis-", "x-ext-protocol-", "x-ext-agent-"]

def isReserved (name : String) : Bool :=
  reservedHeaderPrefixes.any fun start =>
    (utf8 start).length ≤ (utf8 name).length && eqIgnoreAsciiCase ((utf8 name).take (utf8 start).length) (utf8 start)

def hopByHopHeaders : List String :=
  ["connection", "keep-alive", "proxy-authenticate", "proxy-authorization", "te", "trailer", "transfer-encoding", "upgrade"]

def isConnectionTokenProtected (name : String) : Bool :=
  (name.toList.take 12).map Char.toLower == "x-forwarded-".toList ||
  Pipeline.eqIgnoreAsciiCase name "forwarded" ||
  Pipeline.eqIgnoreAsciiCase name "host" ||
  Pipeline.eqIgnoreAsciiCase name "content-length" ||
  isReserved name

def connectionTokens (value : HeaderValue) : List String := (tokens value).filterMap fromUtf8

/-- What the forwarding filter writes. -/
def forwardingHeaders : List String := ["x-forwarded-for", "x-forwarded-proto", "x-forwarded-host", "forwarded"]

theorem toLower_eq (text : String) : text.toLower = ofList (text.toList.map toLower) := by
  show text.map toLower = _
  rw [← toList_map, ofList_toList]

variable {text name : String}

theorem headerNameFromBytes_eq_some (h : headerNameFromBytes text = some name) :
    text.toList.map Char.toLower = name.toList := by
  unfold headerNameFromBytes at h
  split at h
  · cases h
  · rw [← Option.some.inj h, toLower_eq, String.toList_ofList]

/-- Letters, digits and hyphens make a header name. -/
theorem headerNameFromBytes_of_alphanum (hlength : 0 < text.toList.length ∧ text.toList.length ≤ 65535)
    (hchars : ∀ c ∈ text.toList, c.isAlphanum || c == '-') (hlower : text.toList.map Char.toLower = name.toList) :
    headerNameFromBytes text = some name := by
  have hall : text.toList.all Pipeline.isTokenChar = true := by
    refine List.all_eq_true.2 fun c hc => ?_
    rcases Bool.or_eq_true_iff.1 (hchars c hc) with h | h
    · simp [Pipeline.isTokenChar, h]
    · rw [eq_of_beq h]
      simp [Pipeline.isTokenChar]
  have hempty : text.isEmpty = false := by
    rw [Bool.eq_false_iff, ne_eq, String.isEmpty_iff]
    rintro rfl
    cases hlength.1
  rw [headerNameFromBytes, hempty, decide_eq_false (Nat.not_lt.2 hlength.2), hall, toLower_eq, hlower, String.ofList_toList]
  rfl

/-- No token that names a forwarding header, in any case, removes it. -/
theorem protected_of_forwarding {token : String} (htoken : headerNameFromBytes token = some name)
    (hname : name ∈ forwardingHeaders) : isConnectionTokenProtected token = true := by
  have hchars := headerNameFromBytes_eq_some htoken
  have htake : (token.toList.take 12).map Char.toLower = name.toList.take 12 := by rw [List.map_take, hchars]
  simp only [isConnectionTokenProtected, Pipeline.eqIgnoreAsciiCase, toLower_eq, htake, hchars]
  simp only [forwardingHeaders, List.mem_cons, List.not_mem_nil, or_false] at hname
  rcases hname with rfl | rfl | rfl | rfl
  · rfl
  · rfl
  · rfl
  · rfl

end Praxis.Headers
