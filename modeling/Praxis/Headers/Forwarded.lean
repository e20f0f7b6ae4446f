/-
The `forwarded_headers` filter: `X-Forwarded-For`, `-Proto`, `-Host` and, if configured, the
standard `Forwarded` header. A trusted proxy's values are extended or kept; what any other client
sends under these names must not reach the upstream.
-/
import Praxis.Headers.Network
import Praxis.Headers.NextHop
import Praxis.Pipeline.Action

namespace Praxis.Headers

open String List Praxis.Lib
open Praxis.Pipeline (headerNameFromBytes FilterAction)

structure ForwardedHeadersFilter where
  trustedProxies : List CidrRange
  useStandardHeader : Bool

def ForwardedHeadersFilter.isTrusted (filter : ForwardedHeadersFilter) (ip : IpAddr) : Bool :=
  filter.trustedProxies.any fun range => range.containsSameFamily ip

/-- What the filter reads of its context, and the queues it writes. -/
structure ForwardedContext (Map : Type) where
  clientAddr : Option IpAddr
  downstreamTls : Bool
  headers : Map
  requestHeadersToRemove : List String
  requestHeadersToSet : List (String × HeaderValue)
  extraRequestHeaders : List (String × String)

/-- `push` on `extra_request_headers`. -/
def ForwardedContext.add {Map : Type} (ctx : ForwardedContext Map) (name val : String) : ForwardedContext Map :=
  { ctx with extraRequestHeaders := ctx.extraRequestHeaders ++ [(name, val)] }

/-- `push` on `request_headers_to_remove`. -/
def ForwardedContext.remove {Map : Type} (ctx : ForwardedContext Map) (name : String) : ForwardedContext Map :=
  { ctx with requestHeadersToRemove := ctx.requestHeadersToRemove ++ [name] }

/-! ## Formatting -/

/-- `write_for_param`. -/
def forParam : IpAddr → String
  | .v4 addr => ofList (displayV4 addr)
  | .v6 addr => "\"[" ++ ofList (displayV6 addr) ++ "]\""

/-- `write_quoted_forwarded_value`. -/
def quotedForwardedValue (val : String) : String :=
  "\"" ++ ofList (val.toList.flatMap fun c => if c == '"' || c == '\\' then ['\\', c] else [c]) ++ "\""

/-- One entry of the `Forwarded` header. -/
def forwardedEntry (ip : IpAddr) (proto : String) (host : Option String) : String :=
  "for=" ++ forParam ip ++ ";proto=" ++ proto ++
    match host with
    | some host => ";host=" ++ quotedForwardedValue host
    | none => ""

section

variable {Map : Type} (http : Http Map)

/-- The loop of `joined_field_lines`. -/
def joinLines : Option String → List HeaderValue → Option String
  | out, [] => out
  | out, val :: rest =>
    match http.toStr val with
    | none => none
    | some text =>
      match out with
      | some joined => joinLines (some (joined ++ ", " ++ text)) rest
      | none => joinLines (some text) rest

def joinedFieldLines (hs : Map) (name : String) : Option String := joinLines http none (http.getAll hs name)

def carriesValue (hs : Map) (name : String) : Bool :=
  (joinedFieldLines http hs name).any fun val => !(trimText val).isEmpty

/-! ## The filter -/

/-- The `Host` header as text. -/
def hostValue (hs : Map) : Option String := (http.get hs "host").bind http.toStr

def connectionProto (tls : Bool) : String := if tls then "https" else "http"

def neutralizeUnknownClient (ctx : ForwardedContext Map) : ForwardedContext Map :=
  let ctx := (ctx.remove "x-forwarded-for").remove "forwarded"
  let ctx := ctx.add "X-Forwarded-Proto" (connectionProto ctx.downstreamTls)
  match hostValue http ctx.headers with
  | some host => ctx.add "X-Forwarded-Host" host
  | none => ctx.remove "x-forwarded-host"

def injectStandardForwarded (ctx : ForwardedContext Map) (clientIp : IpAddr) (proto : String) (host : Option String)
    (trusted : Bool) : ForwardedContext Map :=
  let existing := if trusted then joinedFieldLines http ctx.headers "forwarded" else none
  let entry := forwardedEntry clientIp proto host
  match existing with
  | some existing => ctx.add "Forwarded" (existing ++ ", " ++ entry)
  | none => ctx.add "Forwarded" entry

variable (filter : ForwardedHeadersFilter)

def neutralizeUntrustedForwarding (ctx : ForwardedContext Map) (trusted noHost : Bool) : ForwardedContext Map :=
  if trusted then ctx
  else
    let ctx := if !filter.useStandardHeader then ctx.remove "forwarded" else ctx
    if noHost then ctx.remove "x-forwarded-host" else ctx

def onRequest (ctx : ForwardedContext Map) : FilterAction × ForwardedContext Map :=
  match ctx.clientAddr with
  | none => (.proceed, neutralizeUnknownClient http ctx)
  | some clientIp =>
    let trusted := filter.isTrusted clientIp
    let existingXff := if trusted then joinedFieldLines http ctx.headers "x-forwarded-for" else none
    let xff := match existingXff with
      | some existing => existing ++ ", " ++ ofList clientIp.display
      | none => ofList clientIp.display
    let proto := connectionProto ctx.downstreamTls
    let host := hostValue http ctx.headers
    let keepsProto := trusted && carriesValue http ctx.headers "x-forwarded-proto"
    let keepsHost := trusted && carriesValue http ctx.headers "x-forwarded-host"
    let ctx := ctx.add "X-Forwarded-For" xff
    let ctx := if keepsProto then ctx else ctx.add "X-Forwarded-Proto" proto
    let ctx := if filter.useStandardHeader then injectStandardForwarded http ctx clientIp proto host trusted else ctx
    let ctx := if keepsHost then ctx else match host with
      | some host => ctx.add "X-Forwarded-Host" host
      | none => ctx
    (.proceed, neutralizeUntrustedForwarding filter ctx trusted host.isNone)

/-- A request as it leaves for the upstream: the filter, its pending mutations, the hop stripped. -/
def sentUpstream (options : StripHopByHopOptions) (client : Option IpAddr) (tls : Bool) (hs : Map) : Map :=
  let ctx := (onRequest http filter ⟨client, tls, hs, [], [], []⟩).2
  stripHopByHop http
    (applyPendingHeaderMutations http ctx.headers ctx.requestHeadersToRemove ctx.requestHeadersToSet ctx.extraRequestHeaders)
    options

/-! ## What is queued for a client that is not trusted -/

/-- The names removed for a client without an address, or with one that is not trusted. -/
def ownRemovals (client : Option IpAddr) (host : Option String) : List String :=
  let always := match client with
    | none => ["x-forwarded-for", "forwarded"]
    | some _ => if filter.useStandardHeader then [] else ["forwarded"]
  always ++ if host.isNone then ["x-forwarded-host"] else []

/-- The headers added for such a client. -/
def ownHeaders (client : Option IpAddr) (tls : Bool) (host : Option String) : List (String × String) :=
  let proto := connectionProto tls
  let peer := match client with
    | none => [("X-Forwarded-Proto", proto)]
    | some ip => [("X-Forwarded-For", ofList ip.display), ("X-Forwarded-Proto", proto)] ++
        if filter.useStandardHeader then [("Forwarded", forwardedEntry ip proto host)] else []
  peer ++ (host.map fun host => ("X-Forwarded-Host", host)).toList

variable {http}

/-- The queues of an untrusted client come from its address, the connection and `Host` alone. -/
theorem onRequest_untrusted {filter : ForwardedHeadersFilter} {client : Option IpAddr}
    (hclient : ∀ ip, client = some ip → filter.isTrusted ip = false) (tls : Bool) (hs : Map) :
    onRequest http filter ⟨client, tls, hs, [], [], []⟩ =
      (.proceed, ⟨client, tls, hs, ownRemovals filter client (hostValue http hs), [],
        ownHeaders filter client tls (hostValue http hs)⟩) := by
  cases client with
  | none =>
    cases hhost : hostValue http hs <;>
      simp [onRequest, neutralizeUnknownClient, ForwardedContext.add, ForwardedContext.remove, hhost, ownRemovals, ownHeaders]
  | some ip =>
    cases hhost : hostValue http hs <;> cases hstandard : filter.useStandardHeader <;>
      simp [onRequest, hclient ip rfl, hhost, hstandard, injectStandardForwarded, neutralizeUntrustedForwarding,
        ForwardedContext.add, ForwardedContext.remove, ownRemovals, ownHeaders]

theorem visible_connectionProto (tls : Bool) : Visible (connectionProto tls).toList := by
  cases tls <;> decide

theorem visible_forParam (ip : IpAddr) : Visible (forParam ip).toList := by
  cases ip with
  | v4 addr => simpa [forParam] using visible_displayV4 addr
  | v6 addr =>
    simp only [forParam, toList_append, toList_ofList, visible_append]
    exact ⟨⟨by decide, visible_display (.v6 addr)⟩, by decide⟩

theorem visible_quotedForwardedValue {val : String} (h : Visible val.toList) : Visible (quotedForwardedValue val).toList := by
  have hslash : isVisible '\\' = true := rfl
  have hescaped : Visible (val.toList.flatMap fun c => if c == '"' || c == '\\' then ['\\', c] else [c]) := by
    intro c hc
    obtain ⟨d, hd, hc⟩ := List.mem_flatMap.1 hc
    have hvisible : Visible (if d == '"' || d == '\\' then ['\\', d] else [d]) := by
      split <;> simp [hslash, h d hd]
    exact hvisible c hc
  simp only [quotedForwardedValue, toList_append, toList_ofList, visible_append]
  exact ⟨⟨by decide, hescaped⟩, by decide⟩

variable {host : Option String}

theorem visible_forwardedEntry (ip : IpAddr) (tls : Bool) (hhost : ∀ text, host = some text → Visible text.toList) :
    Visible (forwardedEntry ip (connectionProto tls) host).toList := by
  simp only [forwardedEntry, toList_append, visible_append]
  refine ⟨⟨⟨⟨by decide, visible_forParam ip⟩, by decide⟩, visible_connectionProto tls⟩, ?_⟩
  cases host with
  | none => exact visible_nil
  | some text =>
    simp only [toList_append, visible_append]
    exact ⟨by decide, visible_quotedForwardedValue (hhost text rfl)⟩

/-- Every header that is added is one that the map takes. -/
theorem ownHeaders_visible (client : Option IpAddr) (tls : Bool) (hhost : ∀ text, host = some text → Visible text.toList) :
    ∀ entry ∈ ownHeaders filter client tls host, Visible entry.2.toList := by
  intro entry hentry
  rcases mem_append.1 hentry with hpeer | hhostEntry
  · cases client with
    | none =>
      rw [mem_singleton.1 hpeer]
      exact visible_connectionProto tls
    | some ip =>
      rcases mem_append.1 hpeer with hpeer | hstandard
      · simp only [mem_cons, not_mem_nil, or_false] at hpeer
        rcases hpeer with rfl | rfl
        · simpa using visible_display ip
        · exact visible_connectionProto tls
      · split at hstandard
        · rw [mem_singleton.1 hstandard]
          exact visible_forwardedEntry ip tls hhost
        · cases hstandard
  · obtain ⟨text, htext, rfl⟩ : ∃ text, host = some text ∧ ("X-Forwarded-Host", text) = entry := by
      simpa [Option.mem_toList] using hhostEntry
    exact hhost text htext

theorem forwarding_covered (client : Option IpAddr) (tls : Bool) (host : Option String) {name : String}
    (hname : name ∈ forwardingHeaders) :
    name ∈ ownRemovals filter client host ∨
    ∃ entry ∈ ownHeaders filter client tls host, headerNameFromBytes entry.1 = some name := by
  have hfor : headerNameFromBytes "X-Forwarded-For" = some "x-forwarded-for" :=
    headerNameFromBytes_of_alphanum (by decide) (by decide) (by decide)
  have hproto : headerNameFromBytes "X-Forwarded-Proto" = some "x-forwarded-proto" :=
    headerNameFromBytes_of_alphanum (by decide) (by decide) (by decide)
  have hhost : headerNameFromBytes "X-Forwarded-Host" = some "x-forwarded-host" :=
    headerNameFromBytes_of_alphanum (by decide) (by decide) (by decide)
  have hforwarded : headerNameFromBytes "Forwarded" = some "forwarded" :=
    headerNameFromBytes_of_alphanum (by decide) (by decide) (by decide)
  simp only [forwardingHeaders, mem_cons, not_mem_nil, or_false] at hname
  cases client <;> cases hstandard : filter.useStandardHeader <;> cases host <;>
    rcases hname with rfl | rfl | rfl | rfl <;>
    simp [ownRemovals, ownHeaders, hstandard, hfor, hproto, hhost, hforwarded]

/-- What a client sends under the forwarding headers, or names in `Connection`, does not reach the
upstream unless the client is a trusted proxy. -/
theorem forwarding_headers_independent (laws : http.Laws) (textLaws : http.TextLaws) (filter : ForwardedHeadersFilter)
    (options : StripHopByHopOptions) (hstatic : options.staticHeaders = hopByHopHeaders) (client : Option IpAddr)
    (hclient : ∀ ip, client = some ip → filter.isTrusted ip = false) (tls : Bool) (h₁ h₂ : Map)
    (hhost : http.getAll h₁ "host" = http.getAll h₂ "host") :
    ∀ name ∈ forwardingHeaders,
      http.getAll (sentUpstream http filter options client tls h₁) name =
        http.getAll (sentUpstream http filter options client tls h₂) name := by
  intro name hname
  have hvalue : hostValue http h₂ = hostValue http h₁ := by
    rw [hostValue, hostValue, laws.get_eq, laws.get_eq, hhost]
  have hvisible : ∀ text, hostValue http h₁ = some text → Visible text.toList := by
    intro text htext
    obtain ⟨val, -, hvalue⟩ := Option.bind_eq_some_iff.1 htext
    exact textLaws.visible_of_toStr val text hvalue
  simp only [sentUpstream, onRequest_untrusted hclient, hvalue]
  rw [getAll_stripHopByHop laws _ hstatic hname, getAll_stripHopByHop laws _ hstatic hname]
  refine agree_applyPendingHeaderMutations laws ?_ h₁ h₂
  refine (forwarding_covered filter client tls (hostValue http h₁) hname).imp_right ?_
  rintro ⟨entry, hentry, hentryName⟩
  have htext := ownHeaders_visible filter client tls hvisible entry hentry
  exact ⟨entry, hentry, hentryName, by rw [textLaws.fromStr_of_visible entry.2 htext]; rfl⟩

end

/-- Trusts 10.0.0.0/8. -/
def intranetFilter : ForwardedHeadersFilter := ⟨[⟨.v4 0x0a000000, 8, by decide⟩], true⟩

/-- The options of a request that is no upgrade. -/
def requestOptions : StripHopByHopOptions := ⟨hopByHopHeaders, .ifUpgradeRequest false, true, false⟩

/-- `Host: a`, a forged `X-Forwarded-For` and a `Connection` line that names it. -/
def forgedHeaders : List (String × HeaderValue) :=
  [("host", [97]), ("x-forwarded-for", [49]), ("connection", utf8 "X-Forwarded-For")]

theorem forgedHeaders_independent :
    intranetFilter.isTrusted (.v4 0xcb007132) = false ∧
    ∀ name ∈ forwardingHeaders,
      assocHttp.getAll (sentUpstream assocHttp intranetFilter requestOptions (some (.v4 0xcb007132)) true forgedHeaders) name =
        assocHttp.getAll (sentUpstream assocHttp intranetFilter requestOptions (some (.v4 0xcb007132)) true [("host", [97])]) name := by
  have huntrusted : intranetFilter.isTrusted (.v4 0xcb007132) = false := by decide
  refine ⟨huntrusted, forwarding_headers_independent assocHttp_laws assocHttp_textLaws intranetFilter requestOptions rfl
    (some (.v4 0xcb007132)) ?_ true forgedHeaders [("host", [97])] (by decide)⟩
  rintro ip ⟨⟩
  exact huntrusted

end Praxis.Headers
