/-
The filters `headers` and `endpoint_selector` in the request phase. The first queues changes of the
request's headers; the second selects the upstream whose address such a change, or a mutation logged
while the body was read early, has put into its source header. The client's own headers select nothing.
-/
import Praxis.Admission.Inbound
import Praxis.Pipeline.Context
import Praxis.PreRead.Overlay
import Praxis.Sni.Host

namespace Praxis.Pipeline

open Praxis.Lib Praxis.PreRead

/-- What the two filters reach: the headers of the request with their queues and logs, and how many
strings have been allocated. -/
structure HeaderWorld (Map : Type) where
  context : PreReadContext Map
  allocations : Nat

/-! ## `headers` -/

/-- A `headers` filter without entries for the response. -/
structure HeaderFilter where
  requestAdd : List (String × String)
  requestRemove : List String
  requestSet : List (String × HeaderValue)

section

variable {Map : Type} (http : Http Map)

/-- `stack_request_add`: the value joined onto a queued one or onto the client's; `none` where it must be
appended as a separate header. -/
def stackRequestAdd (ctx : PreReadContext Map) (name val : String) : Option (PreReadContext Map) :=
  match ctx.requestHeadersToSet.reverse.find? fun entry => entry.1 == name with
  | some (_, queued) => do
    let prev ← http.toStr queued
    let combined ← http.fromStr s!"{prev},{val}"
    -- The last entry of the name is overwritten in place.
    let replaced := ctx.requestHeadersToSet.reverse.replaceF fun entry =>
      if entry.1 == name then some (entry.1, combined) else none
    pure { ctx with requestHeadersToSet := replaced.reverse }
  | none =>
    if ctx.requestHeadersToRemove.any fun n => n == name then none
    else do
      let parts ← (http.getAll ctx.headers name).mapM http.toStr
      guard !parts.isEmpty
      let joined := ",".intercalate parts
      let combined ← http.fromStr s!"{joined},{val}"
      pure { ctx with requestHeadersToSet := ctx.requestHeadersToSet ++ [(name, combined)] }

def queueRequestAdd (ctx : PreReadContext Map) (requestAdd : List (String × String)) : PreReadContext Map :=
  requestAdd.foldl
    (fun ctx entry => (stackRequestAdd http ctx entry.1 entry.2).getD
      { ctx with extraRequestHeaders := ctx.extraRequestHeaders ++ [entry] }) ctx

def HeaderFilter.onRequest (self : HeaderFilter) (_ : Bookkeeping) (ex : Exchange (HeaderWorld Map)) :
    Exchange (HeaderWorld Map) × Except FilterError FilterAction :=
  let ctx := ex.world.context
  let queued :=
    { ctx with
      requestHeadersToRemove := ctx.requestHeadersToRemove ++ self.requestRemove
      requestHeadersToSet := ctx.requestHeadersToSet ++ self.requestSet }
  ({ ex with world := { ex.world with context := queueRequestAdd http queued self.requestAdd } }, .ok .proceed)

def HeaderFilter.toHttpFilter (self : HeaderFilter) : HttpFilter (HeaderWorld Map) :=
  { HttpFilter.noop "headers" with onRequest := self.onRequest http }

end

/-! ## Addresses -/

/-- `str::parse::<u16>`: digits, which a plus sign may precede. -/
def parseU16 (text : List Char) : Option Nat :=
  let digits := if text.head? == some '+' then text.tail else text
  if !digits.isEmpty && digits.all (·.isDigit) then Admission.parseU16 digits else none

def parsePort (portStr : List Char) (addr : String) : Except FilterError Nat :=
  match parseU16 portStr with
  | none => .error ⟨s!"endpoint_selector: invalid port in address: '{addr}'"⟩
  | some 0 => .error ⟨s!"endpoint_selector: port 0 is not valid in address: '{addr}'"⟩
  | some port => .ok port

/-- `str::split_once` at `]:`. -/
def splitBracket : List Char → Option (List Char × List Char)
  | ']' :: ':' :: rest => some ([], rest)
  | c :: rest => (splitBracket rest).map fun p => (c :: p.1, p.2)
  | [] => none

/-- `str::rsplit_once` at a colon. -/
def rsplitColon (text : List Char) : Option (List Char × List Char) :=
  (Admission.splitOnce ':' text.reverse).map fun p => (p.2.reverse, p.1.reverse)

def validateIpv6HostPort (rest : List Char) (addr : String) : Except FilterError Unit :=
  match splitBracket rest with
  | none => .error ⟨s!"endpoint_selector: invalid IPv6 address format: '{addr}'"⟩
  | some (ipv6Host, portStr) =>
    if !Sni.IpAddr.isIpv6Addr ipv6Host then
      .error ⟨s!"endpoint_selector: invalid IPv6 address in brackets: '{addr}'"⟩
    else (parsePort portStr addr).map fun _ => ()

def validateHostPort (addr : String) : Except FilterError Unit :=
  let text := addr.toList
  if strContains addr "://" then
    .error ⟨s!"endpoint_selector: value looks like a URI, expected host:port: '{addr}'"⟩
  else if text.contains '/' || text.contains '?' || text.contains '#' then
    .error ⟨s!"endpoint_selector: value contains path/query/fragment, expected host:port: '{addr}'"⟩
  else if text.contains '@' then
    .error ⟨s!"endpoint_selector: value contains userinfo, expected host:port: '{addr}'"⟩
  else if text.head? == some '[' then validateIpv6HostPort text.tail addr
  else
    match rsplitColon text with
    | none => .error ⟨s!"endpoint_selector: missing port in address: '{addr}'"⟩
    | some (host, portStr) =>
      if host.isEmpty then .error ⟨s!"endpoint_selector: empty host in address: '{addr}'"⟩
      else
        match Sni.validateDnsHostname host with
        | .error e =>
          let reason := e.message
          .error ⟨s!"endpoint_selector: host {reason} in: '{addr}'"⟩
        | .ok () => (parsePort portStr addr).map fun _ => ()

/-! ## `endpoint_selector` -/

/-- The connection options and the TLS material go into the upstream unread. -/
structure EndpointSelectorFilter where
  required : Bool
  sourceHeader : String
  statusOnRequiredFailure : Nat
  stripHeader : Bool

namespace EndpointSelectorFilter

variable {Map : Type} (http : Http Map) (self : EndpointSelectorFilter) (ctx : PreReadContext Map)

def absentResult (reason : String) : Except FilterError (Option String) :=
  if self.required then
    .error ⟨s!"endpoint_selector: required destination header '{self.sourceHeader}' {reason}"⟩
  else .ok none

def validateEndpoint (val : String) : Except FilterError Unit :=
  if val.isEmpty then .error ⟨s!"endpoint_selector: header '{self.sourceHeader}' has an empty trusted value"⟩
  else if val.toList.contains ',' then
    .error ⟨s!"endpoint_selector: header '{self.sourceHeader}' contains multiple values"⟩
  else validateHostPort val

def resolveFromTrusted : Except FilterError (Option String) :=
  (resolveTrustedHeader http ctx self.sourceHeader).mapError fun e => ⟨s!"endpoint_selector: {e}"⟩

def validated (val : String) : Except FilterError (Option String) := (self.validateEndpoint val).map fun _ => some val

def resolveEndpoint : Except FilterError (Option String) :=
  match pendingHeaderValue http ctx self.sourceHeader with
  | .error e => .error ⟨s!"endpoint_selector: {e}"⟩
  | .ok (.value val) => self.validated val
  | .ok .removed => self.absentResult "explicitly removed"
  | .ok .absent =>
    match self.resolveFromTrusted http ctx with
    | .error e => .error e
    | .ok (some val) => self.validated val
    | .ok none => self.absentResult "absent"

/-- A required destination that fails answers itself; an optional one leaves it to the failure mode. -/
def routingFailure (reason : FilterError) : Except FilterError FilterAction :=
  if self.required then .ok (.reject (.ofStatus self.statusOnRequiredFailure)) else .error reason

def stripSourceHeader : PreReadContext Map :=
  { ctx with
    requestHeadersToRemove := ctx.requestHeadersToRemove ++ [self.sourceHeader]
    extraRequestHeaders := ctx.extraRequestHeaders.filter fun e => !eqIgnoreAsciiCase e.1 self.sourceHeader
    requestHeadersToSet := ctx.requestHeadersToSet.filter fun e => e.1 != self.sourceHeader
    preReadMutations := ctx.preReadMutations.filter fun m => !m.matchesHeader self.sourceHeader }

def onRequest (_ : Bookkeeping) (ex : Exchange (HeaderWorld Map)) :
    Exchange (HeaderWorld Map) × Except FilterError FilterAction :=
  let world := ex.world
  let stripped := if self.stripHeader then self.stripSourceHeader world.context else world.context
  match self.resolveEndpoint http world.context with
  | .ok (some val) =>
    ({ ex with
        upstream := some ⟨⟨world.allocations, val⟩⟩
        world := ⟨stripped, world.allocations + 1⟩ }, .ok .proceed)
  | .ok none => ({ ex with world := ⟨stripped, world.allocations⟩ }, .ok .proceed)
  | .error e => ({ ex with world := ⟨stripped, world.allocations⟩ }, self.routingFailure e)

/-- The filter declares no cluster selection: it leaves `selects_cluster` at its default. -/
def toHttpFilter : HttpFilter (HeaderWorld Map) :=
  { HttpFilter.noop "endpoint_selector" with onRequest := self.onRequest http }

end EndpointSelectorFilter

end Praxis.Pipeline
