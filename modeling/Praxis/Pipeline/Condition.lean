/-
Request conditions: the `when`/`unless` predicates that gate a filter, evaluated against the
request head and the metadata of the selected upstream. The build without upstream binding is
modelled, so the bound-upstream view is always empty.
-/
import Mathlib.Data.List.Basic

namespace Praxis.Pipeline

/-! ## Requests and responses -/

/-- A header map: lower-case names with their values, in arrival order. -/
abbrev HeaderMap := List (String × String)

structure Request where
  method : String
  path : String
  headers : HeaderMap
deriving Repr, DecidableEq

structure Response where
  status : Nat
  headers : HeaderMap
deriving Repr, DecidableEq

/-- A header-name token character (RFC 9110 `tchar`). -/
def isTokenChar (c : Char) : Bool := c.isAlphanum || "!#$%&'*+-.^_".contains c || c == '|' || c == '~' || c.toNat == 0x60

/-- `HeaderName::from_bytes`: a token of 1 to 65535 bytes, normalised to lower case. -/
def headerNameFromBytes (name : String) : Option String :=
  if name.isEmpty || 65535 < name.toList.length || !name.toList.all isTokenChar then none else some name.toLower

/-- `HeaderValue::to_str`: only visible ASCII, space and tab read as text. -/
def headerValueToStr (value : String) : Option String :=
  if value.toList.all fun c => c == '\t' || (0x20 ≤ c.toNat && c.toNat < 0x7f) then some value else none

/-- `HeaderMap::get` followed by `to_str`. -/
def Request.header (req : Request) (name : String) : Option String :=
  (req.headers.lookup name).bind headerValueToStr

def Request.containsHeader (req : Request) (name : String) : Bool := (req.headers.lookup name).isSome

/-! ## Predicates -/

/-- `ApplicationMatch` and `SelectedUpstreamMatch`: the wanted application metadata. -/
structure ApplicationMatch where
  applicationProtocol : Option String
  applicationProvider : Option String
deriving Repr, DecidableEq

/-- `SelectedUpstream`: the metadata the load balancer published, if any. -/
structure SelectedUpstream where
  applicationProtocol : Option String
  applicationProvider : Option String
deriving Repr, DecidableEq

def SelectedUpstream.none : SelectedUpstream := ⟨.none, .none⟩

/-- `BoundUpstreamView`: the bound logical upstream; without upstream binding nothing is ever
published, so both fields stay `none`. -/
structure BoundUpstreamView where
  protocol : Option String
  provider : Option String
deriving Repr, DecidableEq

def BoundUpstreamView.default : BoundUpstreamView := ⟨none, none⟩

structure ConditionMatch where
  grpc : Option Bool
  path : Option String
  pathPrefix : Option String
  methods : Option (List String)
  headers : Option (List (String × String))
  headersPresent : Option (List String)
  boundUpstream : Option ApplicationMatch
  selectedUpstream : Option ApplicationMatch
deriving Repr, DecidableEq

inductive Condition where
  | when (m : ConditionMatch)
  | unless (m : ConditionMatch)
deriving Repr, DecidableEq

/-- The predicate under the polarity. -/
def Condition.matcher : Condition → ConditionMatch
  | .when m => m
  | .unless m => m

/-! ## Evaluation -/

def eqIgnoreAsciiCase (a b : String) : Bool := a.toLower == b.toLower

/-- `GrpcKind::from_content_type(..).is_grpc()`. -/
def isGrpcContentType (value : String) : Bool :=
  let mime := (value.toList.takeWhile (· != ';')).dropWhile Char.isWhitespace
  let mime := (mime.reverse.dropWhile Char.isWhitespace).reverse
  let suffix := mime.drop 16
  eqIgnoreAsciiCase (String.ofList (mime.take 16)) "application/grpc" && (suffix.isEmpty || suffix.head? == some '+')

/-- `GrpcKind::from_headers(..).is_grpc()`. -/
def Request.isGrpc (req : Request) : Bool := (req.header "content-type").any isGrpcContentType

/-- `path_prefix_matches`: prefix matching on segment boundaries, one trailing slash ignored. -/
def pathPrefixMatches (path pathPrefix : String) : Bool :=
  let cs := pathPrefix.toList
  let trimmed := if cs.getLast? == some '/' then cs.dropLast else cs
  trimmed.isEmpty || path.toList == trimmed ||
    (trimmed.isPrefixOf path.toList && path.toList[trimmed.length]? == some '/')

def BoundUpstreamView.matches (bound : BoundUpstreamView) (want : ApplicationMatch) : Bool :=
  want.applicationProtocol.all (fun p => bound.protocol == some p) &&
    want.applicationProvider.all (fun p => bound.provider == some p)

def selectedUpstreamMatches (su : ApplicationMatch) (selected : SelectedUpstream) : Bool :=
  su.applicationProtocol.all (fun p => selected.applicationProtocol == some p) &&
    su.applicationProvider.all (fun p => selected.applicationProvider == some p)

def matchesRequestIntrinsics (m : ConditionMatch) (req : Request) : Bool :=
  m.grpc.all (fun want => req.isGrpc == want) && m.path.all (fun p => req.path == p) &&
    m.pathPrefix.all (fun p => pathPrefixMatches req.path p) &&
    m.methods.all (fun ms => ms.any fun method => eqIgnoreAsciiCase method req.method)

def headersMatch (headers : List (String × String)) (req : Request) : Bool :=
  headers.all fun h => (headerNameFromBytes h.1).any fun name => req.header name == some h.2

def headersPresent (names : List String) (req : Request) : Bool :=
  names.all fun n => (headerNameFromBytes n).any req.containsHeader

def matchesRequestFrom (m : ConditionMatch) (req : Request) (bound : BoundUpstreamView)
    (selected : SelectedUpstream) : Bool :=
  matchesRequestIntrinsics m req && m.headers.all (fun hs => headersMatch hs req) &&
    m.headersPresent.all (fun ns => headersPresent ns req) && m.boundUpstream.all bound.matches &&
    m.selectedUpstream.all (fun su => selectedUpstreamMatches su selected)

/-- `should_execute_bound_selected`: every `when` matches and no `unless` does. -/
def shouldExecuteBoundSelected (conditions : List Condition) (req : Request) (bound : BoundUpstreamView)
    (selected : SelectedUpstream) : Bool :=
  conditions.all fun
    | .when m => matchesRequestFrom m req bound selected
    | .unless m => !matchesRequestFrom m req bound selected

/-- `should_execute`: no binding and no selection in scope. -/
def shouldExecute (conditions : List Condition) (req : Request) : Bool :=
  shouldExecuteBoundSelected conditions req .default .none

/-- A response condition, its matcher taken as any predicate of the response. -/
inductive ResponseCondition where
  | when (m : Response → Bool)
  | unless (m : Response → Bool)

/-- `should_execute_response_ref`. -/
def shouldExecuteResponse (conditions : List ResponseCondition) (resp : Response) : Bool :=
  conditions.all fun
    | .when m => m resp
    | .unless m => !m resp

end Praxis.Pipeline
