/-
The routes of the router filter. Routes are kept in a table sorted by the length of their path; the
scan for the most specific route that matches a request stops early. It finds the route that a scan
of the routes as configured would find.
-/
import Praxis.Lib.Ascii
import Praxis.Lib.FirstMax
import Praxis.Lib.Utf8
import Praxis.Pipeline.Condition
import Mathlib.Data.List.AList
import Mathlib.Data.Prod.Lex
import Mathlib.Order.Lattice.Nat

namespace Praxis.Router

open List Option Bool Praxis.Lib

/-! ## Routes -/

inductive PathMatch where
  | exact (path : String)
  | pathPrefix (path : String)
deriving DecidableEq

structure Route where
  pathMatch : PathMatch
  cluster : String
  headers : Option (AList fun _ : String => String)
  host : Option String
deriving DecidableEq

/-- A route with the suffix of its wildcard host, in lower case and after a dot. -/
structure ResolvedRoute where
  route : Route
  wildcardSuffix : Option (List UInt8)
deriving DecidableEq

def PathMatch.isExact : PathMatch → Bool
  | .exact _ => true
  | .pathPrefix _ => false

def pathPrefixSpecificity (pathPrefix : String) : Nat :=
  let cs := pathPrefix.toList
  let trimmed := if cs.getLast? == some '/' then cs.dropLast else cs
  if trimmed.isEmpty then 1 else (utf8 (String.ofList trimmed)).length

/-- The length of the path, as the order of the table and the early stop take it. -/
def PathMatch.len : PathMatch → Nat
  | .exact path => (utf8 path).length
  | .pathPrefix path => pathPrefixSpecificity path

/-- `strip_suffix('.')`, if there is one. -/
def stripRootDot (host : List UInt8) : List UInt8 := if host.getLast? == some 46 then host.dropLast else host

def stripPort (host : List UInt8) : List UInt8 :=
  if host.head? == some 91 then
    match host.findIdx? (· == 93) with
    | some i => host.take (i + 1)
    | none => host
  else host.takeWhile (· != 58)

/-- `host_matches`, on bytes: a suffix starts with a dot, so no character is cut. -/
def hostMatches (pattern : List UInt8) (wildcardSuffix : Option (List UInt8)) (host : List UInt8) (multiLevel : Bool) : Bool :=
  match wildcardSuffix with
  | some suffix =>
    if host.length ≤ suffix.length then false
    else if !eqIgnoreAsciiCase (host.drop (host.length - suffix.length)) suffix then false
    else
      let subdomain := host.take (host.length - suffix.length)
      !subdomain.isEmpty && (multiLevel || !subdomain.contains 46)
  | none => eqIgnoreAsciiCase host (stripRootDot pattern)

/-- What `resolve_routes` makes of a route. -/
def ResolvedRoute.ofRoute (route : Route) : ResolvedRoute where
  route := route
  wildcardSuffix := route.host.bind fun host =>
    if "*.".toList.isPrefixOf host.toList then
      some (46 :: (stripRootDot (utf8 (String.ofList (host.toList.drop 2)))).map toAsciiLowercase)
    else none

/-! ## Matching -/

/-- A request, as far as routes look at it; the headers are read through a `RouteHeaderSource`. -/
structure Routed where
  path : String
  host : Option String
  hasValue : String → String → Bool

def headersMatch (required : Option (AList fun _ : String => String)) (hasValue : String → String → Bool) : Bool :=
  match required with
  | none => true
  | some required => required.entries.all fun entry => hasValue entry.1 entry.2

/-- The path of a route against that of a request. -/
def PathMatch.matchesPath (pathMatch : PathMatch) (path : String) : Bool :=
  match pathMatch with
  | .exact wanted => path == wanted
  | .pathPrefix wanted => Pipeline.pathPrefixMatches path wanted

def routeMatchesRequest (multiLevelSubdomain : Bool) (request : Routed) (resolved : ResolvedRoute) : Bool :=
  if !resolved.route.pathMatch.matchesPath request.path then false
  else
    let hostOk :=
      match resolved.route.host with
      | some pattern => request.host.any fun host =>
        hostMatches (utf8 pattern) resolved.wildcardSuffix (stripRootDot (stripPort (utf8 host))) multiLevelSubdomain
      | none => true
    hostOk && headersMatch resolved.route.headers request.hasValue

/-- `Specificity`, compared as a tuple. -/
abbrev Specificity := Bool ×ₗ Nat ×ₗ Nat

/-- `route_specificity`: exact before prefix, then the longer path, then more constraints. -/
def routeSpecificity (route : Route) : Specificity :=
  let constraints := (if route.host.isSome then 1 else 0) + route.headers.elim 0 fun headers => headers.entries.length
  toLex (route.pathMatch.isExact, toLex (route.pathMatch.len, constraints))

def updateBestMatch (best : Option (Specificity × Route)) (route : Route) : Option (Specificity × Route) :=
  let spec := routeSpecificity route
  let dominated := best.any fun (bs, _) => spec ≤ bs
  if dominated then best else some (spec, route)

variable (best : Option (Specificity × ResolvedRoute))

/-- `update_best_resolved`. Routes are compared by address in the source; a route equal to the best
one never replaces it, so equality tells the same. -/
def updateBestResolved (candidate : ResolvedRoute) : Option (Specificity × ResolvedRoute) :=
  match updateBestMatch (best.map fun (s, r) => (s, r.route)) candidate.route, best with
  | none, _ => none
  | some (spec, route), some (_, prev) => if route = prev.route then some (spec, prev) else some (spec, candidate)
  | some (spec, _), none => some (spec, candidate)

def shouldStopEarly (resolved : ResolvedRoute) : Bool :=
  best.any fun (bs, _) => resolved.route.pathMatch.len < (ofLex (ofLex bs).2).1

/-! ## The table -/

/-- The comparison of `sort_routes`: longer paths first, and exact before prefix. -/
def sortsBefore (a b : Route) : Bool :=
  b.pathMatch.len < a.pathMatch.len ||
    (a.pathMatch.len == b.pathMatch.len && (!b.pathMatch.isExact || a.pathMatch.isExact))

/-- `sort_routes`, a stable sort. -/
def sortRoutes (routes : List Route) : List Route := routes.mergeSort sortsBefore

/-- `Vec::dedup`. -/
def dedupAdjacent : List String → List String
  | [] => []
  | [name] => [name]
  | name :: next :: rest => if name = next then dedupAdjacent (next :: rest) else name :: dedupAdjacent (next :: rest)

/-- `route_header_names`; a key that is no header name is left out. -/
def routeHeaderNames (routes : List ResolvedRoute) : List String :=
  let keys := routes.flatMap fun resolved => resolved.route.headers.elim [] AList.keys
  dedupAdjacent ((keys.filterMap Pipeline.headerNameFromBytes).mergeSort fun a b => a ≤ b)

structure RouterFilter where
  headerNames : List String
  multiLevelSubdomainMatching : Bool
  routes : List ResolvedRoute

/-- `RouterFilter::build`, and the option it is completed with. -/
def RouterFilter.build (routes : List Route) (multiLevelSubdomainMatching : Bool) : RouterFilter :=
  let resolved := (sortRoutes routes).map ResolvedRoute.ofRoute
  ⟨routeHeaderNames resolved, multiLevelSubdomainMatching, resolved⟩

def RouterFilter.matchRoute (router : RouterFilter) (request : Routed) : Option ResolvedRoute :=
  (scanUntil (routeMatchesRequest router.multiLevelSubdomainMatching request) updateBestResolved shouldStopEarly none
    router.routes).map (·.2)

/-! ## The order of the table -/

variable {a b : Route} {pathMatch : PathMatch} {path : String}

theorem routeSpecificity_le_iff : routeSpecificity a ≤ routeSpecificity b ↔
    a.pathMatch.isExact < b.pathMatch.isExact ∨ a.pathMatch.isExact = b.pathMatch.isExact ∧
      (ofLex (routeSpecificity a)).2 ≤ (ofLex (routeSpecificity b)).2 := Prod.Lex.toLex_le_toLex

theorem routeSpecificity_le_of_shorter (hexact : a.pathMatch.isExact = true → b.pathMatch.isExact = true)
    (hlen : a.pathMatch.len < b.pathMatch.len) : routeSpecificity a ≤ routeSpecificity b := by
  rw [routeSpecificity_le_iff]
  have htail : (ofLex (routeSpecificity a)).2 ≤ (ofLex (routeSpecificity b)).2 :=
    Prod.Lex.toLex_le_toLex.2 (.inl hlen)
  rcases ha : a.pathMatch.isExact with _ | _
  · rcases b.pathMatch.isExact with _ | _
    · exact .inr ⟨rfl, htail⟩
    · exact .inl (by decide)
  · exact .inr ⟨(hexact ha).symm, htail⟩

theorem sortsBefore_iff : sortsBefore a b = true ↔ b.pathMatch.len < a.pathMatch.len ∨
    a.pathMatch.len = b.pathMatch.len ∧ (b.pathMatch.isExact = true → a.pathMatch.isExact = true) := by
  unfold sortsBefore
  cases a.pathMatch.isExact <;> cases b.pathMatch.isExact <;> simp

theorem sortsBefore_trans (a b c : Route) (hab : sortsBefore a b = true) (hbc : sortsBefore b c = true) :
    sortsBefore a c = true := by
  rw [sortsBefore_iff] at hab hbc ⊢
  rcases hab with hab | ⟨hab, hexact⟩ <;> rcases hbc with hbc | ⟨hbc, hexact'⟩
  · exact .inl (hbc.trans hab)
  · exact .inl (hbc ▸ hab)
  · exact .inl (hab ▸ hbc)
  · exact .inr ⟨hab.trans hbc, fun h => hexact (hexact' h)⟩

theorem sortsBefore_total (a b : Route) : (sortsBefore a b || sortsBefore b a) = true := by
  rw [or_eq_true, sortsBefore_iff, sortsBefore_iff]
  rcases Nat.lt_trichotomy a.pathMatch.len b.pathMatch.len with hlt | heq | hlt
  · exact .inr (.inl hlt)
  · rcases hexact : b.pathMatch.isExact with _ | _
    · exact .inl (.inr ⟨heq, nofun⟩)
    · exact .inr (.inr ⟨heq.symm, fun _ => rfl⟩)
  · exact .inl (.inl hlt)

theorem sortsBefore_of_specificity (h : routeSpecificity a = routeSpecificity b) : sortsBefore a b = true := by
  have hexact : a.pathMatch.isExact = b.pathMatch.isExact := congrArg (fun s => (ofLex s).1) h
  have hlen : a.pathMatch.len = b.pathMatch.len := congrArg (fun s => (ofLex (ofLex s).2).1) h
  exact sortsBefore_iff.2 (.inr ⟨hlen, fun hb => hexact.trans hb⟩)

theorem len_le_of_sortsBefore (h : sortsBefore a b = true) : b.pathMatch.len ≤ a.pathMatch.len := by
  rcases sortsBefore_iff.1 h with hlt | ⟨heq, _⟩
  · exact hlt.le
  · exact heq.ge

/-! ## Lengths of matching paths -/

theorem one_le_pathPrefixSpecificity (path : String) : 1 ≤ pathPrefixSpecificity path := by
  unfold pathPrefixSpecificity
  dsimp only
  generalize (if path.toList.getLast? == some '/' then path.toList.dropLast else path.toList) = trimmed
  cases trimmed with
  | nil => exact Nat.le_refl 1
  | cons c rest =>
    have hpos := length_pos_of_ne_nil (utf8EncodeChar_ne_nil c)
    simp only [isEmpty_cons, false_eq_true, if_false, utf8_ofList, flatMap_cons, length_append]
    omega

/-- A prefix that matches is not longer than the path, but for the root before an empty path. -/
theorem len_le_of_matchesPath (h : pathMatch.matchesPath path = true) : pathMatch.len ≤ max (utf8 path).length 1 := by
  cases pathMatch with
  | exact wanted =>
    obtain rfl := eq_of_beq h
    exact Nat.le_max_left _ _
  | pathPrefix wanted =>
    unfold PathMatch.matchesPath Pipeline.pathPrefixMatches at h
    unfold PathMatch.len pathPrefixSpecificity
    dsimp only at h ⊢
    generalize (if wanted.toList.getLast? == some '/' then wanted.toList.dropLast else wanted.toList) = trimmed at h ⊢
    rcases hempty : trimmed.isEmpty with _ | _
    · have hstarts : trimmed <+: path.toList := by
        simp only [hempty, Bool.false_or, Bool.or_eq_true, Bool.and_eq_true, List.isPrefixOf_iff_prefix] at h
        rcases h with heq | ⟨hstarts, _⟩
        · exact eq_of_beq heq ▸ List.prefix_refl _
        · exact hstarts
      obtain ⟨rest, hrest⟩ := hstarts
      refine le_trans ?_ (Nat.le_max_left _ _)
      simp only [Bool.false_eq_true, if_false]
      rw [utf8_ofList, utf8, ← hrest, List.flatMap_append, List.length_append]
      exact Nat.le_add_right _ _
    · simp only [if_true]
      exact Nat.le_max_right _ _

theorem len_of_exact (hexact : pathMatch.isExact = true) (h : pathMatch.matchesPath path = true) :
    pathMatch.len = (utf8 path).length := by
  cases pathMatch with
  | exact wanted => rw [eq_of_beq h, PathMatch.len]
  | pathPrefix => cases hexact

theorem isExact_of_len_zero (h : pathMatch.len = 0) : pathMatch.isExact = true := by
  cases pathMatch with
  | exact => rfl
  | pathPrefix wanted => exact absurd h (Nat.one_le_iff_ne_zero.1 (one_le_pathPrefixSpecificity wanted))

theorem matchesPath_of_matches {multiLevel : Bool} {request : Routed} {resolved : ResolvedRoute}
    (h : routeMatchesRequest multiLevel request resolved = true) :
    resolved.route.pathMatch.matchesPath request.path = true := by
  unfold routeMatchesRequest at h
  split at h
  · cases h
  · rename_i hpath
    simpa using hpath

/-! ## The scan -/

theorem updateBestResolved_eq (candidate : ResolvedRoute) (hbest : ∀ b ∈ best, b.1 = routeSpecificity b.2.route) :
    updateBestResolved best candidate = keepBest (fun r => routeSpecificity r.route) best candidate := by
  rcases best with _ | ⟨spec, prev⟩
  · rfl
  · obtain rfl : spec = routeSpecificity prev.route := hbest _ rfl
    unfold updateBestResolved updateBestMatch keepBest
    by_cases hle : routeSpecificity candidate.route ≤ routeSpecificity prev.route
    · simp [hle]
    · have hne : candidate.route ≠ prev.route := fun heq => hle (by rw [heq])
      simp [hle, hne]

theorem foldl_updateBestResolved : ∀ (l : List ResolvedRoute) (best : Option (Specificity × ResolvedRoute)),
    (∀ b ∈ best, b.1 = routeSpecificity b.2.route) →
      l.foldl updateBestResolved best = l.foldl (keepBest fun r => routeSpecificity r.route) best
  | [], _, _ => rfl
  | r :: l, best, hbest => by
    rw [foldl_cons, foldl_cons, updateBestResolved_eq best r hbest]
    refine foldl_updateBestResolved l _ fun b hb => ?_
    unfold keepBest at hb
    split at hb
    · exact hbest b hb
    · cases hb
      rfl

/-- Between two steps of the scan: the best route matches and no route to come is longer. -/
def Scanned (multiLevel : Bool) (request : Routed) (best : Option (Specificity × ResolvedRoute))
    (rest : List ResolvedRoute) : Prop :=
  (∀ b ∈ best, routeMatchesRequest multiLevel request b.2 = true ∧ b.1 = routeSpecificity b.2.route ∧
    ∀ r ∈ rest, r.route.pathMatch.len ≤ b.2.route.pathMatch.len) ∧
  rest.Pairwise fun a b => sortsBefore a.route b.route

section

variable {multiLevel : Bool} {request : Routed} {best : Option (Specificity × ResolvedRoute)} {a : ResolvedRoute}
  {rest : List ResolvedRoute}

section

variable (h : Scanned multiLevel request best (a :: rest))
include h

theorem Scanned.skip : Scanned multiLevel request best rest :=
  ⟨fun b hb => ⟨(h.1 b hb).1, (h.1 b hb).2.1, fun r hr => (h.1 b hb).2.2 r (.tail a hr)⟩,
    (pairwise_cons.1 h.2).2⟩

/-- The best route after a step: as before and not less specific, or the route of the step. -/
theorem mem_updateBestResolved {b : Specificity × ResolvedRoute} (hb : b ∈ updateBestResolved best a) :
    (b ∈ best ∧ routeSpecificity a.route ≤ b.1) ∨ b = (routeSpecificity a.route, a) := by
  rw [updateBestResolved_eq best a fun b hb => (h.1 b hb).2.1, keepBest] at hb
  split at hb
  · rename_i hany
    obtain ⟨b', hb', hle⟩ := (any_eq_true _ _).1 hany
    cases hb'.symm.trans hb
    exact .inl ⟨hb, of_decide_eq_true hle⟩
  · exact .inr (some.inj hb).symm

theorem Scanned.take (ha : routeMatchesRequest multiLevel request a = true) :
    Scanned multiLevel request (updateBestResolved best a) rest := by
  obtain ⟨hfirst, hrest⟩ := pairwise_cons.1 h.2
  refine ⟨fun b hb => ?_, hrest⟩
  rcases mem_updateBestResolved h hb with ⟨hold, _⟩ | rfl
  · exact (h.skip.1 b hold)
  · exact ⟨ha, rfl, fun r hr => len_le_of_sortsBefore (hfirst r hr)⟩

/-- After a stop no route to come is more specific. Only an exact route could be, and one shorter than
a prefix that matches is that of the empty path; then the scan does not stop before it. -/
theorem Scanned.stop (ha : routeMatchesRequest multiLevel request a = true)
    (hstop : shouldStopEarly (updateBestResolved best a) a = true) {c : ResolvedRoute} (hc : c ∈ rest)
    (hmatches : routeMatchesRequest multiLevel request c = true) :
    updateBestResolved (updateBestResolved best a) c = updateBestResolved best a := by
  obtain ⟨b, hb, hlen⟩ := (any_eq_true _ _).1 hstop
  obtain ⟨hbmatches, hbspec, hrest⟩ := (h.take ha).1 b hb
  have hshort : a.route.pathMatch.len < (ofLex (ofLex b.1).2).1 := of_decide_eq_true hlen
  rw [hbspec] at hshort
  have hac := len_le_of_sortsBefore ((pairwise_cons.1 h.2).1 c hc)
  -- the best is at least as specific as the route that the scan stops at
  have hspec : routeSpecificity a.route ≤ routeSpecificity b.2.route := by
    rcases mem_updateBestResolved h hb with ⟨_, hle⟩ | rfl
    · rwa [hbspec] at hle
    · exact le_refl _
  have hle : routeSpecificity c.route ≤ routeSpecificity b.2.route := by
    refine routeSpecificity_le_of_shorter (fun hexact => ?_) (lt_of_le_of_lt hac hshort)
    by_contra hstarts
    have hclen := len_of_exact hexact (matchesPath_of_matches hmatches)
    have hblen := len_le_of_matchesPath (matchesPath_of_matches hbmatches)
    have hbshort : a.route.pathMatch.len < b.2.route.pathMatch.len := hshort
    have haexact : a.route.pathMatch.isExact = true := isExact_of_len_zero (by omega)
    rw [routeSpecificity_le_iff, haexact, not_eq_true _ |>.mp hstarts] at hspec
    exact absurd hspec (by simp)
  rw [updateBestResolved_eq _ c fun b hb => ((h.take ha).1 b hb).2.1, keepBest, if_pos]
  exact (any_eq_true _ _).2 ⟨b, hb, by rw [hbspec]; exact decide_eq_true hle⟩

end

end

theorem scanUntil_sorted (multiLevel : Bool) {request : Routed} (table : List ResolvedRoute)
    (hsorted : table.Pairwise fun a b => sortsBefore a.route b.route) :
    scanUntil (routeMatchesRequest multiLevel request) updateBestResolved shouldStopEarly none table =
      ((table.filter (routeMatchesRequest multiLevel request)).argmax fun r => routeSpecificity r.route).map
        fun r => (routeSpecificity r.route, r) := by
  rw [scanUntil_eq_foldl (I := Scanned multiLevel request) (fun _ _ _ h _ => h.skip) (fun _ _ _ h ha => h.take ha)
    (fun _ _ _ h ha hstop c hc hmatches => h.stop ha hstop hc hmatches) table none ⟨nofun, hsorted⟩,
    foldl_updateBestResolved _ none nofun, foldl_keepBest]

/-- The router picks, of the routes that match, the most specific one, and of these the first as
configured; it picks none exactly when none matches. -/
theorem matchRoute_most_specific (routes : List Route) (multiLevel : Bool) (request : Routed) :
    (RouterFilter.build routes multiLevel).matchRoute request =
        ((routes.map ResolvedRoute.ofRoute).filter (routeMatchesRequest multiLevel request)).argmax
          (fun r => routeSpecificity r.route) ∧
      ((RouterFilter.build routes multiLevel).matchRoute request = none ↔
        ∀ route ∈ routes, routeMatchesRequest multiLevel request (.ofRoute route) = false) := by
  have hpick : (RouterFilter.build routes multiLevel).matchRoute request =
      ((routes.map ResolvedRoute.ofRoute).filter (routeMatchesRequest multiLevel request)).argmax
        (fun r => routeSpecificity r.route) := by
    have hsorted := List.pairwise_mergeSort sortsBefore_trans sortsBefore_total routes
    have htable : (sortRoutes routes).map ResolvedRoute.ofRoute =
        (routes.map ResolvedRoute.ofRoute).mergeSort fun a b => sortsBefore a.route b.route :=
      List.map_mergeSort fun _ _ _ _ => rfl
    rw [RouterFilter.matchRoute, RouterFilter.build, scanUntil_sorted _ _ (List.pairwise_map.2 hsorted), Option.map_map, htable,
      argmax_filter_mergeSort (fun a b c => sortsBefore_trans a.route b.route c.route)
        (fun a b => sortsBefore_total a.route b.route) (fun a b => sortsBefore_of_specificity)]
    exact Option.map_id'
  refine ⟨hpick, ?_⟩
  rw [hpick, List.argmax_eq_none, List.filter_eq_nil_iff]
  simp

end Praxis.Router
