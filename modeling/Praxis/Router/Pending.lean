/-
The headers that the router looks at. Filters before it leave what they do to the request's headers
in queues, which are applied after the pipeline; the router reads the names that its routes mention
through these queues. It sees what will be sent, unless a header is left with values that disagree,
where it refuses to choose.
-/
import Praxis.Headers.NextHop
import Praxis.Lib.Except
import Praxis.PreRead.Overlay
import Praxis.Router.Matching
import Mathlib

namespace Praxis.Router

open List Option Praxis.Lib Praxis.PreRead Praxis.Pipeline

section

variable {Map : Type} (http : Http Map)

/-! ## The view -/

/-- `HeaderMap::get_all`, with a name as text. -/
def valuesOf (headers : Map) (name : String) : List HeaderValue := (headerNameFromBytes name).elim [] (http.getAll headers)

/-- `has_value` of a header map. -/
def headerMapHasValue (headers : Map) (name expected : String) : Bool :=
  (valuesOf http headers name).any fun val => http.toStr val == some expected

structure PendingRouteHeaders (Map : Type) where
  pending : List (String × PendingHeaderResult)
  request : Map

/-- The loop of `PendingRouteHeaders::resolve`. -/
def resolvePending (ctx : PreReadContext Map) : List String → Except String (List (String × PendingHeaderResult))
  | [] => .ok []
  | name :: rest =>
    match pendingHeaderValue http ctx name with
    | .error e => .error s!"router: {e}"
    | .ok state =>
      match resolvePending ctx rest with
      | .error e => .error e
      | .ok pending => .ok (if state = .absent then pending else (name, state) :: pending)

def PendingRouteHeaders.resolve (names : List String) (ctx : PreReadContext Map) : Except String (PendingRouteHeaders Map) :=
  (resolvePending http ctx names).map fun pending => ⟨pending, ctx.headers⟩

/-- `has_value` of the view. -/
def PendingRouteHeaders.hasValue (view : PendingRouteHeaders Map) (name expected : String) : Bool :=
  match (view.pending.find? fun entry => Pipeline.eqIgnoreAsciiCase entry.1 name).map Prod.snd with
  | some (.value val) => val == expected
  | some .removed => false
  | some .absent => headerMapHasValue http view.request name expected
  | none => headerMapHasValue http view.request name expected

/-- The headers that will be sent. -/
def sentHeaders (ctx : PreReadContext Map) : Map :=
  Headers.applyPendingHeaderMutations http ctx.headers ctx.requestHeadersToRemove ctx.requestHeadersToSet ctx.extraRequestHeaders

end

/-! ## Header names -/

theorem isTokenChar_toLower (c : Char) : isTokenChar c.toLower = isTokenChar c := by
  by_cases hupper : c.isUpper
  · have halpha : c.isAlpha = true := Bool.or_eq_true_iff.2 (.inl hupper)
    simp [isTokenChar, Char.isAlphanum, halpha]
  · rw [Char.toLower_eq_of_not_isUpper hupper]

theorem headerNameFromBytes_toLower (text : String) : headerNameFromBytes text.toLower = headerNameFromBytes text := by
  have hempty : text.toLower.isEmpty = text.isEmpty := by
    rw [Bool.eq_iff_iff, String.isEmpty_iff, String.isEmpty_iff, ← String.toList_eq_nil_iff, ← String.toList_eq_nil_iff,
      Headers.toLower_eq, String.toList_ofList, List.map_eq_nil_iff]
  have hall : text.toLower.toList.all isTokenChar = text.toList.all isTokenChar := by
    rw [Headers.toLower_eq, String.toList_ofList, List.all_map]
    congr 1
    funext c
    exact isTokenChar_toLower c
  have hlength : text.toLower.toList.length = text.toList.length := by
    rw [Headers.toLower_eq, String.toList_ofList, List.length_map]
  have htwice : text.toLower.toLower = text.toLower := by
    rw [Headers.toLower_eq, Headers.toLower_eq, String.toList_ofList, List.map_map]
    congr 2
    funext c
    exact Char.toLower_toLower_eq_toLower c
  rw [headerNameFromBytes, headerNameFromBytes, hempty, hlength, hall, htwice]

variable {text name : String}

theorem headerNameFromBytes_congr (h : text.toLower = name.toLower) :
    headerNameFromBytes text = headerNameFromBytes name := by
  rw [← headerNameFromBytes_toLower, h, headerNameFromBytes_toLower]

theorem eq_toLower_of_headerName (h : headerNameFromBytes text = some name) : name = text.toLower := by
  unfold headerNameFromBytes at h
  split at h
  · cases h
  · exact (some.inj h).symm

theorem headerNameFromBytes_self (h : headerNameFromBytes text = some name) : headerNameFromBytes name = some name := by
  rw [eq_toLower_of_headerName h, headerNameFromBytes_toLower, h, eq_toLower_of_headerName h]

theorem eqIgnoreAsciiCase_iff (hname : headerNameFromBytes name = some name) :
    Pipeline.eqIgnoreAsciiCase text name = true ↔ headerNameFromBytes text = some name := by
  rw [Pipeline.eqIgnoreAsciiCase, beq_iff_eq, ← eq_toLower_of_headerName hname]
  constructor
  · intro h
    rw [← headerNameFromBytes_toLower, h, hname]
  · intro h
    exact (eq_toLower_of_headerName h).symm

theorem mem_dedupAdjacent {name : String} : ∀ {names : List String}, name ∈ dedupAdjacent names ↔ name ∈ names
  | [] => Iff.rfl
  | [_] => Iff.rfl
  | first :: next :: rest => by
    rw [dedupAdjacent]
    split
    case isTrue heq =>
      subst heq
      rw [mem_dedupAdjacent]
      simp
    case isFalse => rw [mem_cons, mem_dedupAdjacent, mem_cons (b := first)]

theorem mem_routeHeaderNames {routes : List ResolvedRoute} :
    name ∈ routeHeaderNames routes ↔ ∃ resolved ∈ routes, ∃ headers, resolved.route.headers = some headers ∧
      ∃ key ∈ headers.keys, headerNameFromBytes key = some name := by
  rw [routeHeaderNames, mem_dedupAdjacent, mem_mergeSort, mem_filterMap]
  constructor
  · rintro ⟨key, hkey, hname⟩
    obtain ⟨resolved, hresolved, hkey⟩ := mem_flatMap.1 hkey
    rcases hheaders : resolved.route.headers with _ | headers
    · rw [hheaders] at hkey
      cases hkey
    · rw [hheaders] at hkey
      exact ⟨resolved, hresolved, headers, hheaders, key, hkey, hname⟩
  · rintro ⟨resolved, hresolved, headers, hheaders, key, hkey, hname⟩
    exact ⟨key, mem_flatMap.2 ⟨resolved, hresolved, by rw [hheaders]; exact hkey⟩, hname⟩

variable {routes : List Route} {multiLevel : Bool}

theorem mem_headerNames :
    name ∈ (RouterFilter.build routes multiLevel).headerNames ↔
      ∃ route ∈ routes, ∃ headers ∈ route.headers, ∃ key ∈ headers.keys, headerNameFromBytes key = some name := by
  rw [RouterFilter.build, mem_routeHeaderNames]
  constructor
  · rintro ⟨resolved, hresolved, headers, hheaders, hkey⟩
    obtain ⟨route, hroute, rfl⟩ := mem_map.1 hresolved
    exact ⟨route, mem_mergeSort.1 hroute, headers, hheaders, hkey⟩
  · rintro ⟨route, hroute, headers, hheaders, hkey⟩
    exact ⟨.ofRoute route, mem_map_of_mem (mem_mergeSort.2 hroute), headers, hheaders, hkey⟩

/-! ## What will be sent -/

section

variable {Map : Type} {http : Http Map}

theorem getAll_removeAll (laws : http.Laws) {names : List String} (headers : Map) (name : String) :
    http.getAll (names.foldl http.remove headers) name = if name ∈ names then [] else http.getAll headers name := by
  induction names generalizing headers with
  | nil => simp
  | cons first rest ih =>
    rw [foldl_cons, ih, laws.getAll_remove]
    by_cases hfirst : first = name
    · simp [hfirst]
    · simp [hfirst, Ne.symm hfirst]

theorem findLastSetBytes_eq (es : List (String × HeaderValue)) (name : String) :
    findLastSetBytes es name = ((es.filter fun entry => entry.1 == name).map (·.2)).getLast? := by
  rw [findLastSetBytes, ← head?_filter, filter_reverse, head?_reverse, getLast?_map]

theorem getAll_insertAll (laws : http.Laws) {es : List (String × HeaderValue)} (headers : Map) (name : String) :
    http.getAll (es.foldl (fun headers entry => http.insert headers entry.1 entry.2) headers) name =
      (findLastSetBytes es name).elim (http.getAll headers name) fun val => [val] := by
  induction es using reverseRecOn with
  | nil => rfl
  | append_singleton es entry ih =>
    rw [foldl_append, foldl_cons, foldl_nil, laws.getAll_insert, ih, findLastSetBytes, findLastSetBytes,
      reverse_append]
    by_cases hentry : entry.1 = name
    · simp [hentry]
    · simp [hentry]

/-- The extra headers that can be written. -/
def validExtras (http : Http Map) (extra : List (String × String)) : List (String × HeaderValue) :=
  extra.filterMap fun entry => (headerNameFromBytes entry.1).bind fun name => (http.fromStr entry.2).map (name, ·)

theorem foldl_extras (headers : Map) {extra : List (String × String)} :
    extra.foldl (Headers.applyExtra http) headers =
    (validExtras http extra).foldl (fun headers entry => http.insert headers entry.1 entry.2) headers := by
  induction extra generalizing headers with
  | nil => rfl
  | cons entry rest ih =>
    rw [foldl_cons, ih]
    unfold validExtras Headers.applyExtra
    rw [filterMap_cons]
    rcases headerNameFromBytes entry.1 with _ | name
    · rfl
    · rcases http.fromStr entry.2 with _ | val
      · rfl
      · rfl

/-- Extra headers with valid names and values. -/
def ExtrasValid (http : Http Map) (extra : List (String × String)) : Prop :=
  ∀ entry ∈ extra, (headerNameFromBytes entry.1).isSome ∧ (http.fromStr entry.2).isSome

/-- Of valid extra headers, those of a name are written with the bytes of their values. -/
theorem validExtras_of_name (laws : http.Laws) {name : String} (hname : headerNameFromBytes name = some name) :
    ∀ {extra : List (String × String)}, ExtrasValid http extra →
      ((validExtras http extra).filter fun entry => entry.1 == name).map (·.2) = (collectExtras extra name).map utf8
  | [], _ => rfl
  | entry :: rest, hvalid => by
    have ih := validExtras_of_name laws hname fun e he => hvalid e (.tail entry he)
    obtain ⟨hkey, hval⟩ := hvalid entry (.head _)
    obtain ⟨key, hkey⟩ := isSome_iff_exists.1 hkey
    obtain ⟨val, hval⟩ := isSome_iff_exists.1 hval
    have hcons : validExtras http (entry :: rest) = (key, val) :: validExtras http rest := by
      rw [validExtras, filterMap_cons, hkey, hval]
      rfl
    have hextras : collectExtras (entry :: rest) name =
        if key = name then entry.2 :: collectExtras rest name else collectExtras rest name := by
      rw [collectExtras, filter_cons]
      simp only [eqIgnoreAsciiCase_iff hname, hkey, some.injEq]
      split
      · rfl
      · rfl
    rw [hcons, hextras, filter_cons]
    by_cases heq : key = name
    · simp only [heq, beq_self_eq_true, if_true, map_cons, ih, laws.bytes_of_fromStr entry.2 val hval]
    · simp only [heq, beq_iff_eq, if_false, ih]

variable {ctx : PreReadContext Map} {name key : String}

/-- The values that will be sent under a name: the last extra one, or the last set one, or what the
removals leave. -/
theorem getAll_sentHeaders (laws : http.Laws) (hvalid : ExtrasValid http ctx.extraRequestHeaders)
    (hname : headerNameFromBytes name = some name) :
    http.getAll (sentHeaders http ctx) name =
      ((findLastSetBytes ctx.requestHeadersToSet name).toList ++ (collectExtras ctx.extraRequestHeaders name).map utf8).getLast?.elim
        (if name ∈ ctx.requestHeadersToRemove then [] else http.getAll ctx.headers name) fun val => [val] := by
  rw [sentHeaders, Headers.applyPendingHeaderMutations, foldl_extras, getAll_insertAll laws, getAll_insertAll laws, getAll_removeAll laws,
    findLastSetBytes_eq (validExtras http ctx.extraRequestHeaders), validExtras_of_name laws hname hvalid, getLast?_append]
  rcases ((collectExtras ctx.extraRequestHeaders name).map utf8).getLast? with _ | val
  · rcases findLastSetBytes ctx.requestHeadersToSet name with _ | val
    · rfl
    · rfl
  · rfl

/-! ## What the router sees -/

/-- The values that the queues hold for a name, as bytes. -/
def pendingBytes (ctx : PreReadContext Map) (name : String) : List HeaderValue :=
  (findLastSetBytes ctx.requestHeadersToSet name).toList ++ (collectExtras ctx.extraRequestHeaders name).map utf8

/-- The queues leave one text for a name, if any value: what is set last is text, and the extra
values agree with it and with each other. -/
def Settled (http : Http Map) (ctx : PreReadContext Map) (name : String) : Prop :=
  (∀ val ∈ findLastSetBytes ctx.requestHeadersToSet name, (http.toStr val).isSome) ∧ Unique (pendingBytes ctx name)

theorem findLastSet_cases (laws : http.Laws) (es : List (String × HeaderValue)) (name : String) :
    (∃ text, findLastSet http es name = .ok text ∧ findLastSetBytes es name = text.map utf8 ∧
      ∀ s ∈ text, http.toStr (utf8 s) = some s) ∨
    ((∃ e, findLastSet http es name = .error e) ∧ ∃ val ∈ findLastSetBytes es name, http.toStr val = none) := by
  rw [findLastSet, findLastSetBytes]
  generalize es.reverse.find? (fun entry => entry.1 == name) = found
  rcases found with _ | ⟨key, val⟩
  · exact .inl ⟨none, rfl, rfl, nofun⟩
  · rcases htext : http.toStr val with _ | text
    · exact .inr ⟨⟨_, by simp only [htext]; rfl⟩, val, rfl, htext⟩
    · obtain rfl := laws.bytes_of_toStr val text htext
      exact .inl ⟨some text, by simp only [htext], rfl, fun s hs => some.inj hs ▸ htext⟩

/-- What `pending_header_value` answers: it fails unless the header is settled; then it gives the
value of the queues, if they hold one. -/
theorem pendingHeaderValue_cases (laws : http.Laws) (ctx : PreReadContext Map) (name : String) :
    (¬ Settled http ctx name ∧ ∃ e, pendingHeaderValue http ctx name = .error e) ∨
    (Settled http ctx name ∧
      ((∃ text, pendingHeaderValue http ctx name = .ok (.value text) ∧ (pendingBytes ctx name).getLast? = some (utf8 text) ∧
          (http.toStr (utf8 text) = some text ∨ collectExtras ctx.extraRequestHeaders name ≠ [])) ∨
        (pendingHeaderValue http ctx name = .ok (if name ∈ ctx.requestHeadersToRemove then .removed else .absent) ∧
          pendingBytes ctx name = []))) := by
  rcases findLastSet_cases laws ctx.requestHeadersToSet name with ⟨text, hset, hbytes, htext⟩ | ⟨⟨e, herror⟩, val, hmem, hnone⟩
  · have hpending : pendingBytes ctx name = (text.toList ++ collectExtras ctx.extraRequestHeaders name).map utf8 := by
      rw [pendingBytes, hbytes, map_append]
      cases text <;> rfl
    have hsettled : Settled http ctx name ↔ Unique (text.toList ++ collectExtras ctx.extraRequestHeaders name) := by
      rw [Settled, hpending, unique_map_utf8, hbytes, and_iff_right_iff_imp]
      intro _ val hval
      obtain ⟨s, hs, rfl⟩ := map_eq_some_iff.1 hval
      rw [htext s hs]
      rfl
    have hremove : (ctx.requestHeadersToRemove.any fun n => n == name) = decide (name ∈ ctx.requestHeadersToRemove) := by
      rw [any_beq', contains_eq_mem]
    unfold pendingHeaderValue
    simp only [hset, hremove, decide_eq_true_eq]
    rw [hsettled, hpending]
    generalize hall : text.toList ++ collectExtras ctx.extraRequestHeaders name = all
    rcases all with _ | ⟨first, rest⟩
    · exact .inr ⟨nofun, .inr ⟨rfl, rfl⟩⟩
    · simp only [isEmpty_cons, Bool.false_eq_true, if_false]
      rcases hunique : requireUniqueValue (first :: rest) name "pending" with e | out
      · refine .inl ⟨fun h => ?_, e, rfl⟩
        rw [requireUniqueValue_eq_ok_iff.2 ⟨h, rfl⟩] at hunique
        cases hunique
      · obtain ⟨hall', rfl⟩ := requireUniqueValue_eq_ok_iff.1 hunique
        refine .inr ⟨hall', .inl ⟨first, rfl, ?_, ?_⟩⟩
        · obtain ⟨last, hlast⟩ := isSome_iff_exists.1 (getLast?_isSome.2 (cons_ne_nil first rest))
          have heq : last = first := some.inj ((hall' last (mem_of_getLast? hlast)).symm.trans head?_cons)
          rw [getLast?_map, hlast, heq]
          rfl
        · rcases text with _ | s
          · exact .inr fun hnil => by simp [hnil] at hall
          · obtain rfl : s = first := (cons.inj hall).1
            exact .inl (htext s rfl)
  · refine .inl ⟨fun hsettled => ?_, e, ?_⟩
    · have hsome := hsettled.1 val hmem
      rw [hnone] at hsome
      cases hsome
    · unfold pendingHeaderValue
      rw [herror]

/-- What the view holds for a name: what the queues say of it, where they say anything. -/
def viewed (http : Http Map) (ctx : PreReadContext Map) (name : String) : Option (String × PendingHeaderResult) :=
  match pendingHeaderValue http ctx name with
  | .ok state => if state = .absent then none else some (name, state)
  | .error _ => none

theorem viewed_eq_some {entry : String × PendingHeaderResult} :
    viewed http ctx name = some entry ↔ pendingHeaderValue http ctx name = .ok entry.2 ∧ entry.2 ≠ .absent ∧ name = entry.1 := by
  obtain ⟨key, state⟩ := entry
  unfold viewed
  rcases pendingHeaderValue http ctx name with e | found
  · simp
  · by_cases habsent : found = .absent
    · simp only [habsent, if_true, reduceCtorEq, false_iff]
      rintro ⟨hfound, hpresent, -⟩
      exact hpresent (Except.ok.inj hfound).symm
    · simp only [habsent, if_false, some.injEq, Prod.mk.injEq, Except.ok.injEq]
      constructor
      · rintro ⟨rfl, rfl⟩
        exact ⟨rfl, habsent, rfl⟩
      · rintro ⟨rfl, -, rfl⟩
        exact ⟨rfl, rfl⟩

variable {names : List String} {pending : List (String × PendingHeaderResult)}

theorem resolvePending_eq_ok : resolvePending http ctx names = .ok pending ↔
    (∀ name ∈ names, ∃ state, pendingHeaderValue http ctx name = .ok state) ∧ pending = names.filterMap (viewed http ctx) := by
  induction names generalizing pending with
  | nil => simp [resolvePending, eq_comm]
  | cons first rest ih =>
    rw [resolvePending, forall_mem_cons, filterMap_cons, viewed]
    rcases pendingHeaderValue http ctx first with e | state
    · simp
    · rcases hrest : resolvePending http ctx rest with e | others
      · have hnot : ¬ ∀ name ∈ rest, ∃ state, pendingHeaderValue http ctx name = .ok state := by
          intro hall
          cases hrest.symm.trans (ih.2 ⟨hall, rfl⟩)
        simp [hnot]
      · obtain ⟨hall, rfl⟩ := ih.1 hrest
        rw [and_iff_right ⟨⟨state, rfl⟩, hall⟩]
        by_cases habsent : state = .absent
        · simp [habsent, eq_comm]
        · simp [habsent, eq_comm]

theorem settled_iff (laws : http.Laws) : Settled http ctx name ↔ ∃ state, pendingHeaderValue http ctx name = .ok state := by
  rcases pendingHeaderValue_cases laws ctx name with ⟨hnot, e, herror⟩ | ⟨hsettled, ⟨text, hval, _⟩ | ⟨hval, _⟩⟩
  · exact ⟨fun h => absurd h hnot, fun ⟨state, hstate⟩ => by rw [herror] at hstate; cases hstate⟩
  · exact ⟨fun _ => ⟨_, hval⟩, fun _ => hsettled⟩
  · exact ⟨fun _ => ⟨_, hval⟩, fun _ => hsettled⟩

/-- What the view holds for a header, whatever case a route writes its name in. -/
theorem find_viewed (hnames : ∀ name ∈ names, headerNameFromBytes name = some name)
    (hkey : headerNameFromBytes key = some name) (hname : name ∈ names) {state : PendingHeaderResult}
    (hstate : pendingHeaderValue http ctx name = .ok state) :
    ((names.filterMap (viewed http ctx)).find? fun entry => Pipeline.eqIgnoreAsciiCase entry.1 key).map Prod.snd =
      if state = .absent then none else some state := by
  have hmem : ∀ entry ∈ names.filterMap (viewed http ctx), Pipeline.eqIgnoreAsciiCase entry.1 key = true →
      entry.1 = name ∧ entry.2 = state ∧ state ≠ .absent := by
    intro entry hentry hcase
    obtain ⟨name', hname', hviewed⟩ := mem_filterMap.1 hentry
    obtain ⟨hstate', hpresent, rfl⟩ := viewed_eq_some.1 hviewed
    have hsame := (headerNameFromBytes_congr (eq_of_beq hcase)).trans hkey
    obtain rfl : entry.1 = name := some.inj ((hnames _ hname').symm.trans hsame)
    cases hstate'.symm.trans hstate
    exact ⟨rfl, rfl, hpresent⟩
  by_cases habsent : state = .absent
  · rw [if_pos habsent, map_eq_none_iff, find?_eq_none]
    exact fun entry hentry hcase => (hmem entry hentry hcase).2.2 habsent
  · rw [if_neg habsent]
    have hentry : (name, state) ∈ names.filterMap (viewed http ctx) :=
      mem_filterMap.2 ⟨name, hname, viewed_eq_some.2 ⟨hstate, habsent, rfl⟩⟩
    have hcase : Pipeline.eqIgnoreAsciiCase name key = true := by
      rw [Pipeline.eqIgnoreAsciiCase, beq_iff_eq, ← eq_toLower_of_headerName (headerNameFromBytes_self hkey),
        ← eq_toLower_of_headerName hkey]
    obtain ⟨entry, hfind⟩ := isSome_iff_exists.1
      ((find?_isSome (p := fun entry => Pipeline.eqIgnoreAsciiCase entry.1 key)).2 ⟨_, hentry, hcase⟩)
    have hfound := find?_some hfind
    rw [hfind, map_some, (hmem entry (mem_of_find?_eq_some hfind) hfound).2.1]

theorem headerMapHasValue_iff (laws : http.Laws) (hvisible : http.TextLaws) (hreads : http.ReadsVisible) {headers : Map}
    {expected : String} : headerMapHasValue http headers name expected = true ↔
      utf8 expected ∈ valuesOf http headers name ∧ Visible expected.toList := by
  rw [headerMapHasValue, List.any_eq_true]
  constructor
  · rintro ⟨val, hmem, htext⟩
    have htext := eq_of_beq htext
    exact ⟨laws.bytes_of_toStr val expected htext ▸ hmem, hvisible.visible_of_toStr val expected htext⟩
  · rintro ⟨hmem, htext⟩
    exact ⟨utf8 expected, hmem, beq_iff_eq.2 (hreads expected htext)⟩

theorem hasValue_of_invalid {view : PendingRouteHeaders Map}
    (hnames : ∀ entry ∈ view.pending, headerNameFromBytes entry.1 = some entry.1) (hkey : headerNameFromBytes key = none)
    (expected : String) : view.hasValue http key expected = false := by
  have hfind : (view.pending.find? fun entry => Pipeline.eqIgnoreAsciiCase entry.1 key) = none := by
    rw [find?_eq_none]
    intro entry hentry hcase
    have hsame := headerNameFromBytes_congr (eq_of_beq hcase)
    rw [hnames entry hentry, hkey] at hsame
    cases hsame
  rw [PendingRouteHeaders.hasValue, hfind, headerMapHasValue, valuesOf, hkey]
  rfl

theorem hasValue_iff (laws : http.Laws) (hvisible : http.TextLaws) (hreads : http.ReadsVisible)
    (hvalid : ExtrasValid http ctx.extraRequestHeaders) (hnames : ∀ name ∈ names, headerNameFromBytes name = some name)
    (h : resolvePending http ctx names = .ok pending) (hkey : headerNameFromBytes key = some name) (hname : name ∈ names)
    (expected : String) :
    PendingRouteHeaders.hasValue http ⟨pending, ctx.headers⟩ key expected = true ↔
      utf8 expected ∈ valuesOf http (sentHeaders http ctx) key ∧
        (Visible expected.toList ∨ collectExtras ctx.extraRequestHeaders key ≠ []) := by
  have hself := headerNameFromBytes_self hkey
  have hextras : collectExtras ctx.extraRequestHeaders key = collectExtras ctx.extraRequestHeaders name := by
    simp only [collectExtras, Pipeline.eqIgnoreAsciiCase, ← eq_toLower_of_headerName hself, ← eq_toLower_of_headerName hkey]
  have hsent : valuesOf http (sentHeaders http ctx) key = (pendingBytes ctx name).getLast?.elim
      (if name ∈ ctx.requestHeadersToRemove then [] else http.getAll ctx.headers name) fun val => [val] := by
    rw [valuesOf, hkey]
    exact getAll_sentHeaders laws hvalid hself
  have hreceived : valuesOf http ctx.headers key = http.getAll ctx.headers name := by rw [valuesOf, hkey]; rfl
  obtain ⟨hok, rfl⟩ := resolvePending_eq_ok.1 h
  obtain ⟨state, hstate⟩ := hok name hname
  rw [PendingRouteHeaders.hasValue, hsent, hextras, find_viewed hnames hkey hname hstate]
  rcases pendingHeaderValue_cases laws ctx name with ⟨_, e, herror⟩ | ⟨_, ⟨text, hval, hlast, htext⟩ | ⟨hval, hnone⟩⟩
  · cases herror.symm.trans hstate
  · -- the queues hold one value
    cases hval.symm.trans hstate
    simp only [reduceCtorEq, if_false, hlast, elim_some, mem_singleton, beq_iff_eq]
    constructor
    · rintro rfl
      exact ⟨rfl, htext.imp_left (hvisible.visible_of_toStr _ _)⟩
    · rintro ⟨heq, _⟩
      exact (utf8_inj heq).symm
  · -- the queues hold none: removed, or as received
    have hextrasNil : collectExtras ctx.extraRequestHeaders name = [] :=
      map_eq_nil_iff.1 (append_eq_nil_iff.1 hnone).2
    cases hval.symm.trans hstate
    simp only [hnone, hextrasNil, getLast?_nil, elim_none, ne_eq, not_true_eq_false, or_false]
    by_cases hremoved : name ∈ ctx.requestHeadersToRemove
    · simp [hremoved]
    · simp only [hremoved, if_false, if_true]
      rw [← hreceived, ← headerMapHasValue_iff laws hvisible hreads]

end

/-- Of the headers that the routes name, each must be settled for the router to go on; then it sees
of each constraint what will be sent. Only text that has been received unchanged is compared where it
is visible. -/
theorem view_sees_sent {Map : Type} (http : Http Map) (laws : http.Laws) (hvisible : http.TextLaws) (hreads : http.ReadsVisible)
    (routes : List Route) (multiLevel : Bool) (ctx : PreReadContext Map) (hvalid : ExtrasValid http ctx.extraRequestHeaders) :
    ((∃ view, PendingRouteHeaders.resolve http (RouterFilter.build routes multiLevel).headerNames ctx = .ok view) ↔
      ∀ route ∈ routes, ∀ headers ∈ route.headers, ∀ key ∈ headers.keys, ∀ name ∈ headerNameFromBytes key,
        Settled http ctx name) ∧
    ∀ view, PendingRouteHeaders.resolve http (RouterFilter.build routes multiLevel).headerNames ctx = .ok view →
      ∀ route ∈ routes, ∀ headers ∈ route.headers, ∀ key ∈ headers.keys, ∀ expected : String,
        (view.hasValue http key expected = true ↔ utf8 expected ∈ valuesOf http (sentHeaders http ctx) key ∧
          (Visible expected.toList ∨ collectExtras ctx.extraRequestHeaders key ≠ [])) := by
  have hself : ∀ name ∈ (RouterFilter.build routes multiLevel).headerNames, headerNameFromBytes name = some name := by
    intro name hname
    obtain ⟨_, _, _, _, key, _, hkey⟩ := mem_headerNames.1 hname
    exact headerNameFromBytes_self hkey
  constructor
  · constructor
    · rintro ⟨view, hview⟩ route hroute headers hheaders key hkey name hname
      obtain ⟨pending, hpending, _⟩ := map_eq_ok hview
      exact (settled_iff laws).2 ((resolvePending_eq_ok.1 hpending).1 name
        (mem_headerNames.2 ⟨route, hroute, headers, hheaders, key, hkey, hname⟩))
    · intro hsettled
      have hok : ∀ name ∈ (RouterFilter.build routes multiLevel).headerNames,
          ∃ state, pendingHeaderValue http ctx name = .ok state := by
        intro name hname
        obtain ⟨route, hroute, headers, hheaders, key, hkey, hname⟩ := mem_headerNames.1 hname
        exact (settled_iff laws).1 (hsettled route hroute headers hheaders key hkey name hname)
      exact ⟨⟨_, ctx.headers⟩, by rw [PendingRouteHeaders.resolve, resolvePending_eq_ok.2 ⟨hok, rfl⟩]; rfl⟩
  · intro view hview route hroute headers hheaders key hkey expected
    obtain ⟨pending, hpending, rfl⟩ := map_eq_ok hview
    rcases hname : headerNameFromBytes key with _ | name
    · have hnone : PendingRouteHeaders.hasValue http ⟨pending, ctx.headers⟩ key expected = false := hasValue_of_invalid
        (fun entry hentry => by
          rw [(resolvePending_eq_ok.1 hpending).2] at hentry
          obtain ⟨name, hmem, hviewed⟩ := mem_filterMap.1 hentry
          obtain ⟨-, -, rfl⟩ := viewed_eq_some.1 hviewed
          exact hself _ hmem) hname expected
      simp [hnone, valuesOf, hname]
    · exact hasValue_iff laws hvisible hreads hvalid hself hpending hname
        (mem_headerNames.2 ⟨route, hroute, headers, hheaders, key, hkey, hname⟩) expected

theorem not_resolve_of_unsettled {Map : Type} {http : Http Map} (laws : http.Laws) {ctx : PreReadContext Map}
    (hname : name ∈ (RouterFilter.build routes multiLevel).headerNames) (h : ¬ PreRead.Unique (pendingBytes ctx name))
    (view : PendingRouteHeaders Map) :
    PendingRouteHeaders.resolve http (RouterFilter.build routes multiLevel).headerNames ctx ≠ .ok view := by
  intro hview
  obtain ⟨pending, hresolved, _⟩ := map_eq_ok hview
  exact h ((settled_iff laws).2 ((resolvePending_eq_ok.1 hresolved).1 name hname)).2

/-- The header that a tenant's route asks for. -/
def tenantHeaders (tenant : String) : AList fun _ : String => String := .singleton "X-Tenant" tenant

def tenantRoute (tenant : String) : Route := ⟨.pathPrefix "/", "tenants", some (tenantHeaders tenant), none⟩

/-- A request with the tenant `a`, which is removed, and extra headers on it. -/
def tenantContext (extra : List (String × String)) : PreReadContext (List (String × HeaderValue)) where
  headers := [("x-tenant", utf8 "a")]
  requestHeadersToRemove := ["x-tenant"]
  requestHeadersToSet := []
  extraRequestHeaders := extra
  priorPreReadMutations := []
  preReadMutations := []

theorem tenant_names : ∀ text ∈ ["x-tenant", "X-Tenant"], headerNameFromBytes text = some "x-tenant" := by
  rintro text (_ | ⟨_, _ | ⟨_, ⟨⟩⟩⟩) <;>
    exact Headers.headerNameFromBytes_of_alphanum (by decide) (by decide) (by decide)

theorem tenant_extrasValid {extra : List (String × String)} (hextra : ∀ entry ∈ extra, entry.1 ∈ ["x-tenant", "X-Tenant"])
    (hvalues : ∀ entry ∈ extra, (assocHttp.fromStr entry.2).isSome) : ExtrasValid assocHttp extra := by
  intro entry hentry
  rw [tenant_names entry.1 (hextra entry hentry)]
  exact ⟨rfl, hvalues entry hentry⟩

theorem tenant_pending (extra : List (String × String)) (hextra : ∀ entry ∈ extra, entry.1 ∈ ["x-tenant", "X-Tenant"]) :
    pendingBytes (tenantContext extra) "x-tenant" = extra.map fun entry => utf8 entry.2 := by
  have hall : (extra.filter fun entry => Pipeline.eqIgnoreAsciiCase entry.1 "x-tenant") = extra :=
    List.filter_eq_self.2 fun entry hentry =>
      (eqIgnoreAsciiCase_iff (tenant_names "x-tenant" (by decide))).2 (tenant_names entry.1 (hextra entry hentry))
  have hset : findLastSetBytes (tenantContext extra).requestHeadersToSet "x-tenant" = none := rfl
  rw [pendingBytes, hset, collectExtras, tenantContext, hall, List.map_map]
  rfl

theorem mem_tenant_headerNames {tenant : String} :
    name ∈ (RouterFilter.build [tenantRoute tenant] false).headerNames ↔ name = "x-tenant" := by
  rw [mem_headerNames]
  constructor
  · rintro ⟨route, hroute, headers, hheaders, key, hkey, hname⟩
    rw [mem_singleton.1 hroute] at hheaders
    rw [← some.inj hheaders] at hkey
    rw [mem_singleton.1 hkey, tenant_names "X-Tenant" (by decide)] at hname
    exact (some.inj hname).symm
  · rintro rfl
    exact ⟨tenantRoute tenant, mem_singleton_self _, tenantHeaders tenant, rfl, "X-Tenant", mem_singleton_self _,
      tenant_names "X-Tenant" (by decide)⟩

/-- Two extra values that disagree: the second one would be sent, and the router does not go on. -/
theorem disagreeing_extras_refused :
    ExtrasValid assocHttp (tenantContext [("x-tenant", "a"), ("X-Tenant", "b")]).extraRequestHeaders ∧
    utf8 "b" ∈ valuesOf assocHttp (sentHeaders assocHttp (tenantContext [("x-tenant", "a"), ("X-Tenant", "b")])) "X-Tenant" ∧
    ¬∃ view, PendingRouteHeaders.resolve assocHttp (RouterFilter.build [tenantRoute "b"] false).headerNames
      (tenantContext [("x-tenant", "a"), ("X-Tenant", "b")]) = .ok view ∧ view.hasValue assocHttp "X-Tenant" "b" = true := by
  have hvalid : ExtrasValid assocHttp (tenantContext [("x-tenant", "a"), ("X-Tenant", "b")]).extraRequestHeaders :=
    tenant_extrasValid (by decide) (by decide)
  have hpending := tenant_pending [("x-tenant", "a"), ("X-Tenant", "b")] (by decide)
  refine ⟨hvalid, ?_, ?_⟩
  · have hsent := getAll_sentHeaders assocHttp_laws hvalid (tenant_names "x-tenant" (by decide))
    rw [← pendingBytes, hpending] at hsent
    rw [valuesOf, tenant_names "X-Tenant" (by decide), elim_some, hsent]
    exact mem_singleton_self _
  · rintro ⟨view, hview, _⟩
    refine not_resolve_of_unsettled assocHttp_laws (mem_tenant_headerNames.2 rfl) ?_ view hview
    rw [hpending, map_cons, unique_cons]
    exact fun h => absurd (h (utf8 "b") (mem_singleton_self _)) (by decide)

/-- A tenant whose name is not ASCII, received and sent unchanged: the router does not see it. -/
theorem nonascii_tenant_unseen :
    let ctx : PreReadContext (List (String × HeaderValue)) := ⟨[("x-tenant", utf8 "ä")], [], [], [], [], []⟩
    utf8 "ä" ∈ valuesOf assocHttp (sentHeaders assocHttp ctx) "X-Tenant" ∧
    ∃ view, PendingRouteHeaders.resolve assocHttp (RouterFilter.build [tenantRoute "ä"] false).headerNames ctx = .ok view ∧
      view.hasValue assocHttp "X-Tenant" "ä" = false := by
  intro ctx
  have hvalid : ExtrasValid assocHttp ctx.extraRequestHeaders := nofun
  have hname := tenant_names "X-Tenant" (by decide)
  have hself := tenant_names "x-tenant" (by decide)
  constructor
  · rw [valuesOf, hname, elim_some, getAll_sentHeaders assocHttp_laws hvalid hself]
    exact mem_singleton_self _
  · have hpending := resolvePending_eq_ok.2 ⟨fun name (_ : name ∈ (RouterFilter.build [tenantRoute "ä"] false).headerNames) =>
      (⟨.absent, rfl⟩ : ∃ state, pendingHeaderValue assocHttp ctx name = .ok state), rfl⟩
    refine ⟨⟨_, ctx.headers⟩, by rw [PendingRouteHeaders.resolve, hpending]; rfl, Bool.eq_false_iff.2 fun hseen => ?_⟩
    obtain ⟨-, hvisible | hextra⟩ := (hasValue_iff assocHttp_laws assocHttp_textLaws assocHttp_readsVisible hvalid
      (fun _ hmem => mem_tenant_headerNames.1 hmem ▸ hself) hpending hname (mem_tenant_headerNames.2 rfl) "ä").1 hseen
    · exact absurd hvisible (by decide)
    · exact hextra rfl

/-- One extra value, in place of the one that was received. -/
theorem replaced_tenant_seen :
    ∃ view, PendingRouteHeaders.resolve assocHttp (RouterFilter.build [tenantRoute "b"] false).headerNames
      (tenantContext [("X-Tenant", "b")]) = .ok view ∧
        (view.hasValue assocHttp "X-Tenant" "b" = true ↔
          utf8 "b" ∈ valuesOf assocHttp (sentHeaders assocHttp (tenantContext [("X-Tenant", "b")])) "X-Tenant" ∧
            (Visible "b".toList ∨ collectExtras (tenantContext [("X-Tenant", "b")]).extraRequestHeaders "X-Tenant" ≠ [])) := by
  obtain ⟨hresolves, hsees⟩ := view_sees_sent assocHttp assocHttp_laws assocHttp_textLaws assocHttp_readsVisible [tenantRoute "b"] false
    (tenantContext [("X-Tenant", "b")]) (tenant_extrasValid (by decide) (by decide))
  have hpending := tenant_pending [("X-Tenant", "b")] (by decide)
  obtain ⟨view, hview⟩ := hresolves.2 fun route hroute headers hheaders key hkey name hname => by
    obtain rfl := mem_tenant_headerNames.1 (mem_headerNames.2 ⟨route, hroute, headers, hheaders, key, hkey, hname⟩)
    refine ⟨nofun, ?_⟩
    rw [hpending, map_cons, unique_cons]
    exact nofun
  exact ⟨view, hview,
    hsees view hview (tenantRoute "b") (mem_singleton_self _) (tenantHeaders "b") rfl "X-Tenant" (mem_singleton_self _) "b"⟩

end Praxis.Router
