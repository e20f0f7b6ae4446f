/-
Headers in the pre-read phase. Filters that read the body early record what they do to the
request's headers in a log; until the log is merged, conditions read the request through an
overlay. `http::HeaderMap` is a parameter: for every name it keeps a list of values.
-/
import Praxis.Lib.Http
import Praxis.Pipeline.Condition

namespace Praxis.PreRead

open List Praxis.Lib

/-! ## The log -/

inductive TrustedHeaderMutation where
  | remove (name : String)
  | set (name : String) (value : HeaderValue)
  | add (name : String) (value : String)
deriving Repr, DecidableEq

/-- The header that a mutation is about. -/
def TrustedHeaderMutation.name : TrustedHeaderMutation → String
  | .remove name => name
  | .set name _ => name
  | .add name _ => name

def TrustedHeaderMutation.matchesHeader (mutation : TrustedHeaderMutation) (name : String) : Bool := mutation.name == name

inductive PendingHeaderResult where
  | absent
  | removed
  | value (text : String)
deriving Repr, DecidableEq

inductive TrustedHeaderState where
  | absent
  | removed
  | value (text : String)
deriving Repr, DecidableEq

inductive ConditionError where
  | ambiguousHeader (header : String)
deriving Repr, DecidableEq

/-- What the overlay reads of the filter context: the original headers, the queues of the current
pass, and the logs of the earlier passes and of this one. -/
structure PreReadContext (Map : Type) where
  headers : Map
  requestHeadersToRemove : List String
  requestHeadersToSet : List (String × HeaderValue)
  extraRequestHeaders : List (String × String)
  priorPreReadMutations : List TrustedHeaderMutation
  preReadMutations : List TrustedHeaderMutation

section

variable {Map : Type} (http : Http Map)
  (ctx : PreReadContext Map) (log : List TrustedHeaderMutation) (name : String) (values : List HeaderValue)

def PreReadContext.trustedMutations : List TrustedHeaderMutation := ctx.priorPreReadMutations ++ ctx.preReadMutations

/-! ## Reading through the overlay -/

def requireUniqueValue (values : List String) (name source : String) : Except String (Option String) :=
  match values with
  | [] => .ok none
  | first :: rest =>
    match rest.find? fun v => v != first with
    | some v => .error s!"{source} header '{name}' has ambiguous values: '{first}' vs '{v}'"
    | none => .ok (some first)

/-- `collect_trusted_values`: the values left by the log, and whether it mentions the header. -/
def collectTrustedValues (name : String) : List TrustedHeaderMutation → List String × Bool → Except String (List String × Bool)
  | [], acc => .ok acc
  | .remove n :: rest, (values, touched) =>
    if n = name then collectTrustedValues name rest ([], true) else collectTrustedValues name rest (values, touched)
  | .set n v :: rest, (values, touched) =>
    if n = name then
      match http.toStr v with
      | some s => collectTrustedValues name rest ([s], true)
      | none => .error s!"trusted header '{name}' contains non-text bytes"
    else collectTrustedValues name rest (values, touched)
  | .add n v :: rest, (values, touched) =>
    if n = name then collectTrustedValues name rest (values ++ [v], true) else collectTrustedValues name rest (values, touched)

def resolveTrustedHeader : Except String (Option String) :=
  match collectTrustedValues http name ctx.trustedMutations ([], false) with
  | .error e => .error e
  | .ok (values, _) => requireUniqueValue values name "trusted"

def resolveTrustedHeaderState : Except String TrustedHeaderState :=
  match collectTrustedValues http name ctx.trustedMutations ([], false) with
  | .error e => .error e
  | .ok (values, touched) =>
    match requireUniqueValue values name "trusted" with
    | .error e => .error e
    | .ok (some v) => .ok (.value v)
    | .ok none => .ok (if touched then .removed else .absent)

def findLastSet (headersToSet : List (String × HeaderValue)) (name : String) : Except String (Option String) :=
  match headersToSet.reverse.find? fun entry => entry.1 == name with
  | none => .ok none
  | some (_, v) =>
    match http.toStr v with
    | some s => .ok (some s)
    | none => .error s!"pending header '{name}' contains non-text bytes"

def collectExtras (extras : List (String × String)) (name : String) : List String :=
  (extras.filter fun entry => Pipeline.eqIgnoreAsciiCase entry.1 name).map (·.2)

def pendingHeaderValue : Except String PendingHeaderResult :=
  let removed := ctx.requestHeadersToRemove.any fun n => n == name
  let left := if removed then PendingHeaderResult.removed else .absent
  match findLastSet http ctx.requestHeadersToSet name with
  | .error e => .error e
  | .ok setValue =>
    let all := setValue.toList ++ collectExtras ctx.extraRequestHeaders name
    if all.isEmpty then .ok left
    else
      match requireUniqueValue all name "pending" with
      | .error e => .error e
      | .ok (some v) => .ok (.value v)
      | .ok none => .ok left

def overlayState : Except ConditionError TrustedHeaderState :=
  match pendingHeaderValue http ctx name with
  | .error _ => .error (.ambiguousHeader name)
  | .ok .removed => .ok .removed
  | .ok (.value v) => .ok (.value v)
  | .ok .absent => (resolveTrustedHeaderState http ctx name).mapError fun _ => .ambiguousHeader name

/-- `Request::header`, the first value if it is text. -/
def requestHeader (hs : Map) (name : String) : Option String := (http.get hs name).bind http.toStr

/-- `EffectiveHeaders::header`. -/
def effectiveHeader : Except ConditionError (Option String) :=
  match overlayState http ctx name with
  | .error e => .error e
  | .ok .removed => .ok none
  | .ok (.value v) => .ok (some v)
  | .ok .absent => .ok (requestHeader http ctx.headers name)

def requireUniqueBytes (name : String) : Except ConditionError Bool :=
  match values with
  | [] => .ok false
  | first :: rest => if rest.any fun v => v != first then .error (.ambiguousHeader name) else .ok true

def findLastSetBytes (headersToSet : List (String × HeaderValue)) (name : String) : Option HeaderValue :=
  (headersToSet.reverse.find? fun entry => entry.1 == name).map (·.2)

def pendingPresence : Except ConditionError (Option Bool) :=
  let values := (findLastSetBytes ctx.requestHeadersToSet name).toList ++
    (collectExtras ctx.extraRequestHeaders name).map utf8
  if !values.isEmpty then (requireUniqueBytes values name).map some
  else .ok (if ctx.requestHeadersToRemove.any (fun n => n == name) then some false else none)

/-- One mutation of the header, in `trusted_presence`. -/
def writeValue : TrustedHeaderMutation → List HeaderValue
  | .remove _ => []
  | .set _ v => [v]
  | .add _ v => values ++ [utf8 v]

def trustedPresence (mutations : List TrustedHeaderMutation) (name : String) : Except ConditionError (Option Bool) :=
  let mentions := mutations.filter fun m => m.matchesHeader name
  if mentions.isEmpty then .ok none else (requireUniqueBytes (mentions.foldl writeValue []) name).map some

/-- `EffectiveHeaders::contains`. -/
def effectiveContains : Except ConditionError Bool :=
  match pendingPresence ctx name with
  | .error e => .error e
  | .ok (some present) => .ok present
  | .ok none =>
    match trustedPresence ctx.trustedMutations name with
    | .error e => .error e
    | .ok (some present) => .ok present
    | .ok none => .ok (http.containsKey ctx.headers name)

/-! ## Merging -/

/-- One step of `apply_pre_read_mutations_to_request`; a value that is no header value is skipped. -/
def applyMutation (hs : Map) : TrustedHeaderMutation → Map
  | .remove name => http.remove hs name
  | .set name value => http.insert hs name value
  | .add name value =>
    match http.fromStr value with
    | some hval => http.append hs name hval
    | none => hs

def applyPreReadMutationsToRequest (hs : Map) (mutations : List TrustedHeaderMutation) : Map :=
  mutations.foldl (applyMutation http) hs

/-! ## What a log leaves of one header -/

def TrustedHeaderMutation.clears : TrustedHeaderMutation → Bool
  | .remove _ => true
  | .set _ _ => true
  | .add _ _ => false

/-- The log has a mutation of the header. -/
def mentions : Bool := log.any fun m => m.matchesHeader name

/-- The log discards the values that the client sent. -/
def masks : Bool := log.any fun m => m.matchesHeader name && m.clears

/-- The values of the header after the log, from `values`. -/
def written : List HeaderValue := (log.filter fun m => m.matchesHeader name).foldl writeValue values

/-- All values are the first one. -/
def Unique {α : Type} (values : List α) : Prop := ∀ v ∈ values, values.head? = some v

theorem written_cons (m : TrustedHeaderMutation) {log : List TrustedHeaderMutation} (name : String) {values : List HeaderValue} :
    written (m :: log) name values = written log name (if m.matchesHeader name then writeValue values m else values) := by
  unfold written
  rw [filter_cons]
  split <;> rfl

theorem written_of_not_mentions {log : List TrustedHeaderMutation} {name : String} (h : mentions log name = false)
    {values : List HeaderValue} : written log name values = values := by
  have hnone : log.filter (fun m => m.matchesHeader name) = [] := by
    rw [filter_eq_nil_iff]
    intro m hm
    exact any_eq_false.1 h m hm
  rw [written, hnone, foldl_nil]

/-- The values from before the log are discarded, or the log's own stand behind them. -/
theorem written_eq :
    written log name values = if masks log name then written log name [] else values ++ written log name [] := by
  induction log generalizing values with
  | nil => simp [written, masks]
  | cons m log ih =>
    have hmasks : masks (m :: log) name = ((m.matchesHeader name && m.clears) || masks log name) := rfl
    rw [written_cons, written_cons, hmasks]
    by_cases hm : m.matchesHeader name = true
    · rw [if_pos hm, if_pos hm, hm, Bool.true_and]
      cases m with
      | remove | set => simp [TrustedHeaderMutation.clears, writeValue]
      | add n v =>
        rw [TrustedHeaderMutation.clears, Bool.false_or, ih (writeValue values _), ih (writeValue [] _)]
        split
        · rfl
        · simp [writeValue]
    · rw [if_neg hm, if_neg hm, Bool.eq_false_iff.2 hm, Bool.false_and, Bool.false_or]
      exact ih values

/-- A log that only adds to the header leaves a value of its own. -/
theorem written_ne_nil {log : List TrustedHeaderMutation} {name : String} (hmentions : mentions log name = true)
    (hmasks : masks log name = false) : written log name [] ≠ [] := by
  induction log with
  | nil => exact absurd hmentions (by simp [mentions])
  | cons m log ih =>
    obtain ⟨hm, hrest⟩ : (m.matchesHeader name && m.clears) = false ∧ masks log name = false := by
      simpa [masks] using hmasks
    rw [written_cons]
    by_cases hhit : m.matchesHeader name = true
    · rw [if_pos hhit, written_eq, if_neg (by simp [hrest])]
      cases m with
      | remove | set => simp [hhit, TrustedHeaderMutation.clears] at hm
      | add n v => simp [writeValue]
    · rw [if_neg hhit]
      refine ih ?_ hrest
      simpa [mentions, hhit] using hmentions

/-- The merge replays the log on the values that the client sent. -/
theorem getAll_merge (laws : http.Laws) {log : List TrustedHeaderMutation}
    (hvalid : ∀ n v, .add n v ∈ log → (http.fromStr v).isSome) (hs : Map) (name : String) :
    http.getAll (applyPreReadMutationsToRequest http hs log) name = written log name (http.getAll hs name) := by
  induction log generalizing hs with
  | nil => rfl
  | cons m log ih =>
    have hstep : http.getAll (applyMutation http hs m) name =
        if m.matchesHeader name then writeValue (http.getAll hs name) m else http.getAll hs name := by
      cases m with
      | remove n =>
        simp [applyMutation, laws.getAll_remove, TrustedHeaderMutation.matchesHeader, TrustedHeaderMutation.name, writeValue]
      | set n v =>
        simp [applyMutation, laws.getAll_insert, TrustedHeaderMutation.matchesHeader, TrustedHeaderMutation.name, writeValue]
      | add n v =>
        obtain ⟨value, hvalue⟩ := Option.isSome_iff_exists.1 (hvalid n v (.head _))
        simp [applyMutation, hvalue, laws.getAll_append, laws.bytes_of_fromStr v value hvalue,
          TrustedHeaderMutation.matchesHeader, TrustedHeaderMutation.name, writeValue]
    have hrest := ih (fun n v hv => hvalid n v (.tail _ hv)) (applyMutation http hs m)
    rw [hstep] at hrest
    rw [written_cons]
    exact hrest

/-! ## What the overlay reports -/

/-- Every value that the log sets the header to is text, also one that is overwritten later. -/
def SetsText : Prop := ∀ value, .set name value ∈ log → (http.toStr value).isSome

theorem collectTrustedValues_eq (laws : http.Laws) {log : List TrustedHeaderMutation} {name : String}
    (htext : SetsText http log name) (values : List String) (touched : Bool) :
    ∃ out, collectTrustedValues http name log (values, touched) = .ok (out, touched || mentions log name) ∧
      out.map utf8 = written log name (values.map utf8) := by
  induction log generalizing values touched with
  | nil => exact ⟨values, by simp [collectTrustedValues, mentions], rfl⟩
  | cons m log ih =>
    have hrest : SetsText http log name := fun value hvalue => htext value (.tail _ hvalue)
    have hmentions : mentions (m :: log) name = (m.matchesHeader name || mentions log name) := rfl
    rw [written_cons, hmentions]
    by_cases hm : m.name = name
    · have hhit : m.matchesHeader name = true := by simp [TrustedHeaderMutation.matchesHeader, hm]
      rw [if_pos hhit, hhit, Bool.true_or, Bool.or_true]
      cases m with
      | remove n =>
        obtain rfl : n = name := hm
        simpa [collectTrustedValues, writeValue] using ih hrest [] true
      | set n v =>
        obtain rfl : n = name := hm
        obtain ⟨text, hv⟩ := Option.isSome_iff_exists.1 (htext v (.head _))
        obtain rfl := laws.bytes_of_toStr v text hv
        simpa [collectTrustedValues, hv, writeValue] using ih hrest [text] true
      | add n v =>
        obtain rfl : n = name := hm
        simpa [collectTrustedValues, writeValue] using ih hrest (values ++ [v]) true
    · have hmiss : m.matchesHeader name = false := by simp [TrustedHeaderMutation.matchesHeader, hm]
      rw [hmiss, Bool.false_or, if_neg (by simp)]
      have hskip : collectTrustedValues http name (m :: log) (values, touched) =
          collectTrustedValues http name log (values, touched) := by
        cases m <;> exact if_neg hm
      rw [hskip]
      exact ih hrest values touched

theorem setsText_of_collect {log : List TrustedHeaderMutation} {name : String} {acc out : List String × Bool}
    (h : collectTrustedValues http name log acc = .ok out) : SetsText http log name := by
  induction log generalizing acc with
  | nil => exact fun _ => nofun
  | cons m log ih =>
    intro value hvalue
    rcases hvalue with _ | ⟨_, hvalue⟩
    · by_contra hnone
      rw [Option.not_isSome_iff_eq_none] at hnone
      simp [collectTrustedValues, hnone] at h
    · suffices hrest : ∃ acc', collectTrustedValues http name log acc' = .ok out by
        obtain ⟨acc', hrest⟩ := hrest
        exact ih hrest value hvalue
      cases m with
      | remove n =>
        simp only [collectTrustedValues] at h
        split at h <;> exact ⟨_, h⟩
      | set n v =>
        simp only [collectTrustedValues] at h
        split at h
        · split at h
          · exact ⟨_, h⟩
          · cases h
        · exact ⟨_, h⟩
      | add n v =>
        simp only [collectTrustedValues] at h
        split at h <;> exact ⟨_, h⟩

theorem unique_cons {α : Type} {first : α} {rest : List α} : Unique (first :: rest) ↔ ∀ v ∈ rest, v = first := by
  constructor
  · intro h v hv
    exact (Option.some.inj (h v (.tail _ hv))).symm
  · rintro h v hv
    rcases hv with _ | ⟨_, hv⟩
    · rfl
    · rw [h v hv, head?_cons]

theorem unique_map_utf8 {values : List String} : Unique (values.map utf8) ↔ Unique values := by
  cases values with
  | nil => exact ⟨fun _ _ => nofun, fun _ _ => nofun⟩
  | cons first rest =>
    rw [map_cons, unique_cons, unique_cons, forall_mem_map]
    exact ⟨fun h v hv => utf8_inj (h v hv), fun h v hv => congrArg utf8 (h v hv)⟩

theorem requireUniqueValue_eq_ok_iff {values : List String} {name source : String} {out : Option String} :
    requireUniqueValue values name source = .ok out ↔ Unique values ∧ out = values.head? := by
  cases values with
  | nil => simp [requireUniqueValue, Unique, eq_comm]
  | cons first rest =>
    rw [requireUniqueValue, unique_cons]
    split
    case h_1 v hv =>
      have hne : v ≠ first := by simpa using find?_some hv
      simp only [reduceCtorEq, false_iff]
      exact fun h => hne (h.1 v (mem_of_find?_eq_some hv))
    case h_2 hnone =>
      have hall : ∀ v ∈ rest, v = first := by simpa using hnone
      rw [Except.ok.injEq, head?_cons, and_iff_right hall, eq_comm]

theorem requireUniqueBytes_eq_ok_iff {values : List HeaderValue} {name : String} {present : Bool} :
    requireUniqueBytes values name = .ok present ↔ Unique values ∧ present = !values.isEmpty := by
  cases values with
  | nil => simp [requireUniqueBytes, Unique, eq_comm]
  | cons first rest =>
    rw [requireUniqueBytes, unique_cons]
    split
    case isTrue h =>
      obtain ⟨v, hv, hne⟩ := any_eq_true.1 h
      simp only [reduceCtorEq, false_iff]
      exact fun h => (by simpa using hne : v ≠ first) (h.1 v hv)
    case isFalse h =>
      have hall : ∀ v ∈ rest, v = first := by simpa using h
      rw [Except.ok.injEq, isEmpty_cons, Bool.not_false, and_iff_right hall, eq_comm]

/-- What the log says of a header it mentions: its one value, its removal, or an error when a set
value is no text or two values are left. -/
theorem resolve_of_mentions (laws : http.Laws) {ctx : PreReadContext Map} {name : String}
    (hmentions : mentions ctx.trustedMutations name = true) :
    (∃ out, resolveTrustedHeaderState http ctx name = .ok (out.elim .removed .value) ∧
      SetsText http ctx.trustedMutations name ∧ Unique (written ctx.trustedMutations name []) ∧
      Option.map utf8 out = (written ctx.trustedMutations name []).head?) ∨
    (∃ e, resolveTrustedHeaderState http ctx name = .error e) ∧
      ¬ (SetsText http ctx.trustedMutations name ∧ Unique (written ctx.trustedMutations name [])) := by
  rw [resolveTrustedHeaderState]
  by_cases htext : SetsText http ctx.trustedMutations name
  · obtain ⟨values, hcollect, hvalues⟩ := collectTrustedValues_eq http laws htext [] false
    rw [map_nil] at hvalues
    rw [hcollect, hmentions, ← hvalues, unique_map_utf8, head?_map]
    dsimp only
    cases hunique : requireUniqueValue values name "trusted" with
    | error e =>
      refine .inr ⟨⟨e, rfl⟩, fun h => ?_⟩
      rw [requireUniqueValue_eq_ok_iff.2 ⟨h.2, rfl⟩] at hunique
      cases hunique
    | ok out =>
      obtain ⟨hall, rfl⟩ := requireUniqueValue_eq_ok_iff.1 hunique
      refine .inl ⟨values.head?, ?_, htext, hall, rfl⟩
      cases values.head? <;> rfl
  · refine .inr ⟨?_, fun h => htext h.1⟩
    cases hcollect : collectTrustedValues http name ctx.trustedMutations ([], false) with
    | error e => exact ⟨e, rfl⟩
    | ok out => exact absurd (setsText_of_collect http hcollect) htext

/-- The context of a pass that has only written to the log. -/
def logContext (hs : Map) (prior cur : List TrustedHeaderMutation) : PreReadContext Map where
  headers := hs
  requestHeadersToRemove := []
  requestHeadersToSet := []
  extraRequestHeaders := []
  priorPreReadMutations := prior
  preReadMutations := cur

section

variable (hs : Map) {prior cur : List TrustedHeaderMutation} {name : String}

theorem overlayState_logContext : overlayState http (logContext hs prior cur) name =
    (resolveTrustedHeaderState http (logContext hs prior cur) name).mapError fun _ => .ambiguousHeader name := rfl

theorem effectiveHeader_eq_ok_iff (laws : http.Laws) (hmentions : mentions (prior ++ cur) name = true) {out : Option String} :
    effectiveHeader http (logContext hs prior cur) name = .ok out ↔
      SetsText http (prior ++ cur) name ∧ Unique (written (prior ++ cur) name []) ∧
        out.map utf8 = (written (prior ++ cur) name []).head? := by
  have hlog : mentions (logContext hs prior cur).trustedMutations name = true := hmentions
  rw [effectiveHeader, overlayState_logContext]
  rcases resolve_of_mentions http laws hlog with
    ⟨value, hresolve, htext, hunique, hvalue⟩ | ⟨⟨e, hresolve⟩, hbad⟩
  · have hread : value = out ↔ out.map utf8 = value.map utf8 :=
      ⟨fun h => h ▸ rfl, fun h => (Option.map_injective (fun _ _ => utf8_inj) h).symm⟩
    rw [hresolve]
    rw [hvalue] at hread
    refine Iff.trans ?_ (hread.trans ⟨fun h => ⟨htext, hunique, h⟩, fun h => h.2.2⟩)
    cases value <;> simp [Except.mapError]
  · rw [hresolve]
    exact ⟨nofun, fun h => absurd ⟨h.1, h.2.1⟩ hbad⟩

theorem effectiveContains_eq_ok_iff (hmentions : mentions (prior ++ cur) name = true) {present : Bool} :
    effectiveContains http (logContext hs prior cur) name = .ok present ↔
      Unique (written (prior ++ cur) name []) ∧ present = !(written (prior ++ cur) name []).isEmpty := by
  have hpending : pendingPresence (logContext hs prior cur) name = .ok none := rfl
  have hsome : ((prior ++ cur).filter fun m => m.matchesHeader name) ≠ [] := by
    rw [ne_eq, filter_eq_nil_iff]
    obtain ⟨m, hm, hhit⟩ := any_eq_true.1 hmentions
    exact fun h => h m hm hhit
  have htrusted : trustedPresence (logContext hs prior cur).trustedMutations name =
      (requireUniqueBytes (written (prior ++ cur) name []) name).map some := by
    rw [trustedPresence]
    exact if_neg fun hempty => hsome (isEmpty_iff.1 hempty)
  rw [← @requireUniqueBytes_eq_ok_iff _ name, effectiveContains, hpending, htrusted]
  cases requireUniqueBytes (written (prior ++ cur) name []) name <;> rfl

theorem effective_of_not_mentions (laws : http.Laws) (hmentions : mentions (prior ++ cur) name = false) :
    effectiveHeader http (logContext hs prior cur) name = .ok (requestHeader http hs name) ∧
      effectiveContains http (logContext hs prior cur) name = .ok (http.containsKey hs name) := by
  have hnone : ∀ m ∈ prior ++ cur, ¬ m.matchesHeader name = true := any_eq_false.1 hmentions
  have htext : SetsText http (prior ++ cur) name := by
    intro value hvalue
    exact absurd (beq_self_eq_true name) (hnone _ hvalue)
  constructor
  · obtain ⟨values, hcollect, hvalues⟩ := collectTrustedValues_eq http laws htext [] false
    rw [written_of_not_mentions hmentions, map_nil, map_eq_nil_iff] at hvalues
    rw [hmentions, hvalues] at hcollect
    rw [effectiveHeader, overlayState_logContext, resolveTrustedHeaderState]
    simp [logContext, PreReadContext.trustedMutations, hcollect, requireUniqueValue, Except.mapError]
  · have hempty : (prior ++ cur).filter (fun m => m.matchesHeader name) = [] := filter_eq_nil_iff.2 hnone
    have htrusted : trustedPresence (logContext hs prior cur).trustedMutations name = .ok none := by
      rw [trustedPresence]
      exact if_pos (isEmpty_iff.2 hempty)
    have hpending : pendingPresence (logContext hs prior cur) name = .ok none := rfl
    rw [effectiveContains, hpending, htrusted]
    rfl

end

/-! ## The overlay and the merged request -/

/-- When the overlay reads a header the log mentions as the merged request does: each value that
the log sets or leaves is text, what it leaves is one value, and the client's values are discarded,
or are absent, or start with that value. -/
structure Settled (hs : Map) (log : List TrustedHeaderMutation) (name : String) : Prop where
  sets : SetsText http log name
  text : ∀ value ∈ written log name [], (http.toStr value).isSome
  unique : Unique (written log name [])
  client : masks log name = true ∨ ∀ value ∈ http.get hs name, value ∈ written log name []

theorem map_toStr_eq_some_iff (laws : http.Laws) {value left : HeaderValue} :
    (http.toStr value).map utf8 = some left ↔ value = left ∧ (http.toStr left).isSome := by
  constructor
  · intro h
    obtain ⟨text, htext, rfl⟩ := Option.map_eq_some_iff.1 h
    obtain rfl := laws.bytes_of_toStr value text htext
    exact ⟨rfl, htext ▸ rfl⟩
  · rintro ⟨rfl, hsome⟩
    obtain ⟨text, htext⟩ := Option.isSome_iff_exists.1 hsome
    rw [htext, laws.bytes_of_toStr value text htext, Option.map_some]

section

variable {log : List TrustedHeaderMutation} (laws : http.Laws)
  (hvalid : ∀ n v, .add n v ∈ log → (http.fromStr v).isSome) (hs : Map)
include laws hvalid hs

theorem get_merge (name : String) :
    http.get (applyPreReadMutationsToRequest http hs log) name =
      if masks log name then (written log name []).head? else (http.get hs name).or (written log name []).head? := by
  rw [laws.get_eq, getAll_merge http laws hvalid, written_eq, laws.get_eq]
  split
  · rfl
  · exact head?_append

theorem containsKey_merge {name : String} (hmentions : mentions log name = true) :
    http.containsKey (applyPreReadMutationsToRequest http hs log) name = !(written log name []).isEmpty := by
  rw [laws.containsKey_eq, getAll_merge http laws hvalid, written_eq]
  split
  case isTrue => rfl
  case isFalse hmasks =>
    have hleft := written_ne_nil hmentions (Bool.eq_false_iff.2 hmasks)
    rw [isEmpty_eq_false_iff.2 hleft, isEmpty_eq_false_iff.2 (append_ne_nil_of_right_ne_nil _ hleft)]

end

/-- The merged request reads what the log leaves exactly when that is text and stands first. -/
theorem reads_written_iff (laws : http.Laws) {log : List TrustedHeaderMutation} {hs : Map} {name : String}
    (hmentions : mentions log name = true) (hunique : Unique (written log name [])) :
    ((if masks log name then (written log name []).head? else (http.get hs name).or (written log name []).head?).bind
        http.toStr).map utf8 = (written log name []).head? ↔
      (∀ value ∈ written log name [], (http.toStr value).isSome) ∧
        (masks log name = true ∨ ∀ value ∈ http.get hs name, value ∈ written log name []) := by
  have hnil : masks log name = false → written log name [] ≠ [] := written_ne_nil hmentions
  cases hleft : written log name [] with
  | nil =>
    have hmasks : masks log name = true := by
      cases hmasks : masks log name with
      | true => rfl
      | false => exact absurd hleft (hnil hmasks)
    simp [hmasks]
  | cons left rest =>
    rw [hleft, unique_cons] at hunique
    have htext : (∀ value ∈ left :: rest, (http.toStr value).isSome) ↔ (http.toStr left).isSome :=
      ⟨fun h => h left (.head _), fun h value hvalue => by
        rcases hvalue with _ | ⟨_, hvalue⟩
        · exact h
        · exact hunique value hvalue ▸ h⟩
    have hmem : ∀ value, value ∈ left :: rest ↔ value = left := fun value =>
      ⟨fun h => (mem_cons.1 h).elim id (hunique value), fun h => h ▸ (.head _)⟩
    rw [htext, head?_cons]
    cases masks log name with
    | true => simpa using (map_toStr_eq_some_iff http laws).trans (and_iff_right rfl)
    | false =>
      cases hget : http.get hs name with
      | none => simpa using (map_toStr_eq_some_iff http laws).trans (and_iff_right rfl)
      | some first =>
        simp only [Option.mem_def, Option.some.injEq, forall_eq', hmem]
        simpa [and_comm] using map_toStr_eq_some_iff http laws

/-- The overlay and the merged request agree on a header exactly when the log does not mention it
or settles it. -/
theorem effective_eq_merged_iff (laws : http.Laws) (hs : Map) (prior cur : List TrustedHeaderMutation) (name : String)
    (hvalid : ∀ n v, .add n v ∈ prior ++ cur → (http.fromStr v).isSome) :
    (effectiveHeader http (logContext hs prior cur) name =
        .ok (requestHeader http (applyPreReadMutationsToRequest http hs (prior ++ cur)) name) ∧
      effectiveContains http (logContext hs prior cur) name =
        .ok (http.containsKey (applyPreReadMutationsToRequest http hs (prior ++ cur)) name)) ↔
    (mentions (prior ++ cur) name = false ∨ Settled http hs (prior ++ cur) name) := by
  cases hmentions : mentions (prior ++ cur) name with
  | false =>
    have hsame := getAll_merge http laws hvalid hs name
    rw [written_of_not_mentions hmentions] at hsame
    have hread := effective_of_not_mentions http hs laws hmentions
    rw [requestHeader, laws.get_eq, laws.containsKey_eq, hsame, ← laws.get_eq, ← laws.containsKey_eq]
    exact iff_of_true hread (.inl rfl)
  | true =>
    rw [effectiveHeader_eq_ok_iff http hs laws hmentions, effectiveContains_eq_ok_iff http hs hmentions,
      requestHeader, get_merge http laws hvalid, containsKey_merge http laws hvalid hs hmentions]
    constructor
    · rintro ⟨⟨hsets, hunique, hread⟩, -⟩
      obtain ⟨htext, hclient⟩ := (reads_written_iff http laws hmentions hunique).1 hread
      exact .inr ⟨hsets, htext, hunique, hclient⟩
    · rintro (h | ⟨hsets, htext, hunique, hclient⟩)
      · cases h
      · exact ⟨⟨hsets, hunique, (reads_written_iff http laws hmentions hunique).2 ⟨htext, hclient⟩⟩, hunique, rfl⟩

end

/-- A removal settles the header that the client sent, whatever is added behind it. -/
theorem removed_then_added_agree :
    effectiveHeader assocHttp (logContext [("x", utf8 "a")] [.remove "x"] [.add "x" "b"]) "x" =
        .ok (requestHeader assocHttp (applyPreReadMutationsToRequest assocHttp [("x", utf8 "a")] [.remove "x", .add "x" "b"]) "x") ∧
      effectiveContains assocHttp (logContext [("x", utf8 "a")] [.remove "x"] [.add "x" "b"]) "x" =
        .ok (assocHttp.containsKey (applyPreReadMutationsToRequest assocHttp [("x", utf8 "a")] [.remove "x", .add "x" "b"]) "x") := by
  refine (effective_eq_merged_iff assocHttp assocHttp_laws [("x", utf8 "a")] [.remove "x"] [.add "x" "b"] "x" ?_).2
    (.inr ⟨?_, ?_, ?_, .inl rfl⟩)
  · intro n v hv
    obtain ⟨rfl, rfl⟩ : n = "x" ∧ v = "b" := by simpa using hv
    decide
  · intro value hvalue
    simp at hvalue
  · intro value hvalue
    obtain rfl : value = utf8 "b" := mem_singleton.1 hvalue
    decide
  · exact unique_cons.2 nofun

/-- An added value stands behind the one that the client sent: the overlay reads `b`, the request
phase reads `a`. -/
theorem added_behind_client :
    effectiveHeader assocHttp (logContext [("x", utf8 "a")] [] [.add "x" "b"]) "x" = .ok (some "b") ∧
      requestHeader assocHttp (applyPreReadMutationsToRequest assocHttp [("x", utf8 "a")] [.add "x" "b"]) "x" = some "a" := by
  decide

end Praxis.PreRead
