/-
What a request keeps for the next hop: its pending mutations are applied in the order remove, set,
add, and then the fields of the hop and those that `Connection` names are stripped.
-/
import Praxis.Headers.Reserved

namespace Praxis.Headers

open List Praxis.Lib
open Praxis.Pipeline (headerNameFromBytes)

inductive UpgradePreserve where
  | none
  | ifUpgradeRequest (isUpgradeRequest : Bool)
  | if101 (is101 : Bool)
deriving Repr, DecidableEq

structure StripHopByHopOptions where
  staticHeaders : List String
  upgrade : UpgradePreserve
  restoreChunkedFraming : Bool
  suppressChunkedRestoreOnWebsocket : Bool
deriving Repr, DecidableEq

/-- `str::trim` of a text that `to_str` gave. -/
def trimText (text : String) : String :=
  String.ofList ((text.toList.dropWhile Char.isWhitespace).reverse.dropWhile Char.isWhitespace).reverse

section

variable {Map : Type} (http : Http Map)

/-! ## Stripping -/

variable (hs : Map)

/-- `remove_by_name`: a text that is no header name removes nothing. -/
def removeByName (name : String) : Map :=
  match headerNameFromBytes name with
  | some name => http.remove hs name
  | none => hs

def hasWebsocketUpgrade : Bool :=
  match http.getAll hs "upgrade" with
  | [val] => (http.toStr val).any fun text => Pipeline.eqIgnoreAsciiCase (trimText text) "websocket"
  | _ => false

def websocketPreserveActive : UpgradePreserve → Bool
  | .none => false
  | .ifUpgradeRequest isUpgradeRequest => isUpgradeRequest && hasWebsocketUpgrade http hs
  | .if101 is101 => is101 && hasWebsocketUpgrade http hs

def preserveForUpgrade (name : String) (isWebsocketUpgrade : Bool) : Bool :=
  isWebsocketUpgrade && (name == "upgrade" || name == "connection")

/-- `declares_chunked_framing`: the last token of the last value. -/
def declaresChunkedFraming : Bool :=
  ((http.getAll hs "transfer-encoding").getLast?.bind fun val => (val.splitOnP (· == 44)).getLast?).any
    fun token => eqIgnoreAsciiCase (trimAscii token) (utf8 "chunked")

/-- One name of the static list. -/
def stripStatic (isWebsocket : Bool) (hs : Map) (name : String) : Map :=
  if preserveForUpgrade name isWebsocket then hs else removeByName http hs name

/-- One `Connection` token. -/
def stripToken (staticList : List String) (hs : Map) (token : String) : Map :=
  if staticList.any fun name => Pipeline.eqIgnoreAsciiCase token name then hs
  else if isConnectionTokenProtected token then hs
  else removeByName http hs token

/-- `strip_connection_tokens_target`. -/
def stripConnectionTokens (values : List HeaderValue) (staticList : List String) : Map :=
  (values.flatMap connectionTokens).foldl (stripToken http staticList) hs

/-- `strip_hop_by_hop_target`. -/
def stripHopByHop (options : StripHopByHopOptions) : Map :=
  let isWebsocket := websocketPreserveActive http hs options.upgrade
  let connectionValues := http.getAll hs "connection"
  let wasChunked := options.restoreChunkedFraming && declaresChunkedFraming http hs
  let hs := options.staticHeaders.foldl (stripStatic http isWebsocket) hs
  let hs := stripConnectionTokens http hs connectionValues options.staticHeaders
  if options.restoreChunkedFraming && !(options.suppressChunkedRestoreOnWebsocket && isWebsocket) &&
      (wasChunked && !http.containsKey hs "content-length") then
    http.insert hs "transfer-encoding" (utf8 "chunked")
  else hs

/-! ## Pending mutations -/

/-- One added header; a name or a value that is none is skipped. -/
def applyExtra (entry : String × String) : Map :=
  match headerNameFromBytes entry.1, http.fromStr entry.2 with
  | some name, some val => http.insert hs name val
  | _, _ => hs

def applyPendingHeaderMutations (toRemove : List String) (toSet : List (String × HeaderValue))
    (extra : List (String × String)) : Map :=
  let hs := toRemove.foldl http.remove hs
  let hs := toSet.foldl (fun hs entry => http.insert hs entry.1 entry.2) hs
  extra.foldl (applyExtra http) hs

/-! ## What the steps leave alone -/

variable {http}

theorem getAll_removeByName (laws : http.Laws) (hs : Map) (name other : String) :
    http.getAll (removeByName http hs name) other =
      if headerNameFromBytes name = some other then [] else http.getAll hs other := by
  unfold removeByName
  cases headerNameFromBytes name with
  | none => simp
  | some name => simp [laws.getAll_remove]

variable {α : Type} {step : Map → α → Map} {name : String} {items : List α}

theorem getAll_foldl (h : ∀ item ∈ items, ∀ hs, http.getAll (step hs item) name = http.getAll hs name)
    (hs : Map) : http.getAll (items.foldl step hs) name = http.getAll hs name := by
  induction items generalizing hs with
  | nil => rfl
  | cons item items ih =>
    rw [foldl_cons, ih fun i hi => h i (.tail item hi)]
    exact h item (.head _) hs

/-- Stripping for the next hop leaves the forwarding headers alone, whatever `Connection` names. -/
theorem getAll_stripHopByHop (laws : http.Laws) (hs : Map) {options : StripHopByHopOptions}
    (hstatic : options.staticHeaders = hopByHopHeaders) (hname : name ∈ forwardingHeaders) :
    http.getAll (stripHopByHop http hs options) name = http.getAll hs name := by
  have hlower : ∀ item ∈ hopByHopHeaders, item.toList.map Char.toLower ≠ name.toList := by
    simp only [forwardingHeaders, mem_cons, not_mem_nil, or_false] at hname
    rcases hname with rfl | rfl | rfl | rfl <;> decide
  have hstaticStep : ∀ isWebsocket, ∀ item ∈ options.staticHeaders, ∀ hs,
      http.getAll (stripStatic http isWebsocket hs item) name = http.getAll hs name := by
    intro isWebsocket item hitem hs
    unfold stripStatic
    split
    · rfl
    · rw [getAll_removeByName laws, if_neg fun h => hlower item (hstatic ▸ hitem) (headerNameFromBytes_eq_some h)]
  have htokenStep : ∀ tokens : List String, ∀ token ∈ tokens, ∀ hs,
      http.getAll (stripToken http options.staticHeaders hs token) name = http.getAll hs name := by
    intro tokens token _ hs
    unfold stripToken
    split
    · rfl
    · split
      · rfl
      case isFalse hprotected =>
        rw [getAll_removeByName laws, if_neg fun htoken => hprotected (protected_of_forwarding htoken hname)]
  have hencoding : "transfer-encoding" ≠ name := by
    rintro rfl
    exact absurd hname (by decide)
  have hstripped : ∀ isWebsocket values, http.getAll (stripConnectionTokens http
      (options.staticHeaders.foldl (stripStatic http isWebsocket) hs) values options.staticHeaders) name =
      http.getAll hs name := by
    intro isWebsocket values
    exact (getAll_foldl (htokenStep _) _).trans (getAll_foldl (hstaticStep isWebsocket) hs)
  unfold stripHopByHop
  dsimp only
  split
  · rw [laws.getAll_insert, if_neg hencoding]
    exact hstripped _ _
  · exact hstripped _ _

/-! ## What the mutations decide -/

/-- Two maps hold the same values of a name. -/
def Agree (http : Http Map) (name : String) (h₁ h₂ : Map) : Prop := http.getAll h₁ name = http.getAll h₂ name

theorem Agree.foldl {α : Type} {step : Map → α → Map} {name : String}
    (hstep : ∀ item h₁ h₂, Agree http name h₁ h₂ → Agree http name (step h₁ item) (step h₂ item)) (items : List α)
    {h₁ h₂ : Map} (h : Agree http name h₁ h₂) : Agree http name (items.foldl step h₁) (items.foldl step h₂) := by
  induction items generalizing h₁ h₂ with
  | nil => exact h
  | cons item items ih => exact ih (hstep item h₁ h₂ h)

/-- A step that writes the name makes any two maps agree, and later steps keep that. -/
theorem Agree.foldl_of_mem (hstep : ∀ item h₁ h₂, Agree http name h₁ h₂ → Agree http name (step h₁ item) (step h₂ item))
    {item : α} (hitem : item ∈ items) (hwrites : ∀ h₁ h₂, Agree http name (step h₁ item) (step h₂ item)) (h₁ h₂ : Map) :
    Agree http name (items.foldl step h₁) (items.foldl step h₂) := by
  obtain ⟨before, after, rfl⟩ := append_of_mem hitem
  rw [foldl_append, foldl_append, foldl_cons, foldl_cons]
  exact Agree.foldl hstep after (hwrites _ _)

theorem agree_remove (laws : http.Laws) (item : String) (h₁ h₂ : Map) (h : Agree http name h₁ h₂) :
    Agree http name (http.remove h₁ item) (http.remove h₂ item) := by
  rw [Agree, laws.getAll_remove, laws.getAll_remove]
  split
  · rfl
  · exact h

theorem agree_insert (laws : http.Laws) {item : String} {val : HeaderValue} {h₁ h₂ : Map} (h : Agree http name h₁ h₂) :
    Agree http name (http.insert h₁ item val) (http.insert h₂ item val) := by
  rw [Agree, laws.getAll_insert, laws.getAll_insert]
  split
  · rfl
  · exact h

theorem agree_applyExtra (laws : http.Laws) (entry : String × String) (h₁ h₂ : Map) (h : Agree http name h₁ h₂) :
    Agree http name (applyExtra http h₁ entry) (applyExtra http h₂ entry) := by
  unfold applyExtra
  split
  · exact agree_insert laws h
  · exact h

theorem agree_applyPendingHeaderMutations (laws : http.Laws) {toRemove : List String} {toSet : List (String × HeaderValue)}
    {extra : List (String × String)} (hcover : name ∈ toRemove ∨
      ∃ entry ∈ extra, headerNameFromBytes entry.1 = some name ∧ (http.fromStr entry.2).isSome) (h₁ h₂ : Map) :
    Agree http name (applyPendingHeaderMutations http h₁ toRemove toSet extra)
      (applyPendingHeaderMutations http h₂ toRemove toSet extra) := by
  unfold applyPendingHeaderMutations
  rcases hcover with hremove | ⟨entry, hentry, hname, hvalue⟩
  · have hremoved : Agree http name (toRemove.foldl http.remove h₁) (toRemove.foldl http.remove h₂) := by
      refine Agree.foldl_of_mem (agree_remove laws) hremove (fun m₁ m₂ => ?_) h₁ h₂
      rw [Agree, laws.getAll_remove, laws.getAll_remove, if_pos rfl, if_pos rfl]
    refine Agree.foldl (agree_applyExtra laws) extra ?_
    refine Agree.foldl ?_ toSet hremoved
    exact fun _ _ _ h => agree_insert laws h
  · refine Agree.foldl_of_mem (agree_applyExtra laws) hentry (fun m₁ m₂ => ?_) _ _
    obtain ⟨val, hvalue⟩ := Option.isSome_iff_exists.1 hvalue
    rw [Agree, applyExtra, applyExtra, hname, hvalue]
    dsimp only
    rw [laws.getAll_insert, laws.getAll_insert, if_pos rfl, if_pos rfl]

end

end Praxis.Headers
