/-
Admission of inbound requests, before any filter runs: transfer codings, `Host`, the path,
duplicate and folded header lines, and the names that only the proxy may use. The checks run in
sequence and rewrite the header map on the way.
-/
import Praxis.Admission.ObsFold
import Praxis.Admission.Traversal
import Praxis.Headers.Reserved
import Praxis.Pipeline.Action

namespace Praxis.Admission

open List Praxis.Lib Praxis.Headers
open Praxis.Pipeline (Rejection)

inductive Version where
  | http09
  | http10
  | http11
  | h2
  | h3
deriving Repr, DecidableEq

/-! ## `Host` -/

def splitOnce (sep : Char) (text : List Char) : Option (List Char × List Char) :=
  match text.dropWhile (· != sep) with
  | [] => none
  | _ :: rest => some (text.takeWhile (· != sep), rest)

/-- `parse::<u16>` of a text of digits. -/
def parseU16 (digits : List Char) : Option Nat :=
  let val := digits.foldl (fun n c => n * 10 + (c.toNat - 48)) 0
  if val < 65536 then some val else none

def isValidPort (port : List Char) : Bool := port.isEmpty || (port.all (·.isDigit) && (parseU16 port).isSome)

section

/- `authority` is `http::uri::Authority::try_from`, as the text of the authority. -/
variable {Map : Type} (http : HttpMap Map) (authority : List UInt8 → Option String)

def isValidHostGrammar (val : HeaderValue) : Bool :=
  match authority val with
  | none => false
  | some authority =>
    let text := authority.toList
    if text.contains '@' then false
    else if text.head? == some '[' then
      match splitOnce ']' text with
      | none => false
      | some (_, []) => true
      | some (_, ':' :: port) => isValidPort port
      | some _ => false
    else if text.contains '[' || text.contains ']' then false
    else
      match splitOnce ':' text with
      | none => true
      | some (_, port) => isValidPort port

inductive HostCheck where
  | valid
  | canonicalize (val : HeaderValue)
  | reject (rejection : Rejection)

variable (version : Version) (hs : Map)

def checkHostValues : List HeaderValue → HostCheck
  | [] => if version = .http11 then .reject (.ofStatus 400) else .valid
  | first :: rest =>
    if first.all isAsciiWhitespace then .reject (.ofStatus 400)
    else if !isValidHostGrammar authority first then .reject (.ofStatus 400)
    else
      match rest with
      | [] => .valid
      | _ :: _ => if rest.any (· != first) then .reject (.ofStatus 400) else .canonicalize first

/-- `set_header`: one value in place of all. -/
def setHeader (name : String) (val : HeaderValue) : Map := http.insert (http.remove hs name) name val

def applyHostCheck : HostCheck → Option Rejection × Map
  | .valid => (none, hs)
  | .reject rejection => (some rejection, hs)
  | .canonicalize canonical => (none, setHeader http hs "host" canonical)

def validateHostHeader : Option Rejection × Map :=
  applyHostCheck http hs (checkHostValues authority version (http.getAll hs "host"))

/-! ## The other checks -/

def hasUnsupportedTransferCoding : Bool :=
  (http.getAll hs "transfer-encoding").any fun val =>
    (tokens val).any fun token => !eqIgnoreAsciiCase token (utf8 "chunked")

def rejectUnsupportedTransferCoding : Option Rejection :=
  if hasUnsupportedTransferCoding http hs then some (.ofStatus 501) else none

/-- `reject_dot_dot_path`, with what the detector says. -/
def rejectDotDotPath (traversal : Bool) : Option Rejection := if traversal then some (.ofStatus 400) else none

/-- A check that may rewrite the headers, and the next one if it does not reject. -/
def orElse (result : Option Rejection × Map) (next : Map → Option Rejection × Map) : Option Rejection × Map :=
  match result with
  | (some rejection, hs) => (some rejection, hs)
  | (none, hs) => next hs

def singleValueHeaders : List String := ["content-length", "content-type"]

def obsFoldRejectHeaders : List String := ["host", "content-length"]

/-- One pass of the loop of `reject_conflicting_single_value_headers`. -/
def collapseSingleValue (name : String) : Option Rejection × Map :=
  match http.getAll hs name with
  | [] => (none, hs)
  | first :: values =>
    if values.any (· != first) then (some (.ofStatus 400), hs)
    else if values.isEmpty then (none, hs)
    else (none, setHeader http hs name first)

/-- `reject_conflicting_single_value_headers`, over the names still to come. -/
def rejectConflictingSingleValueHeaders : List String → Map → Option Rejection × Map
  | [], hs => (none, hs)
  | name :: names, hs => orElse (collapseSingleValue http hs name) (rejectConflictingSingleValueHeaders names)

def rejectDualContentLengthTransferEncoding : Option Rejection :=
  if http.containsKey hs "content-length" && http.containsKey hs "transfer-encoding" then some (.ofStatus 400) else none

/-- `headers_snapshot`: the folded lines of the names that are not rejected for a fold. -/
def foldedLines : List (String × HeaderValue) :=
  (http.iter hs).filter fun line => !obsFoldRejectHeaders.contains line.1 && containsObsFold line.2

/-- One folded line; what is no header value when unfolded is left as it is. -/
def unfoldLine (line : String × HeaderValue) : Map :=
  match http.fromBytes (unfoldObsFold line.2) with
  | some val => setHeader http hs line.1 val
  | none => hs

def handleObsFold : Option Rejection × Map :=
  if version ∉ [.http09, .http10, .http11] then (none, hs)
  else if obsFoldRejectHeaders.any fun name => (http.get hs name).any containsObsFold then
    (some (.ofStatus 400), hs)
  else (none, (foldedLines http hs).foldl (unfoldLine http) hs)

def normalizeRequestHeaders : Option Rejection × Map :=
  orElse (rejectConflictingSingleValueHeaders http singleValueHeaders hs) fun hs =>
  orElse (rejectDualContentLengthTransferEncoding http hs, hs) fun hs =>
  handleObsFold http version hs

def rejectReservedClientHeaders : Option Rejection :=
  if ((http.keys hs).filter isReserved).length = 0 then none else some (.ofStatus 400)

/-- `admit_inbound`: the first rejection, if any, and the headers as they are then; none if the detector of
dot-dot segments stops the program. -/
def admitInbound (path : List UInt8) (hs : Map) : Option (Option Rejection × Map) :=
  match orElse (rejectUnsupportedTransferCoding http hs, hs) (validateHostHeader http authority version) with
  | (some rejection, hs) => some (some rejection, hs)
  | (none, hs) => (hasDotDotTraversal path).map fun traversal =>
    orElse (rejectDotDotPath traversal, hs) fun hs =>
    orElse (normalizeRequestHeaders http version hs) fun hs =>
    (rejectReservedClientHeaders http hs, hs)

/-! ## Collapsed lines -/

variable {http authority} {hs hs' : Map} {name : String} {version : Version}

theorem orElse_eq_none {result : Option Rejection × Map} {next : Map → Option Rejection × Map}
    (h : orElse result next = (none, hs)) : ∃ m, result = (none, m) ∧ next m = (none, hs) := by
  obtain ⟨rejection, m⟩ := result
  cases rejection with
  | none => exact ⟨m, rfl, h⟩
  | some rejection => cases h

theorem getAll_setHeader (laws : http.Laws) (hs : Map) (name : String) {val : HeaderValue} (other : String) :
    http.getAll (setHeader http hs name val) other = if name = other then [val] else http.getAll hs other := by
  rw [setHeader, laws.getAll_insert, laws.getAll_remove]
  split <;> rfl

/-- The same values of every name, some of them fewer times. -/
structure Collapsed (http : HttpMap Map) (hs hs' : Map) : Prop where
  mem_iff : ∀ name val, val ∈ http.getAll hs' name ↔ val ∈ http.getAll hs name
  length_le : ∀ name, (http.getAll hs' name).length ≤ (http.getAll hs name).length

theorem Collapsed.refl (hs : Map) : Collapsed http hs hs := ⟨fun _ _ => Iff.rfl, fun _ => Nat.le_refl _⟩

theorem Collapsed.trans {h₁ h₂ h₃ : Map} (h : Collapsed http h₁ h₂) (h' : Collapsed http h₂ h₃) : Collapsed http h₁ h₃ :=
  ⟨fun name val => (h'.mem_iff name val).trans (h.mem_iff name val),
    fun name => Nat.le_trans (h'.length_le name) (h.length_le name)⟩

/-- Lines that all carry one value may be replaced by one line. -/
theorem collapsed_setHeader (laws : http.Laws) {first : HeaderValue} {rest : List HeaderValue}
    (hall : http.getAll hs name = first :: rest) (hsame : rest.any (· != first) = false) :
    Collapsed http hs (setHeader http hs name first) := by
  have hrest : ∀ val ∈ rest, val = first := by simpa using hsame
  constructor
  · intro other val
    rw [getAll_setHeader laws]
    split
    case isTrue h =>
      subst h
      rw [hall, mem_singleton, mem_cons]
      exact ⟨.inl, fun hv => hv.elim id (hrest val)⟩
    case isFalse => rfl
  · intro other
    rw [getAll_setHeader laws]
    split
    case isTrue h =>
      subst h
      simp [hall]
    case isFalse => exact Nat.le_refl _

variable {hosts : List HeaderValue} {val : HeaderValue}

theorem checkHostValues_valid (h : checkHostValues authority version hosts = .valid) : hosts.length ≤ 1 := by
  match hosts with
  | [] => simp
  | [host] => simp
  | first :: second :: rest =>
    simp only [checkHostValues] at h
    split_ifs at h

theorem checkHostValues_canonicalize (h : checkHostValues authority version hosts = .canonicalize val) :
    ∃ rest, hosts = val :: rest ∧ rest.any (· != val) = false := by
  match hosts with
  | [] =>
    simp only [checkHostValues] at h
    split_ifs at h
  | [host] =>
    simp only [checkHostValues] at h
    split_ifs at h
  | first :: second :: rest =>
    simp only [checkHostValues] at h
    split_ifs at h with hspace hgrammar hsame
    cases h
    exact ⟨second :: rest, rfl, Bool.eq_false_iff.2 hsame⟩

section

variable (laws : http.Laws)
include laws

theorem validateHostHeader_spec (h : validateHostHeader http authority version hs = (none, hs')) :
    Collapsed http hs hs' ∧ (http.getAll hs' "host").length ≤ 1 ∧
      ∀ other ≠ "host", http.getAll hs' other = http.getAll hs other := by
  rw [validateHostHeader] at h
  cases hcheck : checkHostValues authority version (http.getAll hs "host") with
  | valid =>
    rw [hcheck] at h
    cases h
    exact ⟨.refl hs, checkHostValues_valid hcheck, fun _ _ => rfl⟩
  | reject rejection =>
    rw [hcheck] at h
    cases h
  | canonicalize val =>
    rw [hcheck] at h
    cases h
    obtain ⟨rest, hall, hsame⟩ := checkHostValues_canonicalize hcheck
    refine ⟨collapsed_setHeader laws hall hsame, ?_, fun other hother => ?_⟩
    · rw [getAll_setHeader laws, if_pos rfl]
      simp
    · rw [getAll_setHeader laws, if_neg hother.symm]

theorem collapseSingleValue_spec (h : collapseSingleValue http hs name = (none, hs')) :
    Collapsed http hs hs' ∧ (http.getAll hs' name).length ≤ 1 ∧
      ∀ other ≠ name, http.getAll hs' other = http.getAll hs other := by
  rw [collapseSingleValue] at h
  cases hall : http.getAll hs name with
  | nil =>
    rw [hall] at h
    cases h
    simp [hall, Collapsed.refl]
  | cons first values =>
    rw [hall] at h
    dsimp only at h
    split_ifs at h with hdiffer hempty
    · cases h
    · cases h
      simp [hall, isEmpty_iff.1 hempty, Collapsed.refl]
    · cases h
      refine ⟨collapsed_setHeader laws hall (Bool.eq_false_iff.2 hdiffer), ?_, fun other hother => ?_⟩
      · rw [getAll_setHeader laws, if_pos rfl]
        simp
      · rw [getAll_setHeader laws, if_neg hother.symm]

/-- The loop leaves at most one line of each of its names, and the lines of the others. -/
theorem rejectConflictingSingleValueHeaders_spec {names : List String}
    (h : rejectConflictingSingleValueHeaders http names hs = (none, hs')) :
    Collapsed http hs hs' ∧ (∀ name ∈ names, (http.getAll hs' name).length ≤ 1) ∧
      ∀ other ∉ names, http.getAll hs' other = http.getAll hs other := by
  induction names generalizing hs with
  | nil =>
    cases h
    exact ⟨.refl _, nofun, fun _ _ => rfl⟩
  | cons name names ih =>
    obtain ⟨m, hcollapse, hnext⟩ := orElse_eq_none h
    obtain ⟨hfirst, hname, hothers⟩ := collapseSingleValue_spec laws hcollapse
    obtain ⟨hrest, hnames, hothers'⟩ := ih hnext
    refine ⟨hfirst.trans hrest, fun other hother => ?_, fun other hother => ?_⟩
    · rcases mem_cons.1 hother with rfl | hother
      · exact Nat.le_trans (hrest.length_le other) hname
      · exact hnames other hother
    · rw [mem_cons, not_or] at hother
      rw [hothers' other hother.2, hothers other hother.1]

/-! ## Unfolded lines -/

theorem unfoldLine_eq (hs : Map) (line : String × HeaderValue) :
    unfoldLine http hs line =
      if wellFolded line.2 then setHeader http hs line.1 (unfoldObsFold line.2) else hs := by
  rw [unfoldLine, laws.fromBytes_eq, unfoldObsFold, unfoldLoop_permitted]
  by_cases hwell : wellFolded line.2 = true
  · rw [if_pos hwell, if_pos hwell]
  · rw [if_neg hwell, if_neg hwell]

/-- A name is left with the last of its lines that could be unfolded, or untouched. -/
theorem getAll_unfoldLines (lines : List (String × HeaderValue)) (hs : Map) (name : String) :
    (∃ val, (name, val) ∈ lines ∧ wellFolded val ∧
      http.getAll (lines.foldl (unfoldLine http) hs) name = [unfoldObsFold val]) ∨
    ((∀ val, (name, val) ∈ lines → wellFolded val = false) ∧
      http.getAll (lines.foldl (unfoldLine http) hs) name = http.getAll hs name) := by
  induction lines generalizing hs with
  | nil => exact .inr ⟨fun _ => nofun, rfl⟩
  | cons line lines ih =>
    obtain ⟨other, first⟩ := line
    rw [foldl_cons, unfoldLine_eq laws]
    rcases ih (if wellFolded first then setHeader http hs other (unfoldObsFold first) else hs) with
      ⟨val, hval, hwell, hlast⟩ | ⟨hnone, hkept⟩
    · exact .inl ⟨val, .tail _ hval, hwell, hlast⟩
    · -- no later line rewrites the name, so this one decides
      dsimp only
      rw [hkept]
      by_cases hname : other = name ∧ wellFolded first
      · obtain ⟨rfl, hwell⟩ := hname
        refine .inl ⟨first, .head _, hwell, ?_⟩
        rw [if_pos hwell, getAll_setHeader laws, if_pos rfl]
      · refine .inr ⟨fun val hval => ?_, ?_⟩
        · rcases mem_cons.1 hval with heq | hval
          · cases heq
            exact Bool.eq_false_iff.2 fun hwell => hname ⟨rfl, hwell⟩
          · exact hnone val hval
        · split
          case isTrue hwell => rw [getAll_setHeader laws, if_neg fun heq => hname ⟨heq, hwell⟩]
          case isFalse => rfl

theorem mem_foldedLines :
    (name, val) ∈ foldedLines http hs ↔
      val ∈ http.getAll hs name ∧ name ∉ obsFoldRejectHeaders ∧ containsObsFold val := by
  simp [foldedLines, laws.mem_iter]

/-- What `handle_obs_fold` leaves of the names that are not rejected for a fold: one line that was
unfolded, or what was there if no folded line could be. -/
theorem handleObsFold_spec (hversion : version ∈ [.http09, .http10, .http11])
    (h : handleObsFold http version hs = (none, hs')) :
    (∀ name ∈ obsFoldRejectHeaders, ∀ val, http.get hs name = some val → containsObsFold val = false) ∧
    ∀ name,
      (∃ val ∈ http.getAll hs name, name ∉ obsFoldRejectHeaders ∧ containsObsFold val ∧ wellFolded val ∧
        http.getAll hs' name = [unfoldObsFold val]) ∨
      ((∀ val ∈ http.getAll hs name, name ∉ obsFoldRejectHeaders → containsObsFold val → wellFolded val = false) ∧
        http.getAll hs' name = http.getAll hs name) := by
  rw [handleObsFold, if_neg (not_not.2 hversion)] at h
  split_ifs at h with hreject
  · cases h
  · cases h
    constructor
    · intro name hname val hval
      rw [Bool.eq_false_iff]
      intro hfold
      refine hreject (any_eq_true.2 ⟨name, hname, ?_⟩)
      rw [hval]
      exact hfold
    · intro name
      rcases getAll_unfoldLines laws (foldedLines http hs) hs name with ⟨val, hval, hwell, hlast⟩ | ⟨hnone, hkept⟩
      · obtain ⟨hmem, hname, hfold⟩ := (mem_foldedLines laws).1 hval
        exact .inl ⟨val, hmem, hname, hfold, hwell, hlast⟩
      · exact .inr ⟨fun val hmem hname hfold => hnone val ((mem_foldedLines laws).2 ⟨hmem, hname, hfold⟩), hkept⟩

end

/-! ## Admitted requests -/

/-- A request that two parties cannot read differently. -/
structure Unambiguous (http : HttpMap Map) (path : List UInt8) (hs : Map) : Prop where
  host : (http.getAll hs "host").length ≤ 1
  contentLength : (http.getAll hs "content-length").length ≤ 1
  contentType : (http.getAll hs "content-type").length ≤ 1
  framing : http.getAll hs "content-length" = [] ∨ http.getAll hs "transfer-encoding" = []
  codings : ∀ val ∈ http.getAll hs "transfer-encoding", ∀ token ∈ tokens val, eqIgnoreAsciiCase token (utf8 "chunked")
  unfolded : ∀ name, ∀ val ∈ http.getAll hs name, ¬ ∃ u d v, val = u ++ 13 :: 10 :: d :: v ∧ isBlank d
  unreserved : ∀ name, http.getAll hs name ≠ [] → isReserved name = false
  segments : ∀ seg ∈ path.splitOnP (· == 47), decodeDots seg ≠ [46, 46]

/-- What every admitted request went through: lines are collapsed, then unfolded. -/
structure Admitted (http : HttpMap Map) (path : List UInt8) (hs collapsed hs' : Map) : Prop where
  codings : hasUnsupportedTransferCoding http hs = false
  path : hasDotDotTraversal path = some false
  lines : Collapsed http hs collapsed
  single : ∀ name ∈ ["host", "content-length", "content-type"], (http.getAll collapsed name).length ≤ 1
  framing : http.getAll collapsed "content-length" = [] ∨ http.getAll collapsed "transfer-encoding" = []
  strict : ∀ name ∈ obsFoldRejectHeaders, ∀ val, http.get collapsed name = some val → containsObsFold val = false
  folds : ∀ name,
    (∃ val ∈ http.getAll collapsed name, name ∉ obsFoldRejectHeaders ∧ containsObsFold val ∧ wellFolded val ∧
      http.getAll hs' name = [unfoldObsFold val]) ∨
    ((∀ val ∈ http.getAll collapsed name, name ∉ obsFoldRejectHeaders → containsObsFold val → wellFolded val = false) ∧
      http.getAll hs' name = http.getAll collapsed name)
  unreserved : ∀ name, http.getAll hs' name ≠ [] → isReserved name = false

theorem admitInbound_spec (laws : http.Laws) (hversion : version ∈ [.http09, .http10, .http11]) {path : List UInt8}
    (h : admitInbound http authority version path hs = some (none, hs')) :
    ∃ collapsed, Admitted http path hs collapsed hs' ∧
      ∀ name ∉ ["host", "content-length", "content-type"], http.getAll collapsed name = http.getAll hs name := by
  unfold admitInbound at h
  split at h
  case h_1 => cases h
  case h_2 m₁ hfront =>
  obtain ⟨m, hcodings, hhost⟩ := orElse_eq_none hfront
  obtain ⟨hcodings, rfl⟩ := Prod.mk.inj hcodings
  obtain ⟨traversal, hpath, hrest⟩ := Option.map_eq_some_iff.1 h
  obtain ⟨m, htraversal, hnext⟩ := orElse_eq_none hrest
  obtain ⟨htraversal, rfl⟩ := Prod.mk.inj htraversal
  obtain rfl : traversal = false := by simpa [rejectDotDotPath] using htraversal
  obtain ⟨m₃, hnormal, hreserved⟩ := orElse_eq_none hnext
  obtain ⟨hreserved, rfl⟩ := Prod.mk.inj hreserved
  obtain ⟨m₂, hsingle, hnormal⟩ := orElse_eq_none hnormal
  obtain ⟨m, hdual, hfold⟩ := orElse_eq_none hnormal
  obtain ⟨hdual, rfl⟩ := Prod.mk.inj hdual
  obtain ⟨hhostLines, hhost, hhostOthers⟩ := validateHostHeader_spec laws hhost
  obtain ⟨hsingleLines, hsingle, hsingleOthers⟩ := rejectConflictingSingleValueHeaders_spec laws hsingle
  obtain ⟨hstrict, hfolds⟩ := handleObsFold_spec laws hversion hfold
  refine ⟨m₂, ⟨?_, ?_, hhostLines.trans hsingleLines, ?_, ?_, hstrict, hfolds, ?_⟩, fun name hname => ?_⟩
  · simpa [rejectUnsupportedTransferCoding] using hcodings
  · exact hpath
  · intro name hname
    rcases hname with _ | ⟨_, hname⟩
    · exact Nat.le_trans (hsingleLines.length_le "host") hhost
    · exact hsingle name hname
  · have hnot : ¬ (http.getAll m₂ "content-length" ≠ [] ∧ http.getAll m₂ "transfer-encoding" ≠ []) := by
      simpa [rejectDualContentLengthTransferEncoding, laws.containsKey_eq] using hdual
    exact (Decidable.not_and_iff_not_or_not.1 hnot).imp not_not.1 not_not.1
  · intro name hname
    have hkeys : ∀ key ∈ http.keys m₃, isReserved key = false := by
      simpa [rejectReservedClientHeaders] using hreserved
    exact hkeys name ((laws.mem_keys m₃ name).2 hname)
  · rw [mem_cons, not_or] at hname
    rw [hsingleOthers name hname.2, hhostOthers name hname.1]

/-- Every folded line can be unfolded, or stands beside one that can: every CR in that begins a
fold and its other bytes may all stand in a header value. -/
def Unfoldable (http : HttpMap Map) (hs : Map) : Prop :=
  ∀ name, ∀ val ∈ http.getAll hs name, containsObsFold val →
    ∃ line ∈ http.getAll hs name, containsObsFold line ∧ wellFolded line

theorem not_whitespace_of_chunked {token : List UInt8} (h : eqIgnoreAsciiCase token (utf8 "chunked")) :
    ∀ b ∈ token, isAsciiWhitespace b = false := by
  intro b hb
  have hlower : token.map toAsciiLowercase = (utf8 "chunked").map toAsciiLowercase := eq_of_beq h
  have hmem : toAsciiLowercase b ∈ (utf8 "chunked").map toAsciiLowercase := hlower ▸ mem_map_of_mem hb
  rw [Bool.eq_false_iff]
  intro hspace
  have hcases : b = 32 ∨ b = 9 ∨ b = 10 ∨ b = 12 ∨ b = 13 := by simpa [isAsciiWhitespace, or_assoc] using hspace
  rcases hcases with rfl | rfl | rfl | rfl | rfl <;> exact absurd hmem (by decide)

section

variable {path : List UInt8} {hs collapsed hs' : Map} (h : Admitted http path hs collapsed hs')
include h

theorem Admitted.length_le (name : String) : (http.getAll hs' name).length ≤ (http.getAll collapsed name).length := by
  rcases h.folds name with ⟨val, hmem, -, -, -, heq⟩ | ⟨-, heq⟩
  · rw [heq]
    exact length_pos_of_mem hmem
  · exact Nat.le_of_eq (congrArg length heq)

theorem Admitted.codings_chunked :
    ∀ val ∈ http.getAll hs' "transfer-encoding", ∀ token ∈ tokens val, eqIgnoreAsciiCase token (utf8 "chunked") := by
  have hbefore : ∀ val ∈ http.getAll collapsed "transfer-encoding", ∀ token ∈ tokens val,
      eqIgnoreAsciiCase token (utf8 "chunked") := by
    intro val hval token htoken
    have hno := any_eq_false.1 h.codings val ((h.lines.mem_iff _ _).1 hval)
    simpa using any_eq_false.1 (Bool.eq_false_iff.2 hno) token htoken
  intro val hval
  rcases h.folds "transfer-encoding" with ⟨line, hmem, -, -, -, heq⟩ | ⟨-, heq⟩
  · rw [heq, mem_singleton] at hval
    subst hval
    rw [tokens_unfoldObsFold fun token htoken => not_whitespace_of_chunked (hbefore line hmem token htoken)]
    exact hbefore line hmem
  · exact hbefore val (heq ▸ hval)

theorem Admitted.strict_unfolded (laws : http.Laws) (hname : name ∈ obsFoldRejectHeaders) :
    ∀ val ∈ http.getAll collapsed name, containsObsFold val = false := by
  intro val hval
  have hsingle : (http.getAll collapsed name).length ≤ 1 := by
    refine h.single name ?_
    simp only [obsFoldRejectHeaders, mem_cons, not_mem_nil, or_false] at hname
    rcases hname with rfl | rfl <;> simp
  refine h.strict name hname val ?_
  rw [laws.get_eq]
  match hall : http.getAll collapsed name with
  | [] => simp [hall] at hval
  | [first] => simp_all
  | first :: second :: rest => simp [hall] at hsingle

theorem Admitted.unfolded_iff (laws : http.Laws) :
    (∀ name, ∀ val ∈ http.getAll hs' name, containsObsFold val = false) ↔ Unfoldable http hs := by
  constructor
  · intro hnone name val hval hfold
    rcases h.folds name with ⟨line, hline, -, hlineFold, hwell, -⟩ | ⟨-, heq⟩
    · exact ⟨line, (h.lines.mem_iff name line).1 hline, hlineFold, hwell⟩
    · rw [← h.lines.mem_iff, ← heq] at hval
      exact absurd hfold (Bool.eq_false_iff.1 (hnone name val hval))
  · intro hunfoldable name val hval
    rcases h.folds name with ⟨line, -, -, -, hwell, heq⟩ | ⟨hill, heq⟩
    · rw [heq, mem_singleton] at hval
      subst hval
      exact containsObsFold_eq_false ((unfoldLoop_permitted false line).trans hwell)
    · rw [heq] at hval
      by_cases hname : name ∈ obsFoldRejectHeaders
      · exact h.strict_unfolded laws hname val hval
      · -- a folded line would stand beside one that was unfolded
        rw [Bool.eq_false_iff]
        intro hfold
        obtain ⟨line, hline, hlineFold, hwell⟩ := hunfoldable name val ((h.lines.mem_iff name val).1 hval) hfold
        exact Bool.eq_false_iff.1 (hill line ((h.lines.mem_iff name line).2 hline) hname hlineFold) hwell

theorem Admitted.eq_nil_of_collapsed (hname : http.getAll collapsed name = []) : http.getAll hs' name = [] :=
  eq_nil_of_length_eq_zero (Nat.le_zero.1 (by simpa [hname] using h.length_le name))

end

/-- An admitted request is unambiguous exactly if no name is left with folded lines of which none
can be unfolded. -/
theorem admitted_unambiguous_iff (laws : http.Laws) {version : Version} (hversion : version = .http10 ∨ version = .http11)
    {path : List UInt8} {hs hs' : Map} (h : admitInbound http authority version path hs = some (none, hs')) :
    Unambiguous http path hs' ↔ Unfoldable http hs := by
  obtain ⟨collapsed, h, -⟩ := admitInbound_spec laws (by rcases hversion with rfl | rfl <;> decide) h
  have hsingle : ∀ name ∈ ["host", "content-length", "content-type"], (http.getAll hs' name).length ≤ 1 :=
    fun name hname => Nat.le_trans (h.length_le name) (h.single name hname)
  rw [← h.unfolded_iff laws]
  constructor
  · intro hclear name val hval
    rw [Bool.eq_false_iff, ne_eq, containsObsFold_iff]
    exact hclear.unfolded name val hval
  · intro hnone
    refine ⟨hsingle _ (by simp), hsingle _ (by simp), hsingle _ (by simp),
      h.framing.imp h.eq_nil_of_collapsed h.eq_nil_of_collapsed, h.codings_chunked, ?_, h.unreserved,
      fun seg hseg => (isTraversalSegment_false (hasDotDotTraversal_false.1 h.path seg hseg)).2⟩
    intro name val hval hfold
    exact Bool.eq_false_iff.1 (hnone name val hval) (containsObsFold_iff.2 hfold)

/-- A value that passes `HeaderValue::from_bytes` has no line break in it, so none is folded. -/
theorem checked_unfolded (laws : http.Laws) (hs : http.Checked) :
    ∀ name, ∀ val ∈ http.getAll hs.map name, containsObsFold val = false :=
  fun _ _ hval => containsObsFold_eq_false (hs.permitted laws hval)

/-- An admitted request is unambiguous. -/
theorem admitted_unambiguous (laws : http.Laws) {version : Version} (hversion : version = .http10 ∨ version = .http11)
    {path : List UInt8} {hs : http.Checked} {hs' : Map}
    (h : admitInbound http authority version path hs.map = some (none, hs')) : Unambiguous http path hs' := by
  refine (admitted_unambiguous_iff laws hversion h).2 fun name val hval hfold => ?_
  rw [checked_unfolded laws hs name val hval] at hfold
  cases hfold

end

/-- The text of an authority, here of visible characters only. -/
def visibleAuthority (bytes : List UInt8) : Option String :=
  if bytes.all fun b => 32 < b && b < 127 then some (String.ofList (bytes.map fun b => Char.ofNat b.toNat)) else none

/-- `Host: a`, and the line `Content-Length: 3` twice. -/
def repeatedLength : assocHttpMap.Checked where
  map := [("host", [97]), ("content-length", [51]), ("content-length", [51])]
  checked name val h := by
    have hline : (name, val) ∈ [("host", [97]), ("content-length", [51]), ("content-length", [51])] :=
      (assocHttpMap_laws.mem_iter _ name val).2 h
    simp only [mem_cons, Prod.mk.injEq, not_mem_nil, or_false] at hline
    rcases hline with ⟨-, rfl⟩ | ⟨-, rfl⟩ | ⟨-, rfl⟩ <;> rfl

theorem repeatedLength_admitted : admitInbound assocHttpMap visibleAuthority .http11 [47] repeatedLength.map =
    some (none, [("host", [97]), ("content-length", [51])]) := by
  have hpath : hasDotDotTraversal [47] = some false := by
    have hsplit : ([47] : List UInt8).splitOnP (· == 47) = [[], []] := rfl
    refine hasDotDotTraversal_false.2 fun seg hseg => ?_
    obtain rfl : seg = [] := by simpa [hsplit] using hseg
    exact isTraversalSegment_eq
  unfold admitInbound
  rw [hpath]
  rfl

theorem repeatedLength_unambiguous :
    admitInbound assocHttpMap visibleAuthority .http11 [47] repeatedLength.map =
      some (none, [("host", [97]), ("content-length", [51])]) ∧
    Unambiguous assocHttpMap [47] [("host", [97]), ("content-length", [51])] :=
  ⟨repeatedLength_admitted, admitted_unambiguous assocHttpMap_laws (.inr rfl) repeatedLength_admitted⟩

end Praxis.Admission
