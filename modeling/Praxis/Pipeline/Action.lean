/-
What filters give back to the pipeline: the action a hook returns, and the key-value results it
leaves for the branches of its own filter.
-/
import Mathlib.Data.List.Basic

namespace Praxis.Pipeline

open List

/-! ## Actions -/

/-- An error raised by a filter or by the pipeline build. -/
structure FilterError where
  message : String
deriving Repr, DecidableEq

/-- A response that refuses the request. -/
structure Rejection where
  body : Option (List UInt8)
  headers : List (String × String)
  headerMap : Option (List (String × String))
  preserveKeepalive : Bool
  status : Nat
deriving Repr, DecidableEq

/-- `Rejection::status`: a bare rejection with the given code. -/
def Rejection.ofStatus (code : Nat) : Rejection :=
  { body := none, headers := [], headerMap := none, preserveKeepalive := false, status := code }

/-- A complete response produced by a filter in the request phase. -/
structure TerminalResponse where
  status : Nat
  headers : List (String × String)
  body : Option (List UInt8)
deriving Repr, DecidableEq

/-- A terminal response whose body is pulled later through `stream`. -/
structure StreamingTerminalResponse where
  status : Nat
  headers : List (String × String)
  stream : Nat
deriving Repr, DecidableEq

/-- `FilterAction`; `proceed` is the source's `Continue`. -/
inductive FilterAction where
  | proceed
  | reject (r : Rejection)
  | terminalResponse (t : TerminalResponse)
  | streamingTerminalResponse (t : StreamingTerminalResponse)
  | release
  | bodyDone
deriving Repr, DecidableEq

/-- `failure_mode` of a filter entry. -/
inductive FailureMode where
  | closed
  | «open»
deriving Repr, DecidableEq

/-- `check_failure_mode`: an error is swallowed when the filter fails open. -/
def checkFailureMode (e : FilterError) : FailureMode → Except FilterError Unit
  | .open => .ok ()
  | .closed => .error e

/-! ## Filter results -/

/-- The results one filter wrote, a map from result key to value. -/
structure FilterResultSet where
  entries : List (String × String)
deriving Repr, DecidableEq

def FilterResultSet.get (rs : FilterResultSet) (key : String) : Option String := rs.entries.lookup key

/-- `ctx.filter_results`: result sets keyed by filter type name. -/
structure FilterResults where
  sets : List (String × FilterResultSet)
deriving Repr, DecidableEq

namespace FilterResults

def empty : FilterResults := ⟨[]⟩

def isEmpty (r : FilterResults) : Bool := r.sets.isEmpty

def get (r : FilterResults) (name : String) : Option FilterResultSet := r.sets.lookup name

def remove (r : FilterResults) (name : String) : FilterResults := ⟨r.sets.filter fun s => s.1 != name⟩

def insert (r : FilterResults) (name : String) (rs : FilterResultSet) : FilterResults :=
  ⟨(name, rs) :: (r.remove name).sets⟩

/-- `HashMap::extend`: the entries of `more` replace equal keys. -/
def extend (r more : FilterResults) : FilterResults := more.sets.foldl (fun acc s => acc.insert s.1 s.2) r

theorem get_insert_of_ne {name other : String} (h : other ≠ name) (r : FilterResults) (rs : FilterResultSet) :
    (r.insert name rs).get other = r.get other := by
  have hbeq : (other == name) = false := beq_eq_false_iff_ne.2 h
  have hremove : ∀ sets : List (String × FilterResultSet),
      (sets.filter fun s => s.1 != name).lookup other = sets.lookup other := by
    intro sets
    induction sets with
    | nil => rfl
    | cons s sets ih =>
      obtain ⟨key, val⟩ := s
      by_cases hkey : key = name
      · subst hkey
        rw [filter_cons_of_neg (by simp), ih, lookup_cons, hbeq]
      · rw [filter_cons_of_pos (by simpa using hkey), lookup_cons, lookup_cons, ih]
  show ((name, rs) :: r.sets.filter fun s => s.1 != name).lookup other = _
  rw [lookup_cons, hbeq, hremove]
  rfl

end FilterResults

/-- `ResultMatch`: how a branch condition compares a result value. -/
inductive ResultMatch where
  | exact (expected : String)
  | anyOf (candidates : List String)
  | contains (part : String)
  | not (unwanted : String)
deriving Repr, DecidableEq

/-- `str::contains`. -/
def strContains (val part : String) : Bool := val.toList.tails.any fun t => part.toList.isPrefixOf t

def resultMatches (actual : Option String) : ResultMatch → Bool
  | .exact expected => actual == some expected
  | .anyOf candidates => actual.any fun val => candidates.any (· == val)
  | .contains part => actual.any fun val => strContains val part
  | .not unwanted => actual != some unwanted

def matchesFilterResult (results : FilterResults) (filterName key : String) (matcher : ResultMatch) : Bool :=
  resultMatches ((results.get filterName).bind (·.get key)) matcher

end Praxis.Pipeline
