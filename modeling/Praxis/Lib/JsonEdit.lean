/-
Changes at several places of a JSON value, made at once. A place is a list of tokens. On an object
a token is a member name; on an array it is a position, and positions are those before any change.
A change at a place that does not exist does nothing, except that an add makes an absent member
or stands at the end of an array. The token `-` of an add is the end of an array and nothing else.
-/
import Praxis.Lib.Json

namespace Praxis.Lib.Json

open List Option

inductive Change where
  | add (val : Tree)
  | replace (val : Tree)
  | remove

def Change.isAdd : Change → Bool
  | .add _ => true
  | _ => false

structure Edit where
  target : List String
  change : Change

/-! ## Places -/

/-- An add at the end of an array. -/
def Edit.appends (e : Edit) : Bool := e.change.isAdd && e.target.getLast? == some "-"

/-- The edit as it is one step down, if it leads there. -/
def Edit.below (names : String → Bool) (e : Edit) : Option Edit :=
  match e.target with
  | [] => none
  | token :: rest => if names token && !(rest.isEmpty && e.appends) then some ⟨rest, e.change⟩ else none

/-- The edit as it is some steps down. -/
def Edit.along : List (String → Bool) → Edit → Option Edit
  | [], e => some e
  | names :: steps, e => (e.below names).bind (along steps)

def below (names : String → Bool) (edits : List Edit) : List Edit := edits.filterMap (Edit.below names)

/-- The change of the value itself. -/
def here (edits : List Edit) : Option Change := (edits.find? fun e => e.target.isEmpty).map Edit.change

theorem Edit.along_concat (names : String → Bool) : ∀ (steps : List (String → Bool)) (e : Edit),
    e.along (steps ++ [names]) = (e.along steps).bind (Edit.below names)
  | [], e => by
    simp only [nil_append, Edit.along, bind_some]
    cases e.below names <;> rfl
  | first :: steps, e => by
    simp only [cons_append, Edit.along, bind_assoc]
    exact congrArg _ (funext fun e => Edit.along_concat names steps e)

/-- The first steps of the target are taken off. At the place itself no edit is one that appends. -/
theorem Edit.along_eq_some {e' : Edit} : ∀ {steps : List (String → Bool)} {e : Edit}, e.along steps = some e' ↔
    ∃ taken, Forall₂ (fun names token => names token = true) steps taken ∧ e.target = taken ++ e'.target ∧
      e.change = e'.change ∧ (e'.target = [] → e.appends = false)
  | [], e => by
    simp only [Edit.along, forall₂_nil_left_iff]
    constructor
    · intro h
      cases h
      exact ⟨[], rfl, rfl, rfl, fun h => by simp [Edit.appends, h]⟩
    · rintro ⟨_, rfl, htarget, hchange, -⟩
      obtain ⟨target, change⟩ := e
      obtain ⟨target', change'⟩ := e'
      obtain rfl : target = target' := htarget
      obtain rfl : change = change' := hchange
      rfl
  | names :: steps, ⟨[], change⟩ => by
    constructor
    · intro h
      cases h
    · rintro ⟨taken, hsteps, htarget, -, -⟩
      cases hsteps
      cases htarget
  | names :: steps, ⟨token :: rest, change⟩ => by
    have htail : ∀ {rest : List String}, rest ≠ [] → (Edit.mk (token :: rest) change).appends = (Edit.mk rest change).appends := by
      intro rest hne
      rw [Edit.appends, Edit.appends, getLast?_cons_of_ne_nil hne]
    rw [Edit.along, Edit.below, bind_eq_some_iff]
    simp only [Bool.and_eq_true, Bool.not_eq_true', ite_none_right_eq_some, some.injEq]
    constructor
    · rintro ⟨_, ⟨⟨hname, happend⟩, rfl⟩, h⟩
      obtain ⟨taken, hsteps, htarget, hchange, hplace⟩ := Edit.along_eq_some.1 h
      refine ⟨token :: taken, .cons hname hsteps, congrArg (token :: ·) htarget, hchange, ?_⟩
      intro hend
      rcases rest with _ | ⟨next, rest⟩
      · simpa using happend
      · rw [htail (cons_ne_nil _ _)]
        exact hplace hend
    · rintro ⟨_, hsteps, htarget, hchange, hplace⟩
      cases hsteps with
      | @cons _ token' _ taken hname hsteps =>
        obtain ⟨rfl, hrest⟩ := cons.inj htarget
        refine ⟨⟨rest, change⟩, ⟨⟨hname, ?_⟩, rfl⟩, Edit.along_eq_some.2 ⟨taken, hsteps, hrest, hchange, ?_⟩⟩
        · rcases rest with _ | ⟨next, rest⟩
          · obtain ⟨-, hend⟩ := append_eq_nil_iff.1 hrest.symm
            simpa using hplace hend
          · rfl
        · intro hend
          rcases rest with _ | ⟨next, rest⟩
          · simp [Edit.appends]
          · rw [← htail (cons_ne_nil _ _)]
            exact hplace hend

/-! ## Values -/

section

variable (position : String → Option Nat)

def isPosition (i : Nat) (token : String) : Bool := position token == some i

/-- What stands for a member. -/
def changeMember (key : String) (val : Tree) : Option Change → List (String × Tree)
  | none => [(key, val)]
  | some (.add new) => [(key, new)]
  | some (.replace new) => [(key, new)]
  | some .remove => []

/-- What stands for an element. -/
def changeElem (val : Tree) : Option Change → List Tree
  | none => [val]
  | some (.add new) => [new, val]
  | some (.replace new) => [new]
  | some .remove => []

/-- A member that an edit makes, among members with these names. -/
def Edit.newMember (keys : List String) (e : Edit) : Option (String × Tree) :=
  match e.target, e.change with
  | [key], .add val => if key = "-" ∨ key ∈ keys then none else some (key, val)
  | _, _ => none

def addedValue : Option Change → List Tree
  | some (.add val) => [val]
  | _ => []

/-- What comes after the last element. -/
def elemsAtEnd (edits : List Edit) (len : Nat) : List Tree :=
  addedValue (here (below (isPosition position len) edits)) ++
    addedValue ((edits.find? fun e => e.target == ["-"] && e.change.isAdd).map Edit.change)

mutual

/-- The value after the edits below it. -/
def Tree.edit (edits : List Edit) : Tree → Tree
  | .arr elems => .arr (editElems edits elems 0 ++ elemsAtEnd position edits elems.length)
  | .obj members => .obj (editMembers edits members ++ edits.filterMap (Edit.newMember (members.map Prod.fst)))
  | t => t
termination_by structural t => t

def editElems (edits : List Edit) : List Tree → Nat → List Tree
  | [], _ => []
  | t :: ts, i =>
    changeElem (t.edit (below (isPosition position i) edits)) (here (below (isPosition position i) edits)) ++
      editElems edits ts (i + 1)
termination_by structural ts => ts

def editMembers (edits : List Edit) : List (String × Tree) → List (String × Tree)
  | [] => []
  | (key, t) :: ms =>
    changeMember key (t.edit (below (key == ·) edits)) (here (below (key == ·) edits)) ++ editMembers edits ms
termination_by structural ms => ms

end

/-- The document after the edits. -/
def Tree.editDocument (edits : List Edit) (t : Tree) : Tree :=
  match here edits with
  | some (.add val) => val
  | some (.replace val) => val
  | _ => t.edit position edits

/-! Without edits nothing changes. -/

mutual

@[simp] theorem Tree.edit_nil (t : Tree) : t.edit position [] = t := by
  match t with
  | .null => rfl
  | .bool b => rfl
  | .num n => rfl
  | .str s => rfl
  | .arr elems =>
    rw [Tree.edit, editElems_nil elems 0]
    simp [elemsAtEnd, below, here, addedValue]
  | .obj members =>
    rw [Tree.edit, editMembers_nil members]
    simp
termination_by structural t

theorem editElems_nil (ts : List Tree) (i : Nat) : editElems position [] ts i = ts := by
  match ts with
  | [] => rfl
  | t :: ts =>
    have ht : t.edit position (below (isPosition position i) []) = t := Tree.edit_nil t
    rw [editElems, ht, editElems_nil ts (i + 1)]
    rfl
termination_by structural ts

theorem editMembers_nil (ms : List (String × Tree)) : editMembers position [] ms = ms := by
  match ms with
  | [] => rfl
  | (key, t) :: ms =>
    have ht : t.edit position (below (key == ·) []) = t := Tree.edit_nil t
    rw [editMembers, ht, editMembers_nil ms]
    rfl
termination_by structural ms

end

end

end Praxis.Lib.Json
