/-
What the builder lets through: every operation has the source and the destination of its kind,
and no two operations that change the document overlap. So at most one of them is at a path, and
none is below another.
-/
import Praxis.JsonOps.Lookup
import Praxis.JsonOps.Rewrite
import Praxis.JsonOps.Tokens

namespace Praxis.JsonOps

open CompiledOp CompiledOpSet OpPathIndex List Option Bool Praxis.Lib Praxis.Lib.Json

/-! ## Compiled operations -/

/-- An operation as the builder compiles it. -/
inductive Compiled (serde : SerdeJson) : CompiledOp → Prop
  | extract (pointer : String) (tokens : List String) (dest : ExtractDest) :
    Compiled serde { pointer, tokens, kind := .extract, source := none, dest := some dest, encodedLastToken := none }
  | add (pointer : String) (tokens : List String) (val : JsonValue) (hne : tokens ≠ []) :
    Compiled serde { pointer, tokens, kind := .add, source := some (val.source serde), dest := none
                     encodedLastToken := encodedLastObjectToken tokens }
  | replace (pointer : String) (tokens : List String) (val : JsonValue) :
    Compiled serde { pointer, tokens, kind := .replace, source := some (val.source serde), dest := none
                     encodedLastToken := encodedLastObjectToken tokens }
  | remove (pointer : String) (tokens : List String) (hne : tokens ≠ []) :
    Compiled serde { pointer, tokens, kind := .remove, source := none, dest := none
                     encodedLastToken := encodedLastObjectToken tokens }

variable {serde : SerdeJson} {headerNameOk : String → Bool} {op a b : CompiledOp} {set : CompiledOpSet} {i : Nat}
  {call : Call} {calls : List Call} {j : Nat} {p : CompiledOp → Bool}

theorem compileCall_eq_ok (h : compileCall serde headerNameOk call = .ok op) : Compiled serde op := by
  cases call with
  | extract pointer dest =>
    obtain ⟨-, -, h⟩ := bind_eq_ok h
    obtain ⟨tokens, -, h⟩ := bind_eq_ok h
    cases h
    exact .extract pointer tokens dest
  | add pointer val =>
    obtain ⟨tokens, -, h⟩ := bind_eq_ok h
    split at h
    case isTrue => cases h
    case isFalse hne =>
      obtain ⟨-, -, h⟩ := bind_eq_ok h
      cases h
      exact .add pointer tokens val (by simpa using hne)
  | replace pointer val =>
    obtain ⟨tokens, -, h⟩ := bind_eq_ok h
    obtain ⟨-, -, h⟩ := bind_eq_ok h
    cases h
    exact .replace pointer tokens val
  | remove pointer =>
    obtain ⟨tokens, -, h⟩ := bind_eq_ok h
    split at h
    case isTrue => cases h
    case isFalse hne =>
      cases h
      exact .remove pointer tokens (by simpa using hne)

/-! The parts of a call. -/

def Call.kind : Call → OpKind
  | .extract _ _ => .extract
  | .add _ _ => .add
  | .replace _ _ => .replace
  | .remove _ => .remove

def Call.pointer : Call → String
  | .extract pointer _ => pointer
  | .add pointer _ => pointer
  | .replace pointer _ => pointer
  | .remove pointer => pointer

def Call.value : Call → Option JsonValue
  | .add _ val => some val
  | .replace _ val => some val
  | _ => none

def Call.dest : Call → Option ExtractDest
  | .extract _ dest => some dest
  | _ => none

theorem compileCall_parts (h : compileCall serde headerNameOk call = .ok op) :
    op.kind = call.kind ∧ compilePointer call.pointer = .ok op.tokens ∧
      op.source = call.value.map (·.source serde) ∧ op.dest = call.dest := by
  cases call with
  | extract pointer dest =>
    obtain ⟨-, -, h⟩ := bind_eq_ok h
    obtain ⟨tokens, htokens, h⟩ := bind_eq_ok h
    cases h
    exact ⟨rfl, htokens, rfl, rfl⟩
  | add pointer val =>
    obtain ⟨tokens, htokens, h⟩ := bind_eq_ok h
    split at h
    case isTrue => cases h
    case isFalse =>
      obtain ⟨-, -, h⟩ := bind_eq_ok h
      cases h
      exact ⟨rfl, htokens, rfl, rfl⟩
  | replace pointer val =>
    obtain ⟨tokens, htokens, h⟩ := bind_eq_ok h
    obtain ⟨-, -, h⟩ := bind_eq_ok h
    cases h
    exact ⟨rfl, htokens, rfl, rfl⟩
  | remove pointer =>
    obtain ⟨tokens, htokens, h⟩ := bind_eq_ok h
    split at h
    case isTrue => cases h
    case isFalse =>
      cases h
      exact ⟨rfl, htokens, rfl, rfl⟩

theorem compileCalls_eq_ok {serde : SerdeJson} {headerNameOk : String → Bool} : ∀ {calls : List Call}
    {ops : List CompiledOp}, compileCalls serde headerNameOk calls = .ok ops →
    Forall₂ (fun call op => compileCall serde headerNameOk call = .ok op) calls ops
  | [], ops, h => by
    cases h
    exact .nil
  | call :: rest, ops, h => by
    obtain ⟨op, hop, h⟩ := bind_eq_ok h
    obtain ⟨ops', hrest, h⟩ := bind_eq_ok h
    cases h
    exact .cons hop (compileCalls_eq_ok hrest)

theorem rejectOverlaps_eq_ok : ∀ {ops : List CompiledOp}, rejectOverlaps ops = .ok () →
    ops.Pairwise fun a b => overlappingOps a b = false
  | [], _ => .nil
  | a :: rest, h => by
    rw [rejectOverlaps] at h
    split at h
    case h_1 => cases h
    case h_2 hfind =>
      refine .cons ?_ (rejectOverlaps_eq_ok h)
      intro b hb
      simpa using find?_eq_none.1 hfind b hb

/-! ## Accepted sets -/

/-- A set that the builder has accepted. -/
structure Accepted (serde : SerdeJson) (set : CompiledOpSet) : Prop where
  finalized : set = .finalize set.ops
  compiled : ∀ op ∈ set.ops, Compiled serde op
  apart : set.ops.Pairwise fun a b => overlappingOps a b = false

theorem buildOps_eq_ok (h : buildOps serde headerNameOk calls = .ok set) :
    Forall₂ (fun call op => compileCall serde headerNameOk call = .ok op) calls set.ops := by
  obtain ⟨ops, hops, h⟩ := bind_eq_ok h
  obtain ⟨⟨⟩, -, h⟩ := bind_eq_ok h
  cases h
  exact compileCalls_eq_ok hops

theorem forall₂_exists_left {α β : Type} {R : α → β → Prop} {xs : List α} {ys : List β} (h : Forall₂ R xs ys) {y : β}
    (hy : y ∈ ys) : ∃ x ∈ xs, R x y := by
  induction h with
  | nil => cases hy
  | @cons x y' xs ys hxy _ ih =>
    rcases hy with _ | ⟨_, hy⟩
    · exact ⟨x, .head _, hxy⟩
    · obtain ⟨x', hx', hR⟩ := ih hy
      exact ⟨x', .tail x hx', hR⟩

theorem buildOps_accepted (h : buildOps serde headerNameOk calls = .ok set) : Accepted serde set := by
  have hcalls := buildOps_eq_ok h
  obtain ⟨ops, -, h⟩ := bind_eq_ok h
  obtain ⟨⟨⟩, hapart, h⟩ := bind_eq_ok h
  cases h
  refine ⟨rfl, ?_, rejectOverlaps_eq_ok hapart⟩
  intro op hop
  obtain ⟨call, -, hcall⟩ := forall₂_exists_left hcalls hop
  exact compileCall_eq_ok hcall

namespace Accepted

variable {serde : SerdeJson} {set : CompiledOpSet}

theorem index_eq (h : Accepted serde set) : set.index = .build set.ops := congrArg index h.finalized

theorem extractOnly_iff (h : Accepted serde set) :
    set.extractOnly = true ↔ set.ops ≠ [] ∧ ∀ op ∈ set.ops, op.kind = .extract := by
  rw [h.finalized, finalize]
  simp

end Accepted

theorem overlappingOps_comm : overlappingOps a b = overlappingOps b a := by
  have hpointers : pointersOverlap a.tokens b.tokens = pointersOverlap b.tokens a.tokens := by
    rw [pointersOverlap, pointersOverlap, Nat.min_comm, BEq.comm]
  rw [overlappingOps, overlappingOps, hpointers, BEq.comm (a := a.tokens)]
  cases a.kind.isMutating <;> cases b.kind.isMutating <;> rfl

theorem overlap_of_isPrefix (ha : a.kind ≠ .extract) (hb : b.kind ≠ .extract) (h : a.tokens <+: b.tokens) :
    overlappingOps a b = true := by
  have hmut : ∀ {kind : OpKind}, kind ≠ .extract → kind.isMutating = true := by
    intro kind hkind
    cases kind <;> first | rfl | cases hkind rfl
  rw [overlappingOps, hmut ha, hmut hb]
  simp only [pointersOverlap, beq_iff_eq]
  rw [Nat.min_eq_left h.length_le, take_length, ← prefix_iff_eq_take]
  exact h

theorem Accepted.eq_of_overlap (h : Accepted serde set) (hi : set.ops[i]? = some a) (hj : set.ops[j]? = some b)
    (hoverlap : overlappingOps a b = true) : i = j := by
  obtain ⟨hilt, rfl⟩ := List.getElem?_eq_some_iff.1 hi
  obtain ⟨hjlt, rfl⟩ := List.getElem?_eq_some_iff.1 hj
  have hapart := List.pairwise_iff_getElem.1 h.apart
  rcases Nat.lt_trichotomy i j with hlt | heq | hgt
  · rw [hapart i j hilt hjlt hlt] at hoverlap
    cases hoverlap
  · exact heq
  · rw [overlappingOps_comm, hapart j i hjlt hilt hgt] at hoverlap
    cases hoverlap

/-- Operations that change the document are at the same place only if they are one. -/
theorem Accepted.eq_of_isPrefix (h : Accepted serde set) (hi : set.ops[i]? = some a) (hj : set.ops[j]? = some b)
    (ha : a.kind ≠ .extract) (hb : b.kind ≠ .extract) (hpre : a.tokens <+: b.tokens) :
    i = j := h.eq_of_overlap hi hj (overlap_of_isPrefix ha hb hpre)

/-! ## Operations found by a lookup -/

theorem opAt_eq_some (h : set.opAt (lastIdx p 0 set.ops) = some (i, op)) : set.ops[i]? = some op ∧ p op = true := by
  obtain ⟨j, hj, h⟩ := bind_eq_some_iff.1 h
  obtain ⟨op', hop', heq⟩ := map_eq_some_iff.1 h
  cases heq
  obtain ⟨found, hfound, -, hp⟩ := lastIdx_eq_some hj
  cases hop'.symm.trans hfound
  exact ⟨hop', hp⟩

theorem opAt_eq_none : set.opAt (lastIdx p 0 set.ops) = none ↔ ∀ op ∈ set.ops, p op = false := by
  rw [← (lastIdx_eq_none : lastIdx p 0 set.ops = none ↔ _)]
  constructor
  · intro h
    rcases hlast : lastIdx p 0 set.ops with _ | i
    · rfl
    · obtain ⟨op, hop, -, -⟩ := lastIdx_eq_some hlast
      rw [Nat.sub_zero] at hop
      rw [opAt, hlast, bind_some, hop] at h
      cases h
  · intro h
    rw [opAt, h]
    rfl

namespace Accepted

variable {serde : SerdeJson} {set : CompiledOpSet} (h : Accepted serde set)

include h

variable {path : List PathToken}

theorem opAt_key {key : String} (hop : set.opAt (set.index.mutateChildKey path key) = some (i, op)) :
    set.ops[i]? = some op ∧ op.mutatesAt (path ++ [.key key]) = true := by
  rw [h.index_eq, mutateChildKey_eq] at hop
  exact opAt_eq_some hop

theorem opAt_index {idx : Nat} (hop : set.opAt (set.index.mutateAtIndex path idx) = some (i, op)) :
    set.ops[i]? = some op ∧ op.mutatesAt (path ++ [.index idx]) = true := by
  rw [h.index_eq, mutateAtIndex_eq] at hop
  exact opAt_eq_some hop

end Accepted

theorem kind_of_mutatesAt {path : List PathToken} (h : op.mutatesAt path = true) : op.kind ≠ .extract := by
  rw [mutatesAt, and_eq_true, and_eq_true, decide_eq_true_eq] at h
  exact h.1.1

/-! ## Operations that take a value away -/

/-- The last step of the path is into an array. -/
def intoArray (path : List PathToken) : Bool :=
  match path.getLast? with
  | some (.index _) => true
  | _ => false

/-- The operation takes the value at the path away or puts another in its place. An add at a
position of an array does neither. -/
def CompiledOp.takes (op : CompiledOp) (path : List PathToken) : Bool :=
  op.mutatesAt path && !(decide (op.kind = .add) && intoArray path)

section

variable (hacc : Accepted serde set) {path : List PathToken}

include hacc

theorem mutatesAt_unique (hi : set.ops[i]? = some a) (hj : set.ops[j]? = some b) (ha : a.mutatesAt path = true)
    (hb : b.mutatesAt path = true) : i = j ∧ a = b := by
  have htokens : a.tokens = b.tokens := by
    rw [mutatesAt, and_eq_true, pathEqTokens_iff] at ha hb
    exact ha.2.inj hb.2
  obtain rfl := hacc.eq_of_isPrefix hi hj (kind_of_mutatesAt ha) (kind_of_mutatesAt hb) (htokens ▸ prefix_refl _)
  exact ⟨rfl, some.inj (hi.symm.trans hj)⟩

omit hacc in
theorem takes_eq_key (key : String) :
    op.takes (path ++ [PathToken.key key]) = op.mutatesAt (path ++ [PathToken.key key]) := by
  simp [takes, intoArray]

theorem takes_key (path : List PathToken) (key : String) :
    (set.ops.any fun op => op.takes (path ++ [PathToken.key key])) = (set.opAt (set.index.mutateChildKey path key)).isSome := by
  rw [hacc.index_eq, mutateChildKey_eq, Bool.eq_iff_iff]
  simp only [takes_eq_key]
  rcases hop : set.opAt (lastIdx (fun op => op.mutatesAt (path ++ [PathToken.key key])) 0 set.ops) with _ | ⟨idx, op⟩
  · simpa using opAt_eq_none.1 hop
  · obtain ⟨hfound, hmutates⟩ := opAt_eq_some hop
    simpa using ⟨op, List.mem_of_getElem? hfound, hmutates⟩

theorem takes_index (path : List PathToken) (i : Nat) :
    (set.ops.any fun op => op.takes (path ++ [PathToken.index i])) =
      (replaceOrRemove (set.opAt (set.index.mutateAtIndex path i))).isSome := by
  have htakes : ∀ op : CompiledOp, op.takes (path ++ [PathToken.index i]) = true ↔
      op.mutatesAt (path ++ [PathToken.index i]) = true ∧ (op.kind = .remove ∨ op.kind = .replace) := by
    intro op
    simp only [takes, intoArray, List.getLast?_append, List.getLast?_singleton, Option.some_or, Bool.and_true,
      Bool.and_eq_true, Bool.not_eq_true', decide_eq_false_iff_not]
    refine and_congr_right fun hmutates => ?_
    have hkind := kind_of_mutatesAt hmutates
    cases hk : op.kind <;> simp_all
  rw [hacc.index_eq, mutateAtIndex_eq, Bool.eq_iff_iff, List.any_eq_true]
  simp only [htakes]
  rcases hop : set.opAt (lastIdx (fun op => op.mutatesAt (path ++ [PathToken.index i])) 0 set.ops) with _ | ⟨idx, op⟩
  · have hnone := opAt_eq_none.1 hop
    simp only [replaceOrRemove, Option.filter_none, Option.isSome_none, Bool.false_eq_true, iff_false]
    rintro ⟨op, hop, hmutates, -⟩
    rw [hnone op hop] at hmutates
    cases hmutates
  · obtain ⟨hfound, hmutates⟩ := opAt_eq_some hop
    simp only [replaceOrRemove, Option.isSome_filter, Option.any_some, decide_eq_true_eq]
    constructor
    · rintro ⟨op', hop', hmutates', hkind⟩
      obtain ⟨j, hj⟩ := List.mem_iff_getElem?.1 hop'
      rw [(mutatesAt_unique hacc hfound hj hmutates hmutates').2]
      exact hkind
    · intro hkind
      exact ⟨op, List.mem_of_getElem? hfound, hmutates, hkind⟩

omit hacc in
theorem takes_of_mutatesAt (h : op.mutatesAt path = true) (hkind : op.kind ≠ .add) : op.takes path = true := by
  rw [takes, h, decide_eq_false hkind]
  rfl

omit hacc in
theorem mutatesAt_of_takes (h : op.takes path = true) : op.mutatesAt path = true := (and_eq_true_iff.1 h).1

end

end Praxis.JsonOps
