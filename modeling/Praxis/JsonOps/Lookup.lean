/-
Lookups in the trie of an operation set, said over the operations: the last one at a path, and
whether some operation goes through a path.
-/
import Praxis.JsonOps.Builder
import Praxis.JsonOps.Trie

namespace Praxis.JsonOps

open CompiledOp OpPathIndex List Praxis.Lib.Json

/-! ## Walking the trie -/

namespace Labelled

variable {nodes : List PathNode} {labels : List (List String)} {marks : List String → Marks}

theorem node_eq (h : Labelled nodes labels marks) {id : Nat} {label : List String} (hlabel : labels[id]? = some label) :
    nodes[id]? = some ((OpPathIndex.mk (nodes ++ [.default]) nodes.length).node id) := by
  obtain ⟨node, hnode⟩ := h.node_of_label hlabel
  have hlt := (List.getElem?_eq_some_iff.1 hnode).1
  rw [OpPathIndex.node, List.getElem?_append_left hlt, hnode]

theorem walkTo_cons (index : OpPathIndex) (id : Nat) (seg : PathToken) {path : List PathToken} :
    index.walkTo id (seg :: path) = ((index.node id).childAt seg).bind fun child => index.walkTo child path := by
  rw [walkTo.eq_def]
  cases seg with
  | key key => cases hnext : (index.node id).objectChildren.lookup key <;> simp [PathNode.childAt, hnext]
  | index idx => cases hnext : (index.node id).arrayChildren.lookup idx <;> simp [PathNode.childAt, hnext]

theorem walkTo_iff (h : Labelled nodes labels marks) : ∀ (path : List PathToken) {id : Nat} {label : List String},
    labels[id]? = some label → ∀ (id' : Nat),
    OpPathIndex.walkTo ⟨nodes ++ [.default], nodes.length⟩ id path = some id' ↔
      ∃ below, Names path below ∧ labels[id']? = some (label ++ below)
  | [], id, label, hlabel, id' => by
    rw [OpPathIndex.walkTo]
    constructor
    · intro heq
      cases heq
      exact ⟨[], .nil, by rwa [append_nil]⟩
    · rintro ⟨below, hnames, hid⟩
      cases hnames
      rw [append_nil] at hid
      exact congrArg some (h.index_unique hlabel hid)
  | seg :: path, id, label, hlabel, id' => by
    rw [walkTo_cons, Option.bind_eq_some_iff]
    constructor
    · rintro ⟨child, hnext, hwalk⟩
      obtain ⟨token, htoken, hchild⟩ := (h.child (h.node_eq hlabel) hlabel seg child).1 hnext
      obtain ⟨below, hnames, hid⟩ := (h.walkTo_iff path hchild id').1 hwalk
      exact ⟨token :: below, .cons htoken hnames, by simpa using hid⟩
    · rintro ⟨below, hnames, hid⟩
      cases hnames with
      | @cons _ token _ below htoken hnames =>
        have hassoc : label ++ token :: below = label ++ [token] ++ below := by simp
        rw [hassoc] at hid
        obtain ⟨child, hchild⟩ := mem_iff_getElem?.1 (h.mem_of_append _ below (mem_of_getElem? hid))
        exact ⟨child, (h.child (h.node_eq hlabel) hlabel seg child).2 ⟨token, htoken, hchild⟩,
          (h.walkTo_iff path hchild id').2 ⟨below, hnames, hid⟩⟩

end Labelled

namespace OpPathIndex

theorem nodeHasWork_eq {nodes : List PathNode} {labels : List (List String)} {marks : List String → Marks}
    (h : Labelled nodes labels marks) {id : Nat} {node : PathNode} {label : List String} (hnode : nodes[id]? = some node)
    (hlabel : labels[id]? = some label) : nodeHasWork node = node.marks.work := by
  have harray : node.objectChildren.isEmpty = true → node.arrayChildren.isEmpty = true := by
    intro hempty
    rcases hchildren : node.arrayChildren with _ | ⟨⟨idx, child⟩, rest⟩
    · rfl
    · -- what is found by its position is found by its key
      have hlookup : node.arrayChildren.lookup idx = some child := by rw [hchildren]; simp
      obtain ⟨token, -, hchild⟩ := (h.array hnode hlabel idx child).1 hlookup
      have hobject := (h.object hnode hlabel token child).2 hchild
      rw [isEmpty_iff.1 hempty] at hobject
      cases hobject
  rw [nodeHasWork, Marks.work, PathNode.marks]
  cases hobject : node.objectChildren.isEmpty with
  | true => simp [harray hobject]
  | false => simp

theorem build_miss (ops : List CompiledOp) : (build ops).node (build ops).miss = .default := by
  rw [node, build]
  simp

theorem build_marks (ops : List CompiledOp) (path : List PathToken) :
    (∀ label, Names path label → ((build ops).nodeAt path).marks = markOps 0 ops label .none) ∧
    ((∀ label, ¬ Names path label) → ((build ops).nodeAt path).marks = .none) ∧
    nodeHasWork ((build ops).nodeAt path) = ((build ops).nodeAt path).marks.work := by
  obtain ⟨labels, h⟩ := labelled_insertOps ops 0 labelled_root
  rw [nodeAt]
  rcases hwalk : (build ops).walkTo 0 path with _ | id
  · have hnone : ∀ label, Names path label → label ∉ labels := by
      intro label hnames hmem
      obtain ⟨id, hid⟩ := mem_iff_getElem?.1 hmem
      have hfound := (h.walkTo_iff path h.root id).2 ⟨label, hnames, hid⟩
      rw [build] at hwalk
      rw [hwalk] at hfound
      cases hfound
    simp only [build_miss]
    exact ⟨fun label hnames => (h.unmarked (hnone label hnames)).symm, fun _ => rfl, rfl⟩
  · obtain ⟨label, hnames, hlabel⟩ := (h.walkTo_iff path h.root id).1 hwalk
    rw [nil_append] at hlabel
    have hnode := h.node_eq hlabel
    refine ⟨?_, fun hnone => absurd hnames (hnone label), nodeHasWork_eq h hnode hlabel⟩
    intro label' hnames'
    obtain rfl := hnames.inj hnames'
    exact h.marked hnode hlabel

end OpPathIndex

/-! ## Operations at a path -/

/-- The operation takes the value at the path. -/
def CompiledOp.extractsAt (op : CompiledOp) (path : List PathToken) : Bool :=
  decide (op.kind = .extract) && pathEqTokens path op.tokens

/-- The operation changes the value at the path. -/
def CompiledOp.mutatesAt (op : CompiledOp) (path : List PathToken) : Bool :=
  decide (op.kind ≠ .extract) && !isAppend op.kind op.tokens && pathEqTokens path op.tokens

/-- The operation adds at the end of the array at the path. -/
def CompiledOp.appendsAt (op : CompiledOp) (path : List PathToken) : Bool :=
  isAppend op.kind op.tokens && pathEqTokens path op.tokens.dropLast

/-- The operation is at the path or below it. -/
def CompiledOp.reaches (op : CompiledOp) (path : List PathToken) : Bool :=
  decide (path.length ≤ op.tokens.length) && pathEqTokens path (op.tokens.take path.length)

theorem reaches_iff {op : CompiledOp} {path : List PathToken} :
    op.reaches path = true ↔ ∃ label, Names path label ∧ label <+: op.tokens := by
  rw [reaches, Bool.and_eq_true, decide_eq_true_eq, pathEqTokens_iff]
  constructor
  · rintro ⟨-, hnames⟩
    exact ⟨_, hnames, take_prefix _ _⟩
  · rintro ⟨label, hnames, hpre⟩
    have hlen := hnames.length_eq
    refine ⟨hlen ▸ hpre.length_le, ?_⟩
    rw [hlen, ← prefix_iff_eq_take.1 hpre]
    exact hnames

theorem extractsAt_iff {op : CompiledOp} {path : List PathToken} :
    op.extractsAt path = true ↔ op.kind = .extract ∧ Names path op.tokens := by
  rw [extractsAt, Bool.and_eq_true, decide_eq_true_eq, pathEqTokens_iff]

namespace OpPathIndex

variable (ops : List CompiledOp) (path : List PathToken)

/-- A mark that is the last index of an operation at the label, as the lookup at a path finds it. -/
theorem lastIdx_path (field : Marks → Option Nat) (p : List String → CompiledOp → Prop)
    [∀ label op, Decidable (p label op)] {q : CompiledOp → Bool}
    (hfield : ∀ label, field (markOps 0 ops label .none) = lastIdx (fun op => decide (p label op)) 0 ops)
    (hnone : field .none = none) (hp : ∀ label op, Names path label → (p label op ↔ q op = true))
    (hq : ∀ op, q op = true → ∃ label, Names path label) :
    field ((build ops).nodeAt path).marks = lastIdx q 0 ops := by
  obtain ⟨hsome, hmiss, -⟩ := build_marks ops path
  by_cases hnames : ∃ label, Names path label
  · obtain ⟨label, hnames⟩ := hnames
    rw [hsome label hnames, hfield label]
    refine lastIdx_congr fun op _ => ?_
    rw [Bool.eq_iff_iff, decide_eq_true_eq]
    exact hp label op hnames
  · rw [hmiss fun label h => hnames ⟨label, h⟩, hnone, eq_comm, lastIdx_eq_none]
    intro op _
    by_contra h
    exact hnames (hq op (by simpa using h))

theorem eq_iff_names {label : List String} (h : Names path label) (tokens : List String) :
    label = tokens ↔ pathEqTokens path tokens = true := by
  rw [pathEqTokens_iff]
  constructor
  · rintro rfl
    exact h
  · exact h.inj

theorem extractAt_eq : (build ops).extractAt path = lastIdx (fun op => op.extractsAt path) 0 ops := by
  refine lastIdx_path ops path Marks.extractIdx (fun label op => op.kind = .extract ∧ label = op.tokens) ?_ rfl ?_ ?_
  · intro label
    rw [markOps_extractIdx, Marks.none, Option.or_none]
  · intro label op hnames
    rw [extractsAt, Bool.and_eq_true, decide_eq_true_eq, eq_iff_names path hnames]
  · intro op hop
    exact ⟨_, (extractsAt_iff.1 hop).2⟩

theorem nodeAt_mutateIdx : ((build ops).nodeAt path).mutateIdx = lastIdx (fun op => op.mutatesAt path) 0 ops := by
  refine lastIdx_path ops path Marks.mutateIdx
    (fun label op => op.kind ≠ .extract ∧ isAppend op.kind op.tokens = false ∧ label = op.tokens) ?_ rfl ?_ ?_
  · intro label
    rw [markOps_mutateIdx, Marks.none, Option.or_none]
  · intro label op hnames
    rw [mutatesAt, Bool.and_eq_true, Bool.and_eq_true, decide_eq_true_eq, eq_iff_names path hnames,
      Bool.not_eq_true', and_assoc]
  · intro op hop
    rw [mutatesAt, Bool.and_eq_true, pathEqTokens_iff] at hop
    exact ⟨_, hop.2⟩

theorem addAppend_eq : (build ops).addAppend path = lastIdx (fun op => op.appendsAt path) 0 ops := by
  refine lastIdx_path ops path Marks.arrayAppend
    (fun label op => isAppend op.kind op.tokens = true ∧ label = op.tokens.dropLast) ?_ rfl ?_ ?_
  · intro label
    rw [markOps_arrayAppend, Marks.none, Option.or_none]
  · intro label op hnames
    rw [appendsAt, Bool.and_eq_true, eq_iff_names path hnames]
  · intro op hop
    rw [appendsAt, Bool.and_eq_true, pathEqTokens_iff] at hop
    exact ⟨_, hop.2⟩

/-- A mark that some operation at the label or below it leaves, as the lookup at a path finds it. -/
theorem below_path (field : Marks → Bool) {p : CompiledOp → Prop} (hnone : field .none = false)
    (hfield : ∀ label, Names path label →
      (field (markOps 0 ops label .none) = true ↔ ∃ op ∈ ops, label <+: op.tokens ∧ p op)) :
    field ((build ops).nodeAt path).marks = true ↔ ∃ op ∈ ops, op.reaches path = true ∧ p op := by
  obtain ⟨hsome, hmiss, -⟩ := build_marks ops path
  simp only [reaches_iff]
  by_cases hnames : ∃ label, Names path label
  · obtain ⟨label, hnames⟩ := hnames
    rw [hsome label hnames, hfield label hnames]
    refine exists_congr fun op => and_congr_right fun _ => and_congr_left fun _ => ?_
    exact ⟨fun hpre => ⟨label, hnames, hpre⟩, fun ⟨label', hnames', hpre⟩ => hnames.inj hnames' ▸ hpre⟩
  · rw [hmiss fun label h => hnames ⟨label, h⟩, hnone]
    simp only [Bool.false_eq_true, false_iff]
    rintro ⟨op, -, ⟨label, h, -⟩, -⟩
    exact hnames ⟨label, h⟩

/-- Whether the value at the path has to be looked into for captures. -/
theorem hasDescendantExtracts_iff : (build ops).hasDescendantExtracts path = true ↔
    ∃ op ∈ ops, op.kind = .extract ∧ op.reaches path = true ∧ (pathEqTokens path op.tokens = false ∨ op.tokens = []) := by
  simp only [and_left_comm (a := _ = OpKind.extract)]
  refine below_path ops path Marks.extractBranch rfl fun label hnames => ?_
  rw [markOps_extractBranch]
  simp only [Marks.none, Bool.false_eq_true, false_or, ← Bool.not_eq_true, ← eq_iff_names path hnames, and_left_comm]

theorem extractBranchAt_iff : (build ops).extractBranchAt path = true ↔
    ∃ op ∈ ops, op.kind = .extract ∧ op.reaches path = true := by
  have hat : ((build ops).nodeAt path).extractIdx.isSome = true ↔ ∃ op ∈ ops, op.extractsAt path = true := by
    rw [← extractAt, extractAt_eq, ← Option.ne_none_iff_isSome, ne_eq, lastIdx_eq_none]
    simp
  rw [extractBranchAt, Bool.or_eq_true, hat]
  change (build ops).hasDescendantExtracts path = true ∨ _ ↔ _
  rw [hasDescendantExtracts_iff]
  constructor
  · rintro (⟨op, hop, hkind, hreaches, -⟩ | ⟨op, hop, hextracts⟩)
    · exact ⟨op, hop, hkind, hreaches⟩
    · rw [extractsAt_iff] at hextracts
      exact ⟨op, hop, hextracts.1, reaches_iff.2 ⟨_, hextracts.2, prefix_rfl⟩⟩
  · rintro ⟨op, hop, hkind, hreaches⟩
    rcases h : pathEqTokens path op.tokens with _ | _
    · exact .inl ⟨op, hop, hkind, hreaches, .inl h⟩
    · exact .inr ⟨op, hop, by rw [extractsAt, h, hkind]; rfl⟩

/-- Whether some operation is at the path or below it. The token that stands for the end of an
array is no place. -/
theorem hasDescendantOps_iff : (build ops).hasDescendantOps path = true ↔
    ∃ op ∈ ops, op.reaches path = true ∧ (isAppend op.kind op.tokens = false ∨ pathEqTokens path op.tokens = false) := by
  rw [hasDescendantOps, (build_marks ops path).2.2]
  refine below_path ops path Marks.work rfl fun label hnames => ?_
  have hnone : Marks.none.work = false := rfl
  rw [markOps_work]
  simp only [hnone, Bool.false_eq_true, false_or, ← Bool.not_eq_true, ← eq_iff_names path hnames]

/-! A child is looked up as the path to it is. -/

theorem walkTo_concat (index : OpPathIndex) (seg : PathToken) : ∀ (path : List PathToken) (id : Nat),
    index.walkTo id (path ++ [seg]) = (index.walkTo id path).bind fun child => (index.node child).childAt seg
  | [], id => by
    rw [nil_append, Labelled.walkTo_cons, walkTo, Option.bind_some]
    cases (index.node id).childAt seg <;> rfl
  | first :: path, id => by
    rw [cons_append, Labelled.walkTo_cons, Labelled.walkTo_cons, Option.bind_assoc]
    exact congrArg _ (funext fun child => walkTo_concat index seg path child)

theorem nodeAt_eq : (build ops).nodeAt path = ((build ops).walkTo 0 path).elim .default (build ops).node := by
  rw [nodeAt]
  cases (build ops).walkTo 0 path with
  | none => exact build_miss ops
  | some id => rfl

variable (key : String) (idx : Nat)

theorem childObjectNode_eq : (build ops).childObjectNode path key = (build ops).walkTo 0 (path ++ [.key key]) := by
  rw [childObjectNode, nodeAt_eq, walkTo_concat]
  cases (build ops).walkTo 0 path <;> rfl

theorem childArrayNode_eq : (build ops).childArrayNode path idx = (build ops).walkTo 0 (path ++ [.index idx]) := by
  rw [childArrayNode, nodeAt_eq, walkTo_concat]
  cases (build ops).walkTo 0 path <;> rfl

theorem walkTo_mutateIdx : ((build ops).walkTo 0 path).bind (fun id => ((build ops).node id).mutateIdx) =
    lastIdx (fun op => op.mutatesAt path) 0 ops := by
  rw [← nodeAt_mutateIdx, nodeAt_eq]
  cases (build ops).walkTo 0 path <;> rfl

theorem walkTo_hasWork : ((build ops).walkTo 0 path).any (fun id => nodeHasWork ((build ops).node id)) =
    (build ops).hasDescendantOps path := by
  rw [hasDescendantOps, nodeAt_eq]
  cases (build ops).walkTo 0 path <;> rfl

theorem mutateChildKey_eq :
    (build ops).mutateChildKey path key = lastIdx (fun op => op.mutatesAt (path ++ [.key key])) 0 ops := by
  rw [mutateChildKey, childObjectNode_eq, walkTo_mutateIdx]

theorem mutateAtIndex_eq :
    (build ops).mutateAtIndex path idx = lastIdx (fun op => op.mutatesAt (path ++ [.index idx])) 0 ops := by
  rw [mutateAtIndex, childArrayNode_eq, walkTo_mutateIdx]

theorem childNeedsRewrite_eq :
    (build ops).childNeedsRewrite path key = (build ops).hasDescendantOps (path ++ [.key key]) := by
  rw [childNeedsRewrite, childObjectNode_eq, walkTo_hasWork]

theorem childIndexNeedsRewrite_eq :
    (build ops).childIndexNeedsRewrite path idx = (build ops).hasDescendantOps (path ++ [.index idx]) := by
  rw [childIndexNeedsRewrite, childArrayNode_eq, walkTo_hasWork]

end OpPathIndex

end Praxis.JsonOps
