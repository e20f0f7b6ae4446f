/-
What the trie over the pointers knows. Every node stands for a list of tokens, its label; a walk
along a path ends at the node whose label the path names. What a node holds is then said without
nodes: the last operation at that place, and whether operations go further down.
-/
import Praxis.JsonOps.Index
import Mathlib.Data.Nat.Digits.Defs
import Mathlib.Data.List.Induction

namespace Praxis.JsonOps

open Function PathNode List Praxis.Lib.Json

/-! ## Array positions have one spelling -/

theorem decimalValue_eq {ds : List Char} : decimalValue ds = Nat.ofDigits 10 (ds.map fun d => d.toNat - 48).reverse := by
  induction ds using reverseRecOn with
  | nil => rfl
  | append_singleton ds d ih =>
    have hstep : decimalValue (ds ++ [d]) = decimalValue ds * 10 + (d.toNat - 48) := by
      rw [decimalValue, foldl_append]
      rfl
    rw [hstep, ih, map_append, reverse_append, map_singleton, reverse_singleton,
      singleton_append, Nat.ofDigits_cons]
    omega

theorem digit_range {d : Char} (h : d.isDigit = true) : 48 ≤ d.toNat ∧ d.toNat ≤ 57 := by
  simp only [Char.isDigit, Bool.and_eq_true, decide_eq_true_eq] at h
  exact ⟨h.1, h.2⟩

/-- Decimal digits without leading zeros, other than a single zero. -/
def Canonical (ds : List Char) : Prop := (∀ d ∈ ds, d.isDigit = true) ∧ ∃ d rest, ds = d :: rest ∧ d ≠ '0'

variable {ds : List Char} {token : String} {idx : Nat} {path : List PathToken} {kind : OpKind}

theorem digits_canonical (h : Canonical ds) : Nat.digits 10 (decimalValue ds) = (ds.map fun d => d.toNat - 48).reverse := by
  obtain ⟨hdigits, d, rest, rfl, hne⟩ := h
  rw [decimalValue_eq]
  refine Nat.digits_ofDigits 10 (by decide) _ ?_ ?_
  · intro n hn
    obtain ⟨c, hc, rfl⟩ := mem_map.1 (mem_reverse.1 hn)
    have hrange := digit_range (hdigits c hc)
    omega
  · intro hnonempty
    have hrange := digit_range (hdigits d (.head _))
    have hzero : d.toNat ≠ 48 := by
      intro h
      exact hne (Char.ext (UInt32.toNat_inj.1 h))
    rw [getLast_reverse, head_map, head_cons]
    omega

theorem canonical_inj {es : List Char} (hds : Canonical ds) (hes : Canonical es) (h : decimalValue ds = decimalValue es) :
    ds = es := by
  have hback : ∀ {cs : List Char}, Canonical cs → (cs.map fun d => d.toNat - 48).map (fun n => Char.ofNat (n + 48)) = cs := by
    intro cs hcs
    rw [map_map]
    refine (map_congr_left fun d hd => ?_).trans (map_id cs)
    have hrange := digit_range (hcs.1 d hd)
    rw [comp_apply, Nat.sub_add_cancel hrange.1, Char.ofNat_toNat]
    rfl
  have hmap := (digits_canonical hds).symm.trans ((congrArg (Nat.digits 10) h).trans (digits_canonical hes))
  rw [← hback hds, ← hback hes, reverse_inj.1 hmap]

theorem decimalValue_ne_zero (h : Canonical ds) : decimalValue ds ≠ 0 := by
  intro hzero
  have hdigits := digits_canonical h
  obtain ⟨-, d, rest, rfl, -⟩ := h
  rw [hzero, Nat.digits_zero] at hdigits
  simp at hdigits

theorem arrayIndex_eq_some (h : arrayIndex token = some idx) :
    (token.toList = ['0'] ∧ idx = 0) ∨ (Canonical token.toList ∧ idx = decimalValue token.toList) := by
  rw [arrayIndex] at h
  split at h
  case h_1 => cases h
  case h_2 first rest htoken =>
    simp only at h
    split_ifs at h with hzero hall hfits
    have hvalue := Option.some.inj h
    rw [htoken]
    by_cases hfirst : first = '0'
    · have hrest : rest = [] := not_not.1 fun hne => hzero ⟨hfirst, hne⟩
      subst hfirst hrest
      exact .inl ⟨rfl, hvalue.symm.trans (by decide)⟩
    · exact .inr ⟨⟨all_eq_true.1 hall, first, rest, rfl, hfirst⟩, hvalue.symm⟩

variable {token' : String} {seg : PathToken}

theorem arrayIndex_inj (h : arrayIndex token = some idx) (h' : arrayIndex token' = some idx) : token = token' := by
  apply String.toList_inj.1
  rcases arrayIndex_eq_some h with ⟨hzero, rfl⟩ | ⟨hcanonical, hidx⟩ <;>
    rcases arrayIndex_eq_some h' with ⟨hzero', hidx'⟩ | ⟨hcanonical', hidx'⟩
  · rw [hzero, hzero']
  · exact absurd hidx'.symm (decimalValue_ne_zero hcanonical')
  · exact absurd (hidx.symm.trans hidx') (decimalValue_ne_zero hcanonical)
  · exact canonical_inj hcanonical hcanonical' (hidx.symm.trans hidx')

/-! ## Paths and the tokens that name them -/

/-- The tokens name the path, step by step. -/
def Names (path : List PathToken) (tokens : List String) : Prop :=
  Forall₂ (fun seg token => seg.isNamedBy token = true) path tokens

theorem pathEqTokens_iff {tokens : List String} : pathEqTokens path tokens = true ↔ Names path tokens := by
  rw [pathEqTokens, Bool.and_eq_true, beq_iff_eq, all_eq_true, Names, forall₂_iff_zip]
  constructor
  · rintro ⟨hlen, hall⟩
    exact ⟨hlen, fun hmem => hall _ hmem⟩
  · rintro ⟨hlen, hall⟩
    exact ⟨hlen, fun x hx => hall hx⟩

theorem isNamedBy_inj (h : seg.isNamedBy token = true) (h' : seg.isNamedBy token' = true) : token = token' := by
  cases seg with
  | key k => exact (beq_iff_eq.1 h).symm.trans (beq_iff_eq.1 h')
  | index i => exact arrayIndex_inj (beq_iff_eq.1 h) (beq_iff_eq.1 h')

theorem Names.inj {tokens tokens' : List String} (h : Names path tokens) (h' : Names path tokens') : tokens = tokens' := by
  induction h generalizing tokens' with
  | nil =>
    cases h'
    rfl
  | cons hfirst _ ih =>
    cases h' with
    | cons hfirst' hrest' => rw [isNamedBy_inj hfirst hfirst', ih hrest']

theorem Names.length_eq {path : List PathToken} {tokens : List String} (h : Names path tokens) :
    path.length = tokens.length := Forall₂.length_eq h

theorem Names.front {more : List PathToken} {tokens : List String} (h : Names (path ++ more) tokens) :
    Names path (tokens.take path.length) := by
  have htake := forall₂_take path.length h
  rwa [take_left] at htake

theorem names_concat_iff {tokens : List String} :
    Names (path ++ [seg]) tokens ↔
      ∃ front token, tokens = front ++ [token] ∧ Names path front ∧ seg.isNamedBy token = true := by
  constructor
  · intro h
    have hfront := h.front
    have hlast := forall₂_drop path.length h
    rw [drop_left] at hlast
    rcases hdrop : tokens.drop path.length with _ | ⟨token, tail⟩
    · rw [hdrop] at hlast
      cases hlast
    · rw [hdrop] at hlast
      cases hlast with
      | cons htoken hnil =>
        cases hnil
        exact ⟨tokens.take path.length, token, by rw [← hdrop, take_append_drop], hfront, htoken⟩
  · rintro ⟨front, token, rfl, hfront, htoken⟩
    exact rel_append hfront (.cons htoken .nil)

/-! ## Labels -/

theorem getElem?_concat_iff {α : Type} {xs : List α} {x y : α} {i : Nat} :
    (xs ++ [x])[i]? = some y ↔ xs[i]? = some y ∨ (i = xs.length ∧ y = x) := by
  rcases Nat.lt_trichotomy i xs.length with hlt | rfl | hgt
  · rw [getElem?_append_left hlt]
    exact ⟨.inl, fun h => h.resolve_right fun heq => absurd heq.1 (Nat.ne_of_lt hlt)⟩
  · simp [eq_comm]
  · rw [getElem?_eq_none (by simp; omega), getElem?_eq_none (by omega)]
    simp
    omega

theorem orInsert_lookup {κ : Type} [DecidableEq κ] {children : List (κ × Nat)} {k : κ} (h : children.lookup k = none)
    (child : Nat) (k' : κ) : (orInsert children k child).lookup k' = if k' = k then some child else children.lookup k' := by
  rw [orInsert, h, lookup_append]
  split
  case isTrue hk => simp [hk, h]
  case isFalse hk => simp [lookup_cons, beq_false_of_ne hk]

/-- The child that a step of the walk leads to. -/
def PathNode.childAt (node : PathNode) : PathToken → Option Nat
  | .key key => node.objectChildren.lookup key
  | .index idx => node.arrayChildren.lookup idx

/-- The parent after `link_token`. -/
def PathNode.linked (node : PathNode) (token : String) (child : Nat) : PathNode :=
  { node with
    objectChildren := orInsert node.objectChildren token child
    arrayChildren :=
      match arrayIndex token with
      | some idx => orInsert node.arrayChildren idx child
      | none => node.arrayChildren }

variable {nodes : List PathNode}

theorem linkToken_eq (parent : Nat) (token : String) (child : Nat) :
    linkToken nodes parent token child = nodes.modify parent fun node => node.linked token child := rfl

/-- What a node holds besides its children. -/
structure Marks where
  nested : Bool
  extractIdx : Option Nat
  mutateIdx : Option Nat
  extractBranch : Bool
  arrayAppend : Option Nat
  hasChild : Bool

def Marks.none : Marks := ⟨false, .none, .none, false, .none, false⟩

def PathNode.marks (node : PathNode) : Marks :=
  ⟨node.nested, node.extractIdx, node.mutateIdx, node.extractBranch, node.arrayAppend, !node.objectChildren.isEmpty⟩

/-- Each node has a label, children are found by the labels they have, and `marks` tells what the
node of a label holds. -/
structure Labelled (nodes : List PathNode) (labels : List (List String)) (marks : List String → Marks) : Prop where
  length_eq : labels.length = nodes.length
  nodup : labels.Nodup
  root : labels[0]? = some []
  closed : ∀ {label : List String} {token : String}, label ++ [token] ∈ labels → label ∈ labels
  child : ∀ {i : Nat} {node : PathNode} {label : List String}, nodes[i]? = some node → labels[i]? = some label →
    ∀ (seg : PathToken) (child : Nat), node.childAt seg = some child ↔
      ∃ token, seg.isNamedBy token = true ∧ labels[child]? = some (label ++ [token])
  marked : ∀ {i : Nat} {node : PathNode} {label : List String}, nodes[i]? = some node → labels[i]? = some label →
    node.marks = marks label
  unmarked : ∀ {label : List String}, label ∉ labels → marks label = .none

/-- The new child is found by every step that its token names. -/
theorem PathNode.linked_childAt {node : PathNode}
    (hnone : ∀ seg : PathToken, seg.isNamedBy token = true → node.childAt seg = .none) (child : Nat) :
    (node.linked token child).childAt seg =
      if seg.isNamedBy token = true then some child else node.childAt seg := by
  cases seg with
  | key key =>
    have hlookup := hnone (.key token) (beq_self_eq_true token)
    rw [childAt, linked, orInsert_lookup hlookup]
    simp [PathToken.isNamedBy, childAt]
  | index idx =>
    rw [childAt, linked]
    rcases hidx : arrayIndex token with _ | idx'
    · simp [PathToken.isNamedBy, childAt, hidx]
    · have hlookup := hnone (.index idx') (by rw [PathToken.isNamedBy, hidx]; exact beq_self_eq_true _)
      simp only
      rw [orInsert_lookup hlookup]
      simp [PathToken.isNamedBy, childAt, hidx, @eq_comm _ idx]

theorem labelled_root : Labelled [.default] [[]] fun _ => .none where
  length_eq := rfl
  nodup := nodup_singleton _
  root := rfl
  closed := by simp
  child := by
    intro i node label hnode hlabel seg child
    obtain rfl := mem_singleton.1 (mem_of_getElem? hnode)
    constructor
    · intro h
      cases seg <;> cases h
    · rintro ⟨token, -, h⟩
      simp [getElem?_singleton] at h
  marked := by
    intro i node label hnode _
    obtain rfl := mem_singleton.1 (mem_of_getElem? hnode)
    rfl
  unmarked := fun _ => rfl

namespace Labelled

variable {nodes : List PathNode} {labels : List (List String)} {marks : List String → Marks}
  {i id : Nat} {label : List String} {token : String}

theorem node_of_label (h : Labelled nodes labels marks) (hlabel : labels[i]? = some label) :
    ∃ node, nodes[i]? = some node := by
  obtain ⟨hi, -⟩ := List.getElem?_eq_some_iff.1 hlabel
  exact ⟨_, List.getElem?_eq_getElem (h.length_eq ▸ hi)⟩

theorem index_unique (h : Labelled nodes labels marks) {j : Nat} (hi : labels[i]? = some label) (hj : labels[j]? = some label) :
    i = j := by
  obtain ⟨hlt, -⟩ := List.getElem?_eq_some_iff.1 hi
  exact (List.getElem?_inj hlt h.nodup).1 (hi.trans hj.symm)

theorem mem_of_append (h : Labelled nodes labels marks) (label : List String) :
    ∀ below : List String, label ++ below ∈ labels → label ∈ labels := by
  intro below
  induction below using reverseRecOn with
  | nil => simp
  | append_singleton below token ih =>
    intro hmem
    rw [← append_assoc] at hmem
    exact ih (h.closed hmem)

variable {node : PathNode}

section

variable (h : Labelled nodes labels marks)
include h

theorem object (hnode : nodes[i]? = some node) (hlabel : labels[i]? = some label) (token : String) (child : Nat) :
    node.objectChildren.lookup token = some child ↔ labels[child]? = some (label ++ [token]) := by
  have hchild := h.child hnode hlabel (.key token) child
  simpa [PathToken.isNamedBy, childAt] using hchild

theorem array (hnode : nodes[i]? = some node) (hlabel : labels[i]? = some label) (idx child : Nat) :
    node.arrayChildren.lookup idx = some child ↔
      ∃ token, arrayIndex token = some idx ∧ labels[child]? = some (label ++ [token]) := by
  have hchild := h.child hnode hlabel (.index idx) child
  simpa [PathToken.isNamedBy, childAt] using hchild

theorem childIdForToken_iff (hlabel : labels[id]? = some label) (token : String) (child : Nat) :
    childIdForToken nodes id token = some child ↔ labels[child]? = some (label ++ [token]) := by
  obtain ⟨node, hnode⟩ := h.node_of_label hlabel
  rw [childIdForToken, hnode]
  simp only
  rcases hlookup : (arrayIndex token).bind fun idx => node.arrayChildren.lookup idx with _ | found
  · exact h.object hnode hlabel token child
  · -- the position leads to the node of its one spelling
    obtain ⟨idx, hidx, hfound⟩ := Option.bind_eq_some_iff.1 hlookup
    obtain ⟨token', hidx', hchild⟩ := (h.array hnode hlabel idx found).1 hfound
    obtain rfl := arrayIndex_inj hidx hidx'
    constructor
    · intro heq
      rw [← Option.some.inj heq]
      exact hchild
    · intro hlabel'
      exact congrArg some (h.index_unique hchild hlabel')

theorem modify {id : Nat} {label : List String} (hlabel : labels[id]? = some label) {f : PathNode → PathNode}
    {g : Marks → Marks} (hchild : ∀ node seg, (f node).childAt seg = node.childAt seg)
    (hmarks : ∀ node, (f node).marks = g node.marks) :
    Labelled (nodes.modify id f) labels (update marks label (g (marks label))) := by
  -- a node after the change comes from a node with the same children
  have hback : ∀ {i : Nat} {node : PathNode}, (nodes.modify id f)[i]? = some node →
      ∃ old, nodes[i]? = some old ∧ (node = if id = i then f old else old) := by
    intro i node hnode
    rw [getElem?_modify] at hnode
    obtain ⟨old, hold, rfl⟩ := Option.map_eq_some_iff.1 hnode
    exact ⟨old, hold, rfl⟩
  refine ⟨by rw [h.length_eq, length_modify], h.nodup, h.root, h.closed, ?_, ?_, ?_⟩
  · intro i node label' hnode hlabel' seg child
    obtain ⟨old, hold, rfl⟩ := hback hnode
    rw [← h.child hold hlabel' seg child]
    split
    · rw [hchild]
    · rfl
  · intro i node label' hnode hlabel'
    obtain ⟨old, hold, rfl⟩ := hback hnode
    have hmarked := h.marked hold hlabel'
    by_cases hid : id = i
    · subst hid
      cases hlabel.symm.trans hlabel'
      rw [if_pos rfl, hmarks, hmarked, update_self]
    · have hne : label' ≠ label := by
        rintro rfl
        exact hid (h.index_unique hlabel hlabel')
      rw [if_neg hid, hmarked, update_of_ne hne]
  · intro label' hlabel'
    have hne : label' ≠ label := by
      rintro rfl
      exact hlabel' (mem_of_getElem? hlabel)
    rw [update_of_ne hne, h.unmarked hlabel']

theorem linkToken_of_child {child : Nat} (hlabel : labels[id]? = some label)
    (hchild : labels[child]? = some (label ++ [token])) : linkToken nodes id token child = nodes := by
  apply ext_getElem?
  intro i
  rw [linkToken, getElem?_modify]
  split
  case isFalse => simp
  case isTrue hi =>
    subst hi
    obtain ⟨node, hnode⟩ := h.node_of_label hlabel
    have hobject := (h.object hnode hlabel token child).2 hchild
    rw [hnode]
    refine congrArg some ?_
    rcases hidx : arrayIndex token with _ | idx
    · simp [orInsert, hobject]
    · have harray := (h.array hnode hlabel idx child).2 ⟨token, hidx, hchild⟩
      simp [orInsert, hobject, harray]

/-- The nodes once a new child is linked: the others, the child and the parent. -/
theorem linked_cases {l : List String} (hid : id < nodes.length)
    (hnode : (linkToken (nodes ++ [.default]) id token nodes.length)[i]? = some node)
    (hl : (labels ++ [label])[i]? = some l) :
    (id ≠ i ∧ nodes[i]? = some node ∧ labels[i]? = some l) ∨ (i = nodes.length ∧ node = .default ∧ l = label) ∨
    (id = i ∧ labels[i]? = some l ∧ ∃ old, nodes[i]? = some old ∧ node = old.linked token nodes.length) := by
  rw [linkToken_eq, List.getElem?_modify] at hnode
  obtain ⟨old, hold, rfl⟩ := Option.map_eq_some_iff.1 hnode
  rcases getElem?_concat_iff.1 hold with hold | ⟨rfl, rfl⟩
  · have hi : i < nodes.length := (List.getElem?_eq_some_iff.1 hold).1
    have hl := (getElem?_concat_iff.1 hl).resolve_right fun heq => absurd heq.1 (by rw [h.length_eq]; omega)
    split
    case isTrue hii => exact .inr (.inr ⟨hii, hl, old, hold, rfl⟩)
    case isFalse hii => exact .inl ⟨hii, hold, hl⟩
  · rcases getElem?_concat_iff.1 hl with hl | ⟨-, rfl⟩
    · rw [List.getElem?_eq_none (by rw [h.length_eq])] at hl
      cases hl
    · rw [if_neg (Nat.ne_of_lt hid)]
      exact .inr (.inl ⟨rfl, rfl, rfl⟩)

theorem linkToken_new (hlabel : labels[id]? = some label) (hnew : label ++ [token] ∉ labels) :
    Labelled (linkToken (nodes ++ [.default]) id token nodes.length) (labels ++ [label ++ [token]])
      (Function.update marks label { marks label with hasChild := true }) := by
  obtain ⟨hid, -⟩ := List.getElem?_eq_some_iff.1 hlabel
  rw [h.length_eq] at hid
  have hparent : ∀ {i : Nat} {l : List String}, labels[i]? = some l → id ≠ i → l ≠ label := by
    rintro i l hl hne rfl
    exact hne (h.index_unique hlabel hl)
  have hbelow : ∀ {child : Nat} {t : String}, (labels ++ [label ++ [token]])[child]? ≠ some (label ++ [token] ++ [t]) := by
    intro child t hchild
    rcases getElem?_concat_iff.1 hchild with hold | ⟨-, heq⟩
    · exact hnew (h.closed (List.mem_of_getElem? hold))
    · exact absurd (congrArg List.length heq) (by simp)
  -- no child of the parent is found by the token yet
  have hfresh : ∀ {old : PathNode}, nodes[id]? = some old → ∀ seg : PathToken, seg.isNamedBy token = true →
      old.childAt seg = none := by
    intro old hold seg hnamed
    rw [Option.eq_none_iff_forall_ne_some]
    intro child hchild
    obtain ⟨token', hnamed', hchild⟩ := (h.child hold hlabel seg child).1 hchild
    obtain rfl := isNamedBy_inj hnamed hnamed'
    exact hnew (List.mem_of_getElem? hchild)
  refine ⟨?_, ?_, getElem?_concat_iff.2 (.inl h.root), ?_, ?_, ?_, ?_⟩
  · rw [linkToken, List.length_modify, List.length_append, List.length_append, h.length_eq]
    rfl
  · rw [List.nodup_append]
    refine ⟨h.nodup, List.nodup_singleton _, ?_⟩
    intro l hl l' hl' heq
    rw [List.mem_singleton] at hl'
    exact hnew (hl' ▸ heq ▸ hl)
  · intro l t hmem
    rcases List.mem_append.1 hmem with hmem | hmem
    · exact List.mem_append_left _ (h.closed hmem)
    · obtain ⟨rfl, -⟩ := List.append_inj' (List.mem_singleton.1 hmem) rfl
      exact List.mem_append_left _ (List.mem_of_getElem? hlabel)
  · intro i node l hnode hl seg child
    rcases h.linked_cases hid hnode hl with ⟨hne, hold, hl⟩ | ⟨rfl, rfl, rfl⟩ | ⟨rfl, hl, old, hold, rfl⟩
    · rw [h.child hold hl seg child]
      refine exists_congr fun token' => and_congr_right fun _ => ?_
      rw [getElem?_concat_iff]
      refine ⟨.inl, fun hor => hor.resolve_right ?_⟩
      rintro ⟨-, heq⟩
      exact hparent hl hne (List.append_inj' heq rfl).1
    · refine ⟨fun hnone => ?_, ?_⟩
      · cases seg <;> cases hnone
      rintro ⟨token', -, hchild⟩
      exact absurd hchild hbelow
    · cases hlabel.symm.trans hl
      rw [PathNode.linked_childAt (hfresh hold)]
      simp only [getElem?_concat_iff, h.length_eq]
      split
      case isTrue hnamed =>
        constructor
        · intro hchild
          exact ⟨token, hnamed, .inr ⟨(Option.some.inj hchild).symm, rfl⟩⟩
        · rintro ⟨token', hnamed', hold' | ⟨rfl, -⟩⟩
          · obtain rfl := isNamedBy_inj hnamed hnamed'
            exact absurd (List.mem_of_getElem? hold') hnew
          · rfl
      case isFalse hnamed =>
        rw [h.child hold hl seg child]
        refine exists_congr fun token' => and_congr_right fun hnamed' => ⟨.inl, fun hor => hor.resolve_right ?_⟩
        rintro ⟨-, heq⟩
        have htoken : token' = token := List.singleton_inj.1 (List.append_inj' heq rfl).2
        exact hnamed (htoken ▸ hnamed')
  · intro i node l hnode hl
    rcases h.linked_cases hid hnode hl with ⟨hne, hold, hl⟩ | ⟨rfl, rfl, rfl⟩ | ⟨rfl, hl, old, hold, rfl⟩
    · rw [Function.update_of_ne (hparent hl hne), h.marked hold hl]
    · rw [Function.update_of_ne (by simp), h.unmarked hnew]
      rfl
    · cases hlabel.symm.trans hl
      have hchildren : (old.linked token nodes.length).objectChildren.isEmpty = false := by
        have hlookup : old.objectChildren.lookup token = none := hfresh hold (.key token) (beq_self_eq_true token)
        rw [PathNode.linked, orInsert, hlookup]
        simp
      rw [Function.update_self, ← h.marked hold hl, PathNode.marks, hchildren]
      rfl
  · intro l hl
    have hne : l ≠ label := by
      rintro rfl
      exact hl (List.mem_append_left _ (List.mem_of_getElem? hlabel))
    rw [Function.update_of_ne hne, h.unmarked fun hmem => hl (List.mem_append_left _ hmem)]

theorem ensureChild {id : Nat} {label : List String} (hlabel : labels[id]? = some label) (token : String) :
    ∃ labels', Labelled (JsonOps.ensureChild nodes id token).1 labels'
        (Function.update marks label { marks label with hasChild := true }) ∧
      labels'[(JsonOps.ensureChild nodes id token).2]? = some (label ++ [token]) ∧
      labels'[id]? = some label := by
  rw [JsonOps.ensureChild]
  rcases hchild : childIdForToken nodes id token with _ | child
  · have hnew : label ++ [token] ∉ labels := by
      intro hmem
      obtain ⟨child, hmem⟩ := mem_iff_getElem?.1 hmem
      rw [(h.childIdForToken_iff hlabel token child).2 hmem] at hchild
      cases hchild
    exact ⟨_, h.linkToken_new hlabel hnew, getElem?_concat_iff.2 (.inr ⟨h.length_eq.symm, rfl⟩),
      getElem?_concat_iff.2 (.inl hlabel)⟩
  · have hchild := (h.childIdForToken_iff hlabel token child).1 hchild
    refine ⟨labels, ?_, hchild, hlabel⟩
    -- the parent has a child already
    obtain ⟨node, hnode⟩ := h.node_of_label hlabel
    have hmarks : { marks label with hasChild := true } = marks label := by
      have hobject := (h.object hnode hlabel token child).2 hchild
      rw [← h.marked hnode hlabel, PathNode.marks]
      cases hempty : node.objectChildren with
      | nil =>
        rw [hempty] at hobject
        cases hobject
      | cons _ _ => rfl
    rw [hmarks, Function.update_eq_self]
    simp only
    rw [h.linkToken_of_child hlabel hchild]
    exact h

end

end Labelled

/-! ## Inserting the tokens of an operation -/

def Marks.passed (m : Marks) (kind : OpKind) (last : Bool) : Marks :=
  { m with
    nested := m.nested || !last
    extractBranch := m.extractBranch || decide (kind = .extract)
    hasChild := true }

def Marks.targeted (m : Marks) (kind : OpKind) (idx : Nat) : Marks :=
  if kind = .extract then { m with extractIdx := some idx } else { m with mutateIdx := some idx }

/-- What `insert_tokens` does to the marks of every label. -/
def insertMarks (idx : Nat) (kind : OpKind) : List String → List String → (List String → Marks) → List String → Marks
  | _, [], marks => marks
  | label, token :: rest, marks =>
    if token = "-" ∧ rest = [] ∧ kind = .add then
      update marks label { marks label with arrayAppend := some idx }
    else
      let marks := update marks label ((marks label).passed kind rest.isEmpty)
      let marks :=
        if rest = [] then
          update marks (label ++ [token]) ((marks (label ++ [token])).targeted kind idx)
        else marks
      insertMarks idx kind (label ++ [token]) rest marks

theorem labelled_insertTokens (idx : Nat) (kind : OpKind) : ∀ (tokens : List String) {nodes : List PathNode}
    {labels : List (List String)} {marks : List String → Marks} {id : Nat} {label : List String},
    Labelled nodes labels marks → labels[id]? = some label →
    ∃ labels', Labelled (insertTokens idx kind nodes id tokens) labels' (insertMarks idx kind label tokens marks)
  | [], _, labels, _, _, _, h, _ => ⟨labels, h⟩
  | token :: rest, nodes, labels, marks, id, label, h, hlabel => by
    rw [insertTokens, insertMarks]
    split
    case isTrue =>
      exact ⟨labels, h.modify (g := fun m => { m with arrayAppend := some idx }) hlabel (by rintro _ (_ | _) <;> rfl)
        fun _ => rfl⟩
    case isFalse =>
      obtain ⟨labels', hchild, hchildLabel, hlabel'⟩ := h.ensureChild hlabel token
      have hpassed := hchild.modify (f := fun node => node.passed kind rest.isEmpty)
        (g := fun m => { m with
          nested := m.nested || !rest.isEmpty
          extractBranch := m.extractBranch || decide (kind = .extract) }) hlabel' (by rintro _ (_ | _) <;> rfl) fun _ => rfl
      rw [update_self, update_idem] at hpassed
      by_cases hrest : rest = []
      · have htarget := hpassed.modify (f := fun node => node.targeted kind idx) (g := fun m => m.targeted kind idx)
          hchildLabel (by rintro node (_ | _) <;> (rw [targeted]; split <;> rfl))
          (by intro node; rw [targeted, Marks.targeted]; split <;> rfl)
        simp only [if_pos hrest]
        exact labelled_insertTokens idx kind rest htarget hchildLabel
      · simp only [if_neg hrest]
        exact labelled_insertTokens idx kind rest hpassed hchildLabel

/-- The marks of one label, by what the label has below the place where the tokens start. -/
def markBelow (idx : Nat) (kind : OpKind) : List String → List String → Marks → Marks
  | [], _, m => m
  | token :: rest, below, m =>
    if token = "-" ∧ rest = [] ∧ kind = .add then (if below = [] then { m with arrayAppend := some idx } else m)
    else
      match below with
      | [] => m.passed kind rest.isEmpty
      | t :: below =>
        if t = token then markBelow idx kind rest below (if rest = [] ∧ below = [] then m.targeted kind idx else m) else m

theorem insertMarks_elsewhere (idx : Nat) (kind : OpKind) : ∀ (tokens : List String) {label q : List String}
    (marks : List String → Marks), ¬ label <+: q → insertMarks idx kind label tokens marks q = marks q
  | [], _, _, _, _ => rfl
  | token :: rest, label, q, marks, h => by
    have hlabel : q ≠ label := fun heq => h (heq ▸ prefix_refl q)
    have hchild : ¬ label ++ [token] <+: q := fun hpre => h ((prefix_append label [token]).trans hpre)
    have hne : q ≠ label ++ [token] := fun heq => hchild (heq ▸ prefix_refl _)
    rw [insertMarks]
    split
    case isTrue => rw [update_of_ne hlabel]
    case isFalse =>
      rw [insertMarks_elsewhere idx kind rest _ hchild]
      split
      · rw [update_of_ne hne, update_of_ne hlabel]
      · rw [update_of_ne hlabel]

theorem insertMarks_append (idx : Nat) (kind : OpKind) : ∀ (tokens label below : List String)
    (marks : List String → Marks),
    insertMarks idx kind label tokens marks (label ++ below) = markBelow idx kind tokens below (marks (label ++ below))
  | [], _, _, _ => rfl
  | token :: rest, label, below, marks => by
    have hself : label ++ below = label ↔ below = [] := append_right_eq_self
    rw [insertMarks, markBelow.eq_def]
    simp only
    split
    case isTrue =>
      by_cases hbelow : below = []
      · rw [if_pos hbelow, hself.2 hbelow, update_self]
      · rw [if_neg hbelow, update_of_ne (fun heq => hbelow (hself.1 heq))]
    case isFalse =>
      cases below with
      | nil =>
        have hchild : ¬ label ++ [token] <+: label := fun hpre => absurd hpre.length_le (by simp)
        have hne : label ≠ label ++ [token] := by simp
        rw [append_nil, insertMarks_elsewhere idx kind rest _ hchild]
        split
        · rw [update_of_ne hne, update_self]
        · rw [update_self]
      | cons t below =>
        have hlabel : label ++ t :: below ≠ label := by simp
        by_cases ht : t = token
        · subst ht
          have hassoc : label ++ t :: below = label ++ [t] ++ below := by simp
          simp only [if_true]
          rw [hassoc, insertMarks_append idx kind rest (label ++ [t]) below]
          congr 1
          rw [hassoc] at hlabel
          by_cases hrest : rest = []
          · by_cases hbelow : below = []
            · subst hbelow
              rw [append_nil] at hlabel ⊢
              rw [if_pos hrest, if_pos ⟨hrest, rfl⟩, update_self, update_of_ne hlabel]
            · have hne : label ++ [t] ++ below ≠ label ++ [t] := fun heq => hbelow (append_right_eq_self.1 heq)
              rw [if_pos hrest, if_neg (fun hand => hbelow hand.2), update_of_ne hne,
                update_of_ne hlabel]
          · rw [if_neg hrest, if_neg (fun hand => hrest hand.1), update_of_ne hlabel]
        · have hchild : ¬ label ++ [token] <+: label ++ t :: below := by
            rw [prefix_append_right_inj, singleton_prefix_cons_iff]
            exact fun heq => ht heq.symm
          have hne : label ++ t :: below ≠ label ++ [token] := by
            intro heq
            exact ht (cons.inj (append_cancel_left heq)).1
          simp only [if_neg ht]
          rw [insertMarks_elsewhere idx kind rest _ hchild]
          split
          · rw [update_of_ne hne, update_of_ne hlabel]
          · rw [update_of_ne hlabel]

/-! ## What an operation leaves where -/

/-- An add whose last token is `-`. -/
def isAppend (kind : OpKind) (tokens : List String) : Bool := decide (kind = .add) && tokens.getLast? == some "-"

@[simp] theorem isAppend_extract (tokens : List String) : isAppend .extract tokens = false := rfl

theorem isAppend_singleton (h : ¬ (token = "-" ∧ kind = .add)) : isAppend kind [token] = false := by
  simp only [isAppend, getLast?_singleton, Bool.and_eq_false_iff, decide_eq_false_iff_not, beq_eq_false_iff_ne, ne_eq,
    Option.some.injEq]
  by_contra hand
  simp only [not_or, not_not] at hand
  exact h ⟨hand.2, hand.1⟩

def Marks.work (m : Marks) : Bool :=
  m.nested || m.mutateIdx.isSome || m.extractIdx.isSome || m.hasChild || m.arrayAppend.isSome

/-- The marks of a label before and after an operation, field by field. -/
structure MarkedBy (idx : Nat) (kind : OpKind) (tokens label : List String) (m m' : Marks) : Prop where
  extractIdx : m'.extractIdx = if kind = .extract ∧ label = tokens then some idx else m.extractIdx
  mutateIdx : m'.mutateIdx =
    if kind ≠ .extract ∧ isAppend kind tokens = false ∧ label = tokens then some idx else m.mutateIdx
  arrayAppend : m'.arrayAppend =
    if isAppend kind tokens = true ∧ label = tokens.dropLast then some idx else m.arrayAppend
  extractBranch : m'.extractBranch = true ↔
    m.extractBranch = true ∨ (kind = .extract ∧ label <+: tokens ∧ (label ≠ tokens ∨ tokens = []))
  work : m'.work = true ↔ m.work = true ∨ (label <+: tokens ∧ (isAppend kind tokens = false ∨ label ≠ tokens))

theorem markedBy_self {tokens label : List String} (m : Marks) (h : ¬ label <+: tokens) :
    MarkedBy idx kind tokens label m m := by
  have hne : label ≠ tokens := fun heq => h (heq ▸ prefix_refl _)
  have hdrop : label ≠ tokens.dropLast := fun heq => h (heq ▸ dropLast_prefix _)
  constructor <;> simp [h, hne, hdrop]

/-- The last token of an add to the end of an array leaves its mark at the parent. -/
theorem markedBy_append (idx : Nat) (label : List String) (m : Marks) :
    MarkedBy idx .add ["-"] label m (if label = [] then { m with arrayAppend := some idx } else m) := by
  have happend : isAppend .add ["-"] = true := rfl
  by_cases hlabel : label = []
  · subst hlabel
    constructor <;> simp [happend, Marks.work]
  · by_cases hfull : label = ["-"]
    · subst hfull
      constructor <;> simp [happend, Marks.work]
    · have hprefix : ¬ label <+: ["-"] := by
        intro hpre
        rcases prefix_cons_iff.1 hpre with h | ⟨tail, h, htail⟩
        · exact hlabel h
        · rw [prefix_nil.1 htail] at h
          exact hfull h
      rw [if_neg hlabel]
      exact markedBy_self m hprefix

theorem markedBy_passed (idx : Nat) {rest : List String} (m : Marks) (h : ¬ (token = "-" ∧ rest = [] ∧ kind = .add)) :
    MarkedBy idx kind (token :: rest) [] m (m.passed kind rest.isEmpty) := by
  have happend : rest = [] → isAppend kind (token :: rest) = false := by
    rintro rfl
    exact isAppend_singleton fun hand => h ⟨hand.1, rfl, hand.2⟩
  constructor
  · simp [Marks.passed]
  · simp [Marks.passed]
  · cases rest with
    | nil => simp [Marks.passed, happend]
    | cons t rest => simp [Marks.passed]
  · simp [Marks.passed]
  · simp [Marks.passed, Marks.work]

theorem markedBy_targeted (idx : Nat) (m : Marks) (h : ¬ (token = "-" ∧ kind = .add)) :
    MarkedBy idx kind [token] [token] m (m.targeted kind idx) := by
  have happend := isAppend_singleton h
  rw [Marks.targeted]
  split
  case isTrue hkind => constructor <;> simp [hkind, Marks.work]
  case isFalse hkind => constructor <;> simp [happend, hkind, Marks.work]

theorem markedBy_markBelow (idx : Nat) (kind : OpKind) : ∀ (tokens : List String), tokens ≠ [] → ∀ (label : List String)
    (m : Marks), MarkedBy idx kind tokens label m (markBelow idx kind tokens label m)
  | [], hne, _, _ => absurd rfl hne
  | token :: rest, _, label, m => by
    rw [markBelow.eq_def]
    simp only
    split
    case isTrue happend =>
      obtain ⟨rfl, rfl, rfl⟩ := happend
      exact markedBy_append idx label m
    case isFalse happend =>
      cases label with
      | nil => exact markedBy_passed idx m happend
      | cons t label =>
        by_cases ht : t = token
        · subst ht
          simp only [if_true]
          cases rest with
          | nil =>
            cases label with
            | nil =>
              rw [if_pos ⟨rfl, rfl⟩, markBelow]
              exact markedBy_targeted idx m fun hand => happend ⟨hand.1, rfl, hand.2⟩
            | cons t' label =>
              rw [if_neg (by simp), markBelow]
              exact markedBy_self m (by simp)
          | cons t' rest =>
            rw [if_neg (by simp)]
            have ih := markedBy_markBelow idx kind (t' :: rest) (by simp) label m
            have hlast : isAppend kind (t :: t' :: rest) = isAppend kind (t' :: rest) := by
              rw [isAppend, isAppend, getLast?_cons_cons]
            exact {
              extractIdx := by simpa using ih.extractIdx
              mutateIdx := by simpa [hlast] using ih.mutateIdx
              arrayAppend := by simpa [hlast] using ih.arrayAppend
              extractBranch := by simpa using ih.extractBranch
              work := by simpa [hlast] using ih.work }
        · simp only [if_neg ht]
          refine markedBy_self m ?_
          rw [cons_prefix_cons]
          exact fun hand => ht hand.1

/-- What one operation does to the marks of a label. -/
def markOp (idx : Nat) (op : CompiledOp) (label : List String) (m : Marks) : Marks :=
  if op.tokens = [] then
    if label = [] then
      if op.kind = .extract then { m with extractIdx := some idx, extractBranch := true }
      else { m with mutateIdx := some idx }
    else m
  else markBelow idx op.kind op.tokens label m

theorem markedBy_markOp (idx : Nat) (op : CompiledOp) (label : List String) (m : Marks) :
    MarkedBy idx op.kind op.tokens label m (markOp idx op label m) := by
  rw [markOp]
  split
  case isFalse hroot => exact markedBy_markBelow idx op.kind op.tokens hroot label m
  case isTrue hroot =>
    have happend : isAppend op.kind [] = false := by simp [isAppend]
    rw [hroot]
    by_cases hlabel : label = []
    · subst hlabel
      rw [if_pos rfl]
      split
      case isTrue hkind => constructor <;> simp [hkind, Marks.work]
      case isFalse hkind => constructor <;> simp [happend, hkind, Marks.work]
    · rw [if_neg hlabel]
      exact markedBy_self m (by simpa using hlabel)

theorem labelled_insertOp {labels : List (List String)} {marks : List String → Marks} (h : Labelled nodes labels marks)
    (idx : Nat) (op : CompiledOp) :
    ∃ labels', Labelled (insertOp nodes idx op) labels' fun label => markOp idx op label (marks label) := by
  rw [insertOp]
  split
  case isTrue hroot =>
    refine ⟨labels, ?_⟩
    have hmodify := h.modify (f := fun node =>
        if op.kind = .extract then { node with extractIdx := some idx, extractBranch := true }
        else { node with mutateIdx := some idx })
      (g := fun m =>
        if op.kind = .extract then { m with extractIdx := some idx, extractBranch := true }
        else { m with mutateIdx := some idx }) h.root (by rintro node (_ | _) <;> (split <;> rfl))
      (by intro node; split <;> rfl)
    convert hmodify using 1
    funext label
    rw [markOp, if_pos hroot, update_apply]
    split
    case isTrue hlabel => rw [hlabel]
    case isFalse => rfl
  case isFalse hroot =>
    obtain ⟨labels', hlabels⟩ := labelled_insertTokens idx op.kind op.tokens h h.root
    refine ⟨labels', ?_⟩
    convert hlabels using 1
    funext label
    rw [markOp, if_neg hroot]
    exact (insertMarks_append idx op.kind op.tokens [] label marks).symm

/-! ## All operations -/

/-- The last index, counted from `idx`, of an operation with the property. -/
def lastIdx (p : CompiledOp → Bool) : Nat → List CompiledOp → Option Nat
  | _, [] => none
  | idx, op :: rest => (lastIdx p (idx + 1) rest).or (if p op then some idx else none)

theorem lastIdx_eq_some {p : CompiledOp → Bool} : ∀ {ops : List CompiledOp} {idx i : Nat}, lastIdx p idx ops = some i →
    ∃ op, ops[i - idx]? = some op ∧ idx ≤ i ∧ p op = true
  | [], _, _, h => by cases h
  | op :: rest, idx, i, h => by
    rw [lastIdx, Option.or_eq_some_iff] at h
    rcases h with h | ⟨-, h⟩
    · obtain ⟨found, hfound, hle, hp⟩ := lastIdx_eq_some h
      refine ⟨found, ?_, by omega, hp⟩
      rw [show i - idx = i - (idx + 1) + 1 by omega, getElem?_cons_succ]
      exact hfound
    · split at h
      case isFalse => cases h
      case isTrue hp =>
        cases h
        exact ⟨op, by simp, le_rfl, hp⟩

theorem lastIdx_eq_none {p : CompiledOp → Bool} : ∀ {ops : List CompiledOp} {idx : Nat},
    lastIdx p idx ops = none ↔ ∀ op ∈ ops, p op = false
  | [], _ => by simp [lastIdx]
  | op :: rest, idx => by
    rw [lastIdx, Option.or_eq_none_iff, lastIdx_eq_none, forall_mem_cons]
    simp [and_comm]

theorem lastIdx_congr {p q : CompiledOp → Bool} : ∀ {ops : List CompiledOp} {idx : Nat}, (∀ op ∈ ops, p op = q op) →
    lastIdx p idx ops = lastIdx q idx ops
  | [], _, _ => rfl
  | op :: rest, idx, h => by
    rw [lastIdx, lastIdx, h op mem_cons_self, lastIdx_congr fun op' hop => h op' (.tail op hop)]

def markOps : Nat → List CompiledOp → List String → Marks → Marks
  | _, [], _, m => m
  | idx, op :: rest, label, m => markOps (idx + 1) rest label (markOp idx op label m)

theorem labelled_insertOps : ∀ (ops : List CompiledOp) {nodes : List PathNode} {labels : List (List String)}
    {marks : List String → Marks} (idx : Nat), Labelled nodes labels marks →
    ∃ labels', Labelled (insertOps nodes idx ops) labels' fun label => markOps idx ops label (marks label)
  | [], _, labels, _, _, h => ⟨labels, h⟩
  | op :: rest, _, _, _, idx, h => by
    obtain ⟨labels', h'⟩ := labelled_insertOp h idx op
    exact labelled_insertOps rest (idx + 1) h'

section

variable {label : List String} (idx : Nat) (ops : List CompiledOp) (m : Marks) {p : CompiledOp → Prop}

/-- A mark that names an operation names the last one that leaves it. -/
theorem markOps_last {mark : Marks → Option Nat} [DecidablePred p]
    (hmark : ∀ idx op m, mark (markOp idx op label m) = if p op then some idx else mark m) :
    mark (markOps idx ops label m) = (lastIdx (fun op => decide (p op)) idx ops).or (mark m) := by
  induction ops generalizing idx m with
  | nil => rfl
  | cons op rest ih =>
    rw [markOps, ih, hmark, lastIdx, Option.or_assoc]
    by_cases h : p op <;> simp [h]

/-- A mark that is a flag is set once some operation sets it. -/
theorem markOps_any {mark : Marks → Bool} (hmark : ∀ idx op m, mark (markOp idx op label m) = true ↔ mark m = true ∨ p op) :
    mark (markOps idx ops label m) = true ↔ mark m = true ∨ ∃ op ∈ ops, p op := by
  induction ops generalizing idx m with
  | nil => simp [markOps]
  | cons op rest ih => rw [markOps, ih, hmark, exists_mem_cons_iff, or_assoc]

theorem markOps_extractIdx : (markOps idx ops label m).extractIdx =
    (lastIdx (fun op => decide (op.kind = .extract ∧ label = op.tokens)) idx ops).or m.extractIdx :=
  markOps_last idx ops m fun idx op m => (markedBy_markOp idx op label m).extractIdx

theorem markOps_mutateIdx : (markOps idx ops label m).mutateIdx =
    (lastIdx (fun op => decide (op.kind ≠ .extract ∧ isAppend op.kind op.tokens = false ∧ label = op.tokens)) idx ops).or
      m.mutateIdx :=
  markOps_last idx ops m fun idx op m => (markedBy_markOp idx op label m).mutateIdx

theorem markOps_arrayAppend : (markOps idx ops label m).arrayAppend =
    (lastIdx (fun op => decide (isAppend op.kind op.tokens = true ∧ label = op.tokens.dropLast)) idx ops).or m.arrayAppend :=
  markOps_last idx ops m fun idx op m => (markedBy_markOp idx op label m).arrayAppend

theorem markOps_extractBranch : (markOps idx ops label m).extractBranch = true ↔ m.extractBranch = true ∨
    ∃ op ∈ ops, op.kind = .extract ∧ label <+: op.tokens ∧ (label ≠ op.tokens ∨ op.tokens = []) :=
  markOps_any idx ops m fun idx op m => (markedBy_markOp idx op label m).extractBranch

theorem markOps_work : (markOps idx ops label m).work = true ↔ m.work = true ∨
    ∃ op ∈ ops, label <+: op.tokens ∧ (isAppend op.kind op.tokens = false ∨ label ≠ op.tokens) :=
  markOps_any idx ops m fun idx op m => (markedBy_markOp idx op label m).work

end

end Praxis.JsonOps
