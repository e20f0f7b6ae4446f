/-
The rewriter makes the changes that the calls ask for. With static payloads, the bytes it writes
are a text of the tree that the edits of the calls make of the tree of its input.
-/
import Praxis.JsonOps.Acceptance
import Praxis.Lib.JsonEdit

namespace Praxis.JsonOps

open List Praxis.Lib Praxis.Lib.Json

/-! ## The edits of the calls -/

/-- What a call with a static value asks for. -/
def Call.change : Call → Option Change
  | .add _ (.staticJson val) => some (.add val.tree)
  | .replace _ (.staticJson val) => some (.replace val.tree)
  | .remove _ => some .remove
  | _ => none

def Call.edit (call : Call) : Option Edit :=
  match compilePointer call.pointer with
  | .ok tokens => call.change.map fun change => ⟨tokens, change⟩
  | .error _ => none

section

variable (sj : SerdeJson)

/-- The tree of a static payload. -/
noncomputable def CompiledOp.payloadTree (op : CompiledOp) : Tree :=
  ((staticPayload op).bind fun payload => (payloadCst payload).tree sj.decodeString).getD .null

noncomputable def CompiledOp.change (op : CompiledOp) : Option Change :=
  match op.kind with
  | .add => some (.add (op.payloadTree sj))
  | .replace => some (.replace (op.payloadTree sj))
  | .remove => some .remove
  | .extract => none

noncomputable def CompiledOp.edit (op : CompiledOp) : Option Edit := (op.change sj).map fun change => ⟨op.tokens, change⟩

/-- The edit of an operation, as it is at a path. -/
noncomputable def CompiledOp.editAt (path : List PathToken) (op : CompiledOp) : Option Edit :=
  (op.edit sj).bind (Edit.along (path.map PathToken.isNamedBy))

/-- The edits of a set, as they are at a path. -/
noncomputable def editsAt (set : CompiledOpSet) (path : List PathToken) : List Edit := set.ops.filterMap (·.editAt sj path)

end

variable {sj : SerdeJson} {set : CompiledOpSet} {op : CompiledOp}

theorem payloadTree_static (laws : sj.Laws) {val : Value} (h : op.source = some (.static (sj.encodeValue val))) :
    staticPayload op = some (sj.encodeValue val) ∧ IsText (sj.encodeValue val) ∧
      (payloadCst (sj.encodeValue val)).tree sj.decodeString = some val.tree ∧ op.payloadTree sj = val.tree := by
  have hpayload : staticPayload op = some (sj.encodeValue val) := by rw [staticPayload, h]
  obtain ⟨c, hc, htree⟩ := laws.encodeValue_text val
  have hcst : (payloadCst (sj.encodeValue val)).tree sj.decodeString = some val.tree := by
    rw [hc, payloadCst_tree, htree]
  refine ⟨hpayload, ⟨c, hc.symm⟩, hcst, ?_⟩
  rw [CompiledOp.payloadTree, hpayload, Option.bind_some, hcst, Option.getD_some]

theorem edits_of_calls (laws : sj.Laws) {headerNameOk : String → Bool} {calls : List Call}
    (hbuild : buildOps sj headerNameOk calls = .ok set) (hstatic : ∀ call ∈ calls, call.isStatic) :
    set.ops.filterMap (·.edit sj) = calls.filterMap Call.edit := by
  have hone : ∀ {call : Call} {op : CompiledOp}, call.isStatic → compileCall sj headerNameOk call = .ok op →
      op.edit sj = call.edit := by
    intro call op hstatic hcompile
    obtain ⟨hkind, htokens, hsource, -⟩ := compileCall_parts hcompile
    rw [CompiledOp.edit, CompiledOp.change, hkind, Call.edit, htokens]
    cases call with
    | extract pointer dest => rfl
    | add pointer val =>
      obtain ⟨v, rfl⟩ := hstatic _ rfl
      obtain ⟨-, -, -, htree⟩ := payloadTree_static laws hsource
      simp only [Call.kind, Call.change, Option.map_some, htree]
    | replace pointer val =>
      obtain ⟨v, rfl⟩ := hstatic _ rfl
      obtain ⟨-, -, -, htree⟩ := payloadTree_static laws hsource
      simp only [Call.kind, Call.change, Option.map_some, htree]
    | remove pointer => rfl
  have hall := buildOps_eq_ok hbuild
  clear hbuild
  revert hall hstatic
  generalize set.ops = ops
  intro hstatic hall
  revert hstatic
  induction hall with
  | nil => exact fun _ => rfl
  | cons hcompile _ ih =>
    intro hstatic
    rw [filterMap_cons, filterMap_cons, hone (hstatic _ (.head _)) hcompile,
      ih fun call hcall => hstatic call (.tail _ hcall)]

/-! ## Edits at a path -/

theorem editsAt_root : editsAt sj set [] = set.ops.filterMap (·.edit sj) := by
  have hroot : ∀ op : CompiledOp, op.editAt sj [] = op.edit sj := by
    intro op
    rw [CompiledOp.editAt]
    cases op.edit sj <;> rfl
  rw [editsAt]
  exact congrArg (filterMap · set.ops) (funext hroot)

theorem editsAt_concat (path : List PathToken) (segment : PathToken) :
    editsAt sj set (path ++ [segment]) = below segment.isNamedBy (editsAt sj set path) := by
  rw [editsAt, editsAt, below, filterMap_filterMap]
  refine congrArg (filterMap · set.ops) (funext fun op => ?_)
  rw [CompiledOp.editAt, CompiledOp.editAt, Option.bind_assoc, map_append, map_singleton]
  exact congrArg _ (funext fun e => Edit.along_concat _ _ e)

theorem below_key {path : List PathToken} (key : String) :
    below (key == ·) (editsAt sj set path) = editsAt sj set (path ++ [.key key]) := (editsAt_concat path (.key key)).symm

theorem below_index (path : List PathToken) (i : Nat) :
    below (isPosition arrayIndex i) (editsAt sj set path) = editsAt sj set (path ++ [.index i]) :=
  (editsAt_concat path (.index i)).symm

variable {change : Change} {path : List PathToken}

theorem appends_eq (h : op.change sj = some change) : (Edit.mk op.tokens change).appends = isAppend op.kind op.tokens := by
  rw [CompiledOp.change] at h
  cases hkind : op.kind with
  | extract =>
    rw [hkind] at h
    cases h
  | _ =>
    rw [hkind] at h
    cases h
    rfl

theorem editAt_eq_some {e : Edit} : op.editAt sj path = some e ↔
    ∃ taken, Names path taken ∧ op.tokens = taken ++ e.target ∧ op.change sj = some e.change ∧
      (e.target = [] → isAppend op.kind op.tokens = false) := by
  rw [CompiledOp.editAt, CompiledOp.edit, Option.bind_map, Option.bind_eq_some_iff]
  simp only [Function.comp_apply, Edit.along_eq_some, forall₂_map_left_iff]
  constructor
  · rintro ⟨change, hchange, taken, hnames, htarget, rfl, hplace⟩
    rw [appends_eq hchange] at hplace
    exact ⟨taken, hnames, htarget, hchange, hplace⟩
  · rintro ⟨taken, hnames, htarget, hchange, hplace⟩
    rw [← appends_eq hchange] at hplace
    exact ⟨e.change, hchange, taken, hnames, htarget, rfl, hplace⟩

theorem change_eq_none : op.change sj = none ↔ op.kind = .extract := by
  rw [CompiledOp.change]
  cases op.kind <;> simp

theorem change_isAdd (h : op.change sj = some change) : change.isAdd = true ↔ op.kind = .add := by
  rw [CompiledOp.change] at h
  cases hkind : op.kind with
  | extract =>
    rw [hkind] at h
    cases h
  | _ =>
    rw [hkind] at h
    cases h
    simp [Change.isAdd]

theorem editAt_here (op : CompiledOp) : ((op.editAt sj path).any fun e => e.target.isEmpty) = op.mutatesAt path := by
  rw [Bool.eq_iff_iff, Option.any_eq_true, CompiledOp.mutatesAt, Bool.and_eq_true, Bool.and_eq_true, pathEqTokens_iff]
  simp only [decide_eq_true_eq, Bool.not_eq_true', List.isEmpty_iff, editAt_eq_some]
  constructor
  · rintro ⟨e, ⟨taken, hnames, htokens, hchange, hplace⟩, hend⟩
    rw [hend, List.append_nil] at htokens
    refine ⟨⟨?_, hplace hend⟩, htokens ▸ hnames⟩
    intro hkind
    rw [change_eq_none.2 hkind] at hchange
    cases hchange
  · rintro ⟨⟨hkind, happend⟩, hnames⟩
    obtain ⟨change, hchange⟩ := Option.ne_none_iff_exists'.1 (mt change_eq_none.1 hkind)
    exact ⟨⟨[], change⟩, ⟨op.tokens, hnames, (List.append_nil _).symm, hchange, fun _ => happend⟩, rfl⟩

theorem editAt_append (op : CompiledOp) :
    ((op.editAt sj path).any fun e => e.target == ["-"] && e.change.isAdd) = op.appendsAt path := by
  rw [Bool.eq_iff_iff, Option.any_eq_true, CompiledOp.appendsAt, Bool.and_eq_true, pathEqTokens_iff]
  simp only [Bool.and_eq_true, beq_iff_eq, editAt_eq_some]
  constructor
  · rintro ⟨e, ⟨taken, hnames, htokens, hchange, -⟩, hend, hadd⟩
    rw [hend] at htokens
    rw [htokens, dropLast_concat, isAppend, (change_isAdd hchange).1 hadd]
    exact ⟨by simp, hnames⟩
  · rintro ⟨happend, hnames⟩
    rw [isAppend, Bool.and_eq_true, decide_eq_true_eq, beq_iff_eq] at happend
    obtain ⟨hkind, hlast⟩ := happend
    have hne : op.kind ≠ .extract := by rw [hkind]; decide
    obtain ⟨change, hchange⟩ := Option.ne_none_iff_exists'.1 (mt change_eq_none.1 hne)
    refine ⟨⟨["-"], change⟩, ⟨op.tokens.dropLast, hnames, ?_, hchange, by rintro ⟨⟩⟩, rfl, (change_isAdd hchange).2 hkind⟩
    exact (dropLast_append_getLast? "-" hlast).symm

theorem find_editsAt {p : Edit → Bool} {q : CompiledOp → Bool} (h : ∀ op : CompiledOp, (op.editAt sj path).any p = q op) :
    ((editsAt sj set path).find? p).map Edit.change = (set.ops.find? q).bind (·.change sj) := by
  rw [editsAt, find?_filterMap]
  simp only [h]
  rcases hfind : set.ops.find? q with _ | op
  · rfl
  · have hq := find?_some hfind
    rw [← h] at hq
    obtain ⟨e, he, -⟩ := Option.any_eq_true _ _ |>.1 hq
    obtain ⟨-, -, -, hchange, -⟩ := editAt_eq_some.1 he
    rw [Option.bind_some, Option.bind_some, he, hchange, Option.map_some]

section

variable (hacc : Accepted sj set)

include hacc

omit hacc in
theorem find_of_unique {α : Type} {xs : List α} {p : α → Bool}
    (hunique : ∀ {i j : Nat} {a b : α}, xs[i]? = some a → xs[j]? = some b → p a = true → p b = true → i = j) {x : α}
    (hx : x ∈ xs) (hp : p x = true) : xs.find? p = some x := by
  rcases hfind : xs.find? p with _ | first
  · exact absurd hp (find?_eq_none.1 hfind x hx)
  · obtain ⟨i, hi⟩ := mem_iff_getElem?.1 (mem_of_find?_eq_some hfind)
    obtain ⟨j, hj⟩ := mem_iff_getElem?.1 hx
    obtain rfl := hunique hi hj (find?_some hfind) hp
    exact hi.symm.trans hj

omit hacc in
theorem opAt_eq_find (p : CompiledOp → Bool)
    (hunique : ∀ {i j : Nat} {a b : CompiledOp}, set.ops[i]? = some a → set.ops[j]? = some b → p a = true → p b = true → i = j) :
    (set.opAt (lastIdx p 0 set.ops)).map Prod.snd = set.ops.find? p := by
  rcases hop : set.opAt (lastIdx p 0 set.ops) with _ | ⟨i, op⟩
  · have hnone := opAt_eq_none.1 hop
    rw [Option.map_none, eq_comm, find?_eq_none]
    intro op hmem
    rw [hnone op hmem]
    decide
  · obtain ⟨hget, hp⟩ := opAt_eq_some hop
    exact (find_of_unique hunique (mem_of_getElem? hget) hp).symm

theorem here_index (path : List PathToken) (i : Nat) : here (editsAt sj set (path ++ [.index i])) =
    (set.opAt (set.index.mutateAtIndex path i)).bind fun found => found.2.change sj := by
  have hunique := opAt_eq_find (fun op => op.mutatesAt (path ++ [.index i]))
    fun hi hj ha hb => (mutatesAt_unique hacc hi hj ha hb).1
  rw [here, find_editsAt fun op => editAt_here op, ← hunique, hacc.index_eq, OpPathIndex.mutateAtIndex_eq,
    Option.bind_map]
  rfl

variable {path : List PathToken} {op : CompiledOp} {idx : Nat} {sess : RewriteSession} {val : Cst} {t : Tree}
  {loud : RewriteSession → Option (Cst × RewriteSession)} {key : String} {sat : List String}

theorem here_of_mutatesAt (hop : op ∈ set.ops) (hmutates : op.mutatesAt path = true) :
    here (editsAt sj set path) = op.change sj := by
  have hfind : set.ops.find? (fun op => op.mutatesAt path) = some op :=
    find_of_unique (fun hi hj ha hb => (mutatesAt_unique hacc hi hj ha hb).1) hop hmutates
  rw [here, find_editsAt fun op => editAt_here op, hfind, Option.bind_some]

omit hacc in
theorem here_eq_none (h : ∀ op ∈ set.ops, op.mutatesAt path = false) : here (editsAt sj set path) = none := by
  have hfind : set.ops.find? (fun op => op.mutatesAt path) = none := find?_eq_none.2 (by simpa using h)
  rw [here, find_editsAt fun op => editAt_here op, hfind, Option.bind_none]

variable {i : Nat} {dec : Bytes → Option String} {c : Cst} {sess' s s' : RewriteSession} {item : Option Cst}
  {keys : List String}

theorem appendsAt_unique {j : Nat} {a b : CompiledOp} (hi : set.ops[i]? = some a) (hj : set.ops[j]? = some b)
    (ha : a.appendsAt path = true) (hb : b.appendsAt path = true) : i = j := by
  have hparts : ∀ {op : CompiledOp}, op.appendsAt path = true →
      op.kind ≠ .extract ∧ ∃ front, Names path front ∧ op.tokens = front ++ ["-"] := by
    intro op hop
    rw [CompiledOp.appendsAt, isAppend, Bool.and_eq_true, Bool.and_eq_true, decide_eq_true_eq, beq_iff_eq, pathEqTokens_iff] at hop
    refine ⟨by rw [hop.1.1]; decide, op.tokens.dropLast, hop.2, ?_⟩
    exact (dropLast_append_getLast? "-" hop.1.2).symm
  obtain ⟨hakind, afront, hanames, hatokens⟩ := hparts ha
  obtain ⟨hbkind, bfront, hbnames, hbtokens⟩ := hparts hb
  have htokens : a.tokens = b.tokens := by rw [hatokens, hbtokens, hanames.inj hbnames]
  exact hacc.eq_of_isPrefix hi hj hakind hbkind (htokens ▸ prefix_refl _)

theorem append_change (path : List PathToken) :
    ((editsAt sj set path).find? fun e => e.target == ["-"] && e.change.isAdd).map Edit.change =
      (set.opAt (set.index.addAppend path)).bind fun found => found.2.change sj := by
  have hunique := opAt_eq_find (fun op => op.appendsAt path) fun hi hj ha hb => appendsAt_unique hacc hi hj ha hb
  rw [find_editsAt fun op => editAt_append op, ← hunique, hacc.index_eq, OpPathIndex.addAppend_eq, Option.bind_map]
  rfl

/-- No edit leads to a value that the rewriter copies. -/
theorem editsAt_eq_nil (h : set.index.hasDescendantOps path = false) : editsAt sj set path = [] := by
  rw [editsAt, filterMap_eq_nil_iff]
  intro op hop
  by_contra hne
  obtain ⟨e, he⟩ := Option.ne_none_iff_exists'.1 hne
  obtain ⟨taken, hnames, htokens, -, hplace⟩ := editAt_eq_some.1 he
  rw [← Bool.not_eq_true, hacc.index_eq, OpPathIndex.hasDescendantOps_iff] at h
  refine h ⟨op, hop, reaches_iff.2 ⟨taken, hnames, htokens ▸ prefix_append _ _⟩, ?_⟩
  by_cases hend : e.target = []
  · exact .inl (hplace hend)
  · right
    rw [← Bool.not_eq_true, pathEqTokens_iff]
    intro hall
    rw [hnames.inj hall] at htokens
    exact hend (append_right_eq_self.1 htokens.symm)

theorem edit_copied (h : set.index.hasDescendantOps path = false) (t : Tree) :
    t.edit arrayIndex (editsAt sj set path) = t := by
  rw [editsAt_eq_nil hacc h, Tree.edit_nil]

/-! ## Sessions with static payloads -/

omit hacc in
/-- The payloads are those that were known from the start. -/
def StaticSession (set : CompiledOpSet) (sess : RewriteSession) : Prop := sess.resolved = set.ops.map staticPayload

variable (hstatic : StaticPayloads sj set)

include hstatic

theorem resolve_static (laws : sj.Laws) (hop : set.ops[idx]? = some op) (hkind : op.kind = .add ∨ op.kind = .replace)
    (h : StaticSession set sess) :
    ∃ payload, resolvePayload sj idx op sess = (some payload, sess) ∧ IsText payload ∧
      (payloadCst payload).tree sj.decodeString = some (op.payloadTree sj) := by
  have hmem := mem_of_getElem? hop
  have hsource : ∃ source, op.source = some source := by
    cases hacc.compiled op hmem with
    | add _ _ | replace _ _ => exact ⟨_, rfl⟩
    | _ => simp at hkind
  obtain ⟨source, hsource⟩ := hsource
  obtain ⟨val, rfl⟩ := hstatic op hmem source hsource
  obtain ⟨hpayload, htext, hcst, htree⟩ := payloadTree_static laws hsource
  refine ⟨_, ?_, htext, htree ▸ hcst⟩
  have hcached : sess.resolved[idx]? = some (some (sj.encodeValue val)) := by
    rw [h, getElem?_map, hop, Option.map_some, hpayload]
  simp only [resolvePayload, hcached]
  rfl

theorem keeps_static (laws : sj.Laws) : Keeps sj set (StaticSession set) where
  capture h := (storeCapture_resolved ..).trans h
  resolve {idx op sess} hop h := by
    rcases hkind : op.kind with _ | _ | _ | _
    · obtain ⟨payload, heq, -⟩ := resolve_static hacc hstatic laws hop (.inl hkind) h
      rwa [heq]
    · obtain ⟨payload, heq, -⟩ := resolve_static hacc hstatic laws hop (.inr hkind) h
      rwa [heq]
    all_goals
      -- neither a remove nor an extract has a source
      have hsource : op.source = none := by
        cases hacc.compiled op (mem_of_getElem? hop) with
        | add | replace => cases hkind
        | _ => rfl
      rw [resolvePayload, hsource]
      split <;> exact h

/-! ## The walk makes the edits -/

omit hacc hstatic in
/-- The item is a text of the member. -/
def RendersMember (dec : Bytes → Option String) (item : StrTok × Cst) (m : String × Tree) : Prop :=
  dec item.1.text = some m.1 ∧ item.2.tree dec = some m.2

omit hacc hstatic in
theorem ofElems_trees {items : List Cst} {ts : List Tree} (h : Forall₂ (fun c t => Cst.tree dec c = some t) items ts) :
    (ofElems items).trees dec = some ts := by
  induction h with
  | nil => rfl
  | cons hc _ ih => rw [ofElems, Elems.trees, hc, ih]

omit hacc hstatic in
theorem ofMembers_trees {items : List (StrTok × Cst)} {ms : List (String × Tree)}
    (h : Forall₂ (RendersMember dec) items ms) : (ofMembers items).trees dec = some ms := by
  induction h with
  | nil => rfl
  | cons hm _ ih => rw [ofMembers, Members.trees, hm.1, hm.2, ih]

theorem payloadOr_static (laws : sj.Laws) (hop : set.ops[idx]? = some op) (hkind : op.kind = .add ∨ op.kind = .replace)
    (val : Cst) (h : StaticSession set sess) :
    ∃ c, payloadOr sj true idx op val sess = (c, sess) ∧
      c.tree sj.decodeString = some (op.payloadTree sj) := by
  obtain ⟨payload, heq, -, htree⟩ := resolve_static hacc hstatic laws hop hkind h
  exact ⟨payloadCst payload, by simp only [payloadOr, if_true, heq], htree⟩

theorem noteSatisfied_static (laws : sj.Laws) (hop : set.ops[idx]? = some op) (sat : List String)
    (h : StaticSession set sess) :
    noteSatisfied sj idx op sat sess =
      (sat ++ (if op.kind = .add then [op.tokens.getLast?.getD ""] else []), sess) := by
  rw [noteSatisfied]
  split
  case isTrue hkind =>
    obtain ⟨payload, heq, -⟩ := resolve_static hacc hstatic laws hop (.inl hkind) h
    simp only [heq]
  case isFalse => rw [append_nil]

omit hstatic in
theorem kept_edit (ht : val.tree sj.decodeString = some t) (hloud : ∀ c s, loud sess = some (c, s) →
      c.tree sj.decodeString = some (t.edit arrayIndex (editsAt sj set path)))
    (h : (if set.index.hasDescendantOps path then loud sess else some (val, sess)) = some (c, sess')) :
    c.tree sj.decodeString = some (t.edit arrayIndex (editsAt sj set path)) := by
  split at h
  case isTrue => exact hloud c sess' h
  case isFalse hops =>
    cases h
    rw [edit_copied hacc (by simpa using hops)]
    exact ht

omit hacc hstatic in
theorem getLast_of_mutatesAt (h : op.mutatesAt (path ++ [.key key]) = true) : op.tokens.getLast?.getD "" = key := by
  rw [CompiledOp.mutatesAt, Bool.and_eq_true, pathEqTokens_iff, names_concat_iff] at h
  obtain ⟨-, front, token, htokens, -, htoken⟩ := h
  rw [htokens, getLast?_concat, Option.getD_some]
  exact (beq_iff_eq.1 htoken).symm

theorem replaced_edit (laws : sj.Laws) (h : StaticSession set sess) (hop : set.ops[idx]? = some op)
    (htakes : op.takes path = true) (hkind : op.kind ≠ .remove)
    (hs : consumed sj set path [] val (walkValue sj set false path val) sess = some s)
    (hor : payloadOr sj true idx op val s = (c, s')) :
    s' = s ∧ StaticSession set s ∧ (op.kind = .add ∨ op.kind = .replace) ∧
      c.tree sj.decodeString = some (op.payloadTree sj) := by
  have hstaticS := kept_consumed hacc (keeps_static hacc hstatic laws) h hs
  have hpayload : op.kind = .add ∨ op.kind = .replace := by
    have hextract := kind_of_mutatesAt (mutatesAt_of_takes htakes)
    cases hk : op.kind with
    | add => exact .inl rfl
    | replace => exact .inr rfl
    | remove => exact absurd hk hkind
    | extract => exact absurd hk hextract
  obtain ⟨c₀, hor₀, htree⟩ := payloadOr_static hacc hstatic laws hop hpayload val hstaticS
  cases hor₀.symm.trans hor
  exact ⟨rfl, hstaticS, hpayload, htree⟩

theorem walkMember_edit (laws : sj.Laws) {tok : StrTok} {gap : Ws} {sat' : List String}
    (hkey : sj.decodeString tok.text = some key) (ht : val.tree sj.decodeString = some t)
    (h : StaticSession set sess)
    (hvalue : ∀ c s, walkValue sj set true (path ++ [.key key]) val sess = some (c, s) →
      c.tree sj.decodeString = some (t.edit arrayIndex (editsAt sj set (path ++ [.key key]))))
    (htaken : Taken sj set true (path ++ [.key key]) gap.bytes val sess item s)
    (hnoted : Noted sj set (path ++ [.key key]) sat s sat' s') :
    Forall₂ (RendersMember sj.decodeString) (item.toList.map (tok, ·))
        (changeMember key (t.edit arrayIndex (editsAt sj set (path ++ [.key key])))
          (here (editsAt sj set (path ++ [.key key])))) ∧
      sat' = sat ++ if (here (editsAt sj set (path ++ [.key key]))).any Change.isAdd then [key] else [] := by
  have hstaticS := kept_taken hacc (keeps_static hacc hstatic laws) h htaken
  -- what is noted
  have hsatisfied : sat' = sat ++
      if (here (editsAt sj set (path ++ [.key key]))).any Change.isAdd then [key] else [] := by
    rcases hnoted with ⟨hnone, rfl, -⟩ | ⟨idx, op, hop, hmutates, hnote⟩
    · rw [here_eq_none hnone]
      simp
    · rw [noteSatisfied_static hacc hstatic laws hop sat hstaticS, getLast_of_mutatesAt hmutates] at hnote
      cases hnote
      rw [here_of_mutatesAt hacc (mem_of_getElem? hop) hmutates, CompiledOp.change]
      cases op.kind <;> rfl
  refine ⟨?_, hsatisfied⟩
  cases htaken with
  | removed hop htakes hkind hs =>
    rw [here_of_mutatesAt hacc (mem_of_getElem? hop) (mutatesAt_of_takes htakes), CompiledOp.change, hkind]
    exact .nil
  | replaced hop htakes hkind hs hor =>
    obtain ⟨-, -, hpayload, htree⟩ := replaced_edit hacc hstatic laws h hop htakes hkind hs hor
    rw [here_of_mutatesAt hacc (mem_of_getElem? hop) (mutatesAt_of_takes htakes), CompiledOp.change]
    rcases hpayload with hk | hk
    all_goals
      rw [hk]
      exact .cons ⟨hkey, htree⟩ .nil
  | stays hnone hs =>
    rw [here_eq_none fun op hop => by rw [← takes_eq_key, hnone op hop]]
    exact .cons ⟨hkey, kept_edit hacc ht hvalue hs⟩ .nil

theorem addElem_edit (laws : sj.Laws) (idx : Option Nat) (h : StaticSession set sess) :
    ∃ items, addElem sj set idx sess = (items, sess) ∧
      Forall₂ (fun c t => c.tree sj.decodeString = some t) items
        (addedValue ((set.opAt idx).bind fun found => found.2.change sj)) := by
  rw [addElem]
  rcases hop : set.opAt idx with _ | ⟨i, op⟩
  · exact ⟨[], rfl, .nil⟩
  · simp only [Option.bind_some]
    split
    case isTrue hkind =>
      obtain ⟨payload, heq, -, htree⟩ := resolve_static hacc hstatic laws (getElem?_of_opAt hop).2 (.inl hkind) h
      refine ⟨[payloadCst payload], by rw [heq], ?_⟩
      rw [CompiledOp.change, hkind]
      exact .cons htree .nil
    case isFalse hkind =>
      refine ⟨[], rfl, ?_⟩
      have hnone : addedValue (op.change sj) = [] := by
        rw [CompiledOp.change]
        cases hk : op.kind with
        | add => exact absurd hk hkind
        | _ => rfl
      rw [hnone]
      exact .nil

theorem walkElem_edit (laws : sj.Laws) (ht : val.tree sj.decodeString = some t) (h : StaticSession set sess)
    (hvalue : ∀ c s, walkValue sj set true (path ++ [.index i]) val sess = some (c, s) →
      c.tree sj.decodeString = some (t.edit arrayIndex (editsAt sj set (path ++ [.index i]))))
    (htaken : Taken sj set true (path ++ [.index i]) [] val sess item sess') :
    Forall₂ (fun c t => c.tree sj.decodeString = some t)
      ((addElem sj set (set.index.mutateAtIndex path i) sess).1 ++ item.toList)
      (changeElem (t.edit arrayIndex (editsAt sj set (path ++ [.index i])))
        (here (editsAt sj set (path ++ [.index i])))) := by
  obtain ⟨added, hadded, htrees⟩ := addElem_edit hacc hstatic laws (set.index.mutateAtIndex path i) h
  rw [← here_index hacc] at htrees
  rw [hadded]
  cases htaken with
  | removed hop htakes hkind hs =>
    rw [here_of_mutatesAt hacc (mem_of_getElem? hop) (mutatesAt_of_takes htakes), CompiledOp.change, hkind] at htrees ⊢
    cases htrees
    exact .nil
  | replaced hop htakes hkind hs hor =>
    obtain ⟨-, -, hpayload, htree⟩ := replaced_edit hacc hstatic laws h hop htakes hkind hs hor
    rw [here_of_mutatesAt hacc (mem_of_getElem? hop) (mutatesAt_of_takes htakes), CompiledOp.change] at htrees ⊢
    rcases hpayload with hk | hk
    · -- an add at a position takes nothing
      simp [CompiledOp.takes, hk, intoArray] at htakes
    · rw [hk] at htrees ⊢
      cases htrees
      exact .cons htree .nil
  | stays hnone hs =>
    have helem := kept_edit hacc ht hvalue hs
    rcases hop : set.opAt (set.index.mutateAtIndex path i) with _ | ⟨idx, op⟩
    · rw [here_index hacc, hop, Option.bind_none] at htrees ⊢
      cases htrees
      exact .cons helem .nil
    · -- the operation is an add: the element stays, after what is added
      obtain ⟨hget, hmutates⟩ := hacc.opAt_index hop
      have hmem := mem_of_getElem? hget
      have hkind : op.kind = .add := by
        by_contra hne
        have htakes := takes_of_mutatesAt hmutates hne
        rw [hnone op hmem] at htakes
        cases htakes
      rw [here_of_mutatesAt hacc hmem hmutates, CompiledOp.change, hkind] at htrees ⊢
      exact rel_append htrees (.cons helem .nil)

/-! ### Members that are added -/

omit hacc hstatic in
theorem parentIs_iff : parentIs op path = true ↔ ∃ front last, op.tokens = front ++ [last] ∧ Names path front := by
  rw [parentIs, Bool.and_eq_true, decide_eq_true_eq, pathEqTokens_iff]
  constructor
  · rintro ⟨hlen, hnames⟩
    have hdrop : (op.tokens.drop path.length).length = 1 := by
      rw [length_drop]
      omega
    obtain ⟨last, hlast⟩ := length_eq_one_iff.1 hdrop
    exact ⟨_, last, by rw [← hlast, take_append_drop], hnames⟩
  · rintro ⟨front, last, htokens, hnames⟩
    have hlen := hnames.length_eq
    rw [htokens, length_append, length_singleton, hlen, take_left]
    exact ⟨rfl, hnames⟩

omit hacc hstatic in
theorem mutatesAt_member (hkind : op.kind = .add) :
    op.mutatesAt (path ++ [.key key]) = true ↔ parentIs op path = true ∧ op.tokens.getLast? = some key ∧ key ≠ "-" := by
  rw [CompiledOp.mutatesAt, hkind, isAppend, Bool.and_eq_true, pathEqTokens_iff, names_concat_iff, parentIs_iff]
  constructor
  · rintro ⟨hdash, front, last, htokens, hnames, hlast⟩
    obtain rfl : key = last := beq_iff_eq.1 hlast
    rw [htokens, getLast?_concat] at hdash ⊢
    refine ⟨⟨front, key, rfl, hnames⟩, rfl, ?_⟩
    simpa using hdash
  · rintro ⟨⟨front, last, htokens, hnames⟩, hlast, hdash⟩
    rw [htokens, getLast?_concat] at hlast ⊢
    obtain rfl := Option.some.inj hlast
    exact ⟨by simp [hdash], front, last, rfl, hnames, beq_self_eq_true last⟩

omit hacc hstatic in
theorem editAt_newMember {front : List String} {last : String} (hkind : op.kind = .add)
    (htokens : op.tokens = front ++ [last]) (hnames : Names path front) :
    (op.editAt sj path).bind (Edit.newMember keys) =
      if last = "-" ∨ last ∈ keys then none else some (last, op.payloadTree sj) := by
  have hchange : op.change sj = some (.add (op.payloadTree sj)) := by rw [CompiledOp.change, hkind]
  have hat : op.editAt sj path = some ⟨[last], .add (op.payloadTree sj)⟩ :=
    editAt_eq_some.2 ⟨front, hnames, htokens, hchange, nofun⟩
  rw [hat, Option.bind_some, Edit.newMember]

omit hacc hstatic in
theorem editAt_newMember_none (keys : List String) (h : ¬ (op.kind = .add ∧ parentIs op path = true)) :
    (op.editAt sj path).bind (Edit.newMember keys) = none := by
  by_contra hne
  obtain ⟨m, hm⟩ := Option.ne_none_iff_exists'.1 hne
  obtain ⟨⟨target, change⟩, hat, hm⟩ := Option.bind_eq_some_iff.1 hm
  obtain ⟨front, hnames, htokens, hchange, -⟩ := editAt_eq_some.1 hat
  rw [Edit.newMember] at hm
  split at hm
  case h_1 key val htarget hadd =>
    have hkind : op.kind = .add := (change_isAdd hchange).1 (by rw [hadd]; rfl)
    exact h ⟨hkind, parentIs_iff.2 ⟨front, key, htarget ▸ htokens, hnames⟩⟩
  case h_2 => cases hm

theorem addMember_edit (laws : sj.Laws) (hop : set.ops[idx]? = some op) (h : StaticSession set sess)
    (hsatisfied : ∀ key, op.kind = .add → op.mutatesAt (path ++ [.key key]) = true → (key ∈ sat ↔ key ∈ keys)) :
    ∃ items, addMember sj path sat idx op sess = (items, sess) ∧
      Forall₂ (RendersMember sj.decodeString) items ((op.editAt sj path).bind (Edit.newMember keys)).toList := by
  rw [addMember]
  split
  case isFalse hadd =>
    refine ⟨[], rfl, ?_⟩
    rw [editAt_newMember_none keys hadd]
    exact .nil
  case isTrue hadd =>
    obtain ⟨front, last, htokens, hnames⟩ := parentIs_iff.1 hadd.2
    have hlast : op.tokens.getLast? = some last := by rw [htokens, getLast?_concat]
    rw [editAt_newMember hadd.1 htokens hnames]
    simp only [hlast]
    by_cases hdash : last = "-"
    · rw [if_pos (.inl hdash), if_pos (.inl hdash)]
      exact ⟨[], rfl, .nil⟩
    · have hmutates : op.mutatesAt (path ++ [.key last]) = true := (mutatesAt_member hadd.1).2 ⟨hadd.2, hlast, hdash⟩
      simp only [hdash, false_or, hsatisfied last hadd.1 hmutates]
      split
      case isTrue => exact ⟨[], rfl, .nil⟩
      case isFalse =>
        obtain ⟨payload, heq, -, htree⟩ := resolve_static hacc hstatic laws hop (.inl hadd.1) h
        refine ⟨[(keyTok last, payloadCst payload)], by rw [heq], ?_⟩
        exact .cons ⟨decode_keyTok laws last, htree⟩ .nil

theorem addMembers_edit (laws : sj.Laws) {path : List PathToken} {sat keys : List String}
    (hsatisfied : ∀ op ∈ set.ops, ∀ key, op.kind = .add → op.mutatesAt (path ++ [.key key]) = true →
      (key ∈ sat ↔ key ∈ keys)) : ∀ (ops : List CompiledOp) (idx : Nat) {sess : RewriteSession},
    set.ops.drop idx = ops → StaticSession set sess →
    Forall₂ (RendersMember sj.decodeString) (addMembers sj path sat idx ops sess).1
      ((ops.filterMap (·.editAt sj path)).filterMap (Edit.newMember keys))
  | [], _, _, _, _ => .nil
  | op :: rest, idx, sess, hops, h => by
    obtain ⟨hop, hrest⟩ := of_drop_eq_cons hops
    obtain ⟨items, heq, hitems⟩ := addMember_edit hacc hstatic laws hop h (hsatisfied op (mem_of_getElem? hop))
    have ih := addMembers_edit laws hsatisfied rest (idx + 1) hrest h
    have hcons : ((op :: rest).filterMap (·.editAt sj path)).filterMap (Edit.newMember keys) =
        ((op.editAt sj path).bind (Edit.newMember keys)).toList ++
          (rest.filterMap (·.editAt sj path)).filterMap (Edit.newMember keys) := by
      rw [filterMap_cons]
      cases op.editAt sj path with
      | none => rfl
      | some e =>
        rw [Option.bind_some]
        simp only [filterMap_cons]
        cases e.newMember keys <;> rfl
    rw [hcons, addMembers, heq]
    exact rel_append hitems ih

theorem objectAdds_edit (laws : sj.Laws) (path : List PathToken) (keys : List String) (h : StaticSession set sess)
    (hsatisfied : ∀ key, key ∈ sat ↔
      key ∈ keys ∧ (here (editsAt sj set (path ++ [.key key]))).any Change.isAdd = true) :
    Forall₂ (RendersMember sj.decodeString) (objectAdds sj set true path sat sess).1
      ((editsAt sj set path).filterMap (Edit.newMember keys)) := by
  refine addMembers_edit hacc hstatic laws ?_ set.ops 0 rfl h
  intro op hop key hkind hmutates
  rw [hsatisfied key, and_iff_left_iff_imp]
  intro _
  rw [here_of_mutatesAt hacc hop hmutates, CompiledOp.change, hkind]
  rfl

/-! ### Values -/

section

variable {dec : Bytes → Option String} {ops : List CompiledOp}

omit hacc hstatic

mutual

theorem readableIf_of_tree (c : Cst) (opened : Bool) (path : List PathToken) {t : Tree} (ht : c.tree dec = some t) :
    Cst.readableIf dec ops opened path c = true := by
  match c with
  | .scalar s => rfl
  | .array ws es =>
    obtain ⟨ts, hts, -⟩ := Option.map_eq_some_iff.1 ht
    rw [Cst.readableIf, elems_readable_of_trees es path 0 hts, Bool.or_true]
  | .object ws members =>
    obtain ⟨ms, hms, -⟩ := Option.map_eq_some_iff.1 ht
    rw [Cst.readableIf, members_readable_of_trees members path hms, Bool.or_true]
  termination_by structural c

theorem elems_readable_of_trees (es : Elems) (path : List PathToken) (i : Nat) {ts : List Tree}
    (hts : es.trees dec = some ts) : Elems.readable dec ops path es i = true := by
  match es with
  | .nil => rfl
  | .cons _ val _ rest =>
    obtain ⟨t, more, ht, hmore, -⟩ := trees_cons _ hts
    rw [Elems.readable, readable_eq, readableIf_of_tree val _ (path ++ [PathToken.index i]) ht,
      elems_readable_of_trees rest path (i + 1) hmore]
    rfl
  termination_by structural es

theorem members_readable_of_trees (members : Members) (path : List PathToken) {ms : List (String × Tree)}
    (hms : members.trees dec = some ms) : Members.readable dec ops path members = true := by
  match members with
  | .nil => rfl
  | .cons _ tok _ gap val _ rest =>
    obtain ⟨key, t, more, hkey, ht, hmore, -⟩ := memberTrees_cons _ hms
    rw [Members.readable, hkey]
    simp only
    rw [readable_eq, readableIf_of_tree val _ (path ++ [PathToken.key key]) ht, members_readable_of_trees rest path hmore]
    rfl
  termination_by structural members

end

end

mutual

theorem walkValue_edit (laws : sj.Laws) (c : Cst) {path : List PathToken} {t : Tree} {sess : RewriteSession}
    (ht : c.tree sj.decodeString = some t) (h : StaticSession set sess) (c' : Cst) (sess' : RewriteSession)
    (hwalk : walkValue sj set true path c sess = some (c', sess')) :
    c'.tree sj.decodeString = some (t.edit arrayIndex (editsAt sj set path)) := by
  match c with
  | .scalar s =>
    rw [walkValue] at hwalk
    cases hwalk
    rw [ht]
    have hscalar : ∀ edits, t.edit arrayIndex edits = t := by
      intro edits
      rw [Cst.tree] at ht
      rcases s with _ | b | n | tok
      · cases ht
        rfl
      · cases ht
        rfl
      · cases ht
        rfl
      · obtain ⟨text, -, rfl⟩ := Option.map_eq_some_iff.1 ht
        rfl
    rw [hscalar]
  | .array ws es =>
    rcases walkValue_array hwalk with ⟨hops, rfl, -⟩ | ⟨-, items, len, s, added, s', hs, hadded, rfl, -⟩
    · rw [edit_copied hacc hops]
      exact ht
    · obtain ⟨ts, hts, rfl⟩ := Option.map_eq_some_iff.1 ht
      obtain ⟨hlen, hitems⟩ := walkElems_edit laws es hts h hs
      have hstaticS := kept_walkElems hacc (keeps_static hacc hstatic laws) es h hs
      obtain ⟨atLen, hatLen, hatLenTrees⟩ := addElem_edit hacc hstatic laws (set.index.mutateAtIndex path len) hstaticS
      obtain ⟨atEnd, hatEnd, hatEndTrees⟩ := addElem_edit hacc hstatic laws (set.index.addAppend path) hstaticS
      simp only [addElems, hatLen, hatEnd] at hadded
      cases hadded
      rw [← here_index hacc] at hatLenTrees
      rw [← append_change hacc] at hatEndTrees
      rw [Nat.zero_add] at hlen
      have hall := ofElems_trees (rel_append hitems (rel_append hatLenTrees hatEndTrees))
      rw [Cst.tree, hall, Tree.edit, elemsAtEnd, below_index, ← hlen]
      rfl
  | .object ws members =>
    rcases walkValue_object hwalk with ⟨hops, rfl, -⟩ | ⟨-, walk, added, s', hs, hadded, rfl, -⟩
    · rw [edit_copied hacc hops]
      exact ht
    · obtain ⟨ms, hms, rfl⟩ := Option.map_eq_some_iff.1 ht
      obtain ⟨hitems, hsatisfied⟩ := walkMembers_edit laws members hms h hs
      have hstaticS := kept_walkMembers hacc (keeps_static hacc hstatic laws) members h hs
      have hadds := objectAdds_edit hacc hstatic laws path (ms.map Prod.fst) hstaticS (by simpa using hsatisfied)
      rw [hadded] at hadds
      rw [Cst.tree, ofMembers_trees (rel_append hitems hadds), Tree.edit]
      rfl
  termination_by structural c

theorem walkElems_edit (laws : sj.Laws) (es : Elems) {path : List PathToken} {ts : List Tree} {i len : Nat}
    {sess sess' : RewriteSession} {items : List Cst} (hts : es.trees sj.decodeString = some ts)
    (h : StaticSession set sess) (hwalk : walkElems sj set true path es i sess = some (items, len, sess')) :
    len = i + ts.length ∧ Forall₂ (fun c t => c.tree sj.decodeString = some t) items
      (editElems arrayIndex (editsAt sj set path) ts i) := by
  match es with
  | .nil =>
    rw [walkElems] at hwalk
    cases hts
    obtain ⟨rfl, heq⟩ := Prod.mk.inj (Option.some.inj hwalk)
    cases heq
    exact ⟨rfl, .nil⟩
  | .cons _ val _ rest =>
    obtain ⟨t, more, ht, hmore, rfl⟩ := trees_cons _ hts
    obtain ⟨added, s, item, s', moreItems, hadded, htaken, hmoreItems, rfl⟩ := walkElems_cons hacc hwalk
    obtain ⟨added₀, hadded₀, -⟩ := addElem_edit hacc hstatic laws (set.index.mutateAtIndex path i) h
    cases hadded₀.symm.trans hadded
    have hitems := walkElem_edit hacc hstatic laws ht h (walkValue_edit laws val ht h) htaken
    have hkept := kept_taken hacc (keeps_static hacc hstatic laws) h htaken
    obtain ⟨hlen, hrest⟩ := walkElems_edit laws rest hmore hkept hmoreItems
    rw [hadded] at hitems
    refine ⟨by rw [hlen, length_cons]; omega, ?_⟩
    rw [editElems, below_index]
    exact rel_append hitems hrest
  termination_by structural es

theorem walkMembers_edit (laws : sj.Laws) (members : Members) {path : List PathToken} {ms : List (String × Tree)}
    {sat : List String} {sess : RewriteSession} {walk : MemberWalk}
    (hms : members.trees sj.decodeString = some ms) (h : StaticSession set sess)
    (hwalk : walkMembers sj set true path members sat sess = some walk) :
    Forall₂ (RendersMember sj.decodeString) walk.items (editMembers arrayIndex (editsAt sj set path) ms) ∧
      ∀ key, key ∈ walk.satisfied ↔ key ∈ sat ∨
        (key ∈ ms.map Prod.fst ∧ (here (editsAt sj set (path ++ [.key key]))).any Change.isAdd = true) := by
  match members with
  | .nil =>
    rw [walkMembers] at hwalk
    cases hms
    cases hwalk
    exact ⟨.nil, fun key => by simp⟩
  | .cons _ tok _ gap val _ rest =>
    obtain ⟨name, t, more, hname, ht, hmore, rfl⟩ := memberTrees_cons _ hms
    obtain ⟨name', item, s, sat', s', tail, hname', htaken, hnote, htail, rfl⟩ := walkMembers_cons hacc hwalk
    cases hname.symm.trans hname'
    have keeps := keeps_static hacc hstatic laws
    obtain ⟨hitems, hnoted⟩ := walkMember_edit hacc hstatic laws hname ht h (walkValue_edit laws val ht h) htaken hnote
    have hkept := kept_noted keeps.toKeepsPayloads (kept_taken hacc keeps h htaken) hnote
    obtain ⟨hrest, hsatisfied⟩ := walkMembers_edit laws rest hmore hkept htail
    refine ⟨?_, ?_⟩
    · rw [editMembers, below_key]
      exact rel_append hitems hrest
    · intro key
      rw [hsatisfied key, hnoted, mem_append, map_cons, mem_cons]
      have hadd : key ∈ (if (here (editsAt sj set (path ++ [.key name]))).any Change.isAdd then [name] else []) ↔
          key = name ∧ (here (editsAt sj set (path ++ [.key key]))).any Change.isAdd = true := by
        by_cases heq : key = name
        · subst heq
          split <;> simp [*]
        · split <;> simp [heq]
      rw [hadd, or_and_right, or_assoc]
  termination_by structural members

end

/-! ## Documents -/

theorem rootReplace_edit (laws : sj.Laws) (h : StaticSession set sess) :
    (∃ root val, rootReplace sj set sess = (some root, sess) ∧ IsText root ∧
      (payloadCst root).tree sj.decodeString = some val ∧ here (editsAt sj set []) = some (.replace val)) ∨
    (rootReplace sj set sess = (none, sess) ∧ here (editsAt sj set []) = none) := by
  have hnil : ∀ tokens, pathEqTokens [] tokens = decide (tokens = []) := by
    rintro (_ | ⟨token, tokens⟩) <;> rfl
  -- only a replace has the empty pointer
  have hroot : ∀ op ∈ set.ops, op.mutatesAt [] = decide (op.tokens = [] ∧ op.kind = .replace) := by
    intro op hop
    rw [CompiledOp.mutatesAt, hnil]
    cases hacc.compiled op hop with
    | extract => simp
    | add _ tokens _ hne => simp [hne]
    | replace _ tokens _ => simp [isAppend]
    | remove _ tokens hne => simp [hne]
  rcases hfind : set.ops.findIdx? (fun op => decide (op.tokens = [] ∧ op.kind = .replace)) with _ | idx
  · right
    refine ⟨by simp only [rootReplace, hfind], here_eq_none fun op hop => ?_⟩
    rw [hroot op hop, findIdx?_eq_none_iff.1 hfind op hop]
  · left
    obtain ⟨hidx, hop, -⟩ := findIdx?_eq_some_iff_getElem.1 hfind
    have hget := getElem?_eq_getElem hidx
    have hmem := mem_of_getElem? hget
    have hkind := (of_decide_eq_true hop).2
    obtain ⟨payload, heq, htext, htree⟩ := resolve_static hacc hstatic laws hget (.inr hkind) h
    refine ⟨payload, _, by simp only [rootReplace, hfind, hget, heq], htext, htree, ?_⟩
    rw [here_of_mutatesAt hacc hmem (by rw [hroot _ hmem, hop]), CompiledOp.change, hkind]

omit hacc hstatic in
theorem textOf_text (c : Cst) : TextOf c.text c := ⟨false, .empty, .empty, by simp⟩

theorem documentWalk_edit (laws : sj.Laws) (ht : c.tree sj.decodeString = some t) (store : Option JsonOpStore)
    {res : RewriteOutcome} {store' : Option JsonOpStore} (hwalk : documentWalk sj set c store = some (res, store')) :
    if set.extractOnly then res.output = none ∧ t.editDocument arrayIndex (editsAt sj set []) = t
    else ∃ c' : Cst, res.output = some c'.text ∧
      c'.tree sj.decodeString = some (t.editDocument arrayIndex (editsAt sj set [])) := by
  have hstart : StaticSession set (startSession set store) := startSession_resolved store
  rcases documentWalk_output hwalk with ⟨honly, hnone⟩ | ⟨honly, hout⟩
  · -- a set that only extracts has no edits
    have hnil : editsAt sj set [] = [] := by
      rw [editsAt_root, filterMap_eq_nil_iff]
      intro op hop
      rw [CompiledOp.edit, CompiledOp.change, (hacc.extractOnly_iff.1 honly).2 op hop, Option.map_none]
    rw [if_pos honly, hnil]
    exact ⟨hnone, Tree.edit_nil arrayIndex t⟩
  · rw [if_neg (ne_true_of_eq_false honly), Tree.editDocument]
    rcases rootReplace_edit hacc hstatic laws hstart with ⟨root, val, heq, htext, htree, hhere⟩ | ⟨heq, hhere⟩
    · simp only [heq, Prod.mk.injEq, Option.some.injEq, reduceCtorEq, false_and, exists_false, or_false] at hout
      obtain ⟨_, _, ⟨rfl, -⟩, hout⟩ := hout
      exact ⟨payloadCst root, hout.trans (congrArg some (payloadCst_text htext).symm), by rw [hhere, htree]⟩
    · simp only [heq, Prod.mk.injEq, reduceCtorEq, false_and, exists_false, false_or] at hout
      obtain ⟨_, c', s, ⟨-, rfl⟩, hs, hout⟩ := hout
      exact ⟨c', hout, by rw [hhere, walkValue_edit hacc hstatic laws c ht hstart c' s hs]⟩

end

/-- What is written, or else what was read, is a text of the edited document. -/
theorem rewriteDocument_edits {sj : SerdeJson} (laws : sj.Laws) {headerNameOk : String → Bool} {calls : List Call}
    {set : CompiledOpSet} (hbuild : buildOps sj headerNameOk calls = .ok set) (hstatic : ∀ call ∈ calls, call.isStatic)
    {input : Bytes} {c : Cst} {t : Tree} (htext : TextOf input c) (hutf8 : IsUtf8 input) (hdepth : c.depth ≤ MAX_JSON_DEPTH)
    (htree : c.tree sj.decodeString = some t) (store : Option JsonOpStore) :
    ∃ res store', rewriteDocument sj set input store = .ok (res, store') ∧
      ∀ t', Parses sj.decodeString (res.output.getD input) t' ↔
        t' = t.editDocument arrayIndex (calls.filterMap Call.edit) := by
  have hacc := buildOps_accepted hbuild
  have hpayloads := staticPayloads_of_calls hbuild hstatic
  obtain ⟨⟨res, store'⟩, hresult⟩ :=
    (succeeds_iff_readable hacc laws hpayloads htext hutf8 hdepth store).2 ((readable_eq ..).trans (readableIf_of_tree c _ [] htree))
  refine ⟨res, store', hresult, ?_⟩
  rw [rewriteDocument_text laws hacc htext hutf8 hdepth, orInvalid_eq_ok] at hresult
  have hedit := documentWalk_edit hacc hpayloads laws htree store hresult
  rw [editsAt_root, edits_of_calls laws hbuild hstatic] at hedit
  intro t'
  split at hedit
  case isTrue =>
    rw [hedit.1, hedit.2, Option.getD_none, parses_iff htext, htree, Option.some.injEq, eq_comm]
  case isFalse =>
    obtain ⟨c', hout, htree'⟩ := hedit
    rw [hout, Option.getD_some, parses_iff (textOf_text c'), htree', Option.some.injEq, eq_comm]

/-- `{"a":1,"b":[1]}`. -/
def twoMembers : Tree := .obj [("a", .num numOne), ("b", .arr [.num numOne])]

/-- A member goes, an array gets a first element, a member is new. -/
def threeCalls : List Call :=
  [.remove "/a", .add "/b/0" (.staticJson ⟨.null, rfl⟩), .add "/c" (.staticJson ⟨.bool true, rfl⟩)]

def threeOps : CompiledOpSet := .finalize
  [⟨"/a", ["a"], .remove, none, none, some (utf8 "\"a\"")⟩,
   ⟨"/b/0", ["b", "0"], .add, some (.static (utf8 "null")), none, some (utf8 "\"0\"")⟩,
   ⟨"/c", ["c"], .add, some (.static (utf8 "true")), none, some (utf8 "\"c\"")⟩]

theorem twoMembers_edited :
    ∃ res store', rewriteDocument codec threeOps (utf8 "\x7b\"a\":1,\"b\":[1]\x7d") none = .ok (res, store') ∧
      ∀ t', Parses codec.decodeString (res.output.getD (utf8 "\x7b\"a\":1,\"b\":[1]\x7d")) t' ↔
        t' = .obj [("b", .arr [.null, .num numOne]), ("c", .bool true)] := by
  have hbuilt : buildOps codec (fun _ => true) threeCalls = .ok threeOps := by decide +kernel
  have hstatic : ∀ call ∈ threeCalls, call.isStatic := by simp [threeCalls, Call.isStatic, Call.value]
  have htext : TextOf (utf8 "\x7b\"a\":1,\"b\":[1]\x7d") (ofTree twoMembers) := ⟨false, .empty, .empty, by decide +kernel⟩
  exact rewriteDocument_edits codec_laws hbuilt hstatic htext (by decide +kernel) (by decide +kernel) (ofTree_tree twoMembers) none

end Praxis.JsonOps
