/-
The walk of the rewriter over syntax trees. It follows the same decisions as the walk over bytes,
but goes down a tree and gives a tree; a payload stands in it as the tree of its bytes. The walk
ends early only at a member name that does not decode.
-/
import Praxis.JsonOps.Accepted
import Praxis.JsonOps.Grammar
import Praxis.JsonOps.Strings

namespace Praxis.JsonOps

open List Praxis.Lib Praxis.Lib.Json

/-! ## Payloads -/

/-- The bytes are the text of a value. -/
def IsText (bytes : Bytes) : Prop := ∃ c : Cst, c.text = bytes

open Classical in
/-- A syntax tree for a payload. -/
noncomputable def payloadCst (payload : Bytes) : Cst := if h : IsText payload then h.choose else .scalar .null

variable {payload : Bytes} {sj : SerdeJson} {op : CompiledOp}

theorem payloadCst_text (h : IsText payload) : (payloadCst payload).text = payload := by
  rw [payloadCst, dif_pos h]
  exact h.choose_spec

theorem payloadCst_tree {dec : Bytes → Option String} (c : Cst) : (payloadCst c.text).tree dec = c.tree dec :=
  tree_unique dec (payloadCst_text ⟨c, rfl⟩)

/-- All payloads that the session keeps are texts. -/
def PayloadsOk (sess : RewriteSession) : Prop := ∀ payload, some payload ∈ sess.resolved → IsText payload

section

variable (laws : sj.Laws) (hop : Compiled sj op) (sess : RewriteSession)
  (h : op.source.bind (sourcePayload sj sess) = some payload)
include laws hop h

theorem source_text : ∃ (c : Cst) (t : Tree), c.text = payload ∧ c.tree sj.decodeString = some t ∧ t.distinct = true := by
  have hvalue : ∀ val : JsonValue, sourcePayload sj sess (val.source sj) = some payload →
      ∃ (c : Cst) (t : Tree), c.text = payload ∧ c.tree sj.decodeString = some t ∧ t.distinct = true := by
    intro val h
    cases val with
    | staticJson val =>
      obtain ⟨c, hc, htree⟩ := laws.encodeValue_text val
      exact ⟨c, val.tree, hc.symm.trans (Option.some.inj h), htree, val.distinct⟩
    | metadata key =>
      obtain ⟨text, -, rfl⟩ := Option.map_eq_some_iff.1 h
      obtain ⟨body, hbody, hdenotes⟩ := laws.encodeString_denotes text
      refine ⟨.scalar (.str ⟨body, denotes_isChars hdenotes⟩), .str (String.ofList text.toList), hbody.symm, ?_, rfl⟩
      have hdecode := laws.decode_denotes hdenotes
      exact congrArg (Option.map Tree.str) hdecode
    | structured ns key =>
      obtain ⟨val, -, rfl⟩ := Option.map_eq_some_iff.1 h
      obtain ⟨c, hc, htree⟩ := laws.encodeValue_text val
      exact ⟨c, val.tree, hc.symm, htree, val.distinct⟩
  cases hop with
  | extract => cases h
  | add _ _ val | replace _ _ val => exact hvalue val h
  | remove => cases h

theorem isText_source : IsText payload := by
  obtain ⟨c, -, hc, -, -⟩ := source_text laws hop sess h
  exact ⟨c, hc⟩

end

variable {sess : RewriteSession}

theorem resolvePayload_ok (laws : sj.Laws) (hop : Compiled sj op) (idx : Nat) (h : PayloadsOk sess) :
    (∀ payload, (resolvePayload sj idx op sess).1 = some payload → IsText payload) ∧
      PayloadsOk (resolvePayload sj idx op sess).2 := by
  rw [resolvePayload]
  split
  case h_1 cached hcached =>
    refine ⟨?_, h⟩
    intro payload hpayload
    cases hpayload
    exact h cached (mem_of_getElem? (Option.join_eq_some_iff.1 hcached))
  case h_2 =>
    split
    case h_1 payload hpayload =>
      have htext := isText_source laws hop sess hpayload
      refine ⟨fun p hp => Option.some.inj hp ▸ htext, ?_⟩
      intro p hp
      rcases mem_or_eq_of_mem_set hp with hp | hp
      · exact h p hp
      · rw [Option.some.inj hp]
        exact htext
    case h_2 => exact ⟨nofun, h⟩

@[simp] theorem storeCapture_resolved (sj : SerdeJson) (set : CompiledOpSet) (path : List PathToken) (json : Bytes)
    (sess : RewriteSession) : (storeCapture sj set path json sess).resolved = sess.resolved := by
  have hwrite : ∀ dest, (writeCaptureDest sj json dest sess).resolved = sess.resolved := by
    intro dest
    cases dest with
    | metadata key => rw [writeCaptureDest]; split <;> rfl
    | structured ns key => rfl
    | header name => rw [writeCaptureDest]; split <;> rfl
  rw [storeCapture]
  split
  case isFalse => rfl
  case isTrue =>
    split
    case h_2 => rfl
    case h_1 op _ =>
      split
      · exact hwrite _
      · rfl

theorem payloadsOk_storeCapture {set : CompiledOpSet} {path : List PathToken} {json : Bytes} (h : PayloadsOk sess) :
    PayloadsOk (storeCapture sj set path json sess) := by
  rw [PayloadsOk, storeCapture_resolved]
  exact h

/-! ## Containers from their items -/

def ofMembers : List (StrTok × Cst) → Members
  | [] => .nil
  | (tok, val) :: rest => .cons .empty tok .empty .empty val .empty (ofMembers rest)

def ofElems : List Cst → Elems
  | [] => .nil
  | val :: rest => .cons .empty val .empty (ofElems rest)

def memberText (member : StrTok × Cst) : Bytes := member.1.text ++ [COLON] ++ member.2.text

/-- Items with their commas. -/
def joined : Bool → List Bytes → Bytes
  | _, [] => []
  | seen, item :: rest => comma seen ++ (item ++ joined true rest)

theorem ofMembers_text : ∀ (items : List (StrTok × Cst)) (seen : Bool),
    (ofMembers items).text .empty seen = joined seen (items.map memberText) ++ [RBRACE]
  | [], _ => rfl
  | (tok, val) :: rest, seen => by
    have ih := ofMembers_text rest true
    simp only [ofMembers, Members.text, ih, map_cons, joined, memberText, Ws.empty_bytes, nil_append, append_assoc,
      cons_append]

theorem ofElems_text : ∀ (items : List Cst) (seen : Bool),
    (ofElems items).text .empty seen = joined seen (items.map Cst.text) ++ [RBRACKET]
  | [], _ => rfl
  | val :: rest, seen => by
    have ih := ofElems_text rest true
    simp only [ofElems, Elems.text, ih, map_cons, joined, Ws.empty_bytes, nil_append, append_assoc]

def Emit.items (emit : Emit) (items : List Bytes) : Emit := items.foldl Emit.item emit

variable (emit : Emit)

@[simp] theorem Emit.items_nil : emit.items [] = emit := rfl

theorem Emit.items_cons (item : Bytes) (rest : List Bytes) : emit.items (item :: rest) = (emit.item item).items rest := rfl

theorem Emit.items_append (xs ys : List Bytes) : emit.items (xs ++ ys) = (emit.items xs).items ys :=
  foldl_append

theorem Emit.items_out (items : List Bytes) :
    (emit.items items).out = emit.out.map fun out => out ++ joined emit.any items := by
  induction items generalizing emit with
  | nil =>
    cases h : emit.out with
    | none => simp [h]
    | some out => simp [h, joined]
  | cons item rest ih =>
    rw [Emit.items_cons, ih]
    obtain ⟨_ | out, any⟩ := emit
    · rfl
    · cases any <;> simp [Emit.item, emitSeparator, joined, comma]

theorem Emit.items_isSome (items : List Bytes) : (emit.items items).out.isSome = emit.out.isSome := by
  rw [Emit.items_out, Option.isSome_map]

/-- A value that is written after its key belongs to the same item. -/
theorem Emit.item_append (key val : Bytes) :
    (⟨(emit.item key).out.map (· ++ val), (emit.item key).any⟩ : Emit) = emit.item (key ++ val) := by
  obtain ⟨_ | out, any⟩ := emit
  · rfl
  · simp [Emit.item]

/-! ## The walk -/

section

variable (sj : SerdeJson) (set : CompiledOpSet)

/-- `consume_value_for_mutate`: the bytes that are captured at the place itself may begin with
white space. -/
def consumed (path : List PathToken) (lead : Bytes) (val : Cst)
    (walk : RewriteSession → Option (Cst × RewriteSession)) (sess : RewriteSession) : Option RewriteSession :=
  if set.index.hasDescendantExtracts path then (walk sess).map Prod.snd
  else some (storeCapture sj set path (lead ++ val.text) sess)

/-- The payload in place of a value, if there is something to write and the payload is known. -/
noncomputable def payloadOr (emit : Bool) (idx : Nat) (op : CompiledOp) (val : Cst) (sess : RewriteSession) :
    Cst × RewriteSession :=
  if emit then
    match resolvePayload sj idx op sess with
    | (some payload, sess) => (payloadCst payload, sess)
    | (none, sess) => (val, sess)
  else (val, sess)

/-- What the members of an object, or some of them, lead to. -/
structure MemberWalk where
  items : List (StrTok × Cst)
  satisfied : List String
  session : RewriteSession

/-- One member. Its value can be walked without output and, where it is kept, with. -/
noncomputable def walkMember (emit : Bool) (path : List PathToken) (key : String) (tok : StrTok) (gap : Ws) (val : Cst)
    (quiet loud : RewriteSession → Option (Cst × RewriteSession)) (sat : List String) (sess : RewriteSession) :
    Option MemberWalk :=
  match set.opAt (set.index.mutateChildKey path key) with
  | some (idx, op) =>
    if op.kind = .remove then
      (consumed sj set (path ++ [.key key]) gap.bytes val quiet sess).map fun sess => ⟨[], sat, sess⟩
    else
      (consumed sj set (path ++ [.key key]) [] val quiet sess).map fun sess =>
        let (val, sess) := payloadOr sj emit idx op val sess
        let (sat, sess) := noteSatisfied sj idx op sat sess
        ⟨[(tok, val)], sat, sess⟩
  | none =>
    if set.index.childNeedsRewrite path key then
      (loud sess).map fun (val, sess) => ⟨[(tok, val)], sat, sess⟩
    else some ⟨[(tok, val)], sat, sess⟩

/-- A member that an add puts at the end of an object. -/
noncomputable def addMember (path : List PathToken) (sat : List String) (idx : Nat) (op : CompiledOp)
    (sess : RewriteSession) : List (StrTok × Cst) × RewriteSession :=
  if op.kind = .add ∧ parentIs op path = true then
    match op.tokens.getLast? with
    | none => ([], sess)
    | some last =>
      if last = "-" ∨ last ∈ sat then ([], sess)
      else
        match resolvePayload sj idx op sess with
        | (none, sess) => ([], sess)
        | (some payload, sess) => ([(keyTok last, payloadCst payload)], sess)
  else ([], sess)

noncomputable def addMembers (path : List PathToken) (sat : List String) :
    Nat → List CompiledOp → RewriteSession → List (StrTok × Cst) × RewriteSession
  | _, [], sess => ([], sess)
  | idx, op :: rest, sess =>
    let (items, sess) := addMember sj path sat idx op sess
    let (more, sess) := addMembers path sat (idx + 1) rest sess
    (items ++ more, sess)

/-- What is added at the end of an object, when there is something to write. -/
noncomputable def objectAdds (emit : Bool) (path : List PathToken) (sat : List String) (sess : RewriteSession) :
    List (StrTok × Cst) × RewriteSession :=
  if emit then addMembers sj path sat 0 set.ops sess else ([], sess)

/-- `try_emit_add`, at an index that a lookup gave. -/
noncomputable def addElem (idx : Option Nat) (sess : RewriteSession) : List Cst × RewriteSession :=
  match set.opAt idx with
  | some (idx, op) =>
    if op.kind = .add then
      match resolvePayload sj idx op sess with
      | (some payload, sess) => ([payloadCst payload], sess)
      | (none, sess) => ([], sess)
    else ([], sess)
  | none => ([], sess)

/-- What is added at the end of an array. -/
noncomputable def addElems (path : List PathToken) (len : Nat) (sess : RewriteSession) : List Cst × RewriteSession :=
  let (atLen, sess) := addElem sj set (set.index.mutateAtIndex path len) sess
  let (appended, sess) := addElem sj set (set.index.addAppend path) sess
  (atLen ++ appended, sess)

/-- One element. -/
noncomputable def walkElem (emit : Bool) (path : List PathToken) (i : Nat) (val : Cst)
    (quiet loud : RewriteSession → Option (Cst × RewriteSession)) (sess : RewriteSession) :
    Option (List Cst × RewriteSession) :=
  match replaceOrRemove (set.opAt (set.index.mutateAtIndex path i)) with
  | some (idx, op) =>
    (consumed sj set (path ++ [.index i]) [] val quiet sess).map fun sess =>
      if op.kind = .remove then ([], sess)
      else
        let (val, sess) := payloadOr sj emit idx op val sess
        ([val], sess)
  | none =>
    if set.index.childIndexNeedsRewrite path i then (loud sess).map fun (val, sess) => ([val], sess)
    else some ([val], sess)

mutual

noncomputable def walkValue (emit : Bool) (path : List PathToken) : Cst → RewriteSession → Option (Cst × RewriteSession)
  | .scalar s, sess => some (.scalar s, storeCapture sj set path (Cst.scalar s).text sess)
  | .array ws es, sess =>
    if set.index.hasDescendantOps path then
      (walkElems emit path es 0 sess).map fun (items, len, sess) =>
        let (added, sess) := addElems sj set path len sess
        (.array .empty (ofElems (items ++ added)), storeCapture sj set path (Cst.array ws es).text sess)
    else some (.array ws es, storeCapture sj set path (Cst.array ws es).text sess)
  | .object ws ms, sess =>
    if set.index.hasDescendantOps path then
      (walkMembers emit path ms [] sess).map fun walk =>
        let (added, sess) := objectAdds sj set emit path walk.satisfied walk.session
        (.object .empty (ofMembers (walk.items ++ added)), storeCapture sj set path (Cst.object ws ms).text sess)
    else some (.object ws ms, storeCapture sj set path (Cst.object ws ms).text sess)

/-- The elements from a position on; with the items, the position after the last. -/
noncomputable def walkElems (emit : Bool) (path : List PathToken) : Elems → Nat → RewriteSession →
    Option (List Cst × Nat × RewriteSession)
  | .nil, i, sess => some ([], i, sess)
  | .cons _ val _ rest, i, sess =>
    let (added, sess) := addElem sj set (set.index.mutateAtIndex path i) sess
    match walkElem sj set emit path i val (walkValue false (path ++ [.index i]) val)
      (walkValue emit (path ++ [.index i]) val) sess with
    | none => none
    | some (items, sess) =>
      (walkElems emit path rest (i + 1) sess).map fun (more, len, sess) => (added ++ items ++ more, len, sess)

noncomputable def walkMembers (emit : Bool) (path : List PathToken) : Members → List String → RewriteSession →
    Option MemberWalk
  | .nil, sat, sess => some ⟨[], sat, sess⟩
  | .cons _ tok _ gap val _ rest, sat, sess =>
    match sj.decodeString tok.text with
    | none => none
    | some key =>
      match walkMember sj set emit path key tok gap val (walkValue false (path ++ [.key key]) val)
        (walkValue emit (path ++ [.key key]) val) sat sess with
      | none => none
      | some walk =>
        (walkMembers emit path rest walk.satisfied walk.session).map fun more =>
          { more with items := walk.items ++ more.items }

end

end

/-! ### What a step of the walk can do -/

section

variable {sj : SerdeJson} {set : CompiledOpSet} {emit : Bool} {path : List PathToken} {sess : RewriteSession}
  {val : Cst} {sess' : RewriteSession}

/-- What happens to a value at a place: an operation removes it, or puts a payload there, or it stays and is
walked where there is something to do. -/
inductive Taken (sj : SerdeJson) (set : CompiledOpSet) (emit : Bool) (place : List PathToken) (lead : Bytes) (val : Cst)
    (sess : RewriteSession) : Option Cst → RewriteSession → Prop
  | removed {idx : Nat} {op : CompiledOp} {s : RewriteSession} (hop : set.ops[idx]? = some op) (htakes : op.takes place = true)
    (hkind : op.kind = .remove) (hs : consumed sj set place lead val (walkValue sj set false place val) sess = some s) :
    Taken sj set emit place lead val sess none s
  | replaced {idx : Nat} {op : CompiledOp} {s s' : RewriteSession} {c : Cst} (hop : set.ops[idx]? = some op)
    (htakes : op.takes place = true) (hkind : op.kind ≠ .remove)
    (hs : consumed sj set place [] val (walkValue sj set false place val) sess = some s)
    (hor : payloadOr sj emit idx op val s = (c, s')) : Taken sj set emit place lead val sess (some c) s'
  | stays {c : Cst} {s : RewriteSession} (hnone : ∀ op ∈ set.ops, op.takes place = false)
    (hs : (if set.index.hasDescendantOps place then walkValue sj set emit place val sess else some (val, sess)) =
      some (c, s)) : Taken sj set emit place lead val sess (some c) s

/-- The operation at the place of a member, if there is one, is noted if it is an add with a payload. -/
def Noted (sj : SerdeJson) (set : CompiledOpSet) (place : List PathToken) (sat : List String) (s : RewriteSession)
    (sat' : List String) (s' : RewriteSession) : Prop :=
  (∀ op ∈ set.ops, op.mutatesAt place = false) ∧ sat' = sat ∧ s' = s ∨
    ∃ idx op, set.ops[idx]? = some op ∧ op.mutatesAt place = true ∧ noteSatisfied sj idx op sat s = (sat', s')

section

variable (hacc : Accepted sj set)

include hacc

theorem walkMember_taken {key : String} {tok : StrTok} {gap : Ws} {sat : List String} {walk : MemberWalk}
    (h : walkMember sj set emit path key tok gap val (walkValue sj set false (path ++ [.key key]) val)
      (walkValue sj set emit (path ++ [.key key]) val) sat sess = some walk) :
    ∃ item s, Taken sj set emit (path ++ [.key key]) gap.bytes val sess item s ∧
      Noted sj set (path ++ [.key key]) sat s walk.satisfied walk.session ∧ walk.items = item.toList.map (tok, ·) := by
  have hnone := takes_key hacc path key
  rw [walkMember] at h
  split at h
  case h_1 idx op hop =>
    obtain ⟨hget, hmutates⟩ := hacc.opAt_key hop
    have htakes := hmutates
    rw [← takes_eq_key] at htakes
    split at h
    case isTrue hkind =>
      obtain ⟨s, hs, rfl⟩ := Option.map_eq_some_iff.1 h
      have hnote : noteSatisfied sj idx op sat s = (sat, s) := by
        rw [noteSatisfied, hkind]
        rfl
      exact ⟨none, s, .removed hget htakes hkind hs, .inr ⟨idx, op, hget, hmutates, hnote⟩, rfl⟩
    case isFalse hkind =>
      obtain ⟨s, hs, rfl⟩ := Option.map_eq_some_iff.1 h
      exact ⟨_, _, .replaced hget htakes hkind hs rfl, .inr ⟨idx, op, hget, hmutates, rfl⟩, rfl⟩
  case h_2 hop =>
    rw [hop, Option.isSome_none, any_eq_false] at hnone
    rw [hacc.index_eq, OpPathIndex.childNeedsRewrite_eq, ← hacc.index_eq] at h
    have hstays : ∀ op ∈ set.ops, op.takes (path ++ [.key key]) = false := fun op hop => Bool.not_eq_true _ ▸ hnone op hop
    have hmutates : ∀ op ∈ set.ops, op.mutatesAt (path ++ [.key key]) = false := by
      intro op hop
      rw [← takes_eq_key]
      exact hstays op hop
    split at h
    case isTrue hneeds =>
      obtain ⟨⟨c, s⟩, hs, rfl⟩ := Option.map_eq_some_iff.1 h
      exact ⟨some c, s, .stays hstays (by rw [if_pos hneeds, hs]), .inl ⟨hmutates, rfl, rfl⟩, rfl⟩
    case isFalse hneeds =>
      cases h
      exact ⟨some val, sess, .stays hstays (if_neg hneeds), .inl ⟨hmutates, rfl, rfl⟩, rfl⟩

theorem walkElem_taken {i : Nat} {items : List Cst}
    (h : walkElem sj set emit path i val (walkValue sj set false (path ++ [.index i]) val)
      (walkValue sj set emit (path ++ [.index i]) val) sess = some (items, sess')) :
    ∃ item, Taken sj set emit (path ++ [.index i]) [] val sess item sess' ∧ items = item.toList := by
  have hnone := takes_index hacc path i
  rw [walkElem] at h
  split at h
  case h_1 idx op hfound =>
    obtain ⟨hop, hkind⟩ := Option.filter_eq_some_iff.1 hfound
    obtain ⟨hget, hmutates⟩ := hacc.opAt_index hop
    obtain ⟨s, hs, heq⟩ := Option.map_eq_some_iff.1 h
    rcases of_decide_eq_true hkind with hk | hk
    · rw [if_pos hk] at heq
      cases heq
      exact ⟨none, .removed hget (takes_of_mutatesAt hmutates (by rw [hk]; decide)) hk hs, rfl⟩
    · have hne : ¬ op.kind = .remove := by rw [hk]; decide
      rw [if_neg hne] at heq
      cases heq
      exact ⟨_, .replaced hget (takes_of_mutatesAt hmutates (by rw [hk]; decide)) hne hs rfl, rfl⟩
  case h_2 hfound =>
    rw [hfound, Option.isSome_none, any_eq_false] at hnone
    rw [hacc.index_eq, OpPathIndex.childIndexNeedsRewrite_eq, ← hacc.index_eq] at h
    have hstays : ∀ op ∈ set.ops, op.takes (path ++ [.index i]) = false := fun op hop => Bool.not_eq_true _ ▸ hnone op hop
    split at h
    case isTrue hneeds =>
      obtain ⟨⟨c, s⟩, hs, heq⟩ := Option.map_eq_some_iff.1 h
      cases heq
      exact ⟨some c, .stays hstays (by rw [if_pos hneeds, hs]), rfl⟩
    case isFalse hneeds =>
      cases h
      exact ⟨some val, .stays hstays (if_neg hneeds), rfl⟩

end

variable {ws : Ws} {c' : Cst}

theorem walkValue_array {es : Elems} (h : walkValue sj set emit path (.array ws es) sess = some (c', sess')) :
    (set.index.hasDescendantOps path = false ∧ c' = .array ws es ∧
      sess' = storeCapture sj set path (Cst.array ws es).text sess) ∨
    (set.index.hasDescendantOps path = true ∧ ∃ items len s added s',
      walkElems sj set emit path es 0 sess = some (items, len, s) ∧ addElems sj set path len s = (added, s') ∧
      c' = .array .empty (ofElems (items ++ added)) ∧
      sess' = storeCapture sj set path (Cst.array ws es).text s') := by
  rw [walkValue] at h
  split at h
  case isTrue hops =>
    obtain ⟨⟨items, len, s⟩, hs, heq⟩ := Option.map_eq_some_iff.1 h
    cases heq
    exact .inr ⟨hops, items, len, s, _, _, hs, rfl, rfl, rfl⟩
  case isFalse hops =>
    cases h
    exact .inl ⟨by simpa using hops, rfl, rfl⟩

theorem walkValue_object {ms : Members}
    (h : walkValue sj set emit path (.object ws ms) sess = some (c', sess')) :
    (set.index.hasDescendantOps path = false ∧ c' = .object ws ms ∧
      sess' = storeCapture sj set path (Cst.object ws ms).text sess) ∨
    (set.index.hasDescendantOps path = true ∧ ∃ walk added s',
      walkMembers sj set emit path ms [] sess = some walk ∧
      objectAdds sj set emit path walk.satisfied walk.session = (added, s') ∧
      c' = .object .empty (ofMembers (walk.items ++ added)) ∧
      sess' = storeCapture sj set path (Cst.object ws ms).text s') := by
  rw [walkValue] at h
  split at h
  case isTrue hops =>
    obtain ⟨walk, hs, heq⟩ := Option.map_eq_some_iff.1 h
    cases heq
    exact .inr ⟨hops, walk, _, _, hs, rfl, rfl, rfl⟩
  case isFalse hops =>
    cases h
    exact .inl ⟨by simpa using hops, rfl, rfl⟩

section

variable (hacc : Accepted sj set)

include hacc

variable {pre post : Ws}

theorem walkElems_cons {rest : Elems} {i len : Nat} {items : List Cst}
    (h : walkElems sj set emit path (.cons pre val post rest) i sess = some (items, len, sess')) :
    ∃ added s item s' more, addElem sj set (set.index.mutateAtIndex path i) sess = (added, s) ∧
      Taken sj set emit (path ++ [.index i]) [] val s item s' ∧
      walkElems sj set emit path rest (i + 1) s' = some (more, len, sess') ∧ items = added ++ item.toList ++ more := by
  rw [walkElems] at h
  simp only at h
  split at h
  case h_1 => cases h
  case h_2 first s' hfirst =>
    obtain ⟨item, htaken, rfl⟩ := walkElem_taken hacc hfirst
    obtain ⟨⟨more, len', s''⟩, hmore, heq⟩ := Option.map_eq_some_iff.1 h
    obtain ⟨rfl, hrest⟩ := Prod.mk.inj heq
    cases hrest
    exact ⟨_, _, item, s', more, rfl, htaken, hmore, rfl⟩

theorem walkMembers_cons {mid gap : Ws} {tok : StrTok} {rest : Members} {sat : List String} {walk : MemberWalk}
    (h : walkMembers sj set emit path (.cons pre tok mid gap val post rest) sat sess = some walk) :
    ∃ key item s sat' s' more, sj.decodeString tok.text = some key ∧
      Taken sj set emit (path ++ [.key key]) gap.bytes val sess item s ∧
      Noted sj set (path ++ [.key key]) sat s sat' s' ∧
      walkMembers sj set emit path rest sat' s' = some more ∧
      walk = ⟨item.toList.map (tok, ·) ++ more.items, more.satisfied, more.session⟩ := by
  rw [walkMembers] at h
  split at h
  case h_1 => cases h
  case h_2 key hkey =>
    split at h
    case h_1 => cases h
    case h_2 first hfirst =>
      obtain ⟨item, s, htaken, hnoted, hitems⟩ := walkMember_taken hacc hfirst
      obtain ⟨more, hmore, rfl⟩ := Option.map_eq_some_iff.1 h
      exact ⟨key, item, s, _, _, more, hkey, htaken, hnoted, hmore, by rw [hitems]⟩

end

end

end Praxis.JsonOps
