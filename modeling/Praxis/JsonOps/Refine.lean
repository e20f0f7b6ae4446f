/-
The walk over bytes is the walk over syntax trees. On the text of a value the rewriter does what
the tree walk does, writes the text of the tree that comes out, and leaves what follows the value.
-/
import Praxis.JsonOps.Session

namespace Praxis.JsonOps

open List Option Praxis.Lib Praxis.Lib.Json

/-- No result is an error in the input. -/
def orInvalid {α : Type} : Option α → Except JsonError α
  | some a => .ok a
  | none => .error .invalidJson

variable {α : Type}

@[simp] theorem orInvalid_some (a : α) : orInvalid (some a) = .ok a := rfl

@[simp] theorem orInvalid_none : (orInvalid none : Except JsonError α) = .error .invalidJson := rfl

theorem orInvalid_eq_ok {x : Option α} {a : α} : orInvalid x = .ok a ↔ x = some a := by cases x <;> simp

section

variable {sj : SerdeJson} {set : CompiledOpSet} (laws : sj.Laws)
  {op : CompiledOp} {fuel depth : Nat} {rest : Bytes} {walk : Walk} {sess : RewriteSession}
  {place : List PathToken} {val : Cst}

/-- The value is within the limits, and what follows it does not go on with it. -/
structure Fits (c : Cst) (fuel depth : Nat) (rest : Bytes) : Prop where
  fuel : c.text.length ≤ fuel
  depth : c.depth ≤ depth
  rest : Delimited rest

/-- Over the text of the value the walk does what the tree walk does. -/
def WalksText (sj : SerdeJson) (set : CompiledOpSet) (walk : Walk) (depth : Nat) (place : List PathToken) (val : Cst)
    (rest : Bytes) (sess : RewriteSession) : Prop :=
  ∀ (ws : Ws) (out : Option Bytes), walk depth place ⟨ws.bytes ++ (val.text ++ rest), out, sess⟩ =
    orInvalid ((walkValue sj set out.isSome place val sess).map fun (c', sess') =>
      ⟨rest, out.map (· ++ c'.text), sess'⟩)

variable {idx : Nat} {c : Cst} {path : List PathToken} {tail : Bytes} {out : Option Bytes}

theorem compiled_of_getElem? (hacc : Accepted sj set) (h : set.ops[idx]? = some op) :
    Compiled sj op := hacc.compiled op (mem_of_getElem? h)

include laws

/-! ## Steps of the walk -/

omit laws in
theorem copySpan_text (hfits : Fits c fuel depth rest) (ws : Ws) (out : Option Bytes) (sess : RewriteSession) :
    copySpan fuel depth ⟨ws.bytes ++ (c.text ++ rest), out, sess⟩ = .ok ⟨rest, out.map (· ++ c.text), sess⟩ := by
  have hskip : skipValue fuel (c.text ++ rest) depth = .ok rest := skipValue_text c .empty hfits.fuel hfits.depth hfits.rest
  rw [copySpan]
  simp only [skipWs_text, hskip, ok_bind, spanTo_append]

omit laws in
theorem consumeValueForMutate_text (hfits : Fits val fuel depth rest)
    (hwalk : WalksText sj set walk depth place val rest sess) (ws : Ws) :
    consumeValueForMutate sj set walk fuel depth place (ws.bytes ++ (val.text ++ rest)) sess =
      orInvalid ((consumed sj set place ws.bytes val (walkValue sj set false place val) sess).map fun sess =>
        (rest, sess)) := by
  rw [consumeValueForMutate, consumed]
  split
  case isTrue =>
    rw [hwalk ws none, isSome_none]
    cases walkValue sj set false place val sess <;> rfl
  case isFalse =>
    have hspan : spanTo (ws.bytes ++ (val.text ++ rest)) rest = ws.bytes ++ val.text := by
      rw [← append_assoc, spanTo_append]
    rw [skipValue_text val ws hfits.fuel hfits.depth hfits.rest, ok_bind, hspan]
    rfl

theorem payloadOr_item {β : Type} (k : Emit → RewriteSession → β) (hop : Compiled sj op) (idx : Nat) (front : Bytes)
    (val : Cst) (emit : Emit) (h : PayloadsOk sess) :
    (if emit.out.isSome then
      match resolvePayload sj idx op sess with
      | (some payload, sess) => k (emit.item (front ++ payload)) sess
      | (none, sess) => k (emit.item (front ++ val.text)) sess
    else k emit sess) =
      k (emit.item (front ++ (payloadOr sj emit.out.isSome idx op val sess).1.text))
        (payloadOr sj emit.out.isSome idx op val sess).2 := by
  have htext := (resolvePayload_ok laws hop idx h).1
  obtain ⟨_ | out, any⟩ := emit
  · rfl
  · simp only [isSome_some, if_true, payloadOr]
    rcases hresolve : resolvePayload sj idx op sess with ⟨_ | payload, sess'⟩
    · rfl
    · rw [hresolve] at htext
      simp only [payloadCst_text (htext payload rfl)]

theorem addElem_emit (hacc : Accepted sj set) (idx : Option Nat) (emit : Emit) (h : PayloadsOk sess) :
    (match idx with
      | some idx => tryEmitAdd sj set idx emit sess
      | none => (emit, sess)) =
      (emit.items ((addElem sj set idx sess).1.map Cst.text), (addElem sj set idx sess).2) := by
  cases idx with
  | none => rfl
  | some idx =>
    rw [addElem, CompiledOpSet.opAt, bind_some]
    simp only [tryEmitAdd]
    rcases hop : set.ops[idx]? with _ | op
    · rfl
    · have htext := (resolvePayload_ok laws (compiled_of_getElem? hacc hop) idx h).1
      simp only [map_some]
      split
      case isFalse => rfl
      case isTrue =>
        rw [tryEmitPayload]
        rcases hresolve : resolvePayload sj idx op sess with ⟨_ | payload, sess'⟩
        · rfl
        · rw [hresolve] at htext
          simp only [map_cons, map_nil, payloadCst_text (htext payload rfl)]
          rfl

theorem finishArray_emit (hacc : Accepted sj set) (path : List PathToken) (len : Nat) (emit : Emit)
    (h : PayloadsOk sess) :
    finishArray sj set path len emit sess =
      (emit.items ((addElems sj set path len sess).1.map Cst.text), (addElems sj set path len sess).2) := by
  have hlen := addElem_emit laws hacc (set.index.mutateAtIndex path len) emit h
  have happend := addElem_emit laws hacc (set.index.addAppend path)
    (emit.items ((addElem sj set (set.index.mutateAtIndex path len) sess).1.map Cst.text))
    (kept_addElem (keeps_payloadsOk laws hacc).toKeepsPayloads (set.index.mutateAtIndex path len) h)
  rw [← Emit.items_append, ← map_append] at happend
  rw [finishArray]
  refine Eq.trans (congrArg (fun r : Emit × RewriteSession =>
    match set.index.addAppend path with
    | some idx => tryEmitAdd sj set idx r.1 r.2
    | none => (r.1, r.2)) hlen) happend

theorem injectObjectAdd_emit (hop : Compiled sj op) (path : List PathToken) (sat : List String) (idx : Nat)
    (emit : Emit) (h : PayloadsOk sess) :
    injectObjectAdd sj path sat idx op emit sess =
      (emit.items ((addMember sj path sat idx op sess).1.map memberText),
        (addMember sj path sat idx op sess).2) := by
  have htext := (resolvePayload_ok laws hop idx h).1
  rw [injectObjectAdd, addMember]
  split
  case isFalse => rfl
  case isTrue hadd =>
    have hencoded : op.encodedLastToken = op.tokens.getLast?.map encodeJsonString := by
      cases hop with
      | extract => cases hadd.1
      | add | replace | remove => rfl
    cases hlast : op.tokens.getLast? with
    | none => rfl
    | some last =>
      simp only
      split
      case isTrue => rfl
      case isFalse =>
        rcases hresolve : resolvePayload sj idx op sess with ⟨_ | payload, sess'⟩
        · rfl
        · rw [hresolve] at htext
          simp only [hencoded, hlast, map_some, map_cons, map_nil, memberText, keyTok_text,
            payloadCst_text (htext payload rfl)]
          rfl

theorem injectObjectAddsFrom_emit (hacc : Accepted sj set) (path : List PathToken) (sat : List String) :
    ∀ (ops : List CompiledOp) (idx : Nat) (emit : Emit) {sess : RewriteSession}, set.ops.drop idx = ops → PayloadsOk sess →
    injectObjectAddsFrom sj path sat idx ops emit sess =
      (emit.items ((addMembers sj path sat idx ops sess).1.map memberText),
        (addMembers sj path sat idx ops sess).2)
  | [], _, _, _, _, _ => rfl
  | op :: rest, idx, emit, sess, hops, h => by
    obtain ⟨hop, hrest⟩ := of_drop_eq_cons hops
    rw [injectObjectAddsFrom, injectObjectAdd_emit laws (compiled_of_getElem? hacc hop) path sat idx emit h]
    simp only
    rw [injectObjectAddsFrom_emit hacc path sat rest (idx + 1) _ hrest
      (kept_addMember (keeps_payloadsOk laws hacc).toKeepsPayloads hop path sat h), ← Emit.items_append, ← map_append]
    rfl

theorem injectObjectAdds_emit (hacc : Accepted sj set) (path : List PathToken) (sat : List String) (emit : Emit)
    (h : PayloadsOk sess) :
    injectObjectAdds sj set path sat emit sess =
      (emit.items ((objectAdds sj set emit.out.isSome path sat sess).1.map memberText),
        (objectAdds sj set emit.out.isSome path sat sess).2) := by
  rw [injectObjectAdds, objectAdds]
  split
  case isTrue => exact injectObjectAddsFrom_emit laws hacc path sat set.ops 0 emit rfl h
  case isFalse => rfl

/-! ## Members and elements -/

omit laws in
theorem applyObjectMutate_remove (hfits : Fits val fuel depth rest)
    (hwalk : WalksText sj set walk depth place val rest sess) (hkind : op.kind = .remove) {tok : StrTok} (idx : Nat)
    {gap : Ws} {emit : Emit} :
    applyObjectMutate sj set walk fuel depth place tok.text idx op emit (gap.bytes ++ (val.text ++ rest)) sess =
      orInvalid ((consumed sj set place gap.bytes val (walkValue sj set false place val) sess).map fun sess =>
        (emit, rest, sess)) := by
  rw [applyObjectMutate, hkind]
  simp only
  rw [consumeValueForMutate_text hfits hwalk gap]
  cases consumed sj set place gap.bytes val (walkValue sj set false place val) sess <;> rfl

section

variable (hacc : Accepted sj set) (hfits : Fits val fuel depth rest)
  (hwalk : WalksText sj set walk depth place val rest sess) (hop : set.ops[idx]? = some op)
include hacc hfits hwalk hop

theorem applyObjectMutate_payload (hkind : op.kind ≠ .remove ∧ op.kind ≠ .extract) (tok : StrTok) (gap : Ws)
    (emit : Emit) (hok : PayloadsOk sess) :
    applyObjectMutate sj set walk fuel depth place tok.text idx op emit (gap.bytes ++ (val.text ++ rest)) sess =
      orInvalid ((consumed sj set place [] val (walkValue sj set false place val) sess).map fun sess =>
        (emit.item (memberText (tok, (payloadOr sj emit.out.isSome idx op val sess).1)), rest,
          (payloadOr sj emit.out.isSome idx op val sess).2)) := by
  have hconsume := consumeValueForMutate_text hfits hwalk .empty
  rw [Ws.empty_bytes, nil_append] at hconsume
  rw [applyObjectMutate, skipWs_text]
  cases hk : op.kind with
  | remove => exact absurd hk hkind.1
  | extract => exact absurd hk hkind.2
  | add | replace =>
    simp only [hconsume]
    rcases hconsumed : consumed sj set place [] val (walkValue sj set false place val) sess with _ | sess'
    · rfl
    · simp only [map_some, orInvalid_some, ok_bind, spanTo_append, memberText]
      exact payloadOr_item laws (fun emit sess => Except.ok (emit, rest, sess)) (compiled_of_getElem? hacc hop) idx
        (tok.text ++ [COLON]) val emit (kept_consumed hacc (keeps_payloadsOk laws hacc) hok hconsumed)

theorem rewriteArrayMember_text (hkind : op.kind = .remove ∨ op.kind = .replace) (emit : Emit)
    (hok : PayloadsOk sess) :
    rewriteArrayMember sj set walk fuel depth place idx op emit (val.text ++ rest) sess =
      orInvalid ((consumed sj set place [] val (walkValue sj set false place val) sess).map fun sess =>
        if op.kind = .remove then (emit, rest, sess)
        else (emit.item (payloadOr sj emit.out.isSome idx op val sess).1.text, rest,
          (payloadOr sj emit.out.isSome idx op val sess).2)) := by
  have hconsume := consumeValueForMutate_text hfits hwalk .empty
  rw [Ws.empty_bytes, nil_append] at hconsume
  have hstart : skipWs (val.text ++ rest) = val.text ++ rest := skipWs_text .empty val rest
  rw [rewriteArrayMember]
  rcases hkind with hkind | hkind
  · rw [hkind]
    simp only [hconsume, if_true]
    cases consumed sj set place [] val (walkValue sj set false place val) sess <;> rfl
  · have hne : ¬ op.kind = .remove := by rw [hkind]; decide
    simp only [if_neg hne]
    rw [hkind]
    simp only [hstart, hconsume]
    rcases hconsumed : consumed sj set place [] val (walkValue sj set false place val) sess with _ | sess'
    · rfl
    · simp only [map_some, orInvalid_some, ok_bind, spanTo_append]
      exact payloadOr_item laws (fun emit sess => Except.ok (emit, rest, sess)) (compiled_of_getElem? hacc hop) idx []
        val emit (kept_consumed hacc (keeps_payloadsOk laws hacc) hok hconsumed)

end

/-! ## Containers -/

theorem rewriteObject_text (hacc : Accepted sj set)
    {ms : Nat → List PathToken → MemberLoop → Except JsonError MemberLoop} {walk : Option MemberWalk}
    (hok : ∀ w, walk = some w → PayloadsOk w.session)
    (hmembers : ∃ seen, ms depth path ⟨tail, ⟨out.map (· ++ [LBRACE]), false⟩, sess, false, []⟩ =
      orInvalid (walk.map fun w => ⟨rest, Emit.items ⟨out.map (· ++ [LBRACE]), false⟩ (w.items.map memberText), w.session,
        seen, w.satisfied⟩)) :
    rewriteObject sj set ms (depth + 1) path ⟨LBRACE :: tail, out, sess⟩ =
      orInvalid (walk.map fun w =>
        let (added, sess) := objectAdds sj set out.isSome path w.satisfied w.session
        ⟨rest, out.map (· ++ (Cst.object .empty (ofMembers (w.items ++ added))).text), sess⟩) := by
  obtain ⟨seen, hmembers⟩ := hmembers
  rw [rewriteObject]
  simp only [bumpDepth, ok_bind, expectByte_cons, hmembers]
  cases walk with
  | none => rfl
  | some w =>
    simp only [map_some, orInvalid_some, ok_bind]
    rw [injectObjectAdds_emit laws hacc path w.satisfied _ (hok w rfl)]
    simp only [Emit.items_isSome, isSome_map]
    rw [← Emit.items_append, ← map_append, Emit.items_out]
    cases out with
    | none => rfl
    | some out => simp [Cst.text, ofMembers_text]

theorem rewriteArray_text (hacc : Accepted sj set)
    {es : Nat → List PathToken → ElemLoop → Except JsonError ElemLoop} {walk : Option (List Cst × Nat × RewriteSession)}
    (hok : ∀ items len s, walk = some (items, len, s) → PayloadsOk s)
    (helems : es depth path ⟨tail, ⟨out.map (· ++ [LBRACKET]), false⟩, sess, 0⟩ =
      orInvalid (walk.map fun (items, len, sess) =>
        ⟨rest, Emit.items ⟨out.map (· ++ [LBRACKET]), false⟩ (items.map Cst.text), sess, len⟩)) :
    rewriteArray sj set es (depth + 1) path ⟨LBRACKET :: tail, out, sess⟩ =
      orInvalid (walk.map fun (items, len, sess) =>
        let (added, sess) := addElems sj set path len sess
        ⟨rest, out.map (· ++ (Cst.array .empty (ofElems (items ++ added))).text), sess⟩) := by
  rw [rewriteArray]
  simp only [bumpDepth, ok_bind, expectByte_cons, helems]
  rcases walk with _ | ⟨items, len, sess'⟩
  · rfl
  · simp only [map_some, orInvalid_some, ok_bind]
    rw [finishArray_emit laws hacc path len _ (hok items len sess' rfl)]
    simp only
    rw [← Emit.items_append, ← map_append, Emit.items_out]
    cases out with
    | none => rfl
    | some out => simp [Cst.text, ofElems_text]

/-! ## Values -/

omit laws in
theorem copied_text (hfits : Fits c fuel depth rest) (path : List PathToken) (out : Option Bytes) (sess : RewriteSession) :
    (copySpan fuel depth ⟨c.text ++ rest, out, sess⟩ >>= fun next => Except.ok
      { next with session := storeCapture sj set path (spanTo (c.text ++ rest) next.input) next.session }) =
      .ok ⟨rest, out.map (· ++ c.text), storeCapture sj set path c.text sess⟩ := by
  have hcopy : copySpan fuel depth ⟨c.text ++ rest, out, sess⟩ = .ok ⟨rest, out.map (· ++ c.text), sess⟩ :=
    copySpan_text hfits .empty out sess
  rw [hcopy, ok_bind, spanTo_append]

omit laws in
theorem rewriteValue_scalar (s : Scalar) (hfits : Fits (.scalar s) (fuel + 1) depth rest) (path : List PathToken) (ws : Ws)
    (out : Option Bytes) (sess : RewriteSession) :
    rewriteValue sj set (fuel + 1) depth path ⟨ws.bytes ++ ((Cst.scalar s).text ++ rest), out, sess⟩ =
      .ok ⟨rest, out.map (· ++ s.text), storeCapture sj set path s.text sess⟩ := by
  obtain ⟨b, tail, htext, -⟩ := text_cons (.scalar s)
  have hbrace : b ≠ LBRACE := fun heq => scalar_text_ne s (.inr heq) htext
  have hbracket : b ≠ LBRACKET := fun heq => scalar_text_ne s (.inl heq) htext
  rw [rewriteValue]
  simp only [skipWs_text]
  split
  case isFalse => exact copied_text hfits path out sess
  case isTrue =>
    have hbyte : nextByte ((Cst.scalar s).text ++ rest) = .ok b := by rw [htext]; rfl
    rw [hbyte, ok_bind, if_neg hbrace, if_neg hbracket]
    exact copied_text hfits path out sess

/-- A pass of the element loop after what is added before the element. -/
def elemPass (sj : SerdeJson) (set : CompiledOpSet) (walk : Walk) (next : ElemLoop → Except JsonError ElemLoop)
    (fuel depth : Nat) (path : List PathToken) (i : Nat) (input : Bytes) (start : Emit × RewriteSession) :
    Except JsonError ElemLoop :=
  match replaceOrRemove (set.opAt (set.index.mutateAtIndex path i)) with
  | some (idx, op) => do
    let (emit, input, sess) ← rewriteArrayMember sj set walk fuel depth (path ++ [.index i]) idx op start.1 input start.2
    next ⟨input, emit, sess, i + 1⟩
  | none => do
    let cur ←
      if set.index.childIndexNeedsRewrite path i then
        walk depth (path ++ [.index i]) ⟨input, (start.1.item []).out, start.2⟩
      else copySpan fuel depth ⟨input, (start.1.item []).out, start.2⟩
    next ⟨cur.input, ⟨cur.out, (start.1.item []).any⟩, cur.session, i + 1⟩

omit laws in
theorem rewriteElems_succ (fuel depth : Nat) (path : List PathToken) (loop : ElemLoop) :
    rewriteElems sj set (fuel + 1) depth path loop =
      nextItem RBRACKET (decide (0 < loop.origIdx)) loop.input >>= fun (closed, input) =>
        if closed then .ok { loop with input := input }
        else elemPass sj set (rewriteValue sj set fuel) (rewriteElems sj set fuel depth path) fuel depth path
          loop.origIdx input
          (match set.index.mutateAtIndex path loop.origIdx with
            | some idx => tryEmitAdd sj set idx loop.emit loop.session
            | none => (loop.emit, loop.session)) := by
  rw [rewriteElems]
  rfl

theorem elemPass_text (hacc : Accepted sj set) (path : List PathToken) (i : Nat) (emit : Emit)
    (next : ElemLoop → Except JsonError ElemLoop) (hfits : Fits val fuel depth rest) (hok : PayloadsOk sess)
    (hwalk : WalksText sj set walk depth (path ++ [.index i]) val rest sess) :
    elemPass sj set walk next fuel depth path i (val.text ++ rest) (emit, sess) =
      (orInvalid (walkElem sj set emit.out.isSome path i val (walkValue sj set false (path ++ [.index i]) val)
        (walkValue sj set emit.out.isSome (path ++ [.index i]) val) sess) >>= fun (items, sess) =>
        next ⟨rest, emit.items (items.map Cst.text), sess, i + 1⟩) := by
  have hisSome : (emit.item []).out.isSome = emit.out.isSome := Emit.items_isSome emit [[]]
  have hitem : ∀ c : Cst, (⟨(emit.item []).out.map (· ++ c.text), (emit.item []).any⟩ : Emit) = emit.item c.text :=
    fun c => Emit.item_append emit [] c.text
  rw [elemPass, walkElem]
  rcases hop : replaceOrRemove (set.opAt (set.index.mutateAtIndex path i)) with _ | ⟨idx, op⟩
  · simp only
    split
    case isTrue =>
      have hval := hwalk .empty (emit.item []).out
      rw [Ws.empty_bytes, nil_append, hisSome] at hval
      rw [hval]
      rcases walkValue sj set emit.out.isSome (path ++ [PathToken.index i]) val sess with _ | ⟨c', sess'⟩
      · rfl
      · simp only [map_some, orInvalid_some, ok_bind, hitem]
        rfl
    case isFalse =>
      have hcopy := copySpan_text hfits .empty (emit.item []).out sess
      rw [Ws.empty_bytes, nil_append] at hcopy
      simp only [hcopy, ok_bind, orInvalid_some, hitem]
      rfl
  · obtain ⟨hfound, hkind⟩ := filter_eq_some_iff.1 hop
    simp only
    rw [rewriteArrayMember_text laws hacc hfits hwalk (getElem?_of_opAt hfound).2 (by simpa using hkind) emit hok]
    rcases consumed sj set (path ++ [PathToken.index i]) [] val (walkValue sj set false (path ++ [PathToken.index i]) val) sess
      with _ | sess'
    · rfl
    · simp only [map_some, orInvalid_some, ok_bind]
      split <;> rfl

/-- A pass of the member loop after the colon. -/
def memberPass (sj : SerdeJson) (set : CompiledOpSet) (walk : Walk) (next : MemberLoop → Except JsonError MemberLoop)
    (fuel depth : Nat) (path : List PathToken) (keySpan : Bytes) (key : String) (input : Bytes) (emit : Emit)
    (sess : RewriteSession) (sat : List String) : Except JsonError MemberLoop :=
  match set.opAt (set.index.mutateChildKey path key) with
  | some (idx, op) => do
    let (emit, input, sess) ← applyObjectMutate sj set walk fuel depth (path ++ [.key key]) keySpan idx op emit input
      sess
    let (sat, sess) := noteSatisfied sj idx op sat sess
    next ⟨input, emit, sess, true, sat⟩
  | none => do
    let cur ←
      if set.index.childNeedsRewrite path key then
        walk depth (path ++ [.key key]) ⟨input, (emit.item (keySpan ++ [COLON])).out, sess⟩
      else copySpan fuel depth ⟨input, (emit.item (keySpan ++ [COLON])).out, sess⟩
    next ⟨cur.input, ⟨cur.out, (emit.item (keySpan ++ [COLON])).any⟩, cur.session, true, sat⟩

omit laws in
theorem rewriteMembers_succ (fuel depth : Nat) (path : List PathToken) (loop : MemberLoop) :
    rewriteMembers sj set (fuel + 1) depth path loop =
      nextItem RBRACE loop.seen loop.input >>= fun (closed, input) =>
        if closed then .ok { loop with input := input }
        else parseString sj input >>= fun (keySpan, key, input) =>
          expectByte (skipWs input) COLON >>= fun input =>
          memberPass sj set (rewriteValue sj set fuel) (rewriteMembers sj set fuel depth path) fuel depth path keySpan
            key input loop.emit loop.session loop.satisfied := by
  rw [rewriteMembers]
  rfl

theorem memberPass_text (hacc : Accepted sj set) (path : List PathToken) (key : String) (tok : StrTok) (gap : Ws)
    (emit : Emit) (sat : List String) (next : MemberLoop → Except JsonError MemberLoop)
    (hfits : Fits val fuel depth rest) (hok : PayloadsOk sess)
    (hwalk : WalksText sj set walk depth (path ++ [.key key]) val rest sess) :
    memberPass sj set walk next fuel depth path tok.text key (gap.bytes ++ (val.text ++ rest)) emit sess sat =
      (orInvalid (walkMember sj set emit.out.isSome path key tok gap val
        (walkValue sj set false (path ++ [.key key]) val) (walkValue sj set emit.out.isSome (path ++ [.key key]) val)
        sat sess) >>= fun walk =>
        next ⟨rest, emit.items (walk.items.map memberText), walk.session, true, walk.satisfied⟩) := by
  have hisSome : (emit.item (tok.text ++ [COLON])).out.isSome = emit.out.isSome :=
    Emit.items_isSome emit [tok.text ++ [COLON]]
  have hitem : ∀ c : Cst, (⟨(emit.item (tok.text ++ [COLON])).out.map (· ++ c.text), (emit.item (tok.text ++ [COLON])).any⟩ : Emit) =
      emit.item (memberText (tok, c)) := fun c => Emit.item_append emit (tok.text ++ [COLON]) c.text
  rw [memberPass, walkMember]
  rcases hop : set.opAt (set.index.mutateChildKey path key) with _ | ⟨idx, op⟩
  · simp only
    split
    case isTrue =>
      rw [hwalk gap, hisSome]
      rcases walkValue sj set emit.out.isSome (path ++ [PathToken.key key]) val sess with _ | ⟨c', sess'⟩
      · rfl
      · simp only [map_some, orInvalid_some, ok_bind, hitem]
        rfl
    case isFalse =>
      rw [copySpan_text hfits gap]
      simp only [ok_bind, orInvalid_some, hitem]
      rfl
  · obtain ⟨hfound, hmutates⟩ := hacc.opAt_key hop
    simp only
    by_cases hremove : op.kind = .remove
    · have hnote : ∀ s, noteSatisfied sj idx op sat s = (sat, s) := by
        intro s
        rw [noteSatisfied, hremove]
        rfl
      rw [applyObjectMutate_remove hfits hwalk hremove, if_pos hremove]
      rcases consumed sj set (path ++ [PathToken.key key]) gap.bytes val (walkValue sj set false (path ++ [PathToken.key key]) val) sess
        with _ | sess'
      · rfl
      · simp only [map_some, orInvalid_some, ok_bind, hnote]
        rfl
    · rw [applyObjectMutate_payload laws hacc hfits hwalk hfound ⟨hremove, kind_of_mutatesAt hmutates⟩ tok gap emit hok,
        if_neg hremove]
      cases consumed sj set (path ++ [PathToken.key key]) [] val (walkValue sj set false (path ++ [PathToken.key key]) val) sess <;> rfl

mutual

theorem rewriteValue_text (hacc : Accepted sj set) (c : Cst) {fuel depth : Nat} (path : List PathToken) {rest : Bytes}
    {sess : RewriteSession} (hfits : Fits c fuel depth rest) (hok : PayloadsOk sess) :
    WalksText sj set (rewriteValue sj set fuel) depth path c rest sess := by
  intro ws out
  have hfuel := hfits.fuel
  have hdepth := hfits.depth
  match c, fuel, depth with
  | c, 0, _ => exact absurd hfuel (Nat.not_le.2 (text_pos c))
  | .scalar s, fuel + 1, depth => exact rewriteValue_scalar s hfits path ws out sess
  | .array _ _, _, 0 => exact absurd hdepth (by simp [Cst.depth])
  | .object _ _, _, 0 => exact absurd hdepth (by simp [Cst.depth])
  | .array first es, fuel + 1, depth + 1 =>
    rw [rewriteValue, walkValue]
    simp only [skipWs_text]
    split
    case isFalse => exact copied_text hfits path out sess
    case isTrue =>
      have htext : (Cst.array first es).text ++ rest = LBRACKET :: (es.text first false ++ rest) := by
        rw [Cst.text, cons_append]
      have hspan := spanTo_append (Cst.array first es).text rest
      simp only [Cst.text, length_cons] at hfuel
      simp only [Cst.depth] at hdepth
      have hloop := rewriteElems_text hacc es path first 0 rest ⟨out.map (· ++ [LBRACKET]), false⟩
        (Nat.le_of_succ_le_succ hfuel) (Nat.le_of_succ_le_succ hdepth) hok
      have hzero : decide (0 < 0) = false := rfl
      simp only [isSome_map, hzero] at hloop
      have harray := rewriteArray_text laws hacc (fun items len s => kept_walkElems hacc (keeps_payloadsOk laws hacc) es hok) hloop
      have hne : ¬ LBRACKET = LBRACE := by decide
      rw [htext] at hspan ⊢
      rw [nextByte_cons, ok_bind, if_neg hne, if_pos rfl, harray]
      rcases walkElems sj set out.isSome path es 0 sess with _ | ⟨items, len, sess'⟩
      · rfl
      · simp only [map_some, orInvalid_some, ok_bind, hspan]
  | .object first ms, fuel + 1, depth + 1 =>
    rw [rewriteValue, walkValue]
    simp only [skipWs_text]
    split
    case isFalse => exact copied_text hfits path out sess
    case isTrue =>
      have htext : (Cst.object first ms).text ++ rest = LBRACE :: (ms.text first false ++ rest) := by
        rw [Cst.text, cons_append]
      have hspan := spanTo_append (Cst.object first ms).text rest
      simp only [Cst.text, length_cons] at hfuel
      simp only [Cst.depth] at hdepth
      have hloop := rewriteMembers_text hacc ms path first false rest ⟨out.map (· ++ [LBRACE]), false⟩ []
        (Nat.le_of_succ_le_succ hfuel) (Nat.le_of_succ_le_succ hdepth) hok
      simp only [isSome_map] at hloop
      have hobject := rewriteObject_text laws hacc (fun w => kept_walkMembers hacc (keeps_payloadsOk laws hacc) ms hok) hloop
      rw [htext] at hspan ⊢
      rw [nextByte_cons, ok_bind, if_pos rfl, hobject]
      rcases walkMembers sj set out.isSome path ms [] sess with _ | walk
      · rfl
      · simp only [map_some, orInvalid_some, ok_bind, hspan]
  termination_by structural c

theorem rewriteElems_text (hacc : Accepted sj set) (es : Elems) {fuel depth : Nat} (path : List PathToken) (ws : Ws)
    (i : Nat) (rest : Bytes) (emit : Emit) {sess : RewriteSession}
    (hfuel : (es.text ws (decide (0 < i))).length ≤ fuel) (hdepth : es.depth ≤ depth) (hok : PayloadsOk sess) :
    rewriteElems sj set fuel depth path ⟨es.text ws (decide (0 < i)) ++ rest, emit, sess, i⟩ =
      orInvalid ((walkElems sj set emit.out.isSome path es i sess).map fun (items, len, sess') =>
        ⟨rest, emit.items (items.map Cst.text), sess', len⟩) := by
  match es, fuel with
  | .nil, 0 => exact absurd hfuel (by simp [Elems.text])
  | .nil, fuel + 1 =>
    rw [rewriteElems, nextItem_elems_nil]
    rfl
  | .cons pre val post es, 0 =>
    have hpos := text_pos val
    simp only [Elems.text, length_append] at hfuel
    omega
  | .cons pre val post es, fuel + 1 =>
    have hpos := text_pos val
    have htail := elems_text_pos es post
    have hdelimited := delimited_elems es post rest
    simp only [Elems.text, length_append] at hfuel
    rw [Elems.depth] at hdepth
    have hadded := addElem_emit laws hacc (set.index.mutateAtIndex path i) emit hok
    have hokAdded := kept_addElem (keeps_payloadsOk laws hacc).toKeepsPayloads (set.index.mutateAtIndex path i) hok
    have hval : Fits val fuel depth (es.text post true ++ rest) := ⟨by omega, by omega, hdelimited⟩
    rw [rewriteElems_succ, nextItem_elems_cons, walkElems]
    simp only [ok_bind, Bool.false_eq_true, if_false, hadded]
    rw [elemPass_text laws hacc path i _ _ hval hokAdded (rewriteValue_text hacc val _ hval hokAdded),
      Emit.items_isSome]
    rcases hwalk : walkElem sj set emit.out.isSome path i val (walkValue sj set false (path ++ [PathToken.index i]) val)
      (walkValue sj set emit.out.isSome (path ++ [PathToken.index i]) val)
      (addElem sj set (set.index.mutateAtIndex path i) sess).2 with _ | ⟨items, sess'⟩
    · rfl
    · obtain ⟨item, htaken, -⟩ := walkElem_taken hacc hwalk
      have hok' := kept_taken hacc (keeps_payloadsOk laws hacc) hokAdded htaken
      have hseen : decide (0 < i + 1) = true := decide_eq_true (Nat.succ_pos i)
      have hrfuel : (es.text post (decide (0 < i + 1))).length ≤ fuel := by
        rw [hseen]
        omega
      have hrdepth : es.depth ≤ depth := by omega
      have hloop := rewriteElems_text hacc es path post (i + 1) rest
        ((emit.items ((addElem sj set (set.index.mutateAtIndex path i) sess).1.map Cst.text)).items (items.map Cst.text))
        hrfuel hrdepth hok'
      rw [hseen, Emit.items_isSome, Emit.items_isSome] at hloop
      simp only [orInvalid_some, ok_bind, hloop]
      rcases walkElems sj set emit.out.isSome path es (i + 1) sess' with _ | ⟨more, len, sess''⟩
      · rfl
      · simp only [map_some, orInvalid_some, ← Emit.items_append, ← map_append]
  termination_by structural es

theorem rewriteMembers_text (hacc : Accepted sj set) (ms : Members) {fuel depth : Nat} (path : List PathToken)
    (ws : Ws) (seen : Bool) (rest : Bytes) (emit : Emit) (sat : List String) {sess : RewriteSession}
    (hfuel : (ms.text ws seen).length ≤ fuel) (hdepth : ms.depth ≤ depth) (hok : PayloadsOk sess) :
    ∃ seen', rewriteMembers sj set fuel depth path ⟨ms.text ws seen ++ rest, emit, sess, seen, sat⟩ =
      orInvalid ((walkMembers sj set emit.out.isSome path ms sat sess).map fun walk =>
        ⟨rest, emit.items (walk.items.map memberText), walk.session, seen', walk.satisfied⟩) := by
  match ms, fuel with
  | .nil, 0 => exact absurd hfuel (by simp [Members.text])
  | .nil, fuel + 1 =>
    refine ⟨seen, ?_⟩
    rw [rewriteMembers, nextItem_members_nil]
    rfl
  | .cons pre tok mid gap val post ms, 0 =>
    simp only [Members.text, length_append, length_cons] at hfuel
    omega
  | .cons pre tok mid gap val post ms, fuel + 1 =>
    have htail := members_text_pos ms post
    have hdelimited := delimited_members ms post rest
    simp only [Members.text, length_append, length_cons] at hfuel
    rw [Members.depth] at hdepth
    have hval : Fits val fuel depth (ms.text post true ++ rest) := ⟨by omega, by omega, hdelimited⟩
    have hrfuel : (ms.text post true).length ≤ fuel := by omega
    have hrdepth : ms.depth ≤ depth := by omega
    rw [rewriteMembers_succ, nextItem_members_cons, walkMembers]
    simp only [ok_bind, Bool.false_eq_true, if_false, parseString_tok laws]
    rcases hkey : sj.decodeString tok.text with _ | key
    · exact ⟨seen, rfl⟩
    · simp only [ok_bind, expectColon]
      rw [memberPass_text laws hacc path key tok gap emit sat _ hval hok (rewriteValue_text hacc val _ hval hok)]
      rcases hwalk : walkMember sj set emit.out.isSome path key tok gap val
        (walkValue sj set false (path ++ [PathToken.key key]) val) (walkValue sj set emit.out.isSome (path ++ [PathToken.key key]) val)
        sat sess with _ | walk
      · exact ⟨seen, rfl⟩
      · obtain ⟨item, s, htaken, hnoted, -⟩ := walkMember_taken hacc hwalk
        have keeps := keeps_payloadsOk laws hacc
        have hok' := kept_noted keeps.toKeepsPayloads (kept_taken hacc keeps hok htaken) hnoted
        obtain ⟨seen', hloop⟩ := rewriteMembers_text hacc ms path post true rest
          (emit.items (walk.items.map memberText)) walk.satisfied hrfuel hrdepth hok'
        refine ⟨seen', ?_⟩
        rw [Emit.items_isSome] at hloop
        simp only [orInvalid_some, ok_bind, hloop]
        rcases walkMembers sj set emit.out.isSome path ms walk.satisfied walk.session with _ | more
        · rfl
        · simp only [map_some, orInvalid_some, ← Emit.items_append, ← map_append]
  termination_by structural ms

end

end

end Praxis.JsonOps
