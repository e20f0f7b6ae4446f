/-
Names in rewritten objects. An add whose metadata key becomes known only after its member has been
passed writes the member a second time. Nothing else makes a duplicate.
-/
import Praxis.JsonOps.Extract

namespace Praxis.JsonOps

open CompiledOp List Praxis.Lib Praxis.Lib.Json

/-! ## Adds that come late -/

section

variable (sj : SerdeJson) (set : CompiledOpSet) (store : Option JsonOpStore)

/-- The metadata key is in the store, or a text has been taken for it. -/
def knows (nodes : List Node) (key : String) : Bool :=
  (store.bind fun store => store.metadata.lookup key).isSome || nodes.any fun n => (takenFor sj set key n).isSome

/-- The operation adds what a metadata key holds, and the key becomes known in between. -/
def lateIn (op : CompiledOp) (before after : List Node) : Bool :=
  match op.kind, op.source with
  | .add, some (.metadata key) => !knows sj set store before key && knows sj set store (before ++ after) key
  | _, _ => false

/-- The members whose add becomes known while later members are read. -/
def lateKeys (before : List Node) (path : List PathToken) : Members → List String
  | .nil => []
  | .cons _ tok _ gap val _ rest =>
    match sj.decodeString tok.text with
    | none => lateKeys before path rest
    | some key =>
      let read := before ++ nodesOf sj.decodeString (path ++ [.key key]) gap.bytes val
      (if set.ops.any fun op => op.mutatesAt (path ++ [.key key]) &&
          lateIn sj set store op read (memberNodes sj.decodeString path rest) then [key] else []) ++
        lateKeys read path rest

mutual

/-- Some object of the value has such a member. -/
def lateValue (before : List Node) (path : List PathToken) : Cst → Bool
  | .scalar _ => false
  | .array _ es => lateElems before path es 0
  | .object _ ms => !(lateKeys sj set store before path ms).isEmpty || lateMembers before path ms

def lateElems (before : List Node) (path : List PathToken) : Elems → Nat → Bool
  | .nil, _ => false
  | .cons _ val _ rest, i =>
    lateValue before (path ++ [.index i]) val ||
      lateElems (before ++ nodesOf sj.decodeString (path ++ [.index i]) [] val) path rest (i + 1)

def lateMembers (before : List Node) (path : List PathToken) : Members → Bool
  | .nil => false
  | .cons _ tok _ gap val _ rest =>
    match sj.decodeString tok.text with
    | none => lateMembers before path rest
    | some key =>
      lateValue before (path ++ [.key key]) val ||
        lateMembers (before ++ nodesOf sj.decodeString (path ++ [.key key]) gap.bytes val) path rest

end

end

section

variable {sj : SerdeJson} {set : CompiledOpSet} {store : Option JsonOpStore}

theorem lateKeys_mem {path : List PathToken} {key : String} : ∀ {ms : Members} {before : List Node},
    key ∈ lateKeys sj set store before path ms → key ∈ ms.names sj.decodeString ∧
      ∃ op ∈ set.ops, op.kind = .add ∧ op.mutatesAt (path ++ [.key key]) = true
  | .nil, _, h => by cases h
  | .cons _ tok _ gap val _ rest, before, h => by
    rw [lateKeys] at h
    rw [Members.names]
    split at h
    case h_1 hnone =>
      rw [hnone]
      exact lateKeys_mem h
    case h_2 name hname =>
      rw [hname]
      rw [mem_append] at h
      rcases h with h | h
      · split at h
        case isFalse => cases h
        case isTrue hany =>
          obtain rfl := mem_singleton.1 h
          obtain ⟨op, hop, hlate⟩ := any_eq_true.1 hany
          rw [Bool.and_eq_true] at hlate
          refine ⟨.head _, op, hop, ?_, hlate.1⟩
          have hkind := hlate.2
          rw [lateIn] at hkind
          split at hkind
          case h_1 hadd _ => exact hadd
          case h_2 => cases hkind
      · obtain ⟨hmem, hop⟩ := lateKeys_mem h
        exact ⟨.tail _ hmem, hop⟩

/-- No operation changes a value below the path. -/
def Untouched (set : CompiledOpSet) (path : List PathToken) : Prop :=
  ∀ op ∈ set.ops, ∀ seg more, op.mutatesAt (path ++ seg :: more) = false

theorem Untouched.step {path : List PathToken} (h : Untouched set path) (first : PathToken) : Untouched set (path ++ [first]) := by
  intro op hop seg more
  rw [append_assoc]
  exact h op hop first (seg :: more)

mutual

theorem lateValue_none (c : Cst) (before : List Node) (path : List PathToken) (h : Untouched set path) :
    lateValue sj set store before path c = false := by
  match c with
  | .scalar _ => rfl
  | .array _ es => exact lateElems_none es before path 0 h
  | .object _ ms =>
    have hkeys : lateKeys sj set store before path ms = [] := by
      rw [eq_nil_iff_forall_not_mem]
      intro key hkey
      obtain ⟨-, op, hop, -, hmutates⟩ := lateKeys_mem hkey
      rw [h op hop (.key key) []] at hmutates
      cases hmutates
    rw [lateValue, hkeys, lateMembers_none ms before path h]
    rfl
  termination_by structural c

theorem lateElems_none (es : Elems) (before : List Node) (path : List PathToken) (i : Nat)
    (h : Untouched set path) :
    lateElems sj set store before path es i = false := by
  match es with
  | .nil => rfl
  | .cons _ val _ rest =>
    rw [lateElems, lateValue_none val before _ (h.step (.index i)), lateElems_none rest _ path (i + 1) h]
    rfl
  termination_by structural es

theorem lateMembers_none (ms : Members) (before : List Node) (path : List PathToken) (h : Untouched set path) :
    lateMembers sj set store before path ms = false := by
  match ms with
  | .nil => rfl
  | .cons _ tok _ gap val _ rest =>
    rw [lateMembers]
    split
    case h_1 => exact lateMembers_none rest before path h
    case h_2 key _ =>
      rw [lateValue_none val before _ (h.step (.key key)), lateMembers_none rest _ path h]
      rfl
  termination_by structural ms

end

variable {path : List PathToken} {op : CompiledOp}

theorem op_unique (hacc : Accepted sj set) {a b : CompiledOp} (ha : a ∈ set.ops) (hb : b ∈ set.ops)
    (hpath : a.mutatesAt path = true) (hpath' : b.mutatesAt path = true) : a = b := by
  obtain ⟨i, hi⟩ := mem_iff_getElem?.1 ha
  obtain ⟨j, hj⟩ := mem_iff_getElem?.1 hb
  exact (mutatesAt_unique hacc hi hj hpath hpath').2

/-- Nothing is late below an operation that changes the value itself. -/
theorem mutatesAt_below (hacc : Accepted sj set) (hop : op ∈ set.ops) (h : op.mutatesAt path = true) :
    Untouched set path := by
  intro op' hop' seg more
  by_contra hne
  rw [Bool.not_eq_false] at hne
  have hkind := kind_of_mutatesAt h
  have hkind' := kind_of_mutatesAt hne
  rw [mutatesAt, Bool.and_eq_true, pathEqTokens_iff] at h hne
  have hpre : op.tokens <+: op'.tokens := by
    rw [h.2.inj hne.2.front]
    exact take_prefix _ _
  obtain ⟨i, hi⟩ := mem_iff_getElem?.1 hop
  obtain ⟨j, hj⟩ := mem_iff_getElem?.1 hop'
  obtain rfl := hacc.eq_of_isPrefix hi hj hkind hkind' hpre
  cases hi.symm.trans hj
  have hlen := h.2.length_eq
  have hlen' := hne.2.length_eq
  rw [length_append, length_cons] at hlen'
  omega

/-- Nothing is late in a value that is copied. -/
theorem mutatesAt_of_not_work (hacc : Accepted sj set) (h : set.index.hasDescendantOps path = false) :
    Untouched set path := by
  intro op hop seg more
  rw [← Bool.not_eq_true, hacc.index_eq, OpPathIndex.hasDescendantOps_iff] at h
  by_contra hne
  rw [Bool.not_eq_false, mutatesAt, Bool.and_eq_true, Bool.and_eq_true, pathEqTokens_iff] at hne
  exact h ⟨op, hop, reaches_iff.2 ⟨_, hne.2.front, take_prefix _ _⟩, .inl (by simpa using hne.1.2)⟩

/-! ## What is known -/

/-- The source of the operation has a value. -/
def knownIn (sj : SerdeJson) (sess : RewriteSession) (op : CompiledOp) : Bool :=
  (op.source.bind (sourcePayload sj sess)).isSome

variable {sess : RewriteSession}

theorem knownIn_forget : knownIn sj sess.forget op = knownIn sj sess op := by
  rw [knownIn, knownIn]
  rcases op.source with _ | bytes | key | ⟨ns, key⟩ <;> rfl

theorem storeCapture_scratch (sj : SerdeJson) (set : CompiledOpSet) (path : List PathToken) (json : Bytes) (sess : RewriteSession) :
    (storeCapture sj set path json sess).scratchStructured = sess.scratchStructured ∧
      ∀ key, (sess.scratchMetadata.lookup key).isSome = true →
        ((storeCapture sj set path json sess).scratchMetadata.lookup key).isSome = true := by
  have hwrite : ∀ dest, (writeCaptureDest sj json dest sess).scratchStructured = sess.scratchStructured := by
    intro dest
    cases dest with
    | metadata key => rw [writeCaptureDest]; split <;> rfl
    | structured ns key => rfl
    | header name => rw [writeCaptureDest]; split <;> rfl
  rw [storeCapture]
  split
  case isFalse => exact ⟨rfl, fun _ h => h⟩
  case isTrue =>
    split
    case h_2 => exact ⟨rfl, fun _ h => h⟩
    case h_1 op _ =>
      split
      case h_2 => exact ⟨rfl, fun _ h => h⟩
      case h_1 dest _ =>
        refine ⟨hwrite dest, fun key h => ?_⟩
        rw [writeCaptureDest_metadata, Option.isSome_or, h, Bool.or_true]

theorem knownIn_storeCapture {json : Bytes} (h : knownIn sj sess op = true) :
    knownIn sj (storeCapture sj set path json sess) op = true := by
  obtain ⟨hstructured, hmetadata⟩ := storeCapture_scratch sj set path json sess
  rw [knownIn] at h ⊢
  revert h
  rcases op.source with _ | bytes | key | ⟨ns, key⟩
  · exact id
  · exact id
  · simp only [Option.bind_some, sourcePayload, Option.isSome_map]
    exact hmetadata key
  · simp only [Option.bind_some, sourcePayload, Option.isSome_map, hstructured]
    exact id

theorem captureAll_structured (nodes : List Node) :
    (captureAll sj set nodes sess).scratchStructured = sess.scratchStructured := by
  induction nodes generalizing sess with
  | nil => rfl
  | cons n rest ih => rw [captureAll_cons, ih, (storeCapture_scratch sj set n.path (set.takenBytes n) sess).1]

/-- The payloads that a session keeps have their source and no duplicate names. -/
structure PayloadsSound (sj : SerdeJson) (set : CompiledOpSet) (sess : RewriteSession) : Prop where
  known : ∀ {idx : Nat} {op : CompiledOp}, set.ops[idx]? = some op → (sess.resolved[idx]?.join).isSome = true →
    knownIn sj sess op = true
  distinct : ∀ payload, some payload ∈ sess.resolved → (payloadCst payload).distinct sj.decodeString = true

theorem payloadCst_distinct (laws : sj.Laws) (hop : Compiled sj op) (sess : RewriteSession) {payload : Bytes}
    (h : op.source.bind (sourcePayload sj sess) = some payload) :
    (payloadCst payload).distinct sj.decodeString = true := by
  obtain ⟨c, t, rfl, htree, hdistinct⟩ := source_text laws hop sess h
  rw [distinct_unique sj.decodeString (payloadCst_text ⟨c, rfl⟩), distinct_tree _ c t htree, hdistinct]

theorem resolve_known (laws : sj.Laws) (hacc : Accepted sj set) {idx : Nat} (hop : set.ops[idx]? = some op)
    (h : PayloadsSound sj set sess) :
    (resolvePayload sj idx op sess).1.isSome = knownIn sj sess op ∧
      (∀ payload, (resolvePayload sj idx op sess).1 = some payload →
        (payloadCst payload).distinct sj.decodeString = true) ∧
      PayloadsSound sj set (resolvePayload sj idx op sess).2 := by
  have hcompiled := hacc.compiled op (mem_of_getElem? hop)
  rw [resolvePayload]
  split
  case h_1 cached hcached =>
    have hknown := h.known hop (by rw [hcached]; rfl)
    refine ⟨hknown.symm, ?_, h⟩
    intro payload heq
    cases heq
    exact h.distinct cached (mem_of_getElem? (Option.join_eq_some_iff.1 hcached))
  case h_2 hnone =>
    split
    case h_2 hsource => exact ⟨by rw [knownIn, hsource], by rintro _ ⟨⟩, h⟩
    case h_1 payload hsource =>
      have hdistinct := payloadCst_distinct laws hcompiled sess hsource
      refine ⟨by rw [knownIn, hsource], fun p hp => Option.some.inj hp ▸ hdistinct, ⟨?_, ?_⟩⟩
      · intro idx' op' hop' hcached
        by_cases hidx : idx = idx'
        · subst hidx
          cases hop.symm.trans hop'
          change knownIn sj sess op = true
          rw [knownIn, hsource]
          rfl
        · rw [getElem?_set_ne hidx] at hcached
          exact h.known hop' hcached
      · intro p hp
        rcases mem_or_eq_of_mem_set hp with hp | hp
        · exact h.distinct p hp
        · rw [Option.some.inj hp]
          exact hdistinct

theorem keeps_payloadsSound (laws : sj.Laws) (hacc : Accepted sj set) : Keeps sj set (PayloadsSound sj set) where
  resolve hop h := (resolve_known laws hacc hop h).2.2
  capture h :=
    { known := fun hop hcached => knownIn_storeCapture (h.known hop (by rwa [storeCapture_resolved] at hcached))
      distinct := by rw [storeCapture_resolved]; exact h.distinct }

/-- The session when these values have been offered to the extracts. -/
structure Sound (sj : SerdeJson) (set : CompiledOpSet) (store : Option JsonOpStore) (before : List Node)
    (sess : RewriteSession) : Prop where
  captured : sess.forget = captureAll sj set before (startSession set store).forget
  payloads : PayloadsSound sj set sess

section

variable (hacc : Accepted sj set)

include hacc

variable {op : CompiledOp} {key : String} {before : List Node} {sess sess' : RewriteSession} {val : Cst} {emit : Bool}
  {path : List PathToken} {tok : StrTok} {gap : Ws} {sat : List String} {walk : MemberWalk} {idx : Nat}
  {loud : RewriteSession → Option (Cst × RewriteSession)}

theorem knownIn_metadata (hop : op ∈ set.ops) (hkind : op.kind ≠ .extract) (hsource : op.source = some (.metadata key))
    (h : Sound sj set store before sess) : knownIn sj sess op = knows sj set store before key := by
  have hlookup : sess.scratchMetadata.lookup key = sess.forget.scratchMetadata.lookup key := rfl
  have hstart : (startSession set store).scratchMetadata.lookup key = store.bind fun store => store.metadata.lookup key := by
    cases store with
    | none => rfl
    | some store => rw [startSession_lookup, if_pos ⟨op, hop, hkind, hsource⟩, Option.bind_some]
  have htaken : ((before.filterMap (takenFor sj set key)).getLast?).isSome =
      before.any fun n => (takenFor sj set key n).isSome := by
    rw [Bool.eq_iff_iff, getLast?_isSome, any_eq_true, ne_eq, filterMap_eq_nil_iff]
    simp [Option.isSome_iff_ne_none]
  rw [knownIn, hsource, Option.bind_some, sourcePayload, Option.isSome_map, hlookup, h.captured, captureAll_metadata hacc,
    Option.isSome_or, htaken, knows, Bool.or_comm]
  exact congrArg (fun x => x.isSome || _) hstart

theorem lateIn_eq (hop : op ∈ set.ops) (hkind : op.kind = .add) {after : List Node} (h : Sound sj set store before sess)
    (h' : Sound sj set store (before ++ after) sess') :
    lateIn sj set store op before after = (!knownIn sj sess op && knownIn sj sess' op) := by
  have hmutates : op.kind ≠ .extract := by rw [hkind]; decide
  have hsame : ∀ {s : RewriteSession} {nodes : List Node}, Sound sj set store nodes s →
      s.scratchStructured = (startSession set store).scratchStructured := by
    intro s nodes hs
    have hforget : s.scratchStructured = s.forget.scratchStructured := rfl
    rw [hforget, hs.captured, captureAll_structured]
    rfl
  rcases hsource : op.source with _ | bytes | key | ⟨ns, key⟩
  iterate 2
    · rw [lateIn, hkind, hsource, knownIn, knownIn, hsource]
      rfl
  · rw [knownIn_metadata hacc hop hmutates hsource h, knownIn_metadata hacc hop hmutates hsource h', lateIn, hkind, hsource]
  · rw [lateIn, hkind, hsource, knownIn, knownIn, hsource, Option.bind_some, Option.bind_some, sourcePayload, sourcePayload,
      hsame h, hsame h', Bool.not_and_self]

variable (laws : sj.Laws)

include laws

/-! ## Steps -/

theorem follows_sound (store : Option JsonOpStore) : Follows sj set (Sound sj set store) where
  payloads _ :=
    { resolve := fun hop h => ⟨(forget_resolvePayload ..).trans h.captured, (resolve_known laws hacc hop h.payloads).2.2⟩ }
  capture n h := ⟨(follows_captures hacc _).capture n h.captured, (keeps_payloadsSound laws hacc).capture h.payloads⟩
  pass hnone h := ⟨(follows_captures hacc _).pass hnone h.captured, h.payloads⟩

omit hacc laws in
theorem knownIn_of_keeps (set : CompiledOpSet)
    (hkept : ∀ {P : RewriteSession → Prop}, KeepsPayloads sj set P → P sess → P sess') (op : CompiledOp) :
    knownIn sj sess' op = knownIn sj sess op := by
  have hforget : sess'.forget = sess.forget := hkept (keeps_forget sj set sess.forget) rfl
  rw [← knownIn_forget, hforget, knownIn_forget]

/-! ## Values of a rewritten container -/

theorem payloadOr_distinct (hop : set.ops[idx]? = some op) (hval : val.distinct sj.decodeString = true)
    (h : PayloadsSound sj set sess) (emit : Bool) :
    (payloadOr sj emit idx op val sess).1.distinct sj.decodeString = true := by
  obtain ⟨-, hpayload, -⟩ := resolve_known laws hacc hop h
  rw [payloadOr]
  split
  case isFalse => exact hval
  case isTrue =>
    split
    case h_1 payload _ heq =>
      rw [heq] at hpayload
      exact hpayload payload rfl
    case h_2 => exact hval

theorem addElem_distinct (idx : Option Nat) (h : PayloadsSound sj set sess) :
    (addElem sj set idx sess).1.all (·.distinct sj.decodeString) = true := by
  rw [addElem]
  split
  case h_2 => rfl
  case h_1 i op hop =>
    obtain ⟨-, hpayload, -⟩ := resolve_known laws hacc (getElem?_of_opAt hop).2 h
    split
    case isFalse => rfl
    case isTrue =>
      split
      case h_2 => rfl
      case h_1 payload _ heq =>
        rw [heq] at hpayload
        rw [all_cons, hpayload payload rfl]
        rfl

theorem addElems_distinct (path : List PathToken) (len : Nat) (h : PayloadsSound sj set sess) :
    (addElems sj set path len sess).1.all (·.distinct sj.decodeString) = true := by
  rw [addElems, all_append, Bool.and_eq_true]
  refine ⟨addElem_distinct hacc laws _ h, addElem_distinct hacc laws _ ?_⟩
  exact kept_addElem (keeps_payloadsSound laws hacc).toKeepsPayloads _ h

variable {c : Cst} {item : Option Cst}

omit laws in
theorem kept_distinct (hval : val.distinct sj.decodeString = true)
    (hwalk : ∀ c s, walkValue sj set true path val sess = some (c, s) →
      c.distinct sj.decodeString = !lateValue sj set store before path val)
    (h : (if set.index.hasDescendantOps path then walkValue sj set true path val sess else some (val, sess)) =
      some (c, sess')) : c.distinct sj.decodeString = !lateValue sj set store before path val := by
  split at h
  case isTrue => exact hwalk c sess' h
  case isFalse hops =>
    cases h
    rw [lateValue_none val before path (mutatesAt_of_not_work hacc (by simpa using hops)), hval]
    rfl

theorem taken_distinct {lead : Bytes} (hval : val.distinct sj.decodeString = true)
    (h : PayloadsSound sj set sess) (hwalk : ∀ c s, walkValue sj set true path val sess = some (c, s) →
      c.distinct sj.decodeString = !lateValue sj set store before path val)
    (htaken : Taken sj set true path lead val sess item sess') :
    item.toList.all (·.distinct sj.decodeString) = !lateValue sj set store before path val := by
  cases htaken with
  | removed hop htakes hkind hs =>
    rw [lateValue_none val before _ (mutatesAt_below hacc (mem_of_getElem? hop) (mutatesAt_of_takes htakes))]
    rfl
  | replaced hop htakes hkind hs hor =>
    have hpayload := payloadOr_distinct hacc laws hop hval
      (kept_consumed hacc (keeps_payloadsSound laws hacc) h hs) true
    rw [hor] at hpayload
    rw [lateValue_none val before _ (mutatesAt_below hacc (mem_of_getElem? hop) (mutatesAt_of_takes htakes)),
      Option.toList_some, all_cons, hpayload]
    rfl
  | stays hnone hs =>
    rw [Option.toList_some, all_cons, all_nil, Bool.and_true]
    exact kept_distinct hacc hval hwalk hs

/-! ## Names of a rewritten object -/

omit hacc laws in
/-- The names of items. -/
def itemNames (dec : Bytes → Option String) (items : List (StrTok × Cst)) : List String := items.filterMap fun m => dec m.1.text

theorem noteSatisfied_mem (hop : set.ops[idx]? = some op) (sat : List String) (h : PayloadsSound sj set sess)
    (key : String) :
    key ∈ (noteSatisfied sj idx op sat sess).1 ↔
      key ∈ sat ∨ (op.kind = .add ∧ knownIn sj sess op = true ∧ key = op.tokens.getLast?.getD "") := by
  obtain ⟨hknown, -, -⟩ := resolve_known laws hacc hop h
  rw [noteSatisfied]
  split
  case isFalse hkind => simp [hkind]
  case isTrue hkind =>
    split
    case h_1 payload _ heq =>
      rw [heq, Option.isSome_some] at hknown
      simp [hkind, ← hknown]
    case h_2 _ heq =>
      rw [heq, Option.isSome_none] at hknown
      simp [← hknown]

omit hacc laws in
theorem itemNames_item (hkey : sj.decodeString tok.text = some key) :
    itemNames sj.decodeString (item.toList.map (tok, ·)) = item.toList.map fun _ => key := by
  cases item <;> simp [itemNames, hkey]

theorem walkMember_names {sat' : List String} {s s' : RewriteSession} (hkey : sj.decodeString tok.text = some key)
    (hs : PayloadsSound sj set s) (htaken : Taken sj set true (path ++ [.key key]) gap.bytes val sess item s)
    (hnoted : Noted sj set (path ++ [.key key]) sat s sat' s') :
    (itemNames sj.decodeString (item.toList.map (tok, ·))).Sublist [key] ∧
      (∀ op ∈ set.ops, op.kind = .add → op.mutatesAt (path ++ [.key key]) = true →
        itemNames sj.decodeString (item.toList.map (tok, ·)) = [key]) ∧
      ∀ k, k ∈ sat' ↔ k ∈ sat ∨ (k = key ∧ ∃ op ∈ set.ops, op.kind = .add ∧
        op.mutatesAt (path ++ [.key key]) = true ∧ knownIn sj s' op = true) := by
  rw [itemNames_item hkey]
  refine ⟨by cases item <;> simp, ?_, fun k => ?_⟩
  · intro op hop hadd hmutates
    cases htaken with
    | removed hop' htakes hkind _ =>
      obtain rfl := op_unique hacc (mem_of_getElem? hop') hop (mutatesAt_of_takes htakes) hmutates
      rw [hkind] at hadd
      cases hadd
    | replaced | stays => rfl
  · rcases hnoted with ⟨hnone, rfl, rfl⟩ | ⟨idx, op, hop, hmutates, hnote⟩
    · constructor
      · exact .inl
      · rintro (hk | ⟨-, op', hop', -, hmutates', -⟩)
        · exact hk
        · rw [hnone op' hop'] at hmutates'
          cases hmutates'
    · have hsame : ∀ op', knownIn sj s' op' = knownIn sj s op' := by
        refine fun op' => knownIn_of_keeps set (fun keeps hP => ?_) op'
        have hkept := kept_noteSatisfied keeps hop sat hP
        rwa [hnote] at hkept
      have hmem := noteSatisfied_mem hacc laws hop sat hs k
      rw [hnote, getLast_of_mutatesAt hmutates] at hmem
      rw [hmem]
      refine or_congr_right ?_
      constructor
      · rintro ⟨hadd, hknown, rfl⟩
        exact ⟨rfl, op, mem_of_getElem? hop, hadd, hmutates, by rw [hsame, hknown]⟩
      · rintro ⟨rfl, op', hop', hadd, hmutates', hknown⟩
        obtain rfl := op_unique hacc (mem_of_getElem? hop) hop' hmutates hmutates'
        rw [hsame] at hknown
        exact ⟨hadd, hknown, rfl⟩

variable (dec : Bytes → Option String) (items : List (StrTok × Cst))

omit hacc laws in
theorem itemNames_append (more : List (StrTok × Cst)) :
    itemNames dec (items ++ more) = itemNames dec items ++ itemNames dec more := filterMap_append

theorem walkMembers_names {path : List PathToken} : ∀ (ms : Members) {before : List Node} {sat : List String}
    {sess : RewriteSession} {walk : MemberWalk}, (ms.names sj.decodeString).Nodup →
    Sound sj set store before sess → walkMembers sj set true path ms sat sess = some walk →
    (itemNames sj.decodeString walk.items).Sublist (ms.names sj.decodeString) ∧
      (∀ k ∈ walk.satisfied, k ∈ sat ∨ k ∈ ms.names sj.decodeString) ∧
      (∀ k ∈ sat, k ∈ walk.satisfied) ∧
      ∀ k ∈ ms.names sj.decodeString, ∀ op ∈ set.ops, op.kind = .add → op.mutatesAt (path ++ [.key k]) = true →
        k ∈ itemNames sj.decodeString walk.items ∧
          (k ∉ sat → (k ∈ lateKeys sj set store before path ms ↔
            k ∉ walk.satisfied ∧ knownIn sj walk.session op = true))
  | .nil, _, _, _, _, _, _, hwalk => by
    cases hwalk
    exact ⟨Sublist.refl _, fun _ h => .inl h, fun _ h => h, fun k h => nomatch h⟩
  | .cons pre tok mid gap val post rest, before, sat, sess, walk, hnodup, h, hwalk => by
    obtain ⟨key, item, s, sat', s', more, hkey, htaken, hnote, hmore, rfl⟩ := walkMembers_cons hacc hwalk
    have follows := follows_sound hacc laws store
    have htook := follows_step hacc follows before h htaken
    have hs := kept_noted (follows.payloads _) htook hnote
    have hs' := follows_walkMembers hacc follows rest _ hs hmore
    obtain ⟨hsub, hstays, hnoted⟩ := walkMember_names hacc laws hkey htook.payloads htaken hnote
    have hnames : Members.names sj.decodeString (.cons pre tok mid gap val post rest) = key :: rest.names sj.decodeString := by
      rw [Members.names, hkey]
    rw [hnames] at hnodup ⊢
    obtain ⟨hfresh, hnodup⟩ := nodup_cons.1 hnodup
    obtain ⟨hsub', hfrom, hgrow, hlate⟩ := walkMembers_names rest hnodup hs hmore
    refine ⟨?_, ?_, fun k hk => hgrow k ((hnoted k).2 (.inl hk)), ?_⟩
    · rw [itemNames_append]
      exact hsub.append hsub'
    · intro k hk
      rcases hfrom k hk with hk | hk
      · rcases (hnoted k).1 hk with hk | ⟨rfl, -⟩
        · exact .inl hk
        · exact .inr (.head _)
      · exact .inr (.tail _ hk)
    · intro k hk op hop hkind hmutates
      rw [itemNames_append, mem_append, lateKeys, hkey]
      simp only [mem_append]
      rcases mem_cons.1 hk with rfl | hk
      · -- the member itself: it is noted if its add is known now
        refine ⟨.inl (by rw [hstays op hop hkind hmutates]; exact .head _), fun hnew => ?_⟩
        have hrest : k ∉ lateKeys sj set store
            (before ++ nodesOf sj.decodeString (path ++ [.key k]) gap.bytes val) path rest :=
          fun hmem => hfresh (lateKeys_mem hmem).1
        have hany : (set.ops.any fun op' => op'.mutatesAt (path ++ [.key k]) && lateIn sj set store op'
            (before ++ nodesOf sj.decodeString (path ++ [.key k]) gap.bytes val)
            (memberNodes sj.decodeString path rest)) =
            (!knownIn sj s' op && knownIn sj more.session op) := by
          rw [← lateIn_eq hacc hop hkind hs hs', Bool.eq_iff_iff, any_eq_true]
          constructor
          · rintro ⟨op', hop', hlate'⟩
            rw [Bool.and_eq_true] at hlate'
            obtain rfl := op_unique hacc hop hop' hmutates hlate'.1
            exact hlate'.2
          · intro hlate'
            exact ⟨op, hop, by rw [hmutates, hlate']; rfl⟩
        have hsat : k ∈ more.satisfied ↔ knownIn sj s' op = true := by
          constructor
          · intro hmem
            rcases hfrom k hmem with hmem | hmem
            · rcases (hnoted k).1 hmem with hmem | ⟨-, op', hop', -, hmutates', hknown⟩
              · exact (hnew hmem).elim
              · obtain rfl := op_unique hacc hop hop' hmutates hmutates'
                exact hknown
            · exact (hfresh hmem).elim
          · intro hknown
            exact hgrow k ((hnoted k).2 (.inr ⟨rfl, op, hop, hkind, hmutates, hknown⟩))
        rw [hany, hsat]
        simp only [hrest, or_false]
        cases knownIn sj s' op <;> cases knownIn sj more.session op <;> simp
      · have hne : k ≠ key := fun heq => hfresh (heq ▸ hk)
        obtain ⟨hmem, hiff⟩ := hlate k hk op hop hkind hmutates
        refine ⟨.inr hmem, fun hnew => ?_⟩
        have hnew' : k ∉ sat' := by
          intro hmem'
          rcases (hnoted k).1 hmem' with hmem' | ⟨heq, -⟩
          · exact hnew hmem'
          · exact hne heq
        rw [← hiff hnew']
        refine or_iff_right ?_
        split
        case isTrue => simpa using hne
        case isFalse => simp

/-! ## Members that are added -/

theorem addMember_names (path : List PathToken) (sat : List String) (hop : set.ops[idx]? = some op)
    (h : PayloadsSound sj set sess) :
    ((addMember sj path sat idx op sess).1.all fun m => m.2.distinct sj.decodeString) = true ∧
      (itemNames sj.decodeString (addMember sj path sat idx op sess).1).Nodup ∧
      ∀ k, k ∈ itemNames sj.decodeString (addMember sj path sat idx op sess).1 ↔
        op.kind = .add ∧ op.mutatesAt (path ++ [.key k]) = true ∧ k ∉ sat ∧ knownIn sj sess op = true := by
  obtain ⟨hknown, hpayload, -⟩ := resolve_known laws hacc hop h
  rw [addMember]
  split
  case isFalse hadd =>
    refine ⟨rfl, nodup_nil, fun k => ⟨by rintro ⟨⟩, ?_⟩⟩
    rintro ⟨hkind, hmutates, -⟩
    exact (hadd ⟨hkind, ((mutatesAt_member hkind).1 hmutates).1⟩).elim
  case isTrue hadd =>
    split
    case h_1 hnone =>
      refine ⟨rfl, nodup_nil, fun k => ⟨by rintro ⟨⟩, ?_⟩⟩
      rintro ⟨hkind, hmutates, -⟩
      rw [((mutatesAt_member hkind).1 hmutates).2.1] at hnone
      cases hnone
    case h_2 last hlast =>
      have hmutates : ∀ k, op.mutatesAt (path ++ [.key k]) = true ↔ k = last ∧ k ≠ "-" := by
        intro k
        rw [mutatesAt_member hadd.1, hlast, Option.some_inj]
        exact ⟨fun hk => ⟨hk.2.1.symm, hk.2.2⟩, fun hk => ⟨hadd.2, hk.1.symm, hk.2⟩⟩
      split
      case isTrue hskip =>
        refine ⟨rfl, nodup_nil, fun k => ⟨by rintro ⟨⟩, ?_⟩⟩
        rintro ⟨-, hk, hnew, -⟩
        obtain ⟨rfl, hdash⟩ := (hmutates k).1 hk
        rcases hskip with hskip | hskip
        · exact (hdash hskip).elim
        · exact (hnew hskip).elim
      case isFalse hskip =>
        rw [not_or] at hskip
        split
        case h_1 _ heq =>
          rw [heq, Option.isSome_none] at hknown
          refine ⟨rfl, nodup_nil, fun k => ⟨by rintro ⟨⟩, ?_⟩⟩
          rintro ⟨-, -, -, hk⟩
          rw [← hknown] at hk
          cases hk
        case h_2 payload _ heq =>
          rw [heq] at hknown hpayload
          have hone : itemNames sj.decodeString [(keyTok last, payloadCst payload)] = [last] := by
            rw [itemNames, filterMap_cons, decode_keyTok laws]
            rfl
          rw [hone]
          refine ⟨by rw [all_cons, hpayload payload rfl]; rfl, nodup_singleton last, fun k => ?_⟩
          rw [mem_singleton]
          constructor
          · rintro rfl
            exact ⟨hadd.1, (hmutates k).2 ⟨rfl, hskip.1⟩, hskip.2, hknown.symm⟩
          · rintro ⟨-, hk, -⟩
            exact ((hmutates k).1 hk).1

theorem addMembers_names (path : List PathToken) (sat : List String) : ∀ (ops : List CompiledOp) (idx : Nat)
    {sess : RewriteSession}, set.ops.drop idx = ops → PayloadsSound sj set sess →
    ((addMembers sj path sat idx ops sess).1.all fun m => m.2.distinct sj.decodeString) = true ∧
      (itemNames sj.decodeString (addMembers sj path sat idx ops sess).1).Nodup ∧
      ∀ k, k ∈ itemNames sj.decodeString (addMembers sj path sat idx ops sess).1 ↔
        ∃ op ∈ ops, op.kind = .add ∧ op.mutatesAt (path ++ [.key k]) = true ∧ k ∉ sat ∧
          knownIn sj sess op = true
  | [], _, _, _, _ => ⟨rfl, nodup_nil, fun k => ⟨(nomatch ·), fun ⟨_, hop, _⟩ => nomatch hop⟩⟩
  | op :: rest, idx, sess, hops, h => by
    obtain ⟨hop, hdrop⟩ := of_drop_eq_cons hops
    have keeps := keeps_payloadsSound laws hacc
    obtain ⟨hvalues, hnodup, hmem⟩ := addMember_names hacc laws path sat hop h
    obtain ⟨hvalues', hnodup', hmem'⟩ := addMembers_names path sat rest (idx + 1) hdrop
      (kept_addMember keeps.toKeepsPayloads hop path sat h)
    have hsame : ∀ op', knownIn sj (addMember sj path sat idx op sess).2 op' = knownIn sj sess op' :=
      fun op' => knownIn_of_keeps set (fun keeps' hP => kept_addMember keeps' hop path sat hP) op'
    rw [addMembers]
    refine ⟨?_, ?_, fun k => ?_⟩
    · rw [all_append, hvalues, hvalues']
      rfl
    · rw [itemNames_append, nodup_append']
      refine ⟨hnodup, hnodup', ?_⟩
      -- two adds of one member would overlap
      intro k hk hk'
      obtain ⟨-, hmutates, -⟩ := (hmem k).1 hk
      obtain ⟨op', hop', -, hmutates', -⟩ := (hmem' k).1 hk'
      obtain ⟨j, hj⟩ := mem_iff_getElem?.1 hop'
      rw [← hdrop, getElem?_drop] at hj
      obtain ⟨heq, -⟩ := mutatesAt_unique hacc hop hj hmutates hmutates'
      omega
    · rw [itemNames_append, mem_append, hmem k, hmem' k]
      simp only [mem_cons, exists_eq_or_imp, hsame]

/-! ## Whole values -/

omit hacc laws in
theorem ofMembers_names : (ofMembers items).names dec = itemNames dec items := by
  induction items with
  | nil => rfl
  | cons m rest ih =>
    rw [ofMembers, Members.names, itemNames, filterMap_cons, ih]
    split <;> rename_i heq <;> rw [heq] <;> rfl

omit hacc laws in
theorem ofMembers_distinct : (ofMembers items).distinct dec = items.all fun m => m.2.distinct dec := by
  induction items with
  | nil => rfl
  | cons m rest ih => rw [ofMembers, Members.distinct, all_cons, ih]

omit hacc laws in
theorem ofElems_distinct (items : List Cst) : (ofElems items).distinct dec = items.all (·.distinct dec) := by
  induction items with
  | nil => rfl
  | cons c rest ih => rw [ofElems, Elems.distinct, all_cons, ih]

/-- The names of a rewritten object have no duplicate if no add came late. -/
theorem object_nodup {ms : Members} (hnodup : (ms.names sj.decodeString).Nodup)
    (h : Sound sj set store before sess) (hwalk : walkMembers sj set true path ms [] sess = some walk) :
    (itemNames sj.decodeString (walk.items ++ (addMembers sj path walk.satisfied 0 set.ops walk.session).1)).Nodup ↔
      lateKeys sj set store before path ms = [] := by
  obtain ⟨hsub, -, -, hlate⟩ := walkMembers_names hacc laws ms hnodup h hwalk
  obtain ⟨-, hadded, hmem⟩ := addMembers_names hacc laws path walk.satisfied set.ops 0 rfl
    (follows_walkMembers hacc (follows_sound hacc laws store) ms before h hwalk).payloads
  rw [itemNames_append, nodup_append', eq_nil_iff_forall_not_mem]
  constructor
  · rintro ⟨-, -, hdisjoint⟩ k hk
    obtain ⟨hname, op, hop, hkind, hmutates⟩ := lateKeys_mem hk
    obtain ⟨hitem, hiff⟩ := hlate k hname op hop hkind hmutates
    obtain ⟨hnew, hknown⟩ := (hiff not_mem_nil).1 hk
    exact hdisjoint hitem ((hmem k).2 ⟨op, hop, hkind, hmutates, hnew, hknown⟩)
  · intro hnone
    refine ⟨hnodup.sublist hsub, hadded, fun k hitem hk => ?_⟩
    obtain ⟨op, hop, hkind, hmutates, hnew, hknown⟩ := (hmem k).1 hk
    obtain ⟨-, hiff⟩ := hlate k (hsub.subset hitem) op hop hkind hmutates
    exact hnone k ((hiff not_mem_nil).2 ⟨hnew, hknown⟩)

mutual

theorem walkValue_distinct (c : Cst) {path : List PathToken} {before : List Node} {sess sess' : RewriteSession} {c' : Cst}
    (hc : c.distinct sj.decodeString = true) (h : Sound sj set store before sess)
    (hwalk : walkValue sj set true path c sess = some (c', sess')) :
    c'.distinct sj.decodeString = !lateValue sj set store before path c := by
  match c with
  | .scalar s =>
    rw [walkValue] at hwalk
    cases hwalk
    rfl
  | .array ws es =>
    rcases walkValue_array hwalk with ⟨hops, rfl, -⟩ | ⟨-, items, len, s, added, s', hitems, hadded, rfl, -⟩
    · rw [lateValue_none _ before path (mutatesAt_of_not_work hacc hops), hc]
      rfl
    · obtain ⟨hvalues, hs⟩ := walkElems_distinct es hc h hitems
      have hadded' := addElems_distinct hacc laws path len hs
      rw [hadded] at hadded'
      rw [Cst.distinct, ofElems_distinct, List.all_append, hvalues, hadded', Bool.and_true, lateValue]
  | .object ws ms =>
    rcases walkValue_object hwalk with ⟨hops, rfl, -⟩ | ⟨-, walk, added, s', hitems, hadded, rfl, -⟩
    · rw [lateValue_none _ before path (mutatesAt_of_not_work hacc hops), hc]
      rfl
    · rw [Cst.distinct, Bool.and_eq_true, decide_eq_true_eq] at hc
      have hvalues := walkMembers_distinct ms hc.2 h hitems
      have hnames := object_nodup hacc laws hc.1 h hitems
      obtain ⟨haddedValues, -, -⟩ := addMembers_names hacc laws path walk.satisfied set.ops 0 rfl
        (follows_walkMembers hacc (follows_sound hacc laws store) ms before h hitems).payloads
      rw [objectAdds, if_pos rfl] at hadded
      rw [hadded] at hnames haddedValues
      rw [Cst.distinct, ofMembers_names, ofMembers_distinct, List.all_append, hvalues, haddedValues, Bool.and_true,
        lateValue, Bool.not_or, Bool.not_not, decide_eq_decide.2 hnames]
      congr 1
      rw [Bool.eq_iff_iff, decide_eq_true_eq, List.isEmpty_iff]
termination_by structural c

theorem walkElems_distinct (es : Elems) {path : List PathToken} {i len : Nat} {before : List Node}
    {sess sess' : RewriteSession} {items : List Cst} (hc : es.distinct sj.decodeString = true)
    (h : Sound sj set store before sess)
    (hwalk : walkElems sj set true path es i sess = some (items, len, sess')) :
    items.all (·.distinct sj.decodeString) = (!lateElems sj set store before path es i) ∧
      PayloadsSound sj set sess' := by
  match es with
  | .nil =>
    rw [walkElems] at hwalk
    obtain ⟨rfl, hrest⟩ := Prod.mk.inj (Option.some.inj hwalk)
    cases hrest
    exact ⟨rfl, h.payloads⟩
  | .cons _ val _ rest =>
    obtain ⟨added, s, item, s', more, hadded, htaken, hmore, rfl⟩ := walkElems_cons hacc hwalk
    have follows := follows_sound hacc laws store
    rw [Elems.distinct, Bool.and_eq_true] at hc
    have hadded' := addElem_distinct hacc laws (set.index.mutateAtIndex path i) h.payloads
    have hs := kept_addElem (follows.payloads before) (set.index.mutateAtIndex path i) h
    rw [hadded] at hadded' hs
    have hval := taken_distinct hacc laws hc.1 hs.payloads (fun _ _ hwalk => walkValue_distinct val hc.1 hs hwalk) htaken
    have hrest := follows_step hacc follows before hs htaken
    obtain ⟨hvalues, hs''⟩ := walkElems_distinct rest hc.2 hrest hmore
    refine ⟨?_, hs''⟩
    rw [all_append, all_append, hadded', hval, hvalues, Bool.true_and, lateElems, Bool.not_or]
termination_by structural es

theorem walkMembers_distinct (ms : Members) {path : List PathToken} {before : List Node} {sat : List String}
    {sess : RewriteSession} {walk : MemberWalk} (hc : ms.distinct sj.decodeString = true)
    (h : Sound sj set store before sess)
    (hwalk : walkMembers sj set true path ms sat sess = some walk) :
    (walk.items.all fun m => m.2.distinct sj.decodeString) = !lateMembers sj set store before path ms := by
  match ms with
  | .nil =>
    rw [walkMembers] at hwalk
    cases hwalk
    rfl
  | .cons _ tok _ gap val _ rest =>
    obtain ⟨key, item, s, sat', s', more, hkey, htaken, hnote, hmore, rfl⟩ := walkMembers_cons hacc hwalk
    have follows := follows_sound hacc laws store
    rw [Members.distinct, Bool.and_eq_true] at hc
    have hval := taken_distinct hacc laws hc.1 h.payloads (fun _ _ hwalk => walkValue_distinct val hc.1 h hwalk) htaken
    have htook := follows_step hacc follows before h htaken
    have hvalues := walkMembers_distinct rest hc.2 (kept_noted (follows.payloads _) htook hnote) hmore
    have hitem : ((item.toList.map (tok, ·)).all fun m => m.2.distinct sj.decodeString) =
        item.toList.all (·.distinct sj.decodeString) := all_map
    rw [all_append, hitem, hval, hvalues, lateMembers, hkey]
    simp only [Bool.not_or]
termination_by structural ms

end

/-! ## Documents -/

theorem sound_startSession (store : Option JsonOpStore) : Sound sj set store [] (startSession set store) where
  captured := rfl
  payloads :=
    { known := by
        intro idx op hop hcached
        rw [startSession_resolved, getElem?_map, hop, Option.map_some, Option.join_some] at hcached
        obtain ⟨payload, hpayload⟩ := Option.isSome_iff_exists.1 hcached
        rw [knownIn, source_of_staticPayload hpayload]
        rfl
      distinct := by
        intro payload hpayload
        rw [startSession_resolved] at hpayload
        obtain ⟨op, hop, hstatic⟩ := mem_map.1 hpayload
        exact payloadCst_distinct laws (hacc.compiled op hop) (startSession set store) (source_of_staticPayload hstatic) }

/-- The root is replaced by a value without duplicates, and nothing can be late then. -/
theorem rootReplace_distinct {root : Bytes} (h : PayloadsSound sj set sess) (hok : PayloadsOk sess)
    (hroot : rootReplace sj set sess = (some root, sess')) :
    IsText root ∧ (payloadCst root).distinct sj.decodeString = true ∧ Untouched set [] := by
  rw [rootReplace] at hroot
  split at hroot
  case h_2 => cases hroot
  case h_1 idx hfind =>
    obtain ⟨hidx, hop, -⟩ := findIdx?_eq_some_iff_getElem.1 hfind
    have hget := getElem?_eq_getElem hidx
    rw [hget] at hroot
    change resolvePayload sj idx set.ops[idx] sess = _ at hroot
    obtain ⟨htokens, hkind⟩ := of_decide_eq_true hop
    obtain ⟨-, hdistinct, -⟩ := resolve_known laws hacc hget h
    have htext := (resolvePayload_ok laws (compiled_of_getElem? hacc hget) idx hok).1
    refine ⟨htext root (by rw [hroot]), hdistinct root (by rw [hroot]), mutatesAt_below hacc (mem_of_getElem? hget) ?_⟩
    rw [mutatesAt, hkind, htokens]
    rfl

/-- The document that is written has a duplicate if an add came late. -/
theorem documentWalk_distinct (hc : c.distinct sj.decodeString = true) {out : RewriteOutcome}
    {store' : Option JsonOpStore} (hwalk : documentWalk sj set c store = some (out, store')) {input : Bytes}
    (htext : TextOf input c) : ∃ c', TextOf (out.output.getD input) c' ∧
      c'.distinct sj.decodeString = !lateValue sj set store [] [] c := by
  have hstart := sound_startSession hacc laws store
  rcases documentWalk_output hwalk with ⟨honly, hnone⟩ | ⟨-, ⟨root, sess, hroot, hout⟩ | ⟨sess, c', s, hroot, hs, hout⟩⟩
  · -- a set that only extracts writes nothing and adds nothing
    rw [hnone]
    refine ⟨c, htext, ?_⟩
    rw [hc, lateValue_none c [] [] fun op hop seg more => ?_]
    · rfl
    · rw [mutatesAt, (hacc.extractOnly_iff.1 honly).2 op hop]
      rfl
  · obtain ⟨hroot', hdistinct, hlate⟩ := rootReplace_distinct hacc laws hstart.payloads
      (payloadsOk_startSession laws hacc store) hroot
    have htext' := textOf_text (payloadCst root)
    rw [payloadCst_text hroot'] at htext'
    rw [hout]
    exact ⟨payloadCst root, htext', by rw [hdistinct, lateValue_none c [] [] hlate]; rfl⟩
  · have hsession := kept_rootReplace ((follows_sound hacc laws store).payloads []) hstart
    rw [hroot] at hsession
    rw [hout]
    exact ⟨c', textOf_text c', walkValue_distinct hacc laws c hc hsession hs⟩

end

end

/-- A document without duplicate names is rewritten to one without, exactly if no member is passed
before the metadata key of its add becomes known in the same pass. -/
theorem rewriteDocument_distinct_iff {sj : SerdeJson} (laws : sj.Laws) {headerNameOk : String → Bool} {calls : List Call}
    {set : CompiledOpSet} (hbuild : buildOps sj headerNameOk calls = .ok set) {input : Bytes} {c : Cst}
    (htext : TextOf input c) (hdepth : c.depth ≤ MAX_JSON_DEPTH) (hdistinct : c.distinct sj.decodeString = true)
    {store store' : Option JsonOpStore} {out : RewriteOutcome}
    (hresult : rewriteDocument sj set input store = .ok (out, store')) :
    (∀ c', TextOf (out.output.getD input) c' → c'.distinct sj.decodeString = true) ↔
      lateValue sj set store [] [] c = false := by
  have hacc := buildOps_accepted hbuild
  have hutf8 := (textOf_of_rewriteDocument hacc hresult).1
  rw [rewriteDocument_text laws hacc htext hutf8 hdepth, orInvalid_eq_ok] at hresult
  obtain ⟨c', htext', hlate⟩ := documentWalk_distinct hacc laws hdistinct hresult htext
  constructor
  · intro h
    rw [h c' htext'] at hlate
    simpa using hlate.symm
  · intro h c'' htext''
    rw [distinct_unique sj.decodeString (textOf_unique htext'' htext'), hlate, h]
    rfl

/-! `/a` is added from the metadata key that an extract of `/z` fills. -/

def addFromZ : CompiledOpSet := .finalize
  [⟨"/z", ["z"], .extract, none, some (.metadata "m"), none⟩,
   ⟨"/a", ["a"], .add, some (.metadata "m"), none, some (utf8 "\"a\"")⟩]

def addFromZCalls : List Call := [.extract "/z" (.metadata "m"), .add "/a" (.metadata "m")]

theorem addFromZ_built : buildOps codec (fun _ => true) addFromZCalls = .ok addFromZ := by decide +kernel

/-- `{"a":1,"z":"v"}` is written back with two members `a`. -/
theorem passed_member_twice :
    buildOps codec (fun _ => true) addFromZCalls = .ok addFromZ ∧
      (ofTree (.obj [("a", .num numOne), ("z", .str "v")])).distinct codec.decodeString = true ∧
      TextOf (utf8 "\x7b\"a\":1,\"z\":\"v\"\x7d") (ofTree (.obj [("a", .num numOne), ("z", .str "v")])) ∧
      (rewriteDocument codec addFromZ (utf8 "\x7b\"a\":1,\"z\":\"v\"\x7d") none).map (·.1.output) =
        .ok (some (utf8 "\x7b\"a\":1,\"z\":\"v\",\"a\":\"v\"\x7d")) ∧
      TextOf (utf8 "\x7b\"a\":1,\"z\":\"v\",\"a\":\"v\"\x7d")
        (ofTree (.obj [("a", .num numOne), ("z", .str "v"), ("a", .str "v")])) ∧
      (ofTree (.obj [("a", .num numOne), ("z", .str "v"), ("a", .str "v")])).distinct codec.decodeString = false :=
  ⟨addFromZ_built, by decide +kernel, ⟨false, .empty, .empty, by decide +kernel⟩, by decide +kernel,
    ⟨false, .empty, .empty, by decide +kernel⟩, by decide +kernel⟩

/-- With the members in the other order there is one. -/
theorem known_member_once : ∃ out store',
    rewriteDocument codec addFromZ (utf8 "\x7b\"z\":\"v\",\"a\":1\x7d") none = .ok (out, store') ∧
      ∀ c', TextOf (out.output.getD (utf8 "\x7b\"z\":\"v\",\"a\":1\x7d")) c' → c'.distinct codec.decodeString = true := by
  have htext : TextOf (utf8 "\x7b\"z\":\"v\",\"a\":1\x7d") (ofTree (.obj [("z", .str "v"), ("a", .num numOne)])) :=
    ⟨false, .empty, .empty, by decide +kernel⟩
  have hok : (rewriteDocument codec addFromZ (utf8 "\x7b\"z\":\"v\",\"a\":1\x7d") none).isOk = true := by decide +kernel
  rcases hresult : rewriteDocument codec addFromZ (utf8 "\x7b\"z\":\"v\",\"a\":1\x7d") none with _ | ⟨out, store'⟩
  · rw [hresult] at hok
    cases hok
  · refine ⟨out, store', rfl, ?_⟩
    exact (rewriteDocument_distinct_iff codec_laws addFromZ_built htext (by decide +kernel) (by decide +kernel) hresult).2
      (by decide +kernel)

/-- Whatever the operations put in, what is written is one JSON text. -/
theorem rewritten_isJson {sj : SerdeJson} (laws : sj.Laws) {headerNameOk : String → Bool} {calls : List Call}
    {set : CompiledOpSet} (hbuild : buildOps sj headerNameOk calls = .ok set) {input : Bytes}
    {store store' : Option JsonOpStore} {out : RewriteOutcome}
    (hresult : rewriteDocument sj set input store = .ok (out, store')) : ∃ c, TextOf (out.output.getD input) c := by
  have hacc := buildOps_accepted hbuild
  obtain ⟨hutf8, c, htext, hdepth⟩ := textOf_of_rewriteDocument hacc hresult
  rw [rewriteDocument_text laws hacc htext hutf8 hdepth, orInvalid_eq_ok] at hresult
  rcases documentWalk_output hresult with ⟨-, hout⟩ | ⟨-, ⟨root, _, hroot, hout⟩ | ⟨_, c', _, -, -, hout⟩⟩ <;> rw [hout]
  · exact ⟨c, htext⟩
  · obtain ⟨hroot', -, -⟩ := rootReplace_distinct hacc laws (sound_startSession hacc laws store).payloads
      (payloadsOk_startSession laws hacc store) hroot
    have htext' := textOf_text (payloadCst root)
    rw [payloadCst_text hroot'] at htext'
    exact ⟨payloadCst root, htext'⟩
  · exact ⟨c', textOf_text c'⟩

theorem addFromZ_isJson : ∃ out store', rewriteDocument codec addFromZ (utf8 "\x7b\"z\":\"v\"\x7d") none = .ok (out, store') ∧
    ∃ c, TextOf (out.output.getD (utf8 "\x7b\"z\":\"v\"\x7d")) c := by
  have hok : (rewriteDocument codec addFromZ (utf8 "\x7b\"z\":\"v\"\x7d") none).isOk = true := by decide +kernel
  rcases hresult : rewriteDocument codec addFromZ (utf8 "\x7b\"z\":\"v\"\x7d") none with _ | ⟨out, store'⟩
  · rw [hresult] at hok
    cases hok
  · exact ⟨out, store', rfl, rewritten_isJson codec_laws addFromZ_built hresult⟩

end Praxis.JsonOps
