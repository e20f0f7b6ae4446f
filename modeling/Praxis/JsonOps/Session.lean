/-
What the walk does to the session. It offers the values of the document to the extracts one after the
other, a container after what is in it, and resolves payloads in between. What these two keep is kept by
the whole walk.
-/
import Praxis.JsonOps.Walk

namespace Praxis.JsonOps

open CompiledOpSet List Option Bool Praxis.Lib Praxis.Lib.Json

/-! ## The values of a document, in order -/

/-- A value at its place, with the white space that stands between it and the colon before it. -/
structure Node where
  path : List PathToken
  lead : Bytes
  value : Cst

section

variable (dec : Bytes → Option String)

mutual

/-- The values inside a value. -/
def innerNodes (path : List PathToken) : Cst → List Node
  | .scalar _ => []
  | .array _ es => elemNodes path es 0
  | .object _ ms => memberNodes path ms

def elemNodes (path : List PathToken) : Elems → Nat → List Node
  | .nil, _ => []
  | .cons _ val _ rest, i =>
    innerNodes (path ++ [.index i]) val ++ ⟨path ++ [.index i], [], val⟩ :: elemNodes path rest (i + 1)

def memberNodes (path : List PathToken) : Members → List Node
  | .nil => []
  | .cons _ tok _ gap val _ rest =>
    match dec tok.text with
    | some key => innerNodes (path ++ [.key key]) val ++ ⟨path ++ [.key key], gap.bytes, val⟩ :: memberNodes path rest
    | none => memberNodes path rest

end

/-- The values of a value, itself last. -/
def nodesOf (path : List PathToken) (lead : Bytes) (c : Cst) : List Node := innerNodes dec path c ++ [⟨path, lead, c⟩]

mutual

theorem innerNodes_path (c : Cst) (path : List PathToken) (n : Node) (h : n ∈ innerNodes dec path c) :
    ∃ seg more, n.path = path ++ seg :: more := by
  match c with
  | .scalar _ => cases h
  | .array _ es => exact elemNodes_path es path 0 n h
  | .object _ ms => exact memberNodes_path ms path n h
termination_by structural c

theorem elemNodes_path (es : Elems) (path : List PathToken) (i : Nat) (n : Node) (h : n ∈ elemNodes dec path es i) :
    ∃ seg more, n.path = path ++ seg :: more := by
  match es with
  | .nil => cases h
  | .cons _ val _ rest =>
    rw [elemNodes, mem_append, mem_cons] at h
    rcases h with h | rfl | h
    · obtain ⟨seg, more, hpath⟩ := innerNodes_path val (path ++ [PathToken.index i]) n h
      exact ⟨.index i, seg :: more, by rw [hpath, append_assoc]; rfl⟩
    · exact ⟨.index i, [], rfl⟩
    · exact elemNodes_path rest path (i + 1) n h
termination_by structural es

theorem memberNodes_path (ms : Members) (path : List PathToken) (n : Node) (h : n ∈ memberNodes dec path ms) :
    ∃ seg more, n.path = path ++ seg :: more := by
  match ms with
  | .nil => cases h
  | .cons _ tok _ gap val _ rest =>
    rw [memberNodes] at h
    split at h
    case h_2 => exact memberNodes_path rest path n h
    case h_1 key _ =>
      rw [mem_append, mem_cons] at h
      rcases h with h | rfl | h
      · obtain ⟨seg, more, hpath⟩ := innerNodes_path val (path ++ [PathToken.key key]) n h
        exact ⟨.key key, seg :: more, by rw [hpath, append_assoc]; rfl⟩
      · exact ⟨.key key, [], rfl⟩
      · exact memberNodes_path rest path n h
termination_by structural ms

end

end

/-! ## Captured bytes -/

/-- The bytes that an extract gets. A member that is removed without being opened is read from the
colon on. -/
def CompiledOpSet.takenBytes (set : CompiledOpSet) (n : Node) : Bytes :=
  if (set.ops.any fun op => decide (op.kind = .remove) && op.mutatesAt n.path) && !set.index.hasDescendantExtracts n.path then
    n.lead ++ n.value.text
  else n.value.text

/-! ## What is kept -/

/-- The payloads of the set keep the property. -/
structure KeepsPayloads (sj : SerdeJson) (set : CompiledOpSet) (P : RewriteSession → Prop) : Prop where
  resolve : ∀ {idx : Nat} {op : CompiledOp} {sess : RewriteSession}, set.ops[idx]? = some op → P sess →
    P (resolvePayload sj idx op sess).2

/-- So do captures. -/
structure Keeps (sj : SerdeJson) (set : CompiledOpSet) (P : RewriteSession → Prop) : Prop
    extends KeepsPayloads sj set P where
  capture : ∀ {path : List PathToken} {json : Bytes} {sess : RewriteSession}, P sess →
    P (storeCapture sj set path json sess)

/-- The property of a session in which these values have been offered to the extracts goes on to the values
after them. Values that no extract is for may be passed over. -/
structure Follows (sj : SerdeJson) (set : CompiledOpSet) (P : List Node → RewriteSession → Prop) : Prop where
  payloads : ∀ nodes, KeepsPayloads sj set (P nodes)
  capture : ∀ {nodes : List Node} {sess : RewriteSession} (n : Node), P nodes sess →
    P (nodes ++ [n]) (storeCapture sj set n.path (set.takenBytes n) sess)
  pass : ∀ {nodes more : List Node} {sess : RewriteSession},
    (∀ n ∈ more, ∀ op ∈ set.ops, op.extractsAt n.path = false) → P nodes sess → P (nodes ++ more) sess

section

variable {sj : SerdeJson} {set : CompiledOpSet} {P : RewriteSession → Prop}

theorem Keeps.follows (keeps : Keeps sj set P) : Follows sj set fun _ => P where
  payloads _ := keeps.toKeepsPayloads
  capture _ := keeps.capture
  pass _ h := h

variable {i : Nat}

theorem getElem?_of_opAt {idx : Option Nat} {op : CompiledOp} (h : set.opAt idx = some (i, op)) :
    idx = some i ∧ set.ops[i]? = some op := by
  obtain ⟨j, rfl, h⟩ := bind_eq_some_iff.1 h
  obtain ⟨op', hop', heq⟩ := map_eq_some_iff.1 h
  cases heq
  exact ⟨rfl, hop'⟩

theorem of_drop_eq_cons {α : Type} {xs rest : List α} {x : α} (h : xs.drop i = x :: rest) :
    xs[i]? = some x ∧ xs.drop (i + 1) = rest := by
  constructor
  · rw [← head?_drop, h, head?_cons]
  · rw [← drop_drop, h, drop_one, tail_cons]

section

variable (keeps : KeepsPayloads sj set P)

include keeps

variable {op : CompiledOp} {idx : Nat} {sess : RewriteSession}

theorem kept_payloadOr (hop : set.ops[idx]? = some op) (emit : Bool) (val : Cst) (h : P sess) :
    P (payloadOr sj emit idx op val sess).2 := by
  have hresolve := keeps.resolve hop h
  rw [payloadOr]
  split
  case isFalse => exact h
  case isTrue =>
    split <;> rename_i heq <;> rwa [heq] at hresolve

theorem kept_noteSatisfied (hop : set.ops[idx]? = some op) (sat : List String) (h : P sess) :
    P (noteSatisfied sj idx op sat sess).2 := by
  have hresolve := keeps.resolve hop h
  rw [noteSatisfied]
  split
  case isFalse => exact h
  case isTrue =>
    split <;> rename_i heq <;> rwa [heq] at hresolve

theorem kept_addMember (hop : set.ops[idx]? = some op) (path : List PathToken) (sat : List String) (h : P sess) :
    P (addMember sj path sat idx op sess).2 := by
  have hresolve := keeps.resolve hop h
  rw [addMember]
  split
  case isFalse => exact h
  case isTrue =>
    split
    case h_1 => exact h
    case h_2 =>
      split
      case isTrue => exact h
      case isFalse =>
        split <;> rename_i heq <;> rwa [heq] at hresolve

theorem kept_addMembers (path : List PathToken) (sat : List String) : ∀ (ops : List CompiledOp) (idx : Nat)
    {sess : RewriteSession}, set.ops.drop idx = ops → P sess →
    P (addMembers sj path sat idx ops sess).2
  | [], _, _, _, h => h
  | _ :: rest, idx, _, hops, h =>
    kept_addMembers path sat rest (idx + 1) (of_drop_eq_cons hops).2
      (kept_addMember keeps (of_drop_eq_cons hops).1 path sat h)

theorem kept_objectAdds (emit : Bool) (path : List PathToken) (sat : List String) (h : P sess) :
    P (objectAdds sj set emit path sat sess).2 := by
  cases emit with
  | false => exact h
  | true => exact kept_addMembers keeps path sat set.ops 0 rfl h

theorem kept_addElem (idx : Option Nat) (h : P sess) : P (addElem sj set idx sess).2 := by
  rw [addElem]
  split
  case h_2 => exact h
  case h_1 i op hop =>
    have hresolve := keeps.resolve (getElem?_of_opAt hop).2 h
    split
    case isFalse => exact h
    case isTrue =>
      split <;> rename_i heq <;> rwa [heq] at hresolve

theorem kept_rootReplace (h : P sess) : P (rootReplace sj set sess).2 := by
  rw [rootReplace]
  split
  case h_2 => exact h
  case h_1 =>
    split
    case h_2 => exact h
    case h_1 op hop => exact keeps.resolve hop h

theorem kept_addElems (path : List PathToken) (len : Nat) (h : P sess) : P (addElems sj set path len sess).2 :=
  kept_addElem keeps _ (kept_addElem keeps _ h)

theorem kept_noted {place : List PathToken} {sat sat' : List String} {sess' : RewriteSession} (h : P sess)
    (hnoted : Noted sj set place sat sess sat' sess') : P sess' := by
  rcases hnoted with ⟨-, -, rfl⟩ | ⟨idx, op, hop, -, hnote⟩
  · exact h
  · have hkept := kept_noteSatisfied keeps hop sat h
    rwa [hnote] at hkept

end

/-! ## Values that are taken -/

section

variable (hacc : Accepted sj set) {path : List PathToken}

include hacc

theorem extractsAt_below (h : set.index.hasDescendantExtracts path = false) (seg : PathToken) (more : List PathToken) :
    ∀ op ∈ set.ops, op.extractsAt (path ++ seg :: more) = false := by
  intro op hop
  rw [← not_eq_true, hacc.index_eq, OpPathIndex.hasDescendantExtracts_iff] at h
  by_contra hne
  rw [not_eq_false, extractsAt_iff] at hne
  obtain ⟨hkind, hnames⟩ := hne
  have hlen := hnames.length_eq
  refine h ⟨op, hop, hkind, reaches_iff.2 ⟨_, hnames.front, take_prefix _ _⟩, .inl ?_⟩
  rw [← not_eq_true, pathEqTokens_iff]
  intro hall
  have hshort := hall.length_eq
  rw [length_append, length_cons] at hlen
  omega

theorem extractsAt_of_not_work (h : set.index.hasDescendantOps path = false) (more : List PathToken) :
    ∀ op ∈ set.ops, op.extractsAt (path ++ more) = false := by
  intro op hop
  rw [← not_eq_true, hacc.index_eq, OpPathIndex.hasDescendantOps_iff] at h
  by_contra hne
  rw [not_eq_false, extractsAt_iff] at hne
  obtain ⟨hkind, hnames⟩ := hne
  refine h ⟨op, hop, reaches_iff.2 ⟨_, hnames.front, take_prefix _ _⟩, .inl ?_⟩
  rw [hkind]
  rfl

theorem takenBytes_of_opAt {i : Nat} {op : CompiledOp} (hop : set.ops[i]? = some op) (hmutates : op.mutatesAt path = true)
    (hextracts : set.index.hasDescendantExtracts path = false) (lead : Bytes) {c : Cst} :
    set.takenBytes ⟨path, lead, c⟩ = (if op.kind = .remove then lead else []) ++ c.text := by
  have hany : (set.ops.any fun op => decide (op.kind = .remove) && op.mutatesAt path) = decide (op.kind = .remove) := by
    rw [Bool.eq_iff_iff, List.any_eq_true]
    simp only [Bool.and_eq_true, decide_eq_true_eq]
    constructor
    · rintro ⟨op', hop', hkind, hmutates'⟩
      obtain ⟨j, hj⟩ := List.mem_iff_getElem?.1 hop'
      rwa [← (mutatesAt_unique hacc hj hop hmutates' hmutates).2]
    · intro hkind
      exact ⟨op, List.mem_of_getElem? hop, hkind, hmutates⟩
  rw [takenBytes, hextracts]
  simp only [hany, Bool.not_false, Bool.and_true, decide_eq_true_eq]
  split <;> rfl

omit hacc in
theorem takenBytes_nil (path : List PathToken) (c : Cst) : set.takenBytes ⟨path, [], c⟩ = c.text := by
  rw [takenBytes]
  split <;> rfl

omit hacc in
theorem takenBytes_of_extracts (h : set.index.hasDescendantExtracts path = true) (lead : Bytes) (c : Cst) :
    set.takenBytes ⟨path, lead, c⟩ = c.text := by
  rw [takenBytes, h]
  simp

omit hacc in
/-- Where nothing is removed the white space before the value is not read. -/
theorem takenBytes_of_stays (h : ∀ op ∈ set.ops, op.takes path = false) (lead : Bytes) (c : Cst) :
    set.takenBytes ⟨path, lead, c⟩ = c.text := by
  have hnone : (set.ops.any fun op => decide (op.kind = .remove) && op.mutatesAt path) = false := by
    rw [List.any_eq_false]
    intro op hop hremove
    rw [Bool.and_eq_true, decide_eq_true_eq] at hremove
    have htakes := takes_of_mutatesAt hremove.2 (by rw [hremove.1]; decide)
    rw [h op hop] at htakes
    cases htakes
  rw [takenBytes, hnone]
  rfl

/-! ## The walk -/

variable {P : List Node → RewriteSession → Prop} (follows : Follows sj set P)

include follows

variable {nodes : List Node} {sess : RewriteSession}

omit hacc in
theorem follows_closed (h : P nodes sess)
    (hbelow : ∀ seg more, ∀ op ∈ set.ops, op.extractsAt (path ++ seg :: more) = false) (lead : Bytes) (c : Cst) :
    P (nodes ++ nodesOf sj.decodeString path lead c)
      (storeCapture sj set path (set.takenBytes ⟨path, lead, c⟩) sess) := by
  rw [nodesOf, ← append_assoc]
  refine follows.capture ⟨path, lead, c⟩ (follows.pass ?_ h)
  intro n hn
  obtain ⟨seg, more, hpath⟩ := innerNodes_path sj.decodeString c path n hn
  rw [hpath]
  exact hbelow seg more

theorem follows_copied (h : P nodes sess) (hops : set.index.hasDescendantOps path = false) (lead : Bytes) (c : Cst) :
    P (nodes ++ nodesOf sj.decodeString path lead c) sess := by
  refine follows.pass ?_ h
  intro n hn
  rw [nodesOf, mem_append, mem_singleton] at hn
  rcases hn with hn | rfl
  · obtain ⟨seg, more, hpath⟩ := innerNodes_path sj.decodeString c path n hn
    rw [hpath]
    exact extractsAt_of_not_work hacc hops (seg :: more)
  · have hself := extractsAt_of_not_work hacc hops []
    rwa [append_nil] at hself

section

variable {place : List PathToken} {lead : Bytes} {val : Cst} {sess : RewriteSession} {nodes : List Node}
  {sess' : RewriteSession}

theorem follows_consumed {skipped : Bytes} (h : P nodes sess)
    (hbytes : set.index.hasDescendantExtracts place = false → set.takenBytes ⟨place, lead, val⟩ = skipped ++ val.text)
    (hval : set.takenBytes ⟨place, lead, val⟩ = val.text → ∀ c s,
      walkValue sj set false place val sess = some (c, s) → P (nodes ++ nodesOf sj.decodeString place lead val) s)
    (hs : consumed sj set place skipped val (walkValue sj set false place val) sess = some sess') :
    P (nodes ++ nodesOf sj.decodeString place lead val) sess' := by
  rw [consumed] at hs
  split at hs
  case isTrue hextracts =>
    obtain ⟨⟨c, s⟩, hwalk, rfl⟩ := map_eq_some_iff.1 hs
    exact hval (takenBytes_of_extracts hextracts lead val) c s hwalk
  case isFalse hextracts =>
    rw [not_eq_true] at hextracts
    cases hs
    rw [← hbytes hextracts]
    exact follows_closed follows h (extractsAt_below hacc hextracts) lead val

theorem follows_taken (nodes : List Node) {emit : Bool} {item : Option Cst} (h : P nodes sess)
    (hval : set.takenBytes ⟨place, lead, val⟩ = val.text → ∀ {emit} c s,
      walkValue sj set emit place val sess = some (c, s) → P (nodes ++ nodesOf sj.decodeString place lead val) s)
    (htaken : Taken sj set emit place lead val sess item sess') :
    P (nodes ++ nodesOf sj.decodeString place lead val) sess' := by
  cases htaken with
  | removed hop htakes hkind hs =>
    refine follows_consumed hacc follows h (fun hextracts => ?_) (fun hbytes => hval hbytes) hs
    rw [takenBytes_of_opAt hacc hop (mutatesAt_of_takes htakes) hextracts, if_pos hkind]
  | replaced hop htakes hkind hs hor =>
    have hkept := kept_payloadOr (follows.payloads _) hop emit val
      (follows_consumed hacc follows h (fun hextracts => by
        rw [takenBytes_of_opAt hacc hop (mutatesAt_of_takes htakes) hextracts, if_neg hkind])
        (fun hbytes => hval hbytes) hs)
    rwa [hor] at hkept
  | stays hnone hs =>
    split at hs
    case isTrue => exact hval (takenBytes_of_stays hnone lead val) _ _ hs
    case isFalse hops =>
      cases hs
      exact follows_copied hacc follows h (by simpa using hops) lead val

end

mutual

theorem follows_walkValue (c : Cst) {emit : Bool} {path : List PathToken} {lead : Bytes} (nodes : List Node)
    {sess : RewriteSession} (h : P nodes sess) (hbytes : set.takenBytes ⟨path, lead, c⟩ = c.text) (c' : Cst)
    (sess' : RewriteSession) (hwalk : walkValue sj set emit path c sess = some (c', sess')) :
    P (nodes ++ nodesOf sj.decodeString path lead c) sess' := by
  match c with
  | .scalar s =>
    rw [walkValue] at hwalk
    cases hwalk
    rw [← hbytes]
    exact follows.capture ⟨path, lead, .scalar s⟩ h
  | .array ws es =>
    rcases walkValue_array hwalk with ⟨hops, -, rfl⟩ | ⟨-, items, len, s, added, s', hs, hadded, -, rfl⟩
    · rw [← hbytes]
      exact follows_closed follows h (fun seg more => extractsAt_of_not_work hacc hops _) lead _
    · have hs' := kept_addElems (follows.payloads _) path len (follows_walkElems es nodes h hs)
      rw [hadded] at hs'
      rw [← hbytes, nodesOf, ← append_assoc]
      exact follows.capture ⟨path, lead, .array ws es⟩ hs'
  | .object ws ms =>
    rcases walkValue_object hwalk with ⟨hops, -, rfl⟩ | ⟨-, walk, added, s', hs, hadded, -, rfl⟩
    · rw [← hbytes]
      exact follows_closed follows h (fun seg more => extractsAt_of_not_work hacc hops _) lead _
    · have hs' := kept_objectAdds (follows.payloads _) emit path walk.satisfied (follows_walkMembers ms nodes h hs)
      rw [hadded] at hs'
      rw [← hbytes, nodesOf, ← append_assoc]
      exact follows.capture ⟨path, lead, .object ws ms⟩ hs'
  termination_by structural c

theorem follows_walkElems (es : Elems) {emit : Bool} {path : List PathToken} {i : Nat} (nodes : List Node)
    {sess sess' : RewriteSession} {items : List Cst} {len : Nat} (h : P nodes sess)
    (hwalk : walkElems sj set emit path es i sess = some (items, len, sess')) :
    P (nodes ++ elemNodes sj.decodeString path es i) sess' := by
  match es with
  | .nil =>
    rw [walkElems] at hwalk
    obtain ⟨-, heq⟩ := Prod.mk.inj (some.inj hwalk)
    cases heq
    rwa [elemNodes, append_nil]
  | .cons _ val _ rest =>
    obtain ⟨added, s, item, s', more, hadded, htaken, hmore, -⟩ := walkElems_cons hacc hwalk
    have hs := kept_addElem (follows.payloads nodes) (set.index.mutateAtIndex path i) h
    rw [hadded] at hs
    have hval := follows_taken hacc follows nodes hs (fun hbytes => follows_walkValue val nodes hs hbytes) htaken
    have hrest := follows_walkElems rest _ hval hmore
    rwa [nodesOf, append_assoc, append_assoc] at hrest
  termination_by structural es

theorem follows_walkMembers (ms : Members) {emit : Bool} {path : List PathToken} {sat : List String}
    (nodes : List Node) {sess : RewriteSession} {walk : MemberWalk} (h : P nodes sess)
    (hwalk : walkMembers sj set emit path ms sat sess = some walk) :
    P (nodes ++ memberNodes sj.decodeString path ms) walk.session := by
  match ms with
  | .nil =>
    rw [walkMembers] at hwalk
    cases hwalk
    rwa [memberNodes, append_nil]
  | .cons _ tok _ gap val _ rest =>
    obtain ⟨key, item, s, sat', s', more, hkey, htaken, hnoted, hmore, rfl⟩ := walkMembers_cons hacc hwalk
    have hval := follows_taken hacc follows nodes h (fun hbytes => follows_walkValue val nodes h hbytes) htaken
    have hrest := follows_walkMembers rest _ (kept_noted (follows.payloads _) hval hnoted) hmore
    rw [memberNodes, hkey]
    rwa [nodesOf, append_assoc, append_assoc] at hrest
  termination_by structural ms

end

theorem follows_step (nodes : List Node) {emit : Bool} {lead : Bytes} {val : Cst} {item : Option Cst}
    {sess' : RewriteSession} (h : P nodes sess) (htaken : Taken sj set emit path lead val sess item sess') :
    P (nodes ++ nodesOf sj.decodeString path lead val) sess' :=
  follows_taken hacc follows nodes h (fun hbytes => follows_walkValue hacc follows val nodes h hbytes) htaken

end

/-! ### Properties of the session alone -/

section

variable (hacc : Accepted sj set) (keeps : Keeps sj set P)

include hacc keeps

variable {emit : Bool} {path : List PathToken} {val : Cst} {sess sess' : RewriteSession}

theorem kept_walkElems (es : Elems) {i len : Nat} {items : List Cst} (h : P sess)
    (hwalk : walkElems sj set emit path es i sess = some (items, len, sess')) : P sess' :=
  follows_walkElems hacc keeps.follows es [] h hwalk

theorem kept_walkMembers (ms : Members) {sat : List String} {walk : MemberWalk} (h : P sess)
    (hwalk : walkMembers sj set emit path ms sat sess = some walk) : P walk.session :=
  follows_walkMembers hacc keeps.follows ms [] h hwalk

variable {lead : Bytes}

theorem kept_consumed (h : P sess)
    (hs : consumed sj set path lead val (walkValue sj set false path val) sess = some sess') :
    P sess' := by
  rw [consumed] at hs
  split at hs
  case isTrue =>
    obtain ⟨⟨c, s⟩, hwalk, rfl⟩ := map_eq_some_iff.1 hs
    exact follows_walkValue hacc keeps.follows val [] h (takenBytes_nil path val) c s hwalk
  case isFalse =>
    cases hs
    exact keeps.capture h

theorem kept_taken {item : Option Cst} (h : P sess) (htaken : Taken sj set emit path lead val sess item sess') :
    P sess' :=
  follows_step hacc keeps.follows [] h htaken

end

end

theorem keeps_payloadsOk {sj : SerdeJson} {set : CompiledOpSet} (laws : sj.Laws) (hacc : Accepted sj set) :
    Keeps sj set PayloadsOk where
  capture := payloadsOk_storeCapture
  resolve hop h := (resolvePayload_ok laws (hacc.compiled _ (mem_of_getElem? hop)) _ h).2

end Praxis.JsonOps
