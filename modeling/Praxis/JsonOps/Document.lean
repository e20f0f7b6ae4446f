/-
Whole documents. A document that the rewriter accepts is a JSON text within the nesting limit,
because the rewriter never passes over anything that the skipper would not; on a JSON text it does
what the tree walk does.
-/
import Praxis.JsonOps.Refine

namespace Praxis.JsonOps

open List Option Bool Praxis.Lib Praxis.Lib.Json

/-! ## What is rewritten would have been skipped -/

variable {input : Bytes}

theorem skipWs_skipWs : skipWs (skipWs input) = skipWs input := by
  obtain ⟨ws, -, hhead⟩ := skipWs_spec input
  rcases h : skipWs input with _ | ⟨b, rest⟩
  · rfl
  · rw [h] at hhead
    exact skipWs_cons (hhead b rfl) rest

theorem skipValue_skipWs (fuel : Nat) (depth : Nat) : skipValue fuel (skipWs input) depth = skipValue fuel input depth := by
  cases fuel with
  | zero => rfl
  | succ fuel => rw [skipValue, skipValue, skipWs_skipWs]

theorem copySpan_eq_ok {fuel depth : Nat} {cur cur' : Cursor} (h : copySpan fuel depth cur = .ok cur') :
    skipValue fuel cur.input depth = .ok cur'.input := by
  obtain ⟨rest, hskip, h⟩ := bind_eq_ok h
  cases h
  rw [skipValue_skipWs] at hskip
  exact hskip

/-- A walk passes over what the skipper passes over. -/
def Skips (walk : Walk) (fuel depth : Nat) : Prop :=
  ∀ {path cur cur'}, walk depth path cur = .ok cur' → skipValue fuel cur.input depth = .ok cur'.input

section

variable {sj : SerdeJson} {set : CompiledOpSet}
  {walk : Walk} {fuel depth : Nat} {path : List PathToken} {input rest : Bytes} {sess sess' : RewriteSession}
  {op : CompiledOp} {emit : Emit}

theorem consumeValueForMutate_eq_ok (hwalk : Skips walk fuel depth)
    (h : consumeValueForMutate sj set walk fuel depth path input sess = .ok (rest, sess')) :
    skipValue fuel input depth = .ok rest := by
  rw [consumeValueForMutate] at h
  split at h
  · obtain ⟨cur, hcur, h⟩ := bind_eq_ok h
    cases h
    exact hwalk hcur
  · obtain ⟨left, hskip, h⟩ := bind_eq_ok h
    cases h
    exact hskip

variable {keySpan : Bytes} {idx : Nat} {emit' : Emit} {c : Cst} {store : Option JsonOpStore}

theorem applyObjectMutate_eq_ok (hkind : op.kind ≠ .extract) (hwalk : Skips walk fuel depth)
    (h : applyObjectMutate sj set walk fuel depth path keySpan idx op emit input sess = .ok (emit', rest, sess')) :
    skipValue fuel input depth = .ok rest := by
  rw [applyObjectMutate] at h
  cases hk : op.kind with
  | extract => exact absurd hk hkind
  | remove =>
    rw [hk] at h
    obtain ⟨⟨left, s⟩, hconsume, h⟩ := bind_eq_ok h
    cases h
    exact consumeValueForMutate_eq_ok hwalk hconsume
  | add | replace =>
    rw [hk] at h
    obtain ⟨⟨left, s⟩, hconsume, h⟩ := bind_eq_ok h
    rw [← skipValue_skipWs, consumeValueForMutate_eq_ok hwalk hconsume]
    simp only at h
    split at h
    · split at h
      all_goals
        cases h
        rfl
    · cases h
      rfl

theorem rewriteArrayMember_eq_ok (hkind : op.kind = .remove ∨ op.kind = .replace) (hwalk : Skips walk fuel depth)
    (h : rewriteArrayMember sj set walk fuel depth path idx op emit input sess = .ok (emit', rest, sess')) :
    skipValue fuel input depth = .ok rest := by
  rw [rewriteArrayMember] at h
  rcases hkind with hk | hk
  · rw [hk] at h
    obtain ⟨⟨left, s⟩, hconsume, h⟩ := bind_eq_ok h
    cases h
    exact consumeValueForMutate_eq_ok hwalk hconsume
  · rw [hk] at h
    obtain ⟨⟨left, s⟩, hconsume, h⟩ := bind_eq_ok h
    have hskip := consumeValueForMutate_eq_ok hwalk hconsume
    rw [skipValue_skipWs] at hskip
    simp only at h
    split at h
    · split at h
      all_goals
        cases h
        exact hskip
    · cases h
      exact hskip

theorem elemPass_eq_ok {next : ElemLoop → Except JsonError ElemLoop} {i : Nat} {start : Emit × RewriteSession}
    {last : ElemLoop} (hwalk : Skips walk fuel depth)
    (h : elemPass sj set walk next fuel depth path i input start = .ok last) :
    ∃ loop : ElemLoop, skipValue fuel input depth = .ok loop.input ∧ loop.origIdx = i + 1 ∧ next loop = .ok last := by
  rw [elemPass] at h
  rcases hop : replaceOrRemove (set.opAt (set.index.mutateAtIndex path i)) with _ | ⟨idx, op⟩
  · rw [hop] at h
    simp only at h
    split at h
    · obtain ⟨cur, hcur, h⟩ := bind_eq_ok h
      exact ⟨_, hwalk hcur, rfl, h⟩
    · obtain ⟨cur, hcur, h⟩ := bind_eq_ok h
      exact ⟨_, copySpan_eq_ok hcur, rfl, h⟩
  · rw [hop] at h
    obtain ⟨⟨emit, rest, sess⟩, hmember, h⟩ := bind_eq_ok h
    have hkind := (filter_eq_some_iff.1 hop).2
    exact ⟨_, rewriteArrayMember_eq_ok (by simpa using hkind) hwalk hmember, rfl, h⟩

theorem memberPass_eq_ok (hacc : Accepted sj set) {next : MemberLoop → Except JsonError MemberLoop} {key : String}
    {satisfied : List String} {last : MemberLoop} (hwalk : Skips walk fuel depth)
    (h : memberPass sj set walk next fuel depth path keySpan key input emit sess satisfied = .ok last) :
    ∃ loop : MemberLoop, skipValue fuel input depth = .ok loop.input ∧ loop.seen = true ∧ next loop = .ok last := by
  rw [memberPass] at h
  rcases hop : set.opAt (set.index.mutateChildKey path key) with _ | ⟨idx, op⟩
  · rw [hop] at h
    simp only at h
    split at h
    · obtain ⟨cur, hcur, h⟩ := bind_eq_ok h
      exact ⟨_, hwalk hcur, rfl, h⟩
    · obtain ⟨cur, hcur, h⟩ := bind_eq_ok h
      exact ⟨_, copySpan_eq_ok hcur, rfl, h⟩
  · rw [hop] at h
    obtain ⟨⟨emit', rest, sess'⟩, hmutate, h⟩ := bind_eq_ok h
    exact ⟨_, applyObjectMutate_eq_ok (kind_of_mutatesAt (hacc.opAt_key hop).2) hwalk hmutate, rfl, h⟩

/-- The rewriter passes over what the skipper passes over, with the same fuel. -/
theorem rewrite_skips (hacc : Accepted sj set) : ∀ fuel : Nat,
    (∀ {depth path cur cur'}, rewriteValue sj set fuel depth path cur = .ok cur' →
      skipValue fuel cur.input depth = .ok cur'.input) ∧
    (∀ {depth path loop loop'}, rewriteElems sj set fuel depth path loop = .ok loop' →
      skipElems fuel loop.input depth (decide (0 < loop.origIdx)) = .ok loop'.input) ∧
    (∀ {depth path loop loop'}, rewriteMembers sj set fuel depth path loop = .ok loop' →
      skipMembers fuel loop.input depth loop.seen = .ok loop'.input) := by
  intro fuel
  induction fuel with
  | zero => exact ⟨nofun, nofun, nofun⟩
  | succ fuel ih =>
    obtain ⟨ihValue, ihElems, ihMembers⟩ := ih
    refine ⟨?_, ?_, ?_⟩
    · intro depth path cur cur' h
      rw [rewriteValue] at h
      simp only at h
      split at h
      case isFalse =>
        obtain ⟨next, hnext, h⟩ := bind_eq_ok h
        cases h
        simpa only [skipValue_skipWs] using copySpan_eq_ok hnext
      case isTrue =>
        obtain ⟨b, hb, h⟩ := bind_eq_ok h
        rw [skipValue, hb, ok_bind]
        split at h
        case isTrue hbrace =>
          obtain ⟨next, hnext, h⟩ := bind_eq_ok h
          cases h
          obtain ⟨depth', hdepth, hnext⟩ := bind_eq_ok hnext
          obtain ⟨input, hinput, hnext⟩ := bind_eq_ok hnext
          obtain ⟨loop, hloop, hnext⟩ := bind_eq_ok hnext
          cases hnext
          rw [if_pos hbrace, skipObject, hdepth, ok_bind, hinput, ok_bind]
          exact ihMembers hloop
        case isFalse hbrace =>
          split at h
          case isTrue hbracket =>
            obtain ⟨next, hnext, h⟩ := bind_eq_ok h
            cases h
            obtain ⟨depth', hdepth, hnext⟩ := bind_eq_ok hnext
            obtain ⟨input, hinput, hnext⟩ := bind_eq_ok hnext
            obtain ⟨loop, hloop, hnext⟩ := bind_eq_ok hnext
            cases hnext
            rw [if_neg hbrace, if_pos hbracket, skipArray, hdepth, ok_bind, hinput, ok_bind]
            exact ihElems hloop
          case isFalse =>
            obtain ⟨next, hnext, h⟩ := bind_eq_ok h
            cases h
            have hskip := copySpan_eq_ok hnext
            rw [skipValue, skipWs_skipWs, hb, ok_bind] at hskip
            exact hskip
    · intro depth path loop loop' h
      rw [rewriteElems_succ] at h
      obtain ⟨⟨closed, input⟩, hitem, h⟩ := bind_eq_ok h
      rw [skipElems, hitem, ok_bind]
      cases closed with
      | true =>
        cases h
        rfl
      | false =>
        obtain ⟨after, hskip, hidx, hnext⟩ := elemPass_eq_ok ihValue h
        have hrest := ihElems hnext
        rw [hidx, decide_eq_true (Nat.succ_pos _)] at hrest
        simp only [false_eq_true, if_false, hskip, ok_bind, hrest]
    · intro depth path loop loop' h
      rw [rewriteMembers_succ] at h
      obtain ⟨⟨closed, input⟩, hitem, h⟩ := bind_eq_ok h
      rw [skipMembers, hitem, ok_bind]
      cases closed with
      | true =>
        cases h
        rfl
      | false =>
        obtain ⟨⟨keySpan, key, afterKey⟩, hkey, h⟩ := bind_eq_ok h
        obtain ⟨afterColon, hcolon, h⟩ := bind_eq_ok h
        obtain ⟨after, hskip, hseen, hnext⟩ := memberPass_eq_ok hacc ihValue h
        have hrest := ihMembers hnext
        rw [hseen] at hrest
        simp only [false_eq_true, if_false, parseString_eq_ok hkey, ok_bind, hcolon, hskip, hrest]

/-! ## The session at the start -/

theorem preloadSource_resolved (store : JsonOpStore) : (preloadSource store sess op).resolved = sess.resolved := by
  rw [preloadSource]
  split
  · rfl
  · split
    · split <;> rfl
    · split <;> rfl
    · rfl

theorem startSession_resolved (store : Option JsonOpStore) : (startSession set store).resolved = set.ops.map staticPayload := by
  cases store with
  | none => rfl
  | some store =>
    have hfold : ∀ (ops : List CompiledOp) (sess : RewriteSession),
        (ops.foldl (preloadSource store) sess).resolved = sess.resolved := by
      intro ops
      induction ops with
      | nil => exact fun _ => rfl
      | cons op ops ih =>
        intro sess
        rw [foldl_cons, ih, preloadSource_resolved]
    exact hfold set.ops (.new set)

theorem source_of_staticPayload {payload : Bytes} (h : staticPayload op = some payload) :
    op.source.bind (sourcePayload sj sess) = some payload := by
  rw [staticPayload] at h
  split at h
  case h_1 bytes hsource =>
    rw [hsource]
    exact h
  case h_2 => cases h

theorem payloadsOk_startSession (laws : sj.Laws) (hacc : Accepted sj set) (store : Option JsonOpStore) :
    PayloadsOk (startSession set store) := by
  intro payload hpayload
  rw [startSession_resolved] at hpayload
  obtain ⟨op, hop, hstatic⟩ := mem_map.1 hpayload
  exact isText_source laws (hacc.compiled op hop) (startSession set store) (source_of_staticPayload hstatic)

/-! ## Documents -/

/-- The walk over the tree of a document. -/
noncomputable def documentWalk (sj : SerdeJson) (set : CompiledOpSet) (c : Cst) (store : Option JsonOpStore) :
    Option (RewriteOutcome × Option JsonOpStore) :=
  match rootReplace sj set (startSession set store) with
  | (some root, sess) =>
    (consumed sj set [] [] c (walkValue sj set false [] c) sess).map fun sess =>
      finishDocument sj sess store (if set.extractOnly then none else some root)
  | (none, sess) =>
    (walkValue sj set (!set.extractOnly) [] c sess).map fun (c', sess) =>
      finishDocument sj sess store (if set.extractOnly then none else some c'.text)

theorem documentWalk_output {store' : Option JsonOpStore} {outcome : RewriteOutcome}
    (hwalk : documentWalk sj set c store = some (outcome, store')) :
    (set.extractOnly = true ∧ outcome.output = none) ∨ set.extractOnly = false ∧
      ((∃ root sess, rootReplace sj set (startSession set store) = (some root, sess) ∧ outcome.output = some root) ∨
        ∃ sess c' s, rootReplace sj set (startSession set store) = (none, sess) ∧
          walkValue sj set true [] c sess = some (c', s) ∧ outcome.output = some c'.text) := by
  rw [documentWalk] at hwalk
  split at hwalk
  case h_1 root sess hroot =>
    obtain ⟨s, -, heq⟩ := map_eq_some_iff.1 hwalk
    cases heq
    cases honly : set.extractOnly with
    | true => exact .inl ⟨rfl, rfl⟩
    | false => exact .inr ⟨rfl, .inl ⟨root, sess, hroot, rfl⟩⟩
  case h_2 sess hroot =>
    obtain ⟨⟨c', s⟩, hs, heq⟩ := map_eq_some_iff.1 hwalk
    cases heq
    cases honly : set.extractOnly with
    | true => exact .inl ⟨rfl, rfl⟩
    | false =>
      rw [honly] at hs
      exact .inr ⟨rfl, .inr ⟨sess, c', s, hroot, hs, rfl⟩⟩

theorem rewriteDocument_text (laws : sj.Laws) (hacc : Accepted sj set) (htext : TextOf input c)
    (hutf8 : IsUtf8 input) (hdepth : c.depth ≤ MAX_JSON_DEPTH) :
    rewriteDocument sj set input store = orInvalid (documentWalk sj set c store) := by
  obtain ⟨before, after, hbom⟩ := skipBom_text htext
  have hstart : skipWs (skipBom input) = c.text ++ after.bytes := by rw [hbom, skipWs_text]
  have hnonempty : (c.text ++ after.bytes).isEmpty = false := by
    obtain ⟨b, tail, hb, -⟩ := text_cons c
    rw [hb]
    rfl
  have hafter : (skipWs after.bytes).isEmpty = true := by
    have hws := skipWs_append after []
    rw [List.append_nil] at hws
    rw [hws]
    rfl
  have hfuel : c.text.length ≤ input.length := by
    have hle : (skipBom input).length ≤ input.length := by
      rw [skipBom]
      split
      · rw [List.length_drop]
        omega
      · exact le_rfl
    rw [hbom] at hle
    simp only [List.length_append] at hle
    omega
  have hfits : Fits c input.length MAX_JSON_DEPTH after.bytes := ⟨hfuel, hdepth, delimited_ws after⟩
  have hisSome : (fromUtf8 input).isNone = false := by
    obtain ⟨s, hs⟩ := hutf8
    rw [hs]
    rfl
  have hok := kept_rootReplace (keeps_payloadsOk laws hacc).toKeepsPayloads (payloadsOk_startSession laws hacc store)
  rw [rewriteDocument, hisSome]
  simp only [Bool.false_eq_true, if_false, hstart, hnonempty, documentWalk]
  rcases hroot : rootReplace sj set (startSession set store) with ⟨_ | root, sess⟩
  · rw [hroot] at hok
    have hwalk := rewriteValue_text laws hacc c [] hfits hok .empty
    simp only [Ws.empty_bytes, List.nil_append] at hwalk
    simp only [hwalk]
    cases set.extractOnly with
    | true =>
      simp only [Bool.not_true, Bool.false_eq_true, if_false, Option.isSome_none]
      rcases walkValue sj set false [] c sess with _ | ⟨c', sess'⟩
      · rfl
      · simp only [Option.map_some, orInvalid_some, ok_bind, hafter, if_true]
        rfl
    | false =>
      simp only [Bool.not_false, if_true, Option.isSome_some]
      rcases walkValue sj set true [] c sess with _ | ⟨c', sess'⟩
      · rfl
      · simp only [Option.map_some, orInvalid_some, ok_bind, hafter, if_true, List.nil_append, Bool.false_eq_true, if_false]
  · rw [hroot] at hok
    have hconsume : consumeValueForMutate sj set (rewriteValue sj set input.length) input.length MAX_JSON_DEPTH []
        (c.text ++ after.bytes) sess =
        orInvalid ((consumed sj set [] [] c (walkValue sj set false [] c) sess).map fun sess =>
          (after.bytes, sess)) :=
      consumeValueForMutate_text hfits (rewriteValue_text laws hacc c [] hfits hok) .empty
    simp only [hconsume]
    rcases consumed sj set [] [] c (walkValue sj set false [] c) sess with _ | sess'
    · rfl
    · simp only [Option.map_some, orInvalid_some, ok_bind, hafter, if_true]
      cases set.extractOnly <;> rfl

theorem textOf_of_rewriteDocument (hacc : Accepted sj set) {result : RewriteOutcome × Option JsonOpStore}
    (h : rewriteDocument sj set input store = .ok result) :
    IsUtf8 input ∧ ∃ c, TextOf input c ∧ c.depth ≤ MAX_JSON_DEPTH := by
  have hwalk : ∀ {path cur cur'}, rewriteValue sj set input.length MAX_JSON_DEPTH path cur = .ok cur' →
      skipValue input.length cur.input MAX_JSON_DEPTH = .ok cur'.input := (rewrite_skips hacc input.length).1
  -- a value was passed over, and only white space is left
  have hdone : ∀ {rest : Bytes}, skipValue input.length (skipWs (skipBom input)) MAX_JSON_DEPTH = .ok rest →
      (skipWs rest).isEmpty = true → ∃ c, TextOf input c ∧ c.depth ≤ MAX_JSON_DEPTH := by
    intro rest hskip hempty
    rw [skipValue_skipWs] at hskip
    obtain ⟨before, c, hinput, hdepth⟩ := (skip_sound input.length).1 hskip
    obtain ⟨after, hafter, -⟩ := skipWs_spec rest
    rw [isEmpty_iff.1 hempty, append_nil] at hafter
    exact ⟨c, textOf_of_skipBom (hafter ▸ hinput), hdepth⟩
  rw [rewriteDocument] at h
  split at h
  case isTrue => cases h
  case isFalse hutf8 =>
    refine ⟨ne_none_iff_exists'.1 (by simpa using hutf8), ?_⟩
    simp only at h
    split at h
    case isTrue => cases h
    case isFalse =>
      rcases hroot : rootReplace sj set (startSession set store) with ⟨_ | root, sess⟩
      · rw [hroot] at h
        obtain ⟨cur, hcur, h⟩ := bind_eq_ok h
        split at h
        case isFalse => cases h
        case isTrue hempty => exact hdone (hwalk hcur) hempty
      · rw [hroot] at h
        obtain ⟨⟨rest, sess'⟩, hconsume, h⟩ := bind_eq_ok h
        simp only at h
        split at h
        case isFalse => cases h
        case isTrue hempty => exact hdone (consumeValueForMutate_eq_ok hwalk hconsume) hempty

end

end Praxis.JsonOps
