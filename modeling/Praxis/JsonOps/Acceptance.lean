/-
Which documents the rewriter accepts. It opens only the containers that an operation leads into,
and reads the member names of the objects it opens; everything else it skips. So it accepts the
JSON texts within the nesting limit whose names, where they are read, decode. A name that is an
unpaired surrogate is one the grammar allows and `serde_json` does not decode.
-/
import Praxis.JsonOps.Document
import Praxis.JsonOps.Codec

namespace Praxis.JsonOps

open List Praxis.Lib Praxis.Lib.Json

/-! ## Containers that are opened -/

/-- The operations lead into the container at the path. Into a value that is taken away only an
extract leads, from below it. -/
def opens (ops : List CompiledOp) (path : List PathToken) : Bool :=
  if ops.any fun op => op.takes path then
    ops.any fun op =>
      decide (op.kind = .extract) && op.reaches path && (!pathEqTokens path op.tokens || op.tokens.isEmpty)
  else ops.any fun op => op.reaches path && !(isAppend op.kind op.tokens && pathEqTokens path op.tokens)

section

variable (dec : Bytes → Option String) (ops : List CompiledOp)

mutual

/-- The member names of the objects that are opened decode. -/
def Cst.readable (path : List PathToken) : Cst → Bool
  | .scalar _ => true
  | .array _ es => !opens ops path || Elems.readable path es 0
  | .object _ ms => !opens ops path || Members.readable path ms

def Elems.readable (path : List PathToken) : Elems → Nat → Bool
  | .nil, _ => true
  | .cons _ val _ rest, i => Cst.readable (path ++ [.index i]) val && Elems.readable path rest (i + 1)

def Members.readable (path : List PathToken) : Members → Bool
  | .nil => true
  | .cons _ tok _ _ val _ rest =>
    match dec tok.text with
    | none => false
    | some key => Cst.readable (path ++ [.key key]) val && Members.readable path rest

end

/-- The same, given whether the value itself is opened. -/
def Cst.readableIf (opened : Bool) (path : List PathToken) : Cst → Bool
  | .scalar _ => true
  | .array _ es => !opened || Elems.readable dec ops path es 0
  | .object _ ms => !opened || Members.readable dec ops path ms

theorem readable_eq (path : List PathToken) (c : Cst) : Cst.readable dec ops path c = Cst.readableIf dec ops (opens ops path) path c := by
  cases c <;> rfl

theorem readableIf_false {path : List PathToken} {c : Cst} : Cst.readableIf dec ops false path c = true := by cases c <;> rfl

end

/-! ## The walk ends where a name does not decode -/

section

variable {sj : SerdeJson} {set : CompiledOpSet} (hacc : Accepted sj set)

include hacc

theorem hasDescendantExtracts_eq (path : List PathToken) : set.index.hasDescendantExtracts path = set.ops.any fun op =>
    decide (op.kind = .extract) && op.reaches path && (!pathEqTokens path op.tokens || op.tokens.isEmpty) := by
  rw [Bool.eq_iff_iff, hacc.index_eq, OpPathIndex.hasDescendantExtracts_iff, any_eq_true]
  simp [and_assoc]

theorem hasDescendantOps_eq (path : List PathToken) : set.index.hasDescendantOps path = set.ops.any fun op =>
    op.reaches path && !(isAppend op.kind op.tokens && pathEqTokens path op.tokens) := by
  rw [Bool.eq_iff_iff, hacc.index_eq, OpPathIndex.hasDescendantOps_iff, any_eq_true]
  simp

theorem opens_eq (path : List PathToken) : opens set.ops path =
    if set.ops.any fun op => op.takes path then set.index.hasDescendantExtracts path else set.index.hasDescendantOps path := by
  rw [opens, hasDescendantExtracts_eq hacc, hasDescendantOps_eq hacc]

variable {path : List PathToken} {val : Cst} {sess : RewriteSession}

theorem hasDescendantOps_of_extracts (h : set.index.hasDescendantExtracts path = true) :
    set.index.hasDescendantOps path = true := by
  rw [hacc.index_eq, OpPathIndex.hasDescendantExtracts_iff] at h
  rw [hacc.index_eq, OpPathIndex.hasDescendantOps_iff]
  obtain ⟨op, hop, hkind, hreaches, -⟩ := h
  refine ⟨op, hop, hreaches, .inl ?_⟩
  rw [hkind]
  rfl

section

variable (hwalk : ∀ emit, (walkValue sj set emit path val sess).isSome =
  Cst.readableIf sj.decodeString set.ops (set.index.hasDescendantOps path) path val)

include hwalk

theorem consumed_isSome (htaken : (set.ops.any fun op => op.takes path) = true) (lead : Bytes) :
    (consumed sj set path lead val (walkValue sj set false path val) sess).isSome =
      Cst.readable sj.decodeString set.ops path val := by
  rw [consumed, readable_eq, opens_eq hacc, if_pos htaken]
  split
  case isTrue hextracts => rw [Option.isSome_map, hwalk, hextracts, hasDescendantOps_of_extracts hacc hextracts]
  case isFalse hextracts =>
    rw [Bool.eq_false_iff.2 hextracts, readableIf_false]
    rfl

theorem kept_isSome {β : Type} {f : Cst × RewriteSession → β} {b : β} (emit : Bool)
    (hkept : (set.ops.any fun op => op.takes path) = false) :
    (if set.index.hasDescendantOps path then (walkValue sj set emit path val sess).map f else some b).isSome =
      Cst.readable sj.decodeString set.ops path val := by
  have hopens : opens set.ops path = set.index.hasDescendantOps path := by
    rw [opens_eq hacc, hkept]
    rfl
  rw [readable_eq, hopens]
  split
  case isTrue => rw [Option.isSome_map, hwalk]
  case isFalse hwork =>
    rw [Bool.eq_false_iff.2 hwork, readableIf_false]
    rfl

end

variable {emit : Bool}

theorem walkMember_isSome {key : String} {tok : StrTok} {gap : Ws} {satisfied : List String}
    (hwalk : ∀ emit, (walkValue sj set emit (path ++ [.key key]) val sess).isSome =
      Cst.readableIf sj.decodeString set.ops (set.index.hasDescendantOps (path ++ [.key key])) (path ++ [.key key]) val) :
    (walkMember sj set emit path key tok gap val (walkValue sj set false (path ++ [.key key]) val)
      (walkValue sj set emit (path ++ [.key key]) val) satisfied sess).isSome =
      Cst.readable sj.decodeString set.ops (path ++ [.key key]) val := by
  have htakes := takes_key hacc path key
  rw [walkMember]
  rcases hop : set.opAt (set.index.mutateChildKey path key) with _ | ⟨idx, op⟩
  · rw [hop] at htakes
    have hneeds : set.index.childNeedsRewrite path key = set.index.hasDescendantOps (path ++ [PathToken.key key]) := by
      rw [hacc.index_eq, OpPathIndex.childNeedsRewrite_eq]
    simp only [hneeds]
    exact kept_isSome hacc hwalk emit htakes
  · rw [hop] at htakes
    simp only
    split <;> rw [Option.isSome_map] <;> exact consumed_isSome hacc hwalk htakes _

theorem walkElem_isSome {i : Nat} (hwalk : ∀ emit, (walkValue sj set emit (path ++ [.index i]) val sess).isSome =
      Cst.readableIf sj.decodeString set.ops (set.index.hasDescendantOps (path ++ [.index i])) (path ++ [.index i]) val) :
    (walkElem sj set emit path i val (walkValue sj set false (path ++ [.index i]) val)
      (walkValue sj set emit (path ++ [.index i]) val) sess).isSome =
      Cst.readable sj.decodeString set.ops (path ++ [.index i]) val := by
  have htakes := takes_index hacc path i
  rw [walkElem]
  rcases hop : replaceOrRemove (set.opAt (set.index.mutateAtIndex path i)) with _ | ⟨idx, op⟩
  · rw [hop] at htakes
    have hneeds : set.index.childIndexNeedsRewrite path i = set.index.hasDescendantOps (path ++ [PathToken.index i]) := by
      rw [hacc.index_eq, OpPathIndex.childIndexNeedsRewrite_eq]
    simp only [hneeds]
    exact kept_isSome hacc hwalk emit htakes
  · rw [hop] at htakes
    simp only
    rw [Option.isSome_map]
    exact consumed_isSome hacc hwalk htakes _

end

section

variable {sj : SerdeJson} {set : CompiledOpSet} {input : Bytes}

mutual

/-- The walk over a value comes to its end exactly if the names it reads decode. -/
theorem walkValue_isSome (hacc : Accepted sj set) (c : Cst) (emit : Bool) {path : List PathToken} {sess : RewriteSession} :
    (walkValue sj set emit path c sess).isSome =
      Cst.readableIf sj.decodeString set.ops (set.index.hasDescendantOps path) path c := by
  match c with
  | .scalar s => rfl
  | .array ws es =>
    rw [walkValue, Cst.readableIf]
    split
    case isTrue hwork => rw [Option.isSome_map, walkElems_isSome hacc es, hwork, Bool.not_true, Bool.false_or]
    case isFalse hwork =>
      rw [Bool.eq_false_iff.2 hwork]
      rfl
  | .object ws ms =>
    rw [walkValue, Cst.readableIf]
    split
    case isTrue hwork => rw [Option.isSome_map, walkMembers_isSome hacc ms, hwork, Bool.not_true, Bool.false_or]
    case isFalse hwork =>
      rw [Bool.eq_false_iff.2 hwork]
      rfl
  termination_by structural c

theorem walkElems_isSome (hacc : Accepted sj set) (es : Elems) {emit : Bool} {path : List PathToken} {i : Nat}
    {sess : RewriteSession} :
    (walkElems sj set emit path es i sess).isSome = Elems.readable sj.decodeString set.ops path es i := by
  match es with
  | .nil => rfl
  | .cons pre val post rest =>
    have hstep : ∀ sess, (walkElem sj set emit path i val (walkValue sj set false (path ++ [PathToken.index i]) val)
        (walkValue sj set emit (path ++ [PathToken.index i]) val) sess).isSome =
        Cst.readable sj.decodeString set.ops (path ++ [PathToken.index i]) val :=
      fun sess => walkElem_isSome hacc fun emit => walkValue_isSome hacc val emit
    rw [walkElems, Elems.readable, ← hstep (addElem sj set (set.index.mutateAtIndex path i) sess).2]
    simp only
    split
    case h_1 hwalk => rw [hwalk]; rfl
    case h_2 items sess' hwalk =>
      rw [hwalk, Option.isSome_map, walkElems_isSome hacc rest]
      rfl
  termination_by structural es

theorem walkMembers_isSome (hacc : Accepted sj set) (ms : Members) {emit : Bool} {path : List PathToken}
    {satisfied : List String} {sess : RewriteSession} :
    (walkMembers sj set emit path ms satisfied sess).isSome =
      Members.readable sj.decodeString set.ops path ms := by
  match ms with
  | .nil => rfl
  | .cons pre tok mid gap val post rest =>
    rw [walkMembers, Members.readable]
    rcases sj.decodeString tok.text with _ | key
    · rfl
    · have hstep : (walkMember sj set emit path key tok gap val (walkValue sj set false (path ++ [PathToken.key key]) val)
          (walkValue sj set emit (path ++ [PathToken.key key]) val) satisfied sess).isSome =
          Cst.readable sj.decodeString set.ops (path ++ [PathToken.key key]) val :=
        walkMember_isSome hacc fun emit => walkValue_isSome hacc val emit
      simp only [← hstep]
      split
      case h_1 hwalk => rw [hwalk]; rfl
      case h_2 walk hwalk =>
        rw [hwalk, Option.isSome_map, walkMembers_isSome hacc rest]
        rfl
  termination_by structural ms

end

/-! ## Static payloads -/

/-- The values of the call are static. -/
def Call.isStatic (call : Call) : Prop := ∀ val ∈ call.value, ∃ v, val = .staticJson v

/-- All payloads are written into the operations. -/
def StaticPayloads (sj : SerdeJson) (set : CompiledOpSet) : Prop :=
  ∀ op ∈ set.ops, ∀ source ∈ op.source, ∃ val : Value, source = .static (sj.encodeValue val)

theorem staticPayloads_of_calls {headerNameOk : String → Bool} {calls : List Call}
    (hbuild : buildOps sj headerNameOk calls = .ok set) (hstatic : ∀ call ∈ calls, call.isStatic) :
    StaticPayloads sj set := by
  intro op hop source hsource
  obtain ⟨call, hcall, hcompile⟩ := forall₂_exists_left (buildOps_eq_ok hbuild) hop
  rw [(compileCall_parts hcompile).2.2.1] at hsource
  obtain ⟨val, hvalue, rfl⟩ := Option.map_eq_some_iff.1 hsource
  obtain ⟨v, rfl⟩ := hstatic call hcall val hvalue
  exact ⟨v, rfl⟩

theorem rootReplace_static (hacc : Accepted sj set) (hstatic : StaticPayloads sj set) (store : Option JsonOpStore) :
    (rootReplace sj set (startSession set store)).1.isSome = set.ops.any fun op => op.takes [] := by
  have hnil : ∀ tokens, pathEqTokens [] tokens = decide (tokens = []) := by
    rintro (_ | ⟨token, tokens⟩) <;> rfl
  -- only a replace has the empty pointer
  have htakes : ∀ op ∈ set.ops, op.takes [] = decide (op.tokens = [] ∧ op.kind = .replace) := by
    intro op hop
    rw [CompiledOp.takes, CompiledOp.mutatesAt, hnil]
    cases hacc.compiled op hop with
    | extract => simp
    | add _ tokens _ hne => simp [hne]
    | replace _ tokens _ => simp [isAppend]
    | remove _ tokens hne => simp [hne]
  have hany : (set.ops.any fun op => op.takes []) = set.ops.any fun op => decide (op.tokens = [] ∧ op.kind = .replace) := by
    rw [Bool.eq_iff_iff, any_eq_true, any_eq_true]
    exact exists_congr fun op => and_congr_right fun hop => by rw [htakes op hop]
  rw [hany, ← findIdx?_isSome, rootReplace]
  split
  case h_2 hfind =>
    rw [hfind]
    rfl
  case h_1 idx hfind =>
    obtain ⟨hidx, hop, -⟩ := findIdx?_eq_some_iff_getElem.1 hfind
    rw [decide_eq_true_eq] at hop
    have hget := getElem?_eq_getElem hidx
    -- its payload is known from the start
    have hpayload : ∃ payload, (startSession set store).resolved[idx]? = some (some payload) := by
      rw [startSession_resolved, getElem?_map, hget]
      have hcompiled := hacc.compiled _ (mem_of_getElem? hget)
      have hsource := hstatic _ (mem_of_getElem? hget)
      revert hop hsource hcompiled
      generalize set.ops[idx] = op
      intro hop hcompiled hsource
      cases hcompiled with
      | replace _ tokens val =>
        obtain ⟨v, hv⟩ := hsource _ rfl
        exact ⟨sj.encodeValue v, by simp [staticPayload, hv]⟩
      | _ => cases hop.2
    obtain ⟨payload, hpayload⟩ := hpayload
    rw [hfind, hget]
    simp only [resolvePayload, hpayload]
    rfl

/-! ## Accepted documents -/

def Succeeds (sj : SerdeJson) (set : CompiledOpSet) (input : Bytes) (store : Option JsonOpStore) : Prop :=
  ∃ result, rewriteDocument sj set input store = .ok result

/-- One JSON text, with an optional byte order mark and white space around it, nested at most as
deep as the limit. -/
def IsJsonText (input : Bytes) : Prop := IsUtf8 input ∧ ∃ c, TextOf input c ∧ c.depth ≤ MAX_JSON_DEPTH

theorem documentWalk_isSome (hacc : Accepted sj set) (hstatic : StaticPayloads sj set) (c : Cst) (store : Option JsonOpStore) :
    (documentWalk sj set c store).isSome = Cst.readable sj.decodeString set.ops [] c := by
  have hroot := rootReplace_static hacc hstatic store
  rw [documentWalk]
  rcases hreplace : rootReplace sj set (startSession set store) with ⟨_ | root, sess⟩
  · rw [hreplace] at hroot
    simp only
    rw [Option.isSome_map, walkValue_isSome hacc c, readable_eq, opens_eq hacc, ← hroot]
    rfl
  · rw [hreplace] at hroot
    simp only
    rw [Option.isSome_map]
    exact consumed_isSome hacc (fun emit => walkValue_isSome hacc c emit) hroot.symm _

theorem succeeds_iff_readable (hacc : Accepted sj set) (laws : sj.Laws) (hstatic : StaticPayloads sj set) {c : Cst}
    (htext : TextOf input c) (hutf8 : IsUtf8 input) (hdepth : c.depth ≤ MAX_JSON_DEPTH) (store : Option JsonOpStore) :
    Succeeds sj set input store ↔ Cst.readable sj.decodeString set.ops [] c = true := by
  rw [← documentWalk_isSome hacc hstatic c store, Succeeds, rewriteDocument_text laws hacc htext hutf8 hdepth]
  cases documentWalk sj set c store with
  | none | some => simp

/-- A set whose names can all be read accepts exactly the JSON texts. -/
theorem succeeds_iff_isJsonText (hacc : Accepted sj set) (laws : sj.Laws) (hstatic : StaticPayloads sj set)
    (hreadable : ∀ c, TextOf input c → IsUtf8 input → c.depth ≤ MAX_JSON_DEPTH →
      Cst.readable sj.decodeString set.ops [] c = true) (store : Option JsonOpStore) :
    Succeeds sj set input store ↔ IsJsonText input := by
  constructor
  · rintro ⟨result, hresult⟩
    exact textOf_of_rewriteDocument hacc hresult
  · rintro ⟨hutf8, c, htext, hdepth⟩
    exact (succeeds_iff_readable hacc laws hstatic htext hutf8 hdepth store).2 (hreadable c htext hutf8 hdepth)

end

/-- Two accepted sets with static payloads agree on a document, and both with the RFC, exactly if
no name that either of them reads in it fails to decode. -/
theorem acceptance_independent_iff {sj : SerdeJson} (laws : sj.Laws) {headerNameOk : String → Bool}
    {calls₁ calls₂ : List Call} {set₁ set₂ : CompiledOpSet} (hbuild₁ : buildOps sj headerNameOk calls₁ = .ok set₁)
    (hbuild₂ : buildOps sj headerNameOk calls₂ = .ok set₂) (hstatic₁ : ∀ call ∈ calls₁, call.isStatic)
    (hstatic₂ : ∀ call ∈ calls₂, call.isStatic) (input : Bytes) (store₁ store₂ : Option JsonOpStore) :
    ((Succeeds sj set₁ input store₁ ↔ Succeeds sj set₂ input store₂) ∧
      (Succeeds sj set₁ input store₁ ↔ IsJsonText input)) ↔
    ∀ c, TextOf input c → IsUtf8 input → c.depth ≤ MAX_JSON_DEPTH →
      Cst.readable sj.decodeString set₁.ops [] c = true ∧ Cst.readable sj.decodeString set₂.ops [] c = true := by
  have accepted₁ := buildOps_accepted hbuild₁
  have accepted₂ := buildOps_accepted hbuild₂
  have static₁ := staticPayloads_of_calls hbuild₁ hstatic₁
  have static₂ := staticPayloads_of_calls hbuild₂ hstatic₂
  constructor
  · rintro ⟨hsame, hrfc⟩ c htext hutf8 hdepth
    have hok := hrfc.2 ⟨hutf8, c, htext, hdepth⟩
    exact ⟨(succeeds_iff_readable accepted₁ laws static₁ htext hutf8 hdepth store₁).1 hok,
      (succeeds_iff_readable accepted₂ laws static₂ htext hutf8 hdepth store₂).1 (hsame.1 hok)⟩
  · intro hreadable
    have htext₁ := succeeds_iff_isJsonText accepted₁ laws static₁
      (fun c htext hutf8 hdepth => (hreadable c htext hutf8 hdepth).1) store₁
    have htext₂ := succeeds_iff_isJsonText accepted₂ laws static₂
      (fun c htext hutf8 hdepth => (hreadable c htext hutf8 hdepth).2) store₂
    exact ⟨htext₁.trans htext₂.symm, htext₁⟩

/-! A name that does not decode, `{"\ud800":1}`: it is passed over by a set without operations and
refused by a set that looks for another member. -/

deriving instance DecidableEq for CompiledOpSet

theorem succeeds_iff_output {sj : SerdeJson} {set : CompiledOpSet} {input : Bytes} {store : Option JsonOpStore} :
    Succeeds sj set input store ↔ ∃ out, (rewriteDocument sj set input store).map (·.1.output) = .ok out := by
  rw [Succeeds]
  cases rewriteDocument sj set input store with
  | error e => exact ⟨nofun, nofun⟩
  | ok result => exact ⟨fun _ => ⟨_, rfl⟩, fun _ => ⟨_, rfl⟩⟩

/-- `{"\ud800":1}`. -/
def unpairedName : Bytes := utf8 "\x7b\"\\ud800\":1\x7d"

/-- The set of no operation. -/
def noOps : CompiledOpSet := .finalize []

/-- The set of `remove("/b")`. -/
def removeB : CompiledOpSet :=
  .finalize [{ pointer := "/b", tokens := ["b"], kind := .remove, source := none, dest := none
               encodedLastToken := some (encodeJsonString "b") }]

def numOne : Json.Num := ⟨[49], (.mk (.inl rfl) (.nonzero rfl (by decide) nofun) .none .none : IsNumber ([] ++ [49] ++ [] ++ []))⟩

theorem noOps_built : buildOps codec (fun _ => true) [] = .ok noOps := by decide +kernel

theorem removeB_built : buildOps codec (fun _ => true) [.remove "/b"] = .ok removeB := by decide +kernel

theorem unpairedName_isJsonText : IsJsonText unpairedName :=
  ⟨by decide +kernel, .object .empty (ofMembers [(⟨utf8 "\\ud800", by decide +kernel⟩, .scalar (.num numOne))]),
    ⟨false, .empty, .empty, by decide +kernel⟩, by decide +kernel⟩

theorem unpairedName_refused :
    buildOps codec (fun _ => true) [] = .ok noOps ∧ buildOps codec (fun _ => true) [.remove "/b"] = .ok removeB ∧
      IsJsonText unpairedName ∧ Succeeds codec noOps unpairedName none ∧ ¬ Succeeds codec removeB unpairedName none := by
  have haccepted : (rewriteDocument codec noOps unpairedName none).map (·.1.output) = .ok (some unpairedName) := by
    decide +kernel
  have hrefused : (rewriteDocument codec removeB unpairedName none).map (·.1.output) = .error .invalidJson := by
    decide +kernel
  refine ⟨noOps_built, removeB_built, unpairedName_isJsonText, succeeds_iff_output.2 ⟨_, haccepted⟩, ?_⟩
  rw [succeeds_iff_output, hrefused]
  nofun

/-- `{"b":1}`, which both sets accept. -/
def plainName : Bytes := utf8 "\x7b\"b\":1\x7d"

theorem plainName_readable : Succeeds codec noOps plainName none ∧ Succeeds codec removeB plainName none ∧
    ∀ c, TextOf plainName c → IsUtf8 plainName → c.depth ≤ MAX_JSON_DEPTH →
      Cst.readable codec.decodeString noOps.ops [] c = true ∧ Cst.readable codec.decodeString removeB.ops [] c = true := by
  have hfirst : (rewriteDocument codec noOps plainName none).map (·.1.output) = .ok (some plainName) := by decide +kernel
  have hsecond : (rewriteDocument codec removeB plainName none).map (·.1.output) = .ok (some (utf8 "\x7b\x7d")) := by
    decide +kernel
  have hok₁ : Succeeds codec noOps plainName none := succeeds_iff_output.2 ⟨_, hfirst⟩
  have hok₂ : Succeeds codec removeB plainName none := succeeds_iff_output.2 ⟨_, hsecond⟩
  have hstatic : ∀ call ∈ [Call.remove "/b"], call.isStatic := by simp [Call.isStatic, Call.value]
  have htext := textOf_of_rewriteDocument (buildOps_accepted noOps_built) hok₁.choose_spec
  refine ⟨hok₁, hok₂, ?_⟩
  exact (acceptance_independent_iff codec_laws noOps_built removeB_built nofun hstatic plainName none none).1
    ⟨⟨fun _ => hok₂, fun _ => hok₁⟩, ⟨fun _ => htext, fun _ => hok₁⟩⟩

end Praxis.JsonOps
