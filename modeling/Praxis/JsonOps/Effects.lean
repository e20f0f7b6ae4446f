/-
What a rewrite does to the store it was given. Captures are kept in the session while the document is
walked, and reach the store only when the whole document went through; the store is then written at the
destinations of the extracts and nowhere else.
-/
import Praxis.JsonOps.Extract

namespace Praxis.JsonOps

open AList List Praxis.Lib Praxis.Lib.Json

/-! ## The rewrite as a program on the store -/

/-- A walk does not see the store. -/
def ofWalk {α : Type} : Except JsonError α → EStateM JsonError JsonOpStore α
  | .ok a => pure a
  | .error e => throw e

/-- `finish_document`, with a store. -/
def finishDocumentIn (sj : SerdeJson) (sess : RewriteSession) (output : Option Bytes) :
    EStateM JsonError JsonOpStore RewriteOutcome := do
  modify (sess.flushToStore sj)
  pure ⟨output⟩

/-- `rewrite_document`, with a store. -/
def rewriteDocumentIn (sj : SerdeJson) (set : CompiledOpSet) (input : Bytes) :
    EStateM JsonError JsonOpStore RewriteOutcome :=
  if (fromUtf8 input).isNone then throw .invalidJson
  else do
    let sess := preloadContextSources set (← get) (.new set)
    let start := skipWs (skipBom input)
    if start.isEmpty then throw .invalidJson
    else
      let emit := !set.extractOnly
      match rootReplace sj set sess with
      | (some root, sess) => do
        let (rest, sess) ← ofWalk (consumeValueForMutate sj set (rewriteValue sj set input.length) input.length
          MAX_JSON_DEPTH [] start sess)
        if (skipWs rest).isEmpty then finishDocumentIn sj sess (if emit then some root else none)
        else throw .invalidJson
      | (none, sess) => do
        let cur ← ofWalk (rewriteValue sj set input.length MAX_JSON_DEPTH [] ⟨start, if emit then some [] else none, sess⟩)
        if (skipWs cur.input).isEmpty then finishDocumentIn sj cur.session cur.out
        else throw .invalidJson

/-- The program fails without having written, or it ends with what `rewrite_document` returns. -/
theorem rewriteDocumentIn_run (sj : SerdeJson) (set : CompiledOpSet) (input : Bytes) (store : JsonOpStore) :
    (∃ e, rewriteDocument sj set input (some store) = .error e ∧
      (rewriteDocumentIn sj set input).run store = .error e store) ∨
    ∃ outcome store', rewriteDocument sj set input (some store) = .ok (outcome, some store') ∧
      (rewriteDocumentIn sj set input).run store = .ok outcome store' := by
  unfold rewriteDocument rewriteDocumentIn
  split
  · exact .inl ⟨_, rfl, rfl⟩
  · show (∃ e, _ ∧ (ite _ _ _ : EStateM JsonError JsonOpStore RewriteOutcome).run store = _) ∨
      ∃ outcome store', _ ∧ (ite _ _ _ : EStateM JsonError JsonOpStore RewriteOutcome).run store = _
    dsimp only [startSession]
    split
    · exact .inl ⟨_, rfl, rfl⟩
    · rcases rootReplace sj set (preloadContextSources set store (.new set)) with ⟨_ | root, sess⟩
      · dsimp only
        cases rewriteValue sj set input.length MAX_JSON_DEPTH [] _ with
        | error e => exact .inl ⟨e, rfl, rfl⟩
        | ok cur =>
          by_cases hempty : (skipWs cur.input).isEmpty = true
          · exact .inr ⟨_, _, if_pos hempty, congrArg (fun m : EStateM _ _ _ => m.run store) (if_pos hempty)⟩
          · exact .inl ⟨_, if_neg hempty, congrArg (fun m : EStateM _ _ _ => m.run store) (if_neg hempty)⟩
      · dsimp only
        cases consumeValueForMutate sj set (rewriteValue sj set input.length) input.length MAX_JSON_DEPTH [] _ sess with
        | error e => exact .inl ⟨e, rfl, rfl⟩
        | ok consumed =>
          by_cases hempty : (skipWs consumed.1).isEmpty = true
          · exact .inr ⟨_, _, if_pos hempty, congrArg (fun m : EStateM _ _ _ => m.run store) (if_pos hempty)⟩
          · exact .inl ⟨_, if_neg hempty, congrArg (fun m : EStateM _ _ _ => m.run store) (if_neg hempty)⟩

/-! ## Where it writes -/

/-- The destinations of the extracts. -/
def CompiledOpSet.destinations (set : CompiledOpSet) : List ExtractDest :=
  (set.ops.filter fun op => decide (op.kind = .extract)).filterMap CompiledOp.dest

/-- The stores agree but for the destinations, and headers are only added. -/
structure JsonOpStore.Confined (dests : List ExtractDest) (store store' : JsonOpStore) : Prop where
  metadata : ∀ key, .metadata key ∉ dests → store'.metadata.lookup key = store.metadata.lookup key
  structured : ∀ ns key, .structured ns key ∉ dests → store'.structured.lookup (ns, key) = store.structured.lookup (ns, key)
  headers : ∃ added, store'.requestHeaders = store.requestHeaders ++ added ∧ ∀ header ∈ added, .header header.1 ∈ dests

/-- What a walk may have captured so far, in a session that started with what the store holds. -/
structure RewriteSession.Confined (dests : List ExtractDest) (store : JsonOpStore) (sess : RewriteSession) : Prop where
  metadata : ∀ key, .metadata key ∉ dests → ∀ text, sess.scratchMetadata.lookup key = some text →
    store.metadata.lookup key = some text
  structured : ∀ ns key, (ns, key) ∈ sess.captureStructured → .structured ns key ∈ dests
  headers : ∀ name, name ∈ sess.captureHeaders → .header name ∈ dests

section

variable {sj : SerdeJson} {set : CompiledOpSet} {dests : List ExtractDest} {store : JsonOpStore} {sess : RewriteSession}

theorem preloadSource_captures (store : JsonOpStore) (sess : RewriteSession) (op : CompiledOp) :
    (preloadSource store sess op).captureStructured = sess.captureStructured ∧
      (preloadSource store sess op).captureHeaders = sess.captureHeaders := by
  rw [preloadSource]
  split
  · exact ⟨rfl, rfl⟩
  · split
    · split <;> exact ⟨rfl, rfl⟩
    · split <;> exact ⟨rfl, rfl⟩
    · exact ⟨rfl, rfl⟩

theorem preloadSources_captures (store : JsonOpStore) (ops : List CompiledOp) : ∀ sess : RewriteSession,
    (ops.foldl (preloadSource store) sess).captureStructured = sess.captureStructured ∧
      (ops.foldl (preloadSource store) sess).captureHeaders = sess.captureHeaders := by
  induction ops with
  | nil => exact fun _ => ⟨rfl, rfl⟩
  | cons op ops ih =>
    intro sess
    obtain ⟨hstructured, hheaders⟩ := preloadSource_captures store sess op
    rw [foldl_cons, (ih _).1, (ih _).2]
    exact ⟨hstructured, hheaders⟩

theorem RewriteSession.Confined.start : (startSession set (some store)).Confined dests store := by
  obtain ⟨hstructured, hheaders⟩ := preloadSources_captures store set.ops (.new set)
  refine ⟨fun key _ text hlookup => ?_, fun ns key hmem => ?_, fun name hmem => ?_⟩
  · rw [startSession_lookup] at hlookup
    split at hlookup
    · exact hlookup
    · cases hlookup
  · rw [startSession, preloadContextSources, hstructured] at hmem
    exact absurd hmem (notMem_empty _)
  · rw [startSession, preloadContextSources, hheaders] at hmem
    exact absurd hmem (notMem_empty _)

theorem RewriteSession.Confined.forget (h : sess.Confined dests store) : sess.forget.Confined dests store :=
  ⟨h.metadata, h.structured, h.headers⟩

theorem RewriteSession.Confined.write {dest : ExtractDest} (hdest : dest ∈ dests) (h : sess.Confined dests store) (json : Bytes) :
    (writeCaptureDest sj json dest sess).Confined dests store := by
  cases dest with
  | metadata key =>
    rw [writeCaptureDest]
    split
    · rename_i text _
      refine ⟨fun key' hkey' text' hlookup => ?_, h.structured, h.headers⟩
      have hne : key' ≠ key := fun heq => hkey' (heq ▸ hdest)
      rw [lookup_insert_ne hne] at hlookup
      exact h.metadata key' hkey' text' hlookup
    · exact h
  | structured ns key =>
    refine ⟨h.metadata, fun ns' key' hmem => ?_, h.headers⟩
    rcases (mem_insert _).1 hmem with heq | hmem
    · cases heq
      exact hdest
    · exact h.structured ns' key' hmem
  | header name =>
    rw [writeCaptureDest]
    split
    · refine ⟨h.metadata, h.structured, fun name' hmem => ?_⟩
      rcases (mem_insert _).1 hmem with rfl | hmem
      · exact hdest
      · exact h.headers name' hmem
    · exact h

theorem lookup_foldl_decoded {decode : Bytes → Option Value} {key : String × String}
    (es : List (Sigma fun _ : String × String => Bytes)) (h : ∀ e ∈ es, e.1 ≠ key) :
    ∀ base : AList fun _ : String × String => Value,
      (es.foldl (fun m e =>
        match decode e.2 with
        | some value => m.insert e.1 value
        | none => m) base).lookup key = base.lookup key := by
  induction es with
  | nil => exact fun _ => rfl
  | cons e rest ih =>
    intro base
    rw [foldl_cons, ih fun e' he' => h e' (.tail _ he')]
    split
    · exact lookup_insert_ne (Ne.symm (h e (.head _)))
    · rfl

theorem foldl_promoted (es : List (Sigma fun _ : String => String)) : ∀ base : List (String × String),
    ∃ added, es.foldl (fun headers e => if isSafeHeaderPromotion e.2 then headers ++ [(e.1, e.2)] else headers) base =
      base ++ added ∧ ∀ header ∈ added, header.1 ∈ es.map Sigma.fst := by
  induction es with
  | nil => exact fun base => ⟨[], (append_nil base).symm, fun _ h => absurd h not_mem_nil⟩
  | cons e rest ih =>
    intro base
    rw [foldl_cons]
    split
    · obtain ⟨added, hadded, hnames⟩ := ih (base ++ [(e.1, e.2)])
      refine ⟨(e.1, e.2) :: added, by rw [hadded, append_assoc]; rfl, fun header hmem => ?_⟩
      rcases hmem with _ | ⟨_, hmem⟩
      · exact .head _
      · exact .tail _ (hnames header hmem)
    · obtain ⟨added, hadded, hnames⟩ := ih base
      exact ⟨added, hadded, fun header hmem => .tail _ (hnames header hmem)⟩

theorem RewriteSession.Confined.flush (h : sess.Confined dests store) :
    store.Confined dests (sess.flushToStore sj store) := by
  refine ⟨fun key hkey => ?_, fun ns key hkey => ?_, ?_⟩
  · rw [RewriteSession.flushToStore, lookup_foldl_insert]
    cases hlookup : sess.scratchMetadata.lookup key with
    | none => rfl
    | some text => exact (h.metadata key hkey text hlookup).symm
  · refine lookup_foldl_decoded _ (fun e he heq => hkey ?_) store.structured
    exact h.structured ns key (heq ▸ mem_map_of_mem he)
  · obtain ⟨added, hadded, hnames⟩ := foldl_promoted sess.captureHeaders.entries store.requestHeaders
    exact ⟨added, hadded, fun header hmem => h.headers header.1 (hnames header hmem)⟩

end

theorem RewriteSession.Confined.capture {sj : SerdeJson} {set : CompiledOpSet} (hacc : Accepted sj set)
    {store : JsonOpStore} {sess : RewriteSession} (h : sess.Confined set.destinations store) (path : List PathToken)
    (json : Bytes) : (storeCapture sj set path json sess).Confined set.destinations store := by
  rw [storeCapture_eq hacc]
  split
  · rename_i dest hdest
    obtain ⟨op, hop, hdest⟩ := Option.bind_eq_some_iff.1 hdest
    have hextracts := find?_some hop
    have hkind := (extractsAt_iff.1 hextracts).1
    refine h.write (mem_filterMap.2 ⟨op, mem_filter.2 ⟨mem_of_find?_eq_some hop, ?_⟩, hdest⟩) json
    exact decide_eq_true hkind
  · exact h

theorem RewriteSession.Confined.captureAll {sj : SerdeJson} {set : CompiledOpSet} (hacc : Accepted sj set)
    {store : JsonOpStore} (nodes : List Node) {sess : RewriteSession} (h : sess.Confined set.destinations store) :
    (captureAll sj set nodes sess).Confined set.destinations store := by
  induction nodes generalizing sess with
  | nil => exact h
  | cons n rest ih => exact ih (h.capture hacc n.path (set.takenBytes n))

/-- A rewrite is atomic: one that fails leaves the store as it was, and one that succeeds writes at the
destinations of the extracts only. -/
theorem rewrite_atomic {sj : SerdeJson} (laws : sj.Laws) {headerNameOk : String → Bool} {calls : List Call}
    {set : CompiledOpSet} (hbuild : buildOps sj headerNameOk calls = .ok set) (input : Bytes) (store : JsonOpStore) :
    match (rewriteDocumentIn sj set input).run store with
    | .error _ store' => store' = store
    | .ok _ store' => store.Confined set.destinations store' := by
  have hacc := buildOps_accepted hbuild
  rcases rewriteDocumentIn_run sj set input store with ⟨e, -, hrun⟩ | ⟨outcome, store', hok, hrun⟩
  · rw [hrun]
  · rw [hrun]
    obtain ⟨hutf8, c, htext, hdepth⟩ := textOf_of_rewriteDocument hacc hok
    rw [rewriteDocument_text laws hacc htext hutf8 hdepth, orInvalid_eq_ok] at hok
    obtain ⟨sess, hforget, hstore⟩ := documentWalk_captures hacc hok
    cases hstore
    have hconfined : sess.forget.Confined set.destinations store := by
      rw [hforget]
      exact .captureAll hacc _ RewriteSession.Confined.start.forget
    have hsession : sess.Confined set.destinations store := ⟨hconfined.metadata, hconfined.structured, hconfined.headers⟩
    exact hsession.flush

/-! `/a/b` is extracted from `{"a":{"b":1}}`, and from the same text without its last brace, which fails after
the value was captured. -/

def extractAB : CompiledOpSet := .finalize [⟨"/a/b", ["a", "b"], .extract, none, some (.metadata "m"), none⟩]

def heldUnderM : JsonOpStore := { JsonOpStore.empty with metadata := (∅ : AList fun _ : String => String).insert "m" "old" }

theorem extractAB_atomic :
    (rewriteDocument codec extractAB (utf8 "\x7b\"a\":\x7b\"b\":1\x7d") (some heldUnderM)).toBool = false ∧
    (rewriteDocument codec extractAB (utf8 "\x7b\"a\":\x7b\"b\":1\x7d\x7d") (some heldUnderM)).toBool = true ∧
    ∀ input, match (rewriteDocumentIn codec extractAB input).run heldUnderM with
      | .error _ store' => store' = heldUnderM
      | .ok _ store' => heldUnderM.Confined [.metadata "m"] store' := by
  have hbuilt : buildOps codec (fun _ => true) [.extract "/a/b" (.metadata "m")] = .ok extractAB := by decide +kernel
  exact ⟨by decide +kernel, by decide +kernel, fun input => rewrite_atomic codec_laws hbuilt input heldUnderM⟩

end Praxis.JsonOps
