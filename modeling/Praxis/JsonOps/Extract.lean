/-
What the extracts store under a metadata key: the last text that was taken for it in the order of the
document, or what the walk started with.
-/
import Praxis.JsonOps.Captures

namespace Praxis.JsonOps

open CompiledOp AList List Option Praxis.Lib Praxis.Lib.Json

/-! ## What is stored -/

section

variable {sj : SerdeJson} {set : CompiledOpSet}

/-- The text that an extract into a metadata key takes at a place. -/
def takenFor (sj : SerdeJson) (set : CompiledOpSet) (key : String) (n : Node) : Option String :=
  if set.ops.any fun op => op.extractsAt n.path && decide (op.dest = some (.metadata key)) then
    metadataText sj (set.takenBytes n)
  else none

theorem writeCaptureDest_metadata (json : Bytes) (dest : ExtractDest) (sess : RewriteSession) (key : String) :
    (writeCaptureDest sj json dest sess).scratchMetadata.lookup key =
      (if dest = .metadata key then metadataText sj json else none).or (sess.scratchMetadata.lookup key) := by
  cases dest with
  | structured ns name => rw [writeCaptureDest, if_neg (by simp), none_or]
  | header name =>
    rw [writeCaptureDest, if_neg (by simp), none_or]
    split <;> rfl
  | metadata name =>
    rw [writeCaptureDest]
    by_cases hkey : name = key
    · subst hkey
      rw [if_pos rfl]
      cases metadataText sj json with
      | none => rfl
      | some text => exact lookup_insert _
    · rw [if_neg (by simpa using hkey), none_or]
      cases metadataText sj json with
      | none => rfl
      | some text => exact lookup_insert_ne (Ne.symm hkey)

section

variable (hacc : Accepted sj set)

include hacc

theorem takenFor_eq (key : String) (n : Node) : takenFor sj set key n =
    if (set.ops.find? fun op => op.extractsAt n.path).bind dest = some (.metadata key) then
      metadataText sj (set.takenBytes n)
    else none := by
  have hiff : (set.ops.any fun op => op.extractsAt n.path && decide (op.dest = some (.metadata key))) = true ↔
      (set.ops.find? fun op => op.extractsAt n.path).bind dest = some (.metadata key) := by
    rw [List.any_eq_true]
    simp only [Bool.and_eq_true, decide_eq_true_eq, Option.bind_eq_some_iff]
    constructor
    · rintro ⟨op, hop, hextracts, hdest⟩
      exact ⟨op, find_of_unique (fun hi hj ha hb => extractsAt_unique hacc hi hj ha hb) hop hextracts, hdest⟩
    · rintro ⟨op, hop, hdest⟩
      exact ⟨op, List.mem_of_find?_eq_some hop, by simpa using List.find?_some hop, hdest⟩
  rw [takenFor]
  simp only [hiff]

theorem storeCapture_metadata (n : Node) {sess : RewriteSession} (key : String) :
    (storeCapture sj set n.path (set.takenBytes n) sess).scratchMetadata.lookup key =
      (takenFor sj set key n).or (sess.scratchMetadata.lookup key) := by
  rw [storeCapture_eq hacc, takenFor_eq hacc]
  cases (set.ops.find? fun op => op.extractsAt n.path).bind dest with
  | none => rfl
  | some dest =>
    simp only [some.injEq]
    exact writeCaptureDest_metadata _ dest sess key

theorem captureAll_metadata (nodes : List Node) (sess : RewriteSession) (key : String) :
    (captureAll sj set nodes sess).scratchMetadata.lookup key =
      ((nodes.filterMap (takenFor sj set key)).getLast?).or (sess.scratchMetadata.lookup key) := by
  induction nodes generalizing sess with
  | nil => rfl
  | cons n rest ih =>
    rw [captureAll_cons, ih, storeCapture_metadata hacc, filterMap_cons]
    cases takenFor sj set key n with
    | none => rfl
    | some text =>
      simp only [getLast?_cons, some_or]
      cases (rest.filterMap (takenFor sj set key)).getLast? <;> rfl

end

/-! ## The store before and after -/

variable {store : JsonOpStore}

theorem preloadSource_lookup {sess : RewriteSession} (op : CompiledOp) (key : String) :
    (preloadSource store sess op).scratchMetadata.lookup key =
      (if op.kind ≠ .extract ∧ op.source = some (.metadata key) then store.metadata.lookup key else none).or
        (sess.scratchMetadata.lookup key) := by
  rw [preloadSource]
  by_cases hkind : op.kind = .extract
  · rw [if_pos hkind, if_neg fun h => h.1 hkind, none_or]
  · rw [if_neg hkind]
    rcases hsource : op.source with _ | bytes | name | ⟨ns, name⟩
    iterate 2
      · rw [if_neg fun h => by cases h.2]
        exact none_or.symm
    · by_cases hkey : name = key
      · subst hkey
        rw [if_pos ⟨hkind, rfl⟩]
        simp only
        cases htext : store.metadata.lookup name with
        | none => rfl
        | some text => exact lookup_insert _
      · rw [if_neg fun h => hkey (by simpa using h.2), none_or]
        simp only
        cases store.metadata.lookup name with
        | none => rfl
        | some text => exact lookup_insert_ne (Ne.symm hkey)
    · rw [if_neg fun h => by cases h.2]
      simp only [none_or]
      split <;> rfl

/-- What the walk starts with: the metadata that some operation asks for. -/
theorem startSession_lookup (key : String) :
    (startSession set (some store)).scratchMetadata.lookup key =
      if ∃ op ∈ set.ops, op.kind ≠ .extract ∧ op.source = some (.metadata key) then store.metadata.lookup key else none := by
  have hfold : ∀ (ops : List CompiledOp) (sess : RewriteSession),
      (ops.foldl (preloadSource store) sess).scratchMetadata.lookup key =
        (if ∃ op ∈ ops, op.kind ≠ .extract ∧ op.source = some (.metadata key) then store.metadata.lookup key else none).or
          (sess.scratchMetadata.lookup key) := by
    intro ops
    induction ops with
    | nil => simp
    | cons op ops ih =>
      intro sess
      rw [List.foldl_cons, ih, preloadSource_lookup, ← Option.or_assoc]
      congr 1
      by_cases hop : op.kind ≠ .extract ∧ op.source = some (.metadata key)
      · have hexists : ∃ op' ∈ op :: ops, op'.kind ≠ .extract ∧ op'.source = some (.metadata key) :=
          ⟨op, .head _, hop⟩
        rw [if_pos hop, if_pos hexists]
        split
        · exact Option.or_self
        · exact Option.none_or
      · rw [if_neg hop, Option.or_none]
        simp only [List.exists_mem_cons_iff, hop, false_or]
  rw [startSession, preloadContextSources, hfold set.ops (.new set)]
  exact Option.or_none

theorem lookup_foldl_insert {α : Type} {β : Type} [DecidableEq α] (m base : AList fun _ : α => β) (key : α) :
    (m.entries.foldl (fun acc e => acc.insert e.1 e.2) base).lookup key = (m.lookup key).or (base.lookup key) := by
  have hlist : ∀ (es : List (Sigma fun _ : α => β)), (es.map Sigma.fst).Nodup → ∀ base : AList fun _ : α => β,
      (es.foldl (fun acc e => acc.insert e.1 e.2) base).lookup key = (es.dlookup key).or (base.lookup key) := by
    intro es
    induction es with
    | nil => exact fun _ _ => rfl
    | cons e rest ih =>
      intro hnodup base
      rw [map_cons, nodup_cons] at hnodup
      rw [foldl_cons, ih hnodup.2]
      by_cases hkey : e.1 = key
      · subst hkey
        have hnone : rest.dlookup e.1 = none := dlookup_eq_none.2 hnodup.1
        rw [lookup_insert, hnone, none_or, dlookup_cons_eq, some_or]
      · rw [lookup_insert_ne (Ne.symm hkey), dlookup_cons_ne _ e (Ne.symm hkey)]
  exact hlist m.entries m.nodupKeys base

end

end Praxis.JsonOps
