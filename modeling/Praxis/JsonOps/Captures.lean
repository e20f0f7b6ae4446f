/-
What the rewriter captures. Whatever it copies, opens or takes away, in the end the values of the
document have been offered to the extracts one after the other, a container after what is in it.
-/
import Praxis.JsonOps.Apply

namespace Praxis.JsonOps

open CompiledOp OpPathIndex Option Praxis.Lib Praxis.Lib.Json

/-! ## Captures -/

/-- The values are offered to the extracts in turn. -/
def captureAll (sj : SerdeJson) (set : CompiledOpSet) (nodes : List Node) (sess : RewriteSession) : RewriteSession :=
  nodes.foldl (fun sess n => storeCapture sj set n.path (set.takenBytes n) sess) sess

/-- A session without the payloads that it keeps. -/
def RewriteSession.forget (sess : RewriteSession) : RewriteSession := { sess with resolved := [] }

section

variable {sj : SerdeJson} {set : CompiledOpSet} {sess : RewriteSession}

theorem captureAll_append (xs ys : List Node) :
    captureAll sj set (xs ++ ys) sess = captureAll sj set ys (captureAll sj set xs sess) :=
  List.foldl_append

theorem captureAll_cons (n : Node) (rest : List Node) :
    captureAll sj set (n :: rest) sess =
      captureAll sj set rest (storeCapture sj set n.path (set.takenBytes n) sess) := rfl

theorem forget_storeCapture {path : List PathToken} {json : Bytes} :
    (storeCapture sj set path json sess).forget = storeCapture sj set path json sess.forget := by
  have hwrite : ∀ dest, (writeCaptureDest sj json dest sess).forget = writeCaptureDest sj json dest sess.forget := by
    intro dest
    cases dest with
    | metadata key => rw [writeCaptureDest, writeCaptureDest]; split <;> rfl
    | structured ns key => rfl
    | header name => rw [writeCaptureDest, writeCaptureDest]; split <;> rfl
  rw [storeCapture, storeCapture]
  split
  case isFalse => rfl
  case isTrue =>
    split
    case h_2 => rfl
    case h_1 op _ =>
      split
      · exact hwrite _
      · rfl

theorem forget_resolvePayload (idx : Nat) (op : CompiledOp) (sess : RewriteSession) :
    (resolvePayload sj idx op sess).2.forget = sess.forget := by
  rw [resolvePayload]
  split
  · rfl
  · split <;> rfl

theorem keeps_forget (sj : SerdeJson) (set : CompiledOpSet) (s : RewriteSession) :
    KeepsPayloads sj set fun sess => sess.forget = s where
  resolve _ h := (forget_resolvePayload ..).trans h

section

variable (hacc : Accepted sj set)

include hacc

variable {path : List PathToken} {i : Nat}

theorem extractsAt_unique {j : Nat} {a b : CompiledOp} (hi : set.ops[i]? = some a) (hj : set.ops[j]? = some b)
    (ha : a.extractsAt path = true) (hb : b.extractsAt path = true) : i = j := by
  rw [extractsAt_iff] at ha hb
  have hoverlap : overlappingOps a b = true := by
    rw [overlappingOps, ha.1, hb.1, ha.2.inj hb.2]
    exact beq_self_eq_true b.tokens
  exact hacc.eq_of_overlap hi hj hoverlap

variable {sess : RewriteSession}

theorem storeCapture_eq (path : List PathToken) {json : Bytes} :
    storeCapture sj set path json sess =
      match (set.ops.find? fun op => op.extractsAt path).bind dest with
      | some dest => writeCaptureDest sj json dest sess
      | none => sess := by
  have hfind : (set.index.extractAt path).bind (fun idx => set.ops[idx]?) = set.ops.find? fun op => op.extractsAt path := by
    have hunique := opAt_eq_find (fun op => op.extractsAt path) fun hi hj ha hb => extractsAt_unique hacc hi hj ha hb
    rw [← hunique, hacc.index_eq, extractAt_eq, CompiledOpSet.opAt, map_bind]
    refine congrArg _ (funext fun i => ?_)
    rw [Function.comp_apply]
    cases set.ops[i]? <;> rfl
  rw [storeCapture, hfind]
  cases hop : set.ops.find? (fun op => op.extractsAt path) with
  | none =>
    rw [bind_none]
    exact ite_self sess
  | some op =>
    have hbranch : set.index.extractBranchAt path = true := by
      have hextract : set.index.extractAt path ≠ none := by
        intro hnone
        rw [hnone, hop] at hfind
        cases hfind
      rw [extractBranchAt, Bool.or_eq_true]
      exact .inr (isSome_iff_ne_none.2 hextract)
    cases hdest : op.dest <;> simp only [if_pos hbranch, bind_some, hdest]

theorem storeCapture_none (h : ∀ op ∈ set.ops, op.extractsAt path = false) (json : Bytes) :
    storeCapture sj set path json sess = sess := by
  have hfind : set.ops.find? (fun op => op.extractsAt path) = none := by
    rw [List.find?_eq_none]
    intro op hop
    rw [h op hop]
    decide
  rw [storeCapture_eq hacc, hfind]
  rfl

theorem captureAll_none {nodes : List Node} (h : ∀ n ∈ nodes, ∀ op ∈ set.ops, op.extractsAt n.path = false)
    (sess : RewriteSession) : captureAll sj set nodes sess = sess := by
  induction nodes with
  | nil => rfl
  | cons n rest ih =>
    rw [captureAll_cons, storeCapture_none hacc (h n (.head _)), ih fun n' hn' => h n' (.tail n hn')]

theorem follows_captures (start : RewriteSession) :
    Follows sj set fun nodes sess => sess.forget = captureAll sj set nodes start where
  payloads nodes := keeps_forget sj set (captureAll sj set nodes start)
  capture n h := by
    rw [forget_storeCapture, h, captureAll_append]
    rfl
  pass hnone h := by rw [h, captureAll_append, captureAll_none hacc hnone]

/-! ## Documents -/

theorem documentWalk_captures {c : Cst} {store : Option JsonOpStore} {result : RewriteOutcome × Option JsonOpStore}
    (hwalk : documentWalk sj set c store = some result) :
    ∃ sess : RewriteSession, sess.forget =
        captureAll sj set (nodesOf sj.decodeString [] [] c) (startSession set store).forget ∧
      result.2 = store.map (sess.flushToStore sj) := by
  have follows := follows_captures hacc (startSession set store).forget
  have hroot : (rootReplace sj set (startSession set store)).2.forget = (startSession set store).forget :=
    kept_rootReplace (follows.payloads []) rfl
  rw [documentWalk] at hwalk
  split at hwalk
  case h_1 root sess heq =>
    rw [heq] at hroot
    obtain ⟨s, hs, rfl⟩ := map_eq_some_iff.1 hwalk
    exact ⟨s, follows_consumed hacc follows hroot (fun _ => takenBytes_nil _ _)
      (follows_walkValue hacc follows c [] hroot) hs, rfl⟩
  case h_2 sess heq =>
    rw [heq] at hroot
    obtain ⟨⟨c', s⟩, hs, rfl⟩ := map_eq_some_iff.1 hwalk
    exact ⟨s, follows_walkValue hacc follows c [] hroot (takenBytes_nil _ _) c' s hs, rfl⟩

end

end

/-! ## The index against a scan of the operations -/

theorem lastIdx_iff {p : CompiledOp → Bool} {ops : List CompiledOp} {i : Nat}
    (hunique : ∀ {i j : Nat} {a b : CompiledOp}, ops[i]? = some a → ops[j]? = some b → p a = true → p b = true → i = j) :
    lastIdx p 0 ops = some i ↔ ∃ op, ops[i]? = some op ∧ p op = true := by
  constructor
  · intro h
    obtain ⟨op, hop, -, hp⟩ := lastIdx_eq_some h
    exact ⟨op, hop, hp⟩
  · rintro ⟨op, hop, hp⟩
    rcases hlast : lastIdx p 0 ops with _ | j
    · rw [lastIdx_eq_none.1 hlast op (List.mem_of_getElem? hop)] at hp
      cases hp
    · obtain ⟨op', hop', -, hp'⟩ := lastIdx_eq_some hlast
      rw [hunique hop hop' hp hp', Nat.sub_zero]

/-- Where the index keeps the operation. An add at the end of an array is kept at the array. -/
def CompiledOp.place (op : CompiledOp) : List String :=
  if isAppend op.kind op.tokens then op.tokens.dropLast else op.tokens

theorem place_iff {op : CompiledOp} {path : List PathToken} : pathEqTokens path op.place = true ↔
    op.extractsAt path = true ∨ op.mutatesAt path = true ∨ op.appendsAt path = true := by
  unfold extractsAt mutatesAt appendsAt place
  rcases h : isAppend op.kind op.tokens with _ | _
  · by_cases hkind : op.kind = .extract <;> simp [hkind]
  · have hkind : op.kind ≠ .extract := by
      intro hextract
      rw [hextract, isAppend_extract] at h
      cases h
    simp [hkind]

/-- A lookup in the index finds what a scan of the operations finds at the path, and the operations are kept at one place
each. A key and a position are looked up by the same token. -/
theorem index_lookup_exact {sj : SerdeJson} {headerNameOk : String → Bool} {calls : List Call} {set : CompiledOpSet}
    (hbuild : buildOps sj headerNameOk calls = .ok set) (path : List PathToken) (i : Nat) :
    let found := fun (p : CompiledOp → Bool) => ∃ op, set.ops[i]? = some op ∧ p op = true
    (set.index.extractAt path = some i ↔ found (·.extractsAt path)) ∧
    ((set.index.nodeAt path).mutateIdx = some i ↔ found (·.mutatesAt path)) ∧
    (∀ key, set.index.mutateChildKey path key = some i ↔ found (·.mutatesAt (path ++ [.key key]))) ∧
    (∀ idx, set.index.mutateAtIndex path idx = some i ↔ found (·.mutatesAt (path ++ [.index idx]))) ∧
    (set.index.addAppend path = some i ↔ found (·.appendsAt path)) ∧
    (set.index.extractAt path = some i ∨ (set.index.nodeAt path).mutateIdx = some i ∨ set.index.addAppend path = some i ↔
      found fun op => pathEqTokens path op.place) ∧
    (set.index.extractBranchAt path = true ↔ ∃ op ∈ set.ops, op.kind = .extract ∧ op.reaches path = true) ∧
    (set.index.hasDescendantOps path = true ↔ ∃ op ∈ set.ops, op.reaches path = true ∧
      (isAppend op.kind op.tokens = false ∨ pathEqTokens path op.tokens = false)) := by
  intro found
  have hacc := buildOps_accepted hbuild
  -- the builder lets at most one operation of a class through at a path, so the last one is the only one
  have hmutates : ∀ path, lastIdx (·.mutatesAt path) 0 set.ops = some i ↔ found (·.mutatesAt path) :=
    fun path => lastIdx_iff fun hi hj ha hb => (mutatesAt_unique hacc hi hj ha hb).1
  have hextract : set.index.extractAt path = some i ↔ found (·.extractsAt path) := by
    rw [hacc.index_eq, extractAt_eq]
    exact lastIdx_iff fun hi hj ha hb => extractsAt_unique hacc hi hj ha hb
  have hmutate : (set.index.nodeAt path).mutateIdx = some i ↔ found (·.mutatesAt path) := by
    rw [hacc.index_eq, nodeAt_mutateIdx]
    exact hmutates path
  have happend : set.index.addAppend path = some i ↔ found (·.appendsAt path) := by
    rw [hacc.index_eq, addAppend_eq]
    exact lastIdx_iff fun hi hj ha hb => appendsAt_unique hacc hi hj ha hb
  refine ⟨hextract, hmutate, fun key => ?_, fun idx => ?_, happend, ?_, ?_, ?_⟩
  · rw [hacc.index_eq, mutateChildKey_eq]
    exact hmutates _
  · rw [hacc.index_eq, mutateAtIndex_eq]
    exact hmutates _
  · rw [hextract, hmutate, happend]
    simp only [found, place_iff, and_or_left, exists_or]
  · rw [hacc.index_eq, extractBranchAt_iff]
  · rw [hacc.index_eq]
    exact hasDescendantOps_iff _ _

/-- The token `0` is found as a position and as a key. -/
theorem index_lookup_digit :
    let sj : SerdeJson := ⟨fun _ => none, fun _ => [], fun _ => none, fun _ => []⟩
    let set := CompiledOpSet.finalize [⟨"/a/0", ["a", "0"], .extract, none, some (.metadata "m"), none⟩]
    buildOps sj (fun _ => true) [.extract "/a/0" (.metadata "m")] = .ok set ∧
      set.index.extractAt [.key "a", .index 0] = some 0 ∧ set.index.extractAt [.key "a", .key "0"] = some 0 := by
  intro sj set
  have hbuild : buildOps sj (fun _ => true) [.extract "/a/0" (.metadata "m")] = .ok set := by decide +kernel
  refine ⟨hbuild, ?_, ?_⟩
  · exact (index_lookup_exact hbuild [.key "a", .index 0] 0).1.2 ⟨_, rfl, by decide +kernel⟩
  · exact (index_lookup_exact hbuild [.key "a", .key "0"] 0).1.2 ⟨_, rfl, by decide +kernel⟩

/-- In a list that the builder rejects, the second of two captures at one path takes the place of the first. -/
theorem index_lookup_shadowed :
    let op : CompiledOp := ⟨"/a", ["a"], .extract, none, some (.metadata "m"), none⟩
    op.extractsAt [.key "a"] = true ∧ (build [op, op]).extractAt [.key "a"] = some 1 := by decide

end Praxis.JsonOps
