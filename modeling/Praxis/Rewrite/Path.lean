/-
Normalization of rewritten paths. A path that needs none is returned as it is; any other is cut
at its slashes and rebuilt from a stack of its segments. A segment at which the detector of dot-dot
segments stops the program has no result here.
-/
import Praxis.Admission.Traversal
import Praxis.Lib.Segments

namespace Praxis.Rewrite

open List Option Praxis.Lib
open Praxis.Admission (decodeDots decodeDots_cons startsEncodedDot dotRun isTraversalSegment_false)

/-! ## The filter's functions -/

/-- `is_traversal_segment`, which the protocol crate has once more. -/
def isTraversalSegment (seg : List UInt8) : Option Bool := Admission.isTraversalSegment seg

def hasDotDotTraversal (path : List UInt8) : Option Bool := (path.splitOnP (· == 47)).anyM isTraversalSegment

def needsNormalization (path : List UInt8) : Option Bool :=
  if ¬ [47] <+: path ∨ [47, 47] <:+: path ∨ [47, 46, 47] <:+: path ∨ [47, 46, 46, 47] <:+: path ∨
      [47, 46] <:+ path ∨ [47, 46, 46] <:+ path then some true
  else hasDotDotTraversal path

/-- One segment of the loop of `normalize`. -/
def pushSegment (segs : List (List UInt8)) (seg : List UInt8) : Option (List (List UInt8)) :=
  if seg = [] ∨ seg = [46] then some segs
  else if seg = [46, 46] then some segs.dropLast
  else (isTraversalSegment seg).map fun traversal => if traversal then segs.dropLast else segs ++ [seg]

def normalize (path : List UInt8) : Option (List UInt8) :=
  ((path.splitOnP (· == 47)).foldlM pushSegment []).map fun segs =>
    if segs = [] then [47] else joinSegments 47 segs

def normalizeRewrittenPath (path : List UInt8) : Option (List UInt8) :=
  (needsNormalization path).bind fun needed => if needed then normalize path else some path

/-! ## Traversal segments -/

variable {seg path result : List UInt8} {segs : List (List UInt8)}

theorem isTraversalSegment_eq :
    isTraversalSegment seg =
      if 65536 ≤ dotRun seg then none else some (decide (decodeDots seg = [46, 46])) := Admission.isTraversalSegment_eq

@[simp] theorem isTraversalSegment_dots : isTraversalSegment [46, 46] = some true := rfl

@[simp] theorem isTraversalSegment_nil : isTraversalSegment [] = some false := by
  rw [isTraversalSegment_eq]
  rfl

/-! ## Clean paths -/

/-- A path with one slash in front, no two slashes together, and no dot or dot-dot segment. -/
structure Clean (path : List UInt8) : Prop where
  slash : ∃ rest, path = 47 :: rest
  single : ¬ [47, 47] <:+: path
  dot : [46] ∉ path.splitOnP (· == 47)
  traversal : ∀ seg ∈ path.splitOnP (· == 47), isTraversalSegment seg = some false

/-- A segment is found by the window between two slashes or by the one at the end. -/
theorem window_iff (seg rest : List UInt8) (hfree : 47 ∉ seg) (hne : seg ≠ []) :
    (47 :: (seg ++ [47])) <:+: (47 :: rest) ∨ (47 :: seg) <:+ (47 :: rest) ↔
      seg ∈ (47 :: rest).splitOnP (· == 47) := by
  rw [splitOnP_sep_cons, mem_cons, or_iff_right hne, mem_splitOnP_iff hfree]

/-- The paths that are returned as they are. -/
theorem needsNormalization_false : needsNormalization path = some false ↔ Clean path := by
  unfold needsNormalization
  by_cases hslash : [47] <+: path
  · obtain ⟨rest, rfl⟩ := hslash
    rw [singleton_append]
    have hdot := window_iff [46] rest (by decide) (by decide)
    have hdots := window_iff [46, 46] rest (by decide) (by decide)
    simp only [cons_append, nil_append] at hdot hdots
    split
    · next hany =>
      refine ⟨nofun, fun hclean => ?_⟩
      have hnot : [46, 46] ∉ (47 :: rest).splitOnP (· == 47) := fun hmem => by simpa using hclean.traversal _ hmem
      rcases hany with hno | hdouble | hmid | hmid | hend | hend
      · exact absurd ⟨rest, rfl⟩ hno
      · exact absurd hdouble hclean.single
      · exact absurd (hdot.1 (.inl hmid)) hclean.dot
      · exact absurd (hdots.1 (.inl hmid)) hnot
      · exact absurd (hdot.1 (.inr hend)) hclean.dot
      · exact absurd (hdots.1 (.inr hend)) hnot
    · next hnone =>
      simp only [not_or] at hnone
      obtain ⟨-, hdouble, hmid, -, hend, -⟩ := hnone
      rw [show hasDotDotTraversal (47 :: rest) = some false ↔ _ from Admission.hasDotDotTraversal_false]
      exact ⟨fun htraversal => ⟨⟨rest, rfl⟩, hdouble, fun hmem => (hdot.2 hmem).elim hmid hend, htraversal⟩,
        fun hclean => hclean.traversal⟩
  · rw [if_pos (.inl hslash)]
    refine ⟨nofun, fun hclean => ?_⟩
    obtain ⟨rest, rfl⟩ := hclean.slash
    exact absurd ⟨rest, rfl⟩ hslash

/-! ## The stack of segments -/

/-- A segment that is pushed. -/
structure Plain (seg : List UInt8) : Prop where
  ne_nil : seg ≠ []
  ne_dot : seg ≠ [46]
  traversal : isTraversalSegment seg = some false
  free : 47 ∉ seg

theorem pushSegment_of_plain (h : Plain seg) (segs : List (List UInt8)) : pushSegment segs seg = some (segs ++ [seg]) := by
  have hdots : seg ≠ [46, 46] := fun heq => by simpa [heq] using h.traversal
  simp [pushSegment, h.ne_nil, h.ne_dot, hdots, h.traversal]

theorem plain_of_pushSegment {segs' : List (List UInt8)} (hplain : ∀ s ∈ segs, Plain s) (hfree : 47 ∉ seg)
    (h : pushSegment segs seg = some segs') : ∀ s ∈ segs', Plain s := by
  have hdrop : ∀ s ∈ segs.dropLast, Plain s := fun s hs => hplain s (mem_of_mem_dropLast hs)
  unfold pushSegment at h
  split at h
  · exact some.inj h ▸ hplain
  · next hempty =>
    split at h
    · exact some.inj h ▸ hdrop
    · obtain ⟨traversal, htraversal, rfl⟩ := map_eq_some_iff.1 h
      cases traversal with
      | true => exact hdrop
      | false =>
        rw [not_or] at hempty
        intro s hs
        rcases mem_append.1 hs with hs | hs
        · exact hplain s hs
        · exact mem_singleton.1 hs ▸ ⟨hempty.1, hempty.2, htraversal, hfree⟩

theorem plain_of_foldlM {read : List (List UInt8)} : ∀ {segs segs' : List (List UInt8)},
    (∀ s ∈ segs, Plain s) → (∀ s ∈ read, 47 ∉ s) → read.foldlM pushSegment segs = some segs' →
    ∀ s ∈ segs', Plain s := by
  induction read with
  | nil => intro segs segs' hplain _ h; exact some.inj h ▸ hplain
  | cons seg read ih =>
    intro segs segs' hplain hfree h
    rw [foldlM_cons] at h
    obtain ⟨next, hpush, hrest⟩ := bind_eq_some_iff.1 h
    exact ih (plain_of_pushSegment hplain (hfree seg (.head _)) hpush)
      (fun s hs => hfree s (.tail _ hs)) hrest

theorem isSome_pushSegment (segs : List (List UInt8)) (seg : List UInt8) :
    (pushSegment segs seg).isSome ↔ dotRun seg < 65536 := by
  unfold pushSegment
  split
  · next h => rcases h with rfl | rfl <;> exact iff_of_true rfl (by decide)
  · split
    · next h => subst h; exact iff_of_true rfl (by decide)
    · rw [isSome_map, isTraversalSegment_eq]
      split <;> simp_all

theorem isSome_foldlM (read : List (List UInt8)) (segs : List (List UInt8)) :
    (read.foldlM pushSegment segs).isSome ↔ ∀ s ∈ read, dotRun s < 65536 := by
  induction read generalizing segs with
  | nil => simp
  | cons seg read ih =>
    rw [foldlM_cons, forall_mem_cons, ← isSome_pushSegment segs seg]
    cases pushSegment segs seg with
    | none => simp
    | some next => simpa using ih next

/-- What the segments on the stack are joined to needs no normalization. -/
theorem clean_of_plain (hplain : ∀ s ∈ segs, Plain s) : Clean (if segs = [] then [47] else joinSegments 47 segs) := by
  split
  · refine ⟨⟨[], rfl⟩, by decide, by decide, fun seg hsegment => ?_⟩
    have hempty : seg = [] := by simpa [splitOnP_sep_cons, splitOnP_nil] using hsegment
    rw [hempty, isTraversalSegment_nil]
  · next hne =>
    obtain ⟨rest, hjoin, hsplit⟩ := splitOnP_joinSegments (fun s hs => (hplain s hs).free) hne
    rw [hjoin]
    refine ⟨⟨rest, rfl⟩, fun hdouble => ?_, fun hdot => ?_, fun seg hsegment => ?_⟩
    · have hempty : [] ∈ rest.splitOnP (· == 47) := (mem_splitOnP_iff not_mem_nil).2 (.inl hdouble)
      exact (hplain [] (hsplit ▸ hempty)).ne_nil rfl
    · rw [splitOnP_sep_cons, hsplit, mem_cons, or_iff_right (by decide)] at hdot
      exact (hplain [46] hdot).ne_dot rfl
    · rw [splitOnP_sep_cons, hsplit] at hsegment
      rcases hsegment with _ | ⟨_, hsegment⟩
      · exact isTraversalSegment_nil
      · exact (hplain seg hsegment).traversal

theorem isSome_normalize : (normalize path).isSome ↔ ∀ seg ∈ path.splitOnP (· == 47), dotRun seg < 65536 := by
  rw [normalize, isSome_map]
  exact isSome_foldlM _ _

theorem clean_of_normalize (h : normalize path = some result) : Clean result := by
  obtain ⟨segs, hfold, rfl⟩ := map_eq_some_iff.1 h
  exact clean_of_plain (plain_of_foldlM (by simp) (fun s hs => not_mem_of_mem_splitOnP hs) hfold)

/-! ## Normalized paths -/

theorem normalizeRewrittenPath_of_clean (h : Clean path) : normalizeRewrittenPath path = some path := by
  rw [normalizeRewrittenPath, needsNormalization_false.2 h]
  rfl

theorem normalizeRewrittenPath_of_not_clean (h : ¬ Clean path) : normalizeRewrittenPath path = normalize path := by
  rw [← needsNormalization_false] at h
  rw [normalizeRewrittenPath]
  match hneeds : needsNormalization path with
  | some true => rfl
  | some false => exact absurd hneeds h
  | none =>
    -- the detector stopped, and so does the stack
    have hsome : ¬ ∀ seg ∈ path.splitOnP (· == 47), dotRun seg < 65536 := by
      intro hrun
      rw [needsNormalization] at hneeds
      split at hneeds
      · cases hneeds
      · exact absurd hneeds (isSome_iff_ne_none.1 (Admission.isSome_hasDotDotTraversal hrun))
    rw [← isSome_normalize, not_isSome_iff_eq_none] at hsome
    exact hsome.symm

theorem clean_of_normalizeRewrittenPath (h : normalizeRewrittenPath path = some result) : Clean result := by
  by_cases hclean : Clean path
  · rw [normalizeRewrittenPath_of_clean hclean] at h
    exact some.inj h ▸ hclean
  · rw [normalizeRewrittenPath_of_not_clean hclean] at h
    exact clean_of_normalize h

theorem isSome_normalizeRewrittenPath (path : List UInt8) :
    (normalizeRewrittenPath path).isSome ↔ ∀ seg ∈ path.splitOnP (· == 47), dotRun seg < 65536 := by
  by_cases hclean : Clean path
  · rw [normalizeRewrittenPath_of_clean hclean]
    exact iff_of_true rfl fun seg hsegment => (isTraversalSegment_false (hclean.traversal seg hsegment)).1
  · rw [normalizeRewrittenPath_of_not_clean hclean, isSome_normalize]

/-- Normalization gives a clean path, in which no segment is dot-dot to either detector in any spelling, and
which it leaves as it is, and the detectors agree on the path; exactly if no segment has so many dots in
front that the counter overflows. -/
theorem normalized_iff (path : List UInt8) :
    (∃ result, normalizeRewrittenPath path = some result ∧ Clean result ∧
      (∀ seg ∈ result.splitOnP (· == 47),
        Admission.isTraversalSegment seg = some false ∧ decodeDots seg ≠ [46, 46]) ∧
      normalizeRewrittenPath result = some result ∧
      ∃ found, hasDotDotTraversal path = some found ∧ Admission.hasDotDotTraversal path = some found) ↔
    ∀ seg ∈ path.splitOnP (· == 47), dotRun seg < 65536 := by
  constructor
  · rintro ⟨result, hresult, -⟩
    rw [← isSome_normalizeRewrittenPath, hresult]
    rfl
  · intro hrun
    obtain ⟨result, hresult⟩ := isSome_iff_exists.1 ((isSome_normalizeRewrittenPath path).2 hrun)
    have hclean := clean_of_normalizeRewrittenPath hresult
    refine ⟨result, hresult, hclean, fun seg hsegment => ?_, normalizeRewrittenPath_of_clean hclean,
      (isSome_iff_exists.1 (Admission.isSome_hasDotDotTraversal hrun)).imp fun _ h => ⟨h, h⟩⟩
    have htraversal := hclean.traversal seg hsegment
    exact ⟨htraversal, (isTraversalSegment_false htraversal).2⟩

theorem decodeDots_replicate (n : Nat) : decodeDots (replicate n 46) = replicate n 46 := by
  induction n with
  | zero => rfl
  | succ n ih =>
    rw [replicate_succ, decodeDots_cons, ih, if_neg]
    cases n with
    | zero => simp [startsEncodedDot]
    | succ n => cases n <;> simp [startsEncodedDot, replicate_succ]

theorem normalizeRewrittenPath_dots {n : Nat} (hn : 65536 ≤ n) : normalizeRewrittenPath (47 :: replicate n 46) = none := by
  have hfree : 47 ∉ replicate n (46 : UInt8) := fun hmem => absurd (eq_of_mem_replicate hmem) (by decide)
  have hrun : dotRun (replicate n 46) = n := by
    rw [dotRun, decodeDots_replicate]
    simp
  rw [← not_isSome_iff_eq_none, isSome_normalizeRewrittenPath, splitOnP_sep_cons, splitOnP_of_not_mem hfree]
  intro hshort
  have hlt := hshort (replicate n 46) (by simp)
  omega

/-- At a slash and 65536 dots the counter overflows, so there is no result. -/
theorem many_dots_not_normalized : normalizeRewrittenPath (47 :: replicate 65536 46) = none :=
  normalizeRewrittenPath_dots le_rfl

/-! ## Runs of slashes -/

/-- Every run of slashes replaced by one. -/
def collapseSlashes : List UInt8 → List UInt8
  | [] => []
  | c :: rest => if c = 47 ∧ rest.head? = some 47 then collapseSlashes rest else c :: collapseSlashes rest

theorem collapseSlashes_of_single (h : ¬ [47, 47] <:+: path) : collapseSlashes path = path := by
  induction path with
  | nil => rfl
  | cons c rest ih =>
    rw [collapseSlashes, ih fun hinfix => h (infix_cons hinfix), if_neg]
    rintro ⟨rfl, hhead⟩
    obtain ⟨tail, rfl⟩ := head?_eq_some_iff.1 hhead
    exact h ⟨[], tail, rfl⟩

/-- Collapsing keeps the first segment, and of the others those that are not empty. -/
theorem splitOnP_collapseSlashes (path : List UInt8) : ∃ first others others',
    path.splitOnP (· == 47) = first :: others ∧ (collapseSlashes path).splitOnP (· == 47) = first :: others' ∧
      others.filter (· ≠ []) = others'.filter (· ≠ []) := by
  induction path with
  | nil => exact ⟨[], [], [], rfl, rfl, rfl⟩
  | cons c rest ih =>
    obtain ⟨first, others, others', hsplit, hcollapsed, hsame⟩ := ih
    rw [collapseSlashes]
    split
    · next hrun =>
      obtain ⟨rfl, hhead⟩ := hrun
      obtain ⟨tail, rfl⟩ := head?_eq_some_iff.1 hhead
      rw [splitOnP_sep_cons, cons.injEq] at hsplit
      obtain ⟨rfl, hsplit⟩ := hsplit
      refine ⟨[], [] :: others, others', ?_, hcollapsed, by simpa using hsame⟩
      rw [splitOnP_sep_cons, splitOnP_sep_cons, hsplit]
    · by_cases hc : c = 47
      · subst hc
        refine ⟨[], first :: others, first :: others', ?_, ?_, ?_⟩
        · rw [splitOnP_sep_cons, hsplit]
        · rw [splitOnP_sep_cons, hcollapsed]
        · simp only [filter_cons, hsame]
      · refine ⟨c :: first, others, others', ?_, ?_, hsame⟩ <;>
          simp [splitOnP_cons_eq_if_modifyHead, hc, hsplit, hcollapsed]

theorem foldlM_filter (read segs : List (List UInt8)) :
    (read.filter (· ≠ [])).foldlM pushSegment segs = read.foldlM pushSegment segs := by
  induction read generalizing segs with
  | nil => rfl
  | cons seg read ih =>
    by_cases hempty : seg = []
    · subst hempty
      simpa [pushSegment] using ih segs
    · rw [filter_cons_of_pos (by simpa using hempty), foldlM_cons, foldlM_cons]
      exact bind_congr ih

theorem normalize_collapseSlashes : normalize (collapseSlashes path) = normalize path := by
  obtain ⟨first, others, others', hsplit, hcollapsed, hsame⟩ := splitOnP_collapseSlashes path
  rw [normalize, normalize, hsplit, hcollapsed, ← foldlM_filter, ← foldlM_filter (first :: others)]
  simp only [filter_cons, hsame]

theorem foldlM_of_plain (read segs : List (List UInt8)) (h : ∀ s ∈ read, Plain s) :
    read.foldlM pushSegment segs = some (segs ++ read) := by
  induction read generalizing segs with
  | nil => simp
  | cons seg read ih =>
    rw [foldlM_cons, pushSegment_of_plain (h seg (.head _))]
    simpa using ih (segs ++ [seg]) fun s hs => h s (.tail _ hs)

/-- A clean path is rebuilt as it is, but for a slash at its end. -/
theorem normalize_of_clean (h : Clean path) : normalize path = some path ↔ ¬ ([47] <:+ path ∧ path ≠ [47]) := by
  obtain ⟨rest, rfl⟩ := h.slash
  obtain ⟨init, last, hsplit⟩ :=
    (eq_nil_or_concat' (rest.splitOnP (· == 47))).resolve_left (splitOnP_ne_nil _ rest)
  have hjoin : joinSegments 47 init ++ 47 :: last = 47 :: rest := by
    rw [← joinSegments_splitOnP 47 rest, hsplit]
    simp
  have hplain : ∀ seg ∈ init ++ [last], seg ≠ [] → Plain seg := by
    intro seg hsegment hne
    rw [← hsplit] at hsegment
    have hmem : seg ∈ (47 :: rest).splitOnP (· == 47) := splitOnP_sep_cons rest ▸ .tail _ hsegment
    exact ⟨hne, fun heq => h.dot (heq ▸ hmem), h.traversal seg hmem, not_mem_of_mem_splitOnP hmem⟩
  -- an empty segment before the last one would stand between two slashes
  have hinit : ∀ seg ∈ init, seg ≠ [] := by
    rintro _ hmem rfl
    obtain ⟨front, back, rfl⟩ := append_of_mem hmem
    refine h.single ?_
    rw [← hjoin]
    cases back with
    | nil => exact ⟨joinSegments 47 front, last, by simp⟩
    | cons next back => exact ⟨joinSegments 47 front, next ++ joinSegments 47 back ++ 47 :: last, by simp⟩
  have hstack : ∀ kept, (init ++ [last]).filter (· ≠ []) = kept → normalize (47 :: rest) =
      some (if kept = [] then [47] else joinSegments 47 kept) := by
    rintro kept rfl
    rw [normalize, splitOnP_sep_cons, hsplit, ← foldlM_filter, filter_cons_of_neg (by simp),
      foldlM_of_plain _ _ fun seg hsegment => ?_]
    · rfl
    · rw [mem_filter] at hsegment
      exact hplain seg hsegment.1 (by simpa using hsegment.2)
  have hfilter : init.filter (· ≠ []) = init := filter_eq_self.2 fun seg hmem => by simpa using hinit seg hmem
  by_cases hlast : last = []
  · subst hlast
    rw [hstack init (by rw [filter_append, hfilter]; simp)]
    cases init with
    | nil => simp [← hjoin]
    | cons first init =>
      rw [if_neg (by simp), ← hjoin]
      simp [-append_assoc]
  · rw [hstack (init ++ [last]) (by rw [filter_append, hfilter]; simp [hlast]), if_neg (by simp),
      joinSegments_append, joinSegments_cons, joinSegments_nil, append_nil, hjoin]
    refine iff_of_true rfl fun hend => ?_
    have hempty : [] ∈ rest.splitOnP (· == 47) := (mem_splitOnP_iff not_mem_nil).2 (.inr hend.1)
    rw [hsplit, mem_append, mem_singleton] at hempty
    exact hempty.elim (fun hmem => hinit [] hmem rfl) fun heq => hlast heq.symm

/-- Collapsing the slashes of a path first does not change what it is normalized to; except that a path
with two slashes together, whose collapsed form is clean and ends with a slash, loses that slash. -/
theorem collapse_commutes_iff (path : List UInt8) :
    normalizeRewrittenPath path = normalizeRewrittenPath (collapseSlashes path) ↔
      ¬ ([47, 47] <:+: path ∧ Clean (collapseSlashes path) ∧ [47] <:+ collapseSlashes path ∧ collapseSlashes path ≠ [47]) := by
  by_cases hdouble : [47, 47] <:+: path
  · rw [normalizeRewrittenPath_of_not_clean fun hclean => hclean.single hdouble, ← normalize_collapseSlashes]
    by_cases hclean : Clean (collapseSlashes path)
    · rw [normalizeRewrittenPath_of_clean hclean, normalize_of_clean hclean]
      simp [hdouble, hclean]
    · rw [normalizeRewrittenPath_of_not_clean hclean]
      simp [hclean]
  · rw [collapseSlashes_of_single hdouble]
    simp [hdouble]

/-- `/a//` is normalized to `/a`, but `/a/` is left as it is. -/
theorem trailing_slash_lost :
    normalizeRewrittenPath [47, 97, 47, 47] = some [47, 97] ∧
      normalizeRewrittenPath (collapseSlashes [47, 97, 47, 47]) = some [47, 97, 47] := by
  have htraversal : isTraversalSegment [97] = some false := by
    rw [isTraversalSegment_eq]
    rfl
  constructor
  · rw [normalizeRewrittenPath_of_not_clean fun hclean => hclean.single (by decide)]
    have hsplit : ([47, 97, 47, 47] : List UInt8).splitOnP (· == 47) = [[], [97], [], []] := rfl
    simp [normalize, hsplit, pushSegment, htraversal]
  · have hsplit : splitOnP (· == 47) (collapseSlashes [47, 97, 47, 47]) = [[], [97], []] := rfl
    exact normalizeRewrittenPath_of_clean ⟨⟨_, rfl⟩, by decide, by decide, by simp [hsplit, htraversal]⟩

end Praxis.Rewrite
