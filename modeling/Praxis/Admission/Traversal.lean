/-
The detector of dot-dot segments in a path, encoded or not. It counts the dots of a segment in a checked
`u16`, so a segment that begins with 65536 dots stops the program.
-/
import Praxis.Lib.Ascii

namespace Praxis.Admission

open List Praxis.Lib

/-! ## The functions of the source -/

/-- The loop of `is_traversal_segment`: none if the counter overflows. -/
def traversalLoop (b : List UInt8) (i dots : Nat) : Option Bool :=
  match h : b[i]? with
  | none => some (dots == 2)
  | some c =>
    have : i < b.length := (List.getElem?_eq_some_iff.1 h).1
    if c == 37 && b[i + 1]?.any (toAsciiLowercase · == 50) && b[i + 2]?.any (toAsciiLowercase · == 101) then
      if dots + 1 < 65536 then traversalLoop b (i + 3) (dots + 1) else none
    else if c == 46 then
      if dots + 1 < 65536 then traversalLoop b (i + 1) (dots + 1) else none
    else some false
termination_by b.length - i

def isTraversalSegment (seg : List UInt8) : Option Bool :=
  if seg = [46, 46] then some true else traversalLoop seg 0 0

/-- `has_dot_dot_traversal`; the path is given by its bytes. -/
def hasDotDotTraversal (path : List UInt8) : Option Bool := (path.splitOnP (· == 47)).anyM isTraversalSegment

/-! ## Dots written out -/

/-- `%2e` at the front, in either case. -/
def startsEncodedDot : List UInt8 → Bool
  | c :: d :: e :: _ => c == 37 && toAsciiLowercase d == 50 && toAsciiLowercase e == 101
  | _ => false

/-- A segment with its encoded dots written out. -/
def decodeDots : List UInt8 → List UInt8
  | [] => []
  | c :: rest =>
    match rest with
    | d :: e :: after =>
      if c == 37 && toAsciiLowercase d == 50 && toAsciiLowercase e == 101 then 46 :: decodeDots after
      else c :: decodeDots (d :: e :: after)
    | [d] => c :: decodeDots [d]
    | [] => [c]

theorem decodeDots_cons (c : UInt8) (rest : List UInt8) :
    decodeDots (c :: rest) =
      if startsEncodedDot (c :: rest) then 46 :: decodeDots (rest.drop 2) else c :: decodeDots rest := by
  match rest with
  | [] => simp [decodeDots, startsEncodedDot]
  | [d] => rw [decodeDots]; rfl
  | d :: e :: after => rw [decodeDots]; rfl

/-- The dots that a segment begins with, encoded or not. -/
def dotRun (seg : List UInt8) : Nat := ((decodeDots seg).takeWhile (· == 46)).length

variable {seg path : List UInt8}

@[simp] theorem dotRun_dot {rest : List UInt8} (h : decodeDots seg = 46 :: decodeDots rest) :
    dotRun seg = dotRun rest + 1 := by
  simp [dotRun, h]

/-- The window that the loop looks at is the front of what it has still to read. -/
theorem startsEncodedDot_drop {b : List UInt8} {i : Nat} {c : UInt8} (h : b.drop i = c :: b.drop (i + 1)) :
    startsEncodedDot (b.drop i) =
      (c == 37 && b[i + 1]?.any (toAsciiLowercase · == 50) && b[i + 2]?.any (toAsciiLowercase · == 101)) := by
  have h1 : b[i + 1]? = (b.drop (i + 1))[0]? := by simp
  have h2 : b[i + 2]? = (b.drop (i + 1))[1]? := by simp [Nat.add_assoc]
  rw [h, h1, h2]
  match b.drop (i + 1) with
  | [] => simp [startsEncodedDot]
  | [d] => simp [startsEncodedDot]
  | d :: e :: after => simp [startsEncodedDot]

/-- The loop at an index: it overflows at the dots still to come, or compares them all with two dots. -/
theorem traversalLoop_eq (b : List UInt8) (i dots : Nat) (hdots : dots < 65536) :
    traversalLoop b i dots =
      if 65536 ≤ dots + dotRun (b.drop i) then none
      else some (decide (replicate dots 46 ++ decodeDots (b.drop i) = [46, 46])) := by
  induction hn : b.length - i using Nat.strongRecOn generalizing i dots with
  | ind n ih =>
    subst hn
    -- a dot is counted, and the rest is read with one more
    have hdot : ∀ k, 0 < k → i < b.length → decodeDots (b.drop i) = 46 :: decodeDots (b.drop (i + k)) →
        (if dots + 1 < 65536 then traversalLoop b (i + k) (dots + 1) else none) =
          if 65536 ≤ dots + dotRun (b.drop i) then none
          else some (decide (replicate dots 46 ++ decodeDots (b.drop i) = [46, 46])) := by
      intro k hk hi hdecode
      rw [dotRun_dot hdecode, hdecode, append_cons, ← replicate_succ']
      split
      · next hfits =>
        rw [ih _ (by omega) (i + k) (dots + 1) hfits rfl]
        simp only [Nat.add_assoc, Nat.add_comm 1]
      · next hfull => rw [if_pos (by omega)]
    rw [traversalLoop]
    split
    · next hnone =>
      have hend : b.drop i = [] := drop_eq_nil_of_le (getElem?_eq_none_iff.1 hnone)
      simp only [hend, dotRun, decodeDots, takeWhile_nil, length_nil, append_nil, Nat.add_zero]
      have htwo : replicate dots (46 : UInt8) = [46, 46] ↔ dots = 2 :=
        ⟨fun heq => by simpa using congrArg length heq, fun heq => heq ▸ rfl⟩
      rw [if_neg (by omega), decide_eq_decide.2 htwo]
      rfl
    · next c hc =>
      obtain ⟨hi, hget⟩ := List.getElem?_eq_some_iff.1 hc
      have hdrop : b.drop i = c :: b.drop (i + 1) := by rw [drop_eq_getElem_cons hi, hget]
      have hdecode := decodeDots_cons c (b.drop (i + 1))
      rw [← hdrop, startsEncodedDot_drop hdrop, drop_drop] at hdecode
      simp only
      split
      · next hencoded => exact hdot 3 (by omega) hi (hdecode.trans (if_pos hencoded))
      · next hencoded =>
        rw [if_neg hencoded] at hdecode
        split
        · next hplain => exact hdot 1 (by omega) hi (by rw [hdecode, eq_of_beq hplain])
        · next hplain =>
          have hother : c ≠ 46 := fun heq => hplain (beq_iff_eq.2 heq)
          have hrun : dotRun (b.drop i) = 0 := by simp [dotRun, hdecode, hother]
          have hne : replicate dots 46 ++ c :: decodeDots (b.drop (i + 1)) ≠ [46, 46] := by
            intro heq
            have hmem : c ∈ [46, 46] := heq ▸ by simp
            exact hother (by simpa using hmem)
          rw [hrun, if_neg (by omega), hdecode, decide_eq_false hne]

/-- Two dots in any spelling; a longer run of dots overflows. -/
theorem isTraversalSegment_eq :
    isTraversalSegment seg =
      if 65536 ≤ dotRun seg then none else some (decide (decodeDots seg = [46, 46])) := by
  unfold isTraversalSegment
  split
  · next hdots => subst hdots; rfl
  · rw [traversalLoop_eq seg 0 0 (by decide)]
    simp

theorem isTraversalSegment_false (h : isTraversalSegment seg = some false) : dotRun seg < 65536 ∧ decodeDots seg ≠ [46, 46] := by
  rw [isTraversalSegment_eq] at h
  split at h
  · cases h
  · next hrun => exact ⟨Nat.lt_of_not_le hrun, of_decide_eq_false (Option.some.inj h)⟩

/-! ## Paths -/

theorem hasDotDotTraversal_false :
    hasDotDotTraversal path = some false ↔ ∀ seg ∈ path.splitOnP (· == 47), isTraversalSegment seg = some false := by
  unfold hasDotDotTraversal
  induction path.splitOnP (· == 47) with
  | nil => simp [anyM]
  | cons seg segs ih =>
    rw [anyM, forall_mem_cons, ← ih]
    cases isTraversalSegment seg with
    | none => simp
    | some traversal => cases traversal <;> simp

theorem isSome_hasDotDotTraversal (h : ∀ seg ∈ path.splitOnP (· == 47), dotRun seg < 65536) :
    (hasDotDotTraversal path).isSome := by
  unfold hasDotDotTraversal
  generalize path.splitOnP (· == 47) = segs at h
  induction segs with
  | nil => rfl
  | cons seg segs ih =>
    have hfirst := h seg (.head _)
    rw [anyM, isTraversalSegment_eq, if_neg (by omega)]
    cases decide (decodeDots seg = [46, 46]) with
    | true => rfl
    | false => exact ih fun other hother => h other (.tail _ hother)

end Praxis.Admission
