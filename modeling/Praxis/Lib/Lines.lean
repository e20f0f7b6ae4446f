/-
Streams of bytes that are cut into lines by LF, CR or CR LF. `splitLines` says it for a whole
stream; a scanner reads the same lines one byte at a time, handing each to a consumer that may
fail, and gives up on a line that outgrows its limit.
-/
import Praxis.Lib.Utf8

namespace Praxis.Lib

open List

/-! ## Lines of a whole stream -/

def LF : UInt8 := 10

def CR : UInt8 := 13

def isTerminator (b : UInt8) : Bool := b == LF || b == CR

/-- The lines that are ended, and the bytes after the last line end. -/
def splitLines : List UInt8 → List (List UInt8) × List UInt8
  | [] => ([], [])
  | b :: rest =>
    if b = LF then ([] :: (splitLines rest).1, (splitLines rest).2)
    else if b = CR then
      match rest with
      | [] => ([[]], [])
      | c :: rest' =>
        if c = LF then ([] :: (splitLines rest').1, (splitLines rest').2)
        else ([] :: (splitLines (c :: rest')).1, (splitLines (c :: rest')).2)
    else
      match splitLines rest with
      | ([], tail) => ([], b :: tail)
      | (line :: lines, tail) => ((b :: line) :: lines, tail)

/-- Without the LF that belongs to a CR before it. -/
def skipLf (afterCr : Bool) : List UInt8 → List UInt8
  | [] => []
  | b :: rest => if afterCr = true ∧ b = LF then rest else b :: rest

@[simp] theorem skipLf_false (bytes : List UInt8) : skipLf false bytes = bytes := by
  cases bytes <;> simp [skipLf]

/-- Puts bytes of an unfinished line in front. -/
def prependLine (p : List UInt8) : List (List UInt8) × List UInt8 → List (List UInt8) × List UInt8
  | ([], tail) => ([], p ++ tail)
  | (line :: lines, tail) => ((p ++ line) :: lines, tail)

@[simp] theorem prependLine_nil (r : List (List UInt8) × List UInt8) : prependLine [] r = r := by
  obtain ⟨lines, tail⟩ := r
  cases lines <;> rfl

variable {p rest : List UInt8}

theorem prependLine_append (q : List UInt8) {r : List (List UInt8) × List UInt8} :
    prependLine (p ++ q) r = prependLine p (prependLine q r) := by
  obtain ⟨lines, tail⟩ := r
  cases lines <;> simp [prependLine]

theorem splitLines_lf : splitLines (LF :: rest) = ([] :: (splitLines rest).1, (splitLines rest).2) := by
  rw [splitLines.eq_def]
  dsimp only
  rw [if_pos rfl]

theorem splitLines_cr :
    splitLines (CR :: rest) = ([] :: (splitLines (skipLf true rest)).1, (splitLines (skipLf true rest)).2) := by
  rw [splitLines.eq_def]
  dsimp only
  rw [if_neg (by decide), if_pos rfl]
  cases rest with
  | nil => simp [skipLf, splitLines]
  | cons c rest' =>
    by_cases hc : c = LF
    · simp [skipLf, hc]
    · simp [skipLf, hc]

theorem splitLines_data {b : UInt8} (hb : isTerminator b = false) :
    splitLines (b :: rest) = prependLine [b] (splitLines rest) := by
  obtain ⟨hlf, hcr⟩ : b ≠ LF ∧ b ≠ CR := by simpa [isTerminator] using hb
  rw [splitLines.eq_def]
  dsimp only
  rw [if_neg hlf, if_neg hcr]
  rcases splitLines rest with ⟨lines, tail⟩
  cases lines <;> rfl

theorem splitLines_append (hp : ∀ b ∈ p, isTerminator b = false) :
    splitLines (p ++ rest) = prependLine p (splitLines rest) := by
  induction p with
  | nil => simp
  | cons b p ih =>
    rw [cons_append, splitLines_data (hp b (.head _)), ih fun c hc => hp c (.tail b hc),
      ← prependLine_append]
    rfl

/-- Lines written one after another, each with its line end. -/
def joinLines (lines : List (List UInt8)) : List UInt8 := lines.flatMap (· ++ [LF])

theorem splitLines_joinLines : ∀ {lines : List (List UInt8)}, (∀ line ∈ lines, ∀ b ∈ line, isTerminator b = false) →
    splitLines (joinLines lines) = (lines, [])
  | [], _ => rfl
  | line :: lines, h => by
    have ih := splitLines_joinLines fun l hl => h l (.tail line hl)
    have hjoin : joinLines (line :: lines) = line ++ LF :: joinLines lines := by simp [joinLines]
    rw [hjoin, splitLines_append (h line (.head _)), splitLines_lf, ih, prependLine, append_nil]

/-- A prefix without the separator lies before the separator. -/
theorem prefix_append_cons_iff {xs : List UInt8} {sep : UInt8} (hsep : sep ∉ p) : p <+: xs ++ sep :: rest ↔ p <+: xs := by
  refine ⟨fun h => ?_, fun h => h.trans (prefix_append xs _)⟩
  rcases prefix_or_prefix_of_prefix h (prefix_append xs _) with h' | ⟨more, rfl⟩
  · exact h'
  · have hmore := (prefix_append_right_inj xs).1 h
    cases more with
    | nil => simp
    | cons b more =>
      obtain rfl := (cons_prefix_cons.1 hmore).1
      exact absurd (by simp) hsep

/-! ## Scanning byte by byte -/

section

variable {τ φ : Type}

/-- A scanner between two bytes: the unfinished line, whether a CR came just before, and what
the consumer has made of the lines so far. -/
structure Scan (τ : Type) where
  line : List UInt8
  afterCr : Bool
  acc : τ

variable (limit : Nat) (tooLong : τ → φ) (onLine : τ → List UInt8 → Except φ τ)

/-- One byte. -/
def scanByte (s : Scan τ) (b : UInt8) : Except φ (Scan τ) :=
  if b = LF then
    if s.afterCr then .ok { s with afterCr := false }
    else (onLine s.acc s.line).map fun acc => ⟨[], false, acc⟩
  else if b = CR then (onLine s.acc s.line).map fun acc => ⟨[], true, acc⟩
  else if limit < s.line.length + 1 then .error (tooLong s.acc)
  else .ok ⟨s.line ++ [b], false, s.acc⟩

/-- A run of bytes. -/
def scan : Scan τ → List UInt8 → Except φ (Scan τ)
  | s, [] => .ok s
  | s, b :: rest => (scanByte limit tooLong onLine s b).bind fun s' => scan s' rest

/-- Lines handed over one after another, none longer than the limit. -/
def onLines : τ → List (List UInt8) → Except φ τ
  | acc, [] => .ok acc
  | acc, line :: lines =>
    if limit < line.length then .error (tooLong acc) else (onLine acc line).bind fun acc' => onLines acc' lines

variable {limit tooLong onLine}

theorem scan_append : ∀ (s : Scan τ) (xs ys : List UInt8),
    scan limit tooLong onLine s (xs ++ ys) =
      (scan limit tooLong onLine s xs).bind fun s' => scan limit tooLong onLine s' ys
  | s, [], ys => rfl
  | s, x :: xs, ys => by
    rw [cons_append, scan, scan]
    cases scanByte limit tooLong onLine s x with
    | error e => rfl
    | ok s' => exact scan_append s' xs ys

/-- A scanner that can be met between two bytes. -/
structure Scan.Ok (limit : Nat) (s : Scan τ) : Prop where
  data : ∀ b ∈ s.line, isTerminator b = false
  fits : s.line.length ≤ limit
  fresh : s.afterCr = true → s.line = []

theorem Scan.Ok.nil (limit : Nat) (acc : τ) (afterCr : Bool) : Scan.Ok limit (⟨[], afterCr, acc⟩ : Scan τ) :=
  ⟨nofun, Nat.zero_le _, fun _ => rfl⟩

/-- What a scanner makes of a whole run of bytes is what the consumer makes of its lines. -/
def linesResult (limit : Nat) (tooLong : τ → φ) (onLine : τ → List UInt8 → Except φ τ) (acc : τ)
    (r : List (List UInt8) × List UInt8) : Except φ (List UInt8 × τ) :=
  (onLines limit tooLong onLine acc r.1).bind fun acc' =>
    if limit < r.2.length then .error (tooLong acc') else .ok (r.2, acc')

/-- A line that has outgrown the limit fails wherever it ends. -/
theorem linesResult_tooLong (hp : limit < p.length) (acc : τ) {r : List (List UInt8) × List UInt8} :
    linesResult limit tooLong onLine acc (prependLine p r) = .error (tooLong acc) := by
  obtain ⟨lines, tail⟩ := r
  cases lines with
  | nil =>
    rw [prependLine, linesResult]
    show (if limit < (p ++ tail).length then _ else _) = _
    rw [if_pos (by rw [length_append]; omega)]
  | cons line lines =>
    rw [prependLine, linesResult, onLines, if_pos (by rw [length_append]; omega)]
    rfl

theorem linesResult_cons {line : List UInt8} (hline : line.length ≤ limit) (acc : τ) (lines : List (List UInt8))
    (tail : List UInt8) : linesResult limit tooLong onLine acc (line :: lines, tail) =
      (onLine acc line).bind fun acc' => linesResult limit tooLong onLine acc' (lines, tail) := by
  rw [linesResult, onLines, if_neg (by omega)]
  cases onLine acc line <;> rfl

theorem scan_eq_lines : ∀ (bytes : List UInt8) {s : Scan τ}, s.Ok limit →
    (scan limit tooLong onLine s bytes).map (fun s' => (s'.line, s'.acc)) =
      linesResult limit tooLong onLine s.acc (splitLines (s.line ++ skipLf s.afterCr bytes))
  | [], s, hs => by
    have hsplit : splitLines (s.line ++ []) = ([], s.line) := by
      rw [splitLines_append hs.data, splitLines, prependLine, append_nil]
    rw [skipLf, hsplit, linesResult]
    show _ = if limit < s.line.length then _ else _
    rw [if_neg (Nat.not_lt.2 hs.fits)]
    rfl
  | b :: rest, s, hs => by
    -- every byte but an LF after a CR is the first one of what is left to split
    have hskip : ¬ (s.afterCr = true ∧ b = LF) → skipLf s.afterCr (b :: rest) = b :: rest := fun h => if_neg h
    rw [scan, scanByte]
    by_cases hlf : b = LF
    · rw [if_pos hlf]
      by_cases hcr : s.afterCr = true
      · have ih := scan_eq_lines rest (s := { s with afterCr := false }) ⟨hs.data, hs.fits, nofun⟩
        have hrest : skipLf s.afterCr (b :: rest) = rest := if_pos ⟨hcr, hlf⟩
        rw [if_pos hcr, hrest]
        rw [skipLf_false] at ih
        exact ih
      · rw [if_neg hcr, hskip (fun h => hcr h.1), hlf, splitLines_append hs.data, splitLines_lf, prependLine,
          append_nil, linesResult_cons hs.fits]
        cases onLine s.acc s.line with
        | error e => rfl
        | ok acc =>
          have ih := scan_eq_lines rest (Scan.Ok.nil limit acc false)
          rw [skipLf_false] at ih
          exact ih
    · rw [if_neg hlf]
      by_cases hcr : b = CR
      · rw [if_pos hcr, hskip (fun h => hlf h.2), hcr, splitLines_append hs.data, splitLines_cr, prependLine,
          append_nil, linesResult_cons hs.fits]
        cases onLine s.acc s.line with
        | error e => rfl
        | ok acc => exact scan_eq_lines rest (Scan.Ok.nil limit acc true)
      · have hb : isTerminator b = false := by simp [isTerminator, hlf, hcr]
        have hdata : ∀ c ∈ s.line ++ [b], isTerminator c = false := by
          intro c hc
          rcases mem_append.1 hc with hc | hc
          · exact hs.data c hc
          · rw [mem_singleton.1 hc]
            exact hb
        have hmove : s.line ++ b :: rest = (s.line ++ [b]) ++ rest := by simp
        rw [if_neg hcr, hskip (fun h => hlf h.2), hmove]
        by_cases hlong : limit < s.line.length + 1
        · rw [if_pos hlong, splitLines_append hdata, linesResult_tooLong (by simpa using hlong)]
          rfl
        · rw [if_neg hlong]
          have ih := scan_eq_lines rest (s := ⟨s.line ++ [b], false, s.acc⟩)
            ⟨hdata, by simpa using Nat.not_lt.1 hlong, nofun⟩
          rw [skipLf_false] at ih
          exact ih

theorem scan_run : ∀ (run : List UInt8) {s : Scan τ}, (∀ b ∈ run, isTerminator b = false) → run ≠ [] →
    s.line.length ≤ limit → scan limit tooLong onLine s run =
      if limit < s.line.length + run.length then .error (tooLong s.acc) else .ok ⟨s.line ++ run, false, s.acc⟩
  | [], s, _, hne, _ => absurd rfl hne
  | b :: run, s, hdata, _, hfits => by
    obtain ⟨hlf, hcr⟩ : b ≠ LF ∧ b ≠ CR := by simpa [isTerminator] using hdata b (.head _)
    rw [scan, scanByte, if_neg hlf, if_neg hcr]
    by_cases hlong : limit < s.line.length + 1
    · rw [if_pos hlong, if_pos (by rw [length_cons]; omega)]
      rfl
    · rw [if_neg hlong]
      show scan limit tooLong onLine ⟨s.line ++ [b], false, s.acc⟩ run = _
      cases run with
      | nil => rw [scan, if_neg (by simpa using hlong)]
      | cons c run =>
        rw [scan_run (c :: run) (fun x hx => hdata x (.tail b hx)) nofun (by simpa using Nat.not_lt.1 hlong)]
        simp only [length_append, length_cons, length_nil, append_assoc, cons_append,
          nil_append]
        congr 1
        exact propext ⟨fun h => by omega, fun h => by omega⟩

end

/-! ## Streams in chunks -/

/-- What each chunk keeps of a relation between a consumer and the input it has read, a stream
in chunks keeps as a whole. -/
theorem chunks_invariant {α σ : Type} {R : σ → List α → Prop} {feed : σ → List α → σ}
    (h : ∀ s read chunk, R s read → R (feed s chunk) (read ++ chunk)) :
    ∀ (chunks : List (List α)) {s : σ} {read : List α}, R s read → R (chunks.foldl feed s) (read ++ chunks.flatten)
  | [], s, read, hR => by
    rw [flatten_nil, append_nil]
    exact hR
  | chunk :: chunks, s, read, hR => by
    rw [flatten_cons, ← append_assoc]
    exact chunks_invariant h chunks (h s read chunk hR)

end Praxis.Lib
