/-
Obsolete line folding in header values: a CR LF followed by a space or a tab. Admission replaces
every fold by one space. What that does to a value is local: no fold reaches over a byte that is
neither line end nor blank, so the tokens of a list survive it.
-/
import Praxis.Lib.Ascii
import Praxis.Lib.Http

namespace Praxis.Admission

open List Praxis.Lib

/-! ## Folds -/

/-- A space or a tab. -/
def isBlank (b : UInt8) : Bool := b == 32 || b == 9

/-- The window `[b'\r', b'\n', b' ' | b'\t']` at the front. -/
def startsFold : List UInt8 → Bool
  | b :: c :: d :: _ => b == 13 && c == 10 && isBlank d
  | _ => false

def containsObsFold : List UInt8 → Bool
  | [] => false
  | b :: rest => startsFold (b :: rest) || containsObsFold rest

/-- The loop of `unfold_obs_fold`; in a fold the blanks that follow it are skipped. -/
def unfoldLoop : Bool → List UInt8 → List UInt8
  | _, [] => []
  | inFold, b :: rest =>
    if inFold && isBlank b then unfoldLoop true rest
    else
      match rest with
      | c :: d :: after =>
        if b == 13 && c == 10 && isBlank d then 32 :: unfoldLoop true after else b :: unfoldLoop false (c :: d :: after)
      | [c] => b :: unfoldLoop false [c]
      | [] => [b]

def unfoldObsFold (val : List UInt8) : List UInt8 := unfoldLoop false val

/-- A value whose every CR begins a fold and whose other bytes may all stand in a header value. -/
def wellFolded : List UInt8 → Bool
  | [] => true
  | b :: rest =>
    if b == 13 then
      match rest with
      | c :: d :: after => c == 10 && isBlank d && wellFolded after
      | _ => false
    else permittedByte b && wellFolded rest

/-! ## Unfolding -/

/-- A byte that takes no part in a fold. -/
def isPlain (b : UInt8) : Bool := !(b == 13 || b == 10 || isBlank b)

variable {b x : UInt8} {bytes : List UInt8}

theorem isPlain_iff : isPlain b ↔ b ≠ 13 ∧ b ≠ 10 ∧ isBlank b = false := by
  simp [isPlain, and_assoc]

variable (inFold : Bool) (u v : List UInt8) {rest : List UInt8}

theorem unfoldLoop_cons :
    unfoldLoop inFold (b :: rest) =
      if inFold && isBlank b then unfoldLoop true rest
      else if startsFold (b :: rest) then 32 :: unfoldLoop true (rest.drop 2)
      else b :: unfoldLoop false rest := by
  match rest with
  | [] => simp [unfoldLoop, startsFold]
  | [c] => rw [unfoldLoop]; rfl
  | c :: d :: after => rw [unfoldLoop]; rfl

theorem startsFold_iff : startsFold bytes ↔ ∃ d after, bytes = 13 :: 10 :: d :: after ∧ isBlank d := by
  match bytes with
  | [] => simp [startsFold]
  | [b] => simp [startsFold]
  | [b, c] => simp [startsFold]
  | b :: c :: d :: after => simp [startsFold, and_assoc]

theorem containsObsFold_iff : containsObsFold bytes ↔ ∃ u d v, bytes = u ++ 13 :: 10 :: d :: v ∧ isBlank d := by
  induction bytes with
  | nil => simp [containsObsFold]
  | cons b rest ih =>
    rw [containsObsFold, Bool.or_eq_true, startsFold_iff, ih]
    constructor
    · rintro (⟨d, after, h, hd⟩ | ⟨u, d, v, rfl, hd⟩)
      · exact ⟨[], d, after, h, hd⟩
      · exact ⟨b :: u, d, v, rfl, hd⟩
    · rintro ⟨u, d, v, h, hd⟩
      cases u with
      | nil => exact .inl ⟨d, v, h, hd⟩
      | cons c u => exact .inr ⟨u, d, v, (cons.inj h).2, hd⟩

theorem startsFold_of_ne (hb : b ≠ 13) : startsFold (b :: rest) = false := by
  rw [Bool.eq_false_iff, ne_eq, startsFold_iff]
  rintro ⟨d, after, h, -⟩
  exact hb (cons.inj h).1

/-- A fold does not reach over a plain byte. -/
theorem startsFold_cut (hx : isPlain x) : startsFold (b :: (u ++ x :: v)) = startsFold (b :: u) := by
  rw [isPlain_iff] at hx
  match u with
  | [] => cases v <;> simp [startsFold, hx]
  | [c] => simp [startsFold, hx]
  | c :: d :: u => rfl

/-- A plain byte separates: what stands before it and what follows are unfolded on their own. -/
theorem unfoldLoop_cut (hx : isPlain x) :
    unfoldLoop inFold (u ++ x :: v) = unfoldLoop inFold u ++ x :: unfoldLoop false v := by
  induction u using dropTwoInduction generalizing inFold with
  | nil =>
    rw [nil_append, unfoldLoop_cons, (isPlain_iff.1 hx).2.2, Bool.and_false, startsFold_of_ne (isPlain_iff.1 hx).1]
    rfl
  | cons b u ih ihFold =>
    rw [cons_append, unfoldLoop_cons, unfoldLoop_cons, startsFold_cut u v hx]
    split
    · exact ih true
    · split
      case isTrue h =>
        -- the fold lies before the plain byte
        obtain ⟨d, after, hu, -⟩ := startsFold_iff.1 h
        obtain ⟨rfl, rfl⟩ := cons.inj hu
        exact congrArg (32 :: ·) (ihFold true)
      case isFalse => exact congrArg (b :: ·) (ih false)

theorem unfoldObsFold_cut (hx : isPlain x) :
    unfoldObsFold (u ++ x :: v) = unfoldObsFold u ++ x :: unfoldObsFold v := unfoldLoop_cut false u v hx

theorem mem_unfoldLoop {inFold : Bool} (h : b ∈ unfoldLoop inFold bytes) : b = 32 ∨ b ∈ bytes := by
  induction bytes using dropTwoInduction generalizing inFold with
  | nil => cases h
  | cons c rest ih ihFold =>
    rw [unfoldLoop_cons] at h
    split at h
    · exact (ih h).imp_right (.tail c)
    · split at h
      · rcases h with _ | ⟨_, h⟩
        · exact .inl rfl
        · exact (ihFold h).imp_right fun hb => .tail c (mem_of_mem_drop hb)
      · rcases h with _ | ⟨_, h⟩
        · exact .inr (.head _)
        · exact (ih h).imp_right (.tail c)

theorem wellFolded_cons :
    wellFolded (b :: rest) =
      if startsFold (b :: rest) then wellFolded (rest.drop 2) else permittedByte b && wellFolded rest := by
  by_cases hb : b = 13
  · subst hb
    have hcr : permittedByte 13 = false := by decide
    rw [hcr, Bool.false_and]
    match rest with
    | [] => rfl
    | [c] => rfl
    | c :: d :: after =>
      change (c == 10 && isBlank d && wellFolded after) = if (c == 10 && isBlank d) = true then wellFolded after else false
      split
      case isTrue h => rw [h, Bool.true_and]
      case isFalse h => rw [Bool.eq_false_iff.2 h, Bool.false_and]
  · rw [startsFold_of_ne hb, wellFolded.eq_def]
    simp [hb]

theorem permittedByte_of_isBlank (h : isBlank b) : permittedByte b := by
  rcases (by simpa [isBlank] using h : b = 32 ∨ b = 9) with rfl | rfl <;> decide

theorem ne_cr_of_permittedByte (h : permittedByte b) : b ≠ 13 := by
  rintro rfl
  cases h

theorem unfoldLoop_permitted (bytes : List UInt8) : (unfoldLoop inFold bytes).all permittedByte = wellFolded bytes := by
  induction bytes using dropTwoInduction generalizing inFold with
  | nil => rfl
  | cons b rest ih ihFold =>
    rw [unfoldLoop_cons, wellFolded_cons]
    by_cases hblank : (inFold && isBlank b) = true
    · have hb : permittedByte b = true := permittedByte_of_isBlank (Bool.and_eq_true_iff.1 hblank).2
      rw [if_pos hblank, ih, startsFold_of_ne (ne_cr_of_permittedByte hb), hb]
      rfl
    · rw [if_neg hblank]
      split
      · rw [all_cons, ihFold]
        rfl
      · rw [all_cons, ih]

theorem containsObsFold_eq_false (h : bytes.all permittedByte) : containsObsFold bytes = false := by
  induction bytes with
  | nil => rfl
  | cons b rest ih =>
    obtain ⟨hb, hrest⟩ : permittedByte b = true ∧ rest.all permittedByte = true := by simpa using h
    rw [containsObsFold, startsFold_of_ne (ne_cr_of_permittedByte hb), ih hrest]
    rfl

theorem length_unfoldLoop (bytes : List UInt8) :
    (unfoldLoop inFold bytes).length ≤ bytes.length ∧
      (containsObsFold bytes → (unfoldLoop inFold bytes).length < bytes.length) := by
  induction bytes using dropTwoInduction generalizing inFold with
  | nil => simp [unfoldLoop, containsObsFold]
  | cons b rest ih ihFold =>
    rw [unfoldLoop_cons, containsObsFold]
    split
    · have hle := (ih true).1
      simp only [length_cons]
      omega
    · split
      case isTrue hstarts =>
        obtain ⟨d, after, hcons, -⟩ := startsFold_iff.1 hstarts
        obtain ⟨-, rfl⟩ := cons.inj hcons
        have hle := (ihFold true).1
        simp only [drop_succ_cons, drop_zero, length_cons] at hle ⊢
        omega
      case isFalse hstarts =>
        obtain ⟨hle, hlt⟩ := ih false
        simp only [Bool.eq_false_iff.2 hstarts, Bool.false_or, length_cons]
        exact ⟨by omega, fun hfold => by have := hlt hfold; omega⟩

/-! ## Lists of tokens -/

theorem splitOnP_unfoldObsFold (val : List UInt8) :
    (unfoldObsFold val).splitOnP (· == 44) = (val.splitOnP (· == 44)).map unfoldObsFold := by
  induction hlen : val.length using Nat.strongRecOn generalizing val with
  | ind n ih =>
    subst hlen
    have hunfold : ∀ u : List UInt8, 44 ∉ u → ∀ b ∈ unfoldObsFold u, (b == 44) = false := by
      intro u hu b hb
      rw [beq_eq_false_iff_ne]
      rintro rfl
      exact (mem_unfoldLoop hb).elim (by decide) hu
    have hvalue : ∀ u : List UInt8, 44 ∉ u → ∀ b ∈ u, (b == 44) = false := by
      intro u hu b hb
      rw [beq_eq_false_iff_ne]
      rintro rfl
      exact hu hb
    by_cases hcomma : 44 ∈ val
    · -- the first comma separates, and the rest is shorter
      obtain ⟨u, v, rfl, hu⟩ := eq_append_cons_of_mem hcomma
      rw [unfoldObsFold_cut u v (by decide), splitOnP_append_cons_of_forall_mem (hunfold u hu) 44 rfl,
        splitOnP_append_cons_of_forall_mem (hvalue u hu) 44 rfl, map_cons, ih v.length (by simp; omega) v rfl]
    · rw [splitOnP_eq_singleton (hunfold val hcomma), splitOnP_eq_singleton (hvalue val hcomma)]
      rfl

theorem isPlain_of_not_whitespace (h : isAsciiWhitespace b = false) : isPlain b := by
  simp [isAsciiWhitespace] at h
  simp [isPlain, isBlank, h]

theorem unfoldObsFold_text_append {text : List UInt8} (htext : ∀ b ∈ text, isAsciiWhitespace b = false)
    (back : List UInt8) : unfoldObsFold (text ++ back) = text ++ unfoldObsFold back := by
  induction text with
  | nil => rfl
  | cons b text ih =>
    have hcut := unfoldObsFold_cut [] (text ++ back) (isPlain_of_not_whitespace (htext b (.head _)))
    rw [ih fun c hc => htext c (.tail b hc)] at hcut
    exact hcut

/-- Unfolding the whitespace around a text leaves the text. -/
theorem trimAscii_unfoldObsFold {piece : List UInt8} (h : ∀ b ∈ trimAscii piece, isAsciiWhitespace b = false) :
    trimAscii (unfoldObsFold piece) = trimAscii piece := by
  have hspace : ∀ ws : List UInt8, (∀ b ∈ ws, isAsciiWhitespace b) → ∀ b ∈ unfoldObsFold ws, isAsciiWhitespace b := by
    intro ws hws b hb
    rcases mem_unfoldLoop hb with rfl | hb
    · rfl
    · exact hws b hb
  obtain ⟨front, back, hpiece, hfront, hback⟩ := trimAscii_split piece
  generalize trimAscii piece = text at *
  subst hpiece
  cases text with
  | nil =>
    have hws : ∀ b ∈ front ++ [] ++ back, isAsciiWhitespace b := by
      simpa using fun b => Or.rec (hfront b) (hback b)
    have hbetween : trimAscii (unfoldObsFold (front ++ [] ++ back) ++ [] ++ []) = [] := trimAscii_between (hspace _ hws) h nofun
    simpa using hbetween
  | cons b text =>
    have htext : ∀ c ∈ text, isAsciiWhitespace c = false := fun c hc => h c (.tail b hc)
    rw [append_assoc, cons_append,
      unfoldObsFold_cut front _ (isPlain_of_not_whitespace (h b (.head _))), unfoldObsFold_text_append htext]
    simpa using trimAscii_between (hspace front hfront) h (hspace back hback)

theorem tokens_unfoldObsFold {val : List UInt8} (h : ∀ token ∈ tokens val, ∀ b ∈ token, isAsciiWhitespace b = false) :
    tokens (unfoldObsFold val) = tokens val := by
  have hpieces : (val.splitOnP (· == 44)).map (trimAscii ∘ unfoldObsFold) = (val.splitOnP (· == 44)).map trimAscii := by
    refine map_congr_left fun piece hpiece => trimAscii_unfoldObsFold fun b hb => ?_
    refine h (trimAscii piece) (mem_filter.2 ⟨mem_map_of_mem hpiece, ?_⟩) b hb
    simpa using ne_nil_of_mem hb
  rw [tokens, splitOnP_unfoldObsFold, map_map, hpieces]
  rfl

end Praxis.Admission
