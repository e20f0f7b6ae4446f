/-
The skipper on bytes and tokens, both ways: a string, a literal or a number that the grammar
allows is passed over as a whole, and what has been passed over is such a token.
-/
import Praxis.JsonOps.Skip
import Praxis.Lib.Except
import Mathlib.Data.List.TakeWhile

namespace Praxis.JsonOps

open Except List Praxis.Lib Praxis.Lib.Json

/-! ## Bytes -/

@[simp] theorem nextByte_cons {b : UInt8} {rest : Bytes} : nextByte (b :: rest) = .ok b := rfl

variable {input rest frac exp : Bytes} {b e : UInt8}

theorem nextByte_eq_ok (h : nextByte input = .ok b) : ∃ rest, input = b :: rest := by
  cases input with
  | nil => cases h
  | cons c rest =>
    cases h
    exact ⟨rest, rfl⟩

@[simp] theorem expectByte_cons : expectByte (b :: rest) b = .ok rest := by
  simp [expectByte]

theorem expectByte_eq_ok (h : expectByte input b = .ok rest) : input = b :: rest := by
  obtain ⟨c, hc, h⟩ := bind_eq_ok h
  obtain ⟨tail, rfl⟩ := nextByte_eq_ok hc
  split at h
  case isTrue hcb =>
    rw [hcb]
    exact congrArg (b :: ·) (ok.inj h)
  case isFalse => cases h

@[simp] theorem skipWs_append (ws : Ws) (rest : Bytes) : skipWs (ws.bytes ++ rest) = skipWs rest :=
  dropWhile_append_of_pos ws.ok

theorem skipWs_cons (hb : isWs b = false) (rest : Bytes) : skipWs (b :: rest) = b :: rest := by
  rw [skipWs, dropWhile_cons, hb]
  rfl

/-- White space is all that is passed over, and then comes something else. -/
theorem skipWs_spec (input : Bytes) :
    ∃ ws : Ws, input = ws.bytes ++ skipWs input ∧ ∀ b ∈ (skipWs input).head?, isWs b = false := by
  refine ⟨⟨input.takeWhile isWs, fun b hb => mem_takeWhile_imp hb⟩, ?_, ?_⟩
  · exact takeWhile_append_dropWhile.symm
  · intro b hb
    have h := head?_dropWhile_not isWs input
    rw [Option.mem_def] at hb
    rw [skipWs] at hb
    rw [hb] at h
    simpa using h

/-! ## Strings -/

def isDelim (b : UInt8) : Bool := b == QUOTE || b == BACKSLASH || decide (b < 0x20)

theorem isDelim_of_isUnescaped (h : isUnescaped b = true) : isDelim b = false := by
  simp only [isUnescaped, Bool.and_eq_true, decide_eq_true_eq, bne_iff_ne, ne_eq] at h
  obtain ⟨⟨hlow, hquote⟩, hback⟩ := h
  simp [isDelim, hquote, hback, hlow]

theorem skipStringLoop_raw (hb : isDelim b = false) (fuel : Nat) (escaped : Bool) :
    skipStringLoop (fuel + 1) (b :: input) escaped = skipStringLoop (fuel + 1) input escaped := by
  have hfind : findJsonStringDelim (b :: input) = (findJsonStringDelim input).map (· + 1) := by
    rw [findJsonStringDelim, findIdx?_cons]
    change (if isDelim b then _ else _) = _
    rw [hb]
    rfl
  rw [skipStringLoop, skipStringLoop, hfind]
  cases findJsonStringDelim input <;> rfl

theorem findJsonStringDelim_delim (hb : isDelim b = true) : findJsonStringDelim (b :: rest) = some 0 := by
  rw [findJsonStringDelim, findIdx?_cons]
  change (if isDelim b then _ else _) = _
  rw [hb]
  rfl

theorem skipStringLoop_quote (fuel : Nat) (escaped : Bool) :
    skipStringLoop (fuel + 1) (QUOTE :: rest) escaped = .ok (rest, escaped) := by
  rw [skipStringLoop, findJsonStringDelim_delim rfl]
  rfl

theorem skipStringLoop_backslash (fuel : Nat) (escaped : Bool) :
    skipStringLoop (fuel + 1) (BACKSLASH :: rest) escaped =
      skipEscapeSequence rest >>= fun rest => skipStringLoop fuel rest true := by
  rw [skipStringLoop, findJsonStringDelim_delim rfl]
  rfl

theorem skipStringLoop_control (hb : b < 0x20) (fuel : Nat) (escaped : Bool) :
    skipStringLoop (fuel + 1) (b :: rest) escaped = .error .invalidJson := by
  have hquote : b ≠ QUOTE := by
    rintro rfl
    exact absurd hb (by decide)
  rw [skipStringLoop, findJsonStringDelim_delim (by simp [isDelim, hb])]
  simp only [drop_zero]
  rw [if_neg hquote, if_pos hb]

theorem skipEscapeSequence_simple (he : isSimpleEscape e = true) : skipEscapeSequence (e :: rest) = .ok rest := by
  simp [skipEscapeSequence, he]

theorem skipEscapeSequence_unicode {h1 h2 h3 h4 : UInt8} (hhex : ∀ d ∈ [h1, h2, h3, h4], isHexDigit d = true) :
    skipEscapeSequence (117 :: h1 :: h2 :: h3 :: h4 :: rest) = .ok rest := by
  have hu : isSimpleEscape 117 = false := by decide
  simp only [mem_cons, not_mem_nil, or_false, forall_eq_or_imp, forall_eq] at hhex
  simp [skipEscapeSequence, hu, skipHexDigits, hhex]

theorem skipHexDigits_eq_ok : ∀ {n : Nat} {input rest : Bytes}, skipHexDigits n input = .ok rest →
    ∃ ds : Bytes, ds.length = n ∧ (∀ d ∈ ds, isHexDigit d = true) ∧ input = ds ++ rest
  | 0, input, rest, h => ⟨[], rfl, by rintro _ ⟨⟩, ok.inj h⟩
  | n + 1, input, rest, h => by
    obtain ⟨d, hd, h⟩ := bind_eq_ok h
    obtain ⟨tail, rfl⟩ := nextByte_eq_ok hd
    split at h
    case isFalse => cases h
    case isTrue hhex =>
      obtain ⟨ds, hlen, hds, htail⟩ := skipHexDigits_eq_ok h
      refine ⟨d :: ds, by rw [length_cons, hlen], ?_, ?_⟩
      · intro x hx
        rcases hx with _ | ⟨_, hx⟩
        · exact hhex
        · exact hds x hx
      · rw [cons_append, ← htail]
        rfl

theorem skipEscapeSequence_eq_ok (h : skipEscapeSequence input = .ok rest) :
    (∃ e, isSimpleEscape e = true ∧ input = e :: rest) ∨
    (∃ h1 h2 h3 h4, (∀ d ∈ [h1, h2, h3, h4], isHexDigit d = true) ∧ input = 117 :: h1 :: h2 :: h3 :: h4 :: rest) := by
  obtain ⟨e, he, h⟩ := bind_eq_ok h
  obtain ⟨tail, rfl⟩ := nextByte_eq_ok he
  split at h
  case isTrue hsimple =>
    cases h
    exact .inl ⟨e, hsimple, rfl⟩
  case isFalse =>
    split at h
    case isFalse => cases h
    case isTrue hu =>
      obtain ⟨ds, hlen, hds, htail⟩ := skipHexDigits_eq_ok h
      match ds, hlen with
      | [h1, h2, h3, h4], _ =>
        subst hu
        exact .inr ⟨h1, h2, h3, h4, hds, congrArg (117 :: ·) htail⟩

theorem skipStringLoop_chars {body : Bytes} (hchars : isChars body = true) :
    ∀ {fuel : Nat} {escaped : Bool}, body.length < fuel → ∀ rest : Bytes,
    skipStringLoop fuel (body ++ QUOTE :: rest) escaped = .ok (rest, escaped || body.contains BACKSLASH) := by
  induction body, hchars using isChars_induction with
  | nil =>
    rintro (_ | fuel) escaped hfuel rest
    · simp at hfuel
    · rw [nil_append, skipStringLoop_quote]
      simp
  | raw b body hb _ _ ih =>
    rintro (_ | fuel) escaped hfuel rest
    · simp at hfuel
    · have hne : b ≠ BACKSLASH := by
        rintro rfl
        cases hb
      rw [cons_append, skipStringLoop_raw (isDelim_of_isUnescaped hb), ih (by simp at hfuel; omega)]
      simp [Ne.symm hne]
  | simple e body he _ _ ih =>
    rintro (_ | fuel) escaped hfuel rest
    · simp at hfuel
    · rw [cons_append, cons_append, skipStringLoop_backslash, skipEscapeSequence_simple he, ok_bind,
        ih (by simp at hfuel; omega)]
      simp
  | unicode h1 h2 h3 h4 body hhex _ _ ih =>
    rintro (_ | fuel) escaped hfuel rest
    · simp at hfuel
    · simp only [cons_append]
      rw [skipStringLoop_backslash, skipEscapeSequence_unicode hhex, ok_bind, ih (by simp at hfuel; omega)]
      simp

/-- What has been passed over up to a closing quote is the inside of a string. -/
theorem skipStringLoop_eq_ok : ∀ (n : Nat) {fuel : Nat} {input rest : Bytes} {escaped escaped' : Bool}, input.length ≤ n →
    skipStringLoop fuel input escaped = .ok (rest, escaped') →
    ∃ body : Bytes, isChars body = true ∧ input = body ++ QUOTE :: rest ∧ escaped' = (escaped || body.contains BACKSLASH)
  | _, 0, _, _, _, _, _, h => by cases h
  | n, fuel + 1, [], rest, escaped, escaped', _, h => by
    rw [skipStringLoop] at h
    cases h
  | 0, fuel + 1, b :: input, _, _, _, hlen, _ => absurd hlen (by simp)
  | n + 1, fuel + 1, b :: input, rest, escaped, escaped', hlen, h => by
    have hlen' : input.length ≤ n := by simpa using hlen
    by_cases hquote : b = QUOTE
    · subst hquote
      rw [skipStringLoop_quote] at h
      cases h
      exact ⟨[], rfl, rfl, by simp⟩
    by_cases hback : b = BACKSLASH
    · subst hback
      rw [skipStringLoop_backslash] at h
      obtain ⟨left, hescape, hloop⟩ := bind_eq_ok h
      rcases skipEscapeSequence_eq_ok hescape with ⟨e, he, rfl⟩ | ⟨h1, h2, h3, h4, hhex, rfl⟩
      · obtain ⟨body, hbody, rfl, rfl⟩ := skipStringLoop_eq_ok n (by simp at hlen'; omega) hloop
        exact ⟨BACKSLASH :: e :: body, (isChars_simple he body).trans hbody, rfl, by simp⟩
      · obtain ⟨body, hbody, rfl, rfl⟩ := skipStringLoop_eq_ok n (by simp at hlen'; omega) hloop
        exact ⟨BACKSLASH :: 117 :: h1 :: h2 :: h3 :: h4 :: body, isChars_unicode.2 ⟨hhex, hbody⟩, rfl, by simp⟩
    by_cases hcontrol : b < 0x20
    · rw [skipStringLoop_control hcontrol] at h
      cases h
    · have hraw : isUnescaped b = true := by simp [isUnescaped, hquote, hback, UInt8.not_lt.1 hcontrol]
      rw [skipStringLoop_raw (isDelim_of_isUnescaped hraw)] at h
      obtain ⟨body, hbody, rfl, rfl⟩ := skipStringLoop_eq_ok n hlen' h
      refine ⟨b :: body, ?_, rfl, ?_⟩
      · rw [isChars_raw hback, hraw, hbody]
        rfl
      · simp [Ne.symm hback]

theorem skipStringWithMeta_tok (tok : StrTok) :
    skipStringWithMeta (tok.text ++ rest) = .ok (rest, tok.body.contains BACKSLASH) := by
  have hinput : tok.text ++ rest = QUOTE :: (tok.body ++ QUOTE :: rest) := by simp [StrTok.text, quoted]
  rw [skipStringWithMeta, hinput, expectByte_cons, ok_bind, skipStringLoop_chars tok.ok (by grind)]
  rfl

theorem skipStringWithMeta_eq_ok {escaped : Bool} (h : skipStringWithMeta input = .ok (rest, escaped)) :
    ∃ tok : StrTok, input = tok.text ++ rest ∧ escaped = tok.body.contains BACKSLASH := by
  obtain ⟨tail, hquote, h⟩ := bind_eq_ok h
  obtain rfl := expectByte_eq_ok hquote
  obtain ⟨body, hbody, rfl, rfl⟩ := skipStringLoop_eq_ok _ le_rfl h
  exact ⟨⟨body, hbody⟩, by simp [StrTok.text, quoted], by simp⟩

theorem skipString_tok (tok : StrTok) (rest : Bytes) : skipString (tok.text ++ rest) = .ok rest := by
  rw [skipString, skipStringWithMeta_tok]
  rfl

theorem skipString_eq_ok (h : skipString input = .ok rest) : ∃ tok : StrTok, input = tok.text ++ rest := by
  obtain ⟨⟨left, escaped⟩, hmeta, h⟩ := bind_eq_ok h
  cases h
  obtain ⟨tok, htok, -⟩ := skipStringWithMeta_eq_ok hmeta
  exact ⟨tok, htok⟩

/-! ## Literals and numbers -/

theorem skipLiteral_append (lit rest : Bytes) : skipLiteral (lit ++ rest) lit = .ok rest := by
  simp [skipLiteral]

theorem skipLiteral_eq_ok {lit : Bytes} (h : skipLiteral input lit = .ok rest) : input = lit ++ rest := by
  rw [skipLiteral] at h
  split at h
  case isFalse => cases h
  case isTrue hprefix =>
    obtain ⟨tail, rfl⟩ := isPrefixOf_iff_prefix.1 hprefix
    simpa using ok.inj h

/-- The byte after a number does not go on with it. -/
def EndsNumber (rest : Bytes) : Prop := ∀ b ∈ rest.head?, isDigit b = false ∧ b ≠ DOT ∧ isExp b = false

variable {ds int : Bytes}

theorem skipDigits_append (hds : ∀ d ∈ ds, isDigit d = true) (hrest : ∀ b ∈ rest.head?, isDigit b = false) :
    skipDigits (ds ++ rest) = rest := by
  rw [skipDigits, dropWhile_append_of_pos hds]
  cases rest with
  | nil => rfl
  | cons b rest =>
    rw [dropWhile_cons, hrest b rfl]
    rfl

theorem skipDigits_spec (input : Bytes) : ∃ ds : Bytes, (∀ d ∈ ds, isDigit d = true) ∧ input = ds ++ skipDigits input :=
  ⟨input.takeWhile isDigit, fun _ hd => mem_takeWhile_imp hd, takeWhile_append_dropWhile.symm⟩

theorem skipDigits1_append (h : Digits ds) (hrest : ∀ b ∈ rest.head?, isDigit b = false) :
    skipDigits1 (ds ++ rest) = .ok rest := by
  obtain ⟨hne, hds⟩ := h
  cases ds with
  | nil => cases hne rfl
  | cons d ds =>
    rw [skipDigits1, if_pos (by simpa using hds d (.head _)), skipDigits_append hds hrest]

theorem skipDigits1_eq_ok (h : skipDigits1 input = .ok rest) : ∃ ds : Bytes, Digits ds ∧ input = ds ++ rest := by
  rw [skipDigits1] at h
  split at h
  case isFalse => cases h
  case isTrue hfirst =>
    cases h
    obtain ⟨ds, hds, hinput⟩ := skipDigits_spec input
    refine ⟨ds, ⟨?_, hds⟩, hinput⟩
    rintro rfl
    -- the first byte is a digit, so it would have been passed over
    cases input with
    | nil => cases hfirst
    | cons b tail =>
      have hb : isDigit b = true := by simpa using hfirst
      have hlen := congrArg length hinput
      rw [skipDigits, dropWhile_cons, hb] at hlen
      have hle := (dropWhile_suffix (l := tail) isDigit).length_le
      simp only [if_true, nil_append, length_cons] at hlen
      omega

theorem isDigit_of_isExp (he : isExp e = true) : isDigit e = false := by
  simp only [isExp, Bool.or_eq_true, beq_iff_eq] at he
  rcases he with rfl | rfl <;> rfl

theorem ne_dot_of_isExp (he : isExp e = true) : e ≠ DOT := by
  rintro rfl
  cases he

theorem skipFraction_append (h : FracPart frac) (hrest : ∀ b ∈ rest.head?, isDigit b = false ∧ b ≠ DOT) :
    skipFraction (frac ++ rest) = .ok rest := by
  cases h with
  | none =>
    have hdot : ¬ rest.head? = some DOT := fun h => (hrest DOT h).2 rfl
    rw [nil_append, skipFraction, if_neg hdot]
  | some h =>
    rw [skipFraction, cons_append, head?_cons, if_pos rfl, drop_one, tail_cons]
    exact skipDigits1_append h fun b hb => (hrest b hb).1

theorem skipFraction_eq_ok (h : skipFraction input = .ok rest) : ∃ frac : Bytes, FracPart frac ∧ input = frac ++ rest := by
  rw [skipFraction] at h
  split at h
  case isFalse => exact ⟨[], .none, ok.inj h⟩
  case isTrue hdot =>
    cases input with
    | nil => cases hdot
    | cons b tail =>
      obtain rfl : b = DOT := by simpa using hdot
      obtain ⟨ds, hds, htail⟩ := skipDigits1_eq_ok h
      exact ⟨DOT :: ds, .some hds, congrArg (DOT :: ·) htail⟩

theorem skipExponent_append (h : ExpPart exp) (hrest : ∀ b ∈ rest.head?, isDigit b = false ∧ isExp b = false) :
    skipExponent (exp ++ rest) = .ok rest := by
  have hdigit : ∀ b ∈ rest.head?, isDigit b = false := fun b hb => (hrest b hb).1
  cases h with
  | none =>
    have hexp : ¬ rest.head?.any isExp = true := by
      cases rest with
      | nil => simp
      | cons b rest => simpa using (hrest b rfl).2
    rw [nil_append, skipExponent, if_neg hexp]
  | @plain e ds he h =>
    rw [skipExponent, if_pos (by simpa using he)]
    obtain ⟨d, ds, rfl⟩ := exists_cons_of_ne_nil h.1
    have hsign : isSign d = false := by
      have hd := h.2 d (.head _)
      simp only [isDigit, Bool.and_eq_true, decide_eq_true_eq] at hd
      simp only [isSign, Bool.or_eq_false_iff, beq_eq_false_iff_ne, ne_eq]
      constructor
      · rintro rfl
        exact absurd hd.1 (by decide)
      · rintro rfl
        exact absurd hd.1 (by decide)
    simp only [cons_append, drop_succ_cons, drop_zero, head?_cons, Option.any_some, hsign,
      Bool.false_eq_true, if_false]
    exact skipDigits1_append h hdigit
  | signed he hs h =>
    rw [skipExponent, if_pos (by simpa using he)]
    simp only [cons_append, drop_succ_cons, drop_zero, head?_cons, Option.any_some, hs, if_true]
    exact skipDigits1_append h hdigit

theorem skipExponent_eq_ok (h : skipExponent input = .ok rest) : ∃ exp : Bytes, ExpPart exp ∧ input = exp ++ rest := by
  rw [skipExponent] at h
  split at h
  case isFalse => exact ⟨[], .none, ok.inj h⟩
  case isTrue hexp =>
    cases input with
    | nil => cases hexp
    | cons e tail =>
      have he : isExp e = true := by simpa using hexp
      obtain ⟨ds, hds, htail⟩ := skipDigits1_eq_ok h
      simp only [drop_succ_cons, drop_zero] at htail
      split at htail
      case isFalse => exact ⟨e :: ds, .plain he hds, congrArg (e :: ·) htail⟩
      case isTrue hsign =>
        cases tail with
        | nil => cases hsign
        | cons s tail =>
          have hs : isSign s = true := by simpa using hsign
          exact ⟨e :: s :: ds, .signed he hs hds, congrArg (fun t => e :: s :: t) htail⟩

/-- A fraction does not start with what would end the digits before it or an exponent. -/
theorem head_frac_exp (hf : FracPart frac) (he : ExpPart exp) (hrest : EndsNumber rest) :
    ∀ b ∈ (frac ++ (exp ++ rest)).head?, isDigit b = false := by
  intro b hb
  cases hf with
  | some _ =>
    cases hb
    rfl
  | none =>
    cases he with
    | none => exact (hrest b hb).1
    | plain he _ =>
      cases hb
      exact isDigit_of_isExp he
    | signed he _ _ =>
      cases hb
      exact isDigit_of_isExp he

theorem head_exp (he : ExpPart exp) (hrest : EndsNumber rest) : ∀ b ∈ (exp ++ rest).head?, isDigit b = false ∧ b ≠ DOT := by
  intro b hb
  cases he with
  | none => exact ⟨(hrest b hb).1, (hrest b hb).2.1⟩
  | plain he _ =>
    cases hb
    exact ⟨isDigit_of_isExp he, ne_dot_of_isExp he⟩
  | signed he _ _ =>
    cases hb
    exact ⟨isDigit_of_isExp he, ne_dot_of_isExp he⟩

theorem skipNumberFracExp_append (hf : FracPart frac) (he : ExpPart exp) (hrest : EndsNumber rest) :
    skipNumberFracExp (frac ++ (exp ++ rest)) = .ok rest := by
  rw [skipNumberFracExp, skipFraction_append hf (head_exp he hrest), ok_bind]
  exact skipExponent_append he fun b hb => ⟨(hrest b hb).1, (hrest b hb).2.2⟩

theorem skipNumberFracExp_eq_ok (h : skipNumberFracExp input = .ok rest) :
    ∃ frac exp : Bytes, FracPart frac ∧ ExpPart exp ∧ input = frac ++ (exp ++ rest) := by
  obtain ⟨left, hfrac, hexp⟩ := bind_eq_ok h
  obtain ⟨frac, hf, rfl⟩ := skipFraction_eq_ok hfrac
  obtain ⟨exp, he, rfl⟩ := skipExponent_eq_ok hexp
  exact ⟨frac, exp, hf, he, rfl⟩

/-- The integer part, as `skip_number` passes over it. -/
def skipInt (input : Bytes) : Except JsonError Bytes := do
  let first ← nextByte input
  if first = ZERO then .ok (input.drop 1)
  else if isDigit first then .ok (skipDigits input)
  else .error .invalidJson

theorem skipNumber_eq (start : Bytes) : skipNumber start = (do
    let b ← nextByte start
    let input ← skipInt (if b = MINUS then start.drop 1 else start)
    let input ← skipNumberFracExp input
    if input.length = start.length then .error .invalidJson else .ok input) := by
  simp only [skipNumber, skipInt, bind_assoc]
  refine bind_congr fun b => bind_congr fun first => ?_
  split
  · rfl
  · split <;> rfl

theorem skipInt_append (h : IntPart int) (hrest : ∀ b ∈ rest.head?, isDigit b = false) :
    skipInt (int ++ rest) = .ok rest := by
  cases h with
  | zero => simp [skipInt]
  | @nonzero d ds hd hne hds =>
    have hall : ∀ x ∈ d :: ds, isDigit x = true := by
      intro x hx
      rcases hx with _ | ⟨_, hx⟩
      · exact hd
      · exact hds x hx
    rw [skipInt, cons_append, nextByte_cons, ok_bind, if_neg hne, if_pos hd, ← cons_append,
      skipDigits_append hall hrest]

theorem skipInt_eq_ok (h : skipInt input = .ok rest) : ∃ int : Bytes, IntPart int ∧ input = int ++ rest := by
  obtain ⟨first, hfirst, h⟩ := bind_eq_ok h
  obtain ⟨tail, rfl⟩ := nextByte_eq_ok hfirst
  split at h
  case isTrue hzero =>
    cases h
    exact ⟨[ZERO], .zero, by rw [hzero]; rfl⟩
  case isFalse hzero =>
    split at h
    case isFalse => cases h
    case isTrue hdigit =>
      cases h
      obtain ⟨ds, hds, htail⟩ := skipDigits_spec tail
      refine ⟨first :: ds, .nonzero hdigit hzero hds, ?_⟩
      rw [cons_append, skipDigits, dropWhile_cons, hdigit]
      exact congrArg (first :: ·) htail

theorem intPart_cons (h : IntPart int) : ∃ d ds, int = d :: ds ∧ isDigit d = true := by
  cases h with
  | zero => exact ⟨ZERO, [], rfl, rfl⟩
  | nonzero hd _ _ => exact ⟨_, _, rfl, hd⟩

theorem skipNumber_append {tok : Bytes} (h : IsNumber tok) (hrest : EndsNumber rest) :
    skipNumber (tok ++ rest) = .ok rest := by
  obtain @⟨minus, int, frac, exp, hm, hi, hf, he⟩ := h
  have hstart : minus ++ int ++ frac ++ exp ++ rest = minus ++ (int ++ (frac ++ (exp ++ rest))) := by
    simp only [append_assoc]
  obtain ⟨d, ds, hint, hd⟩ := intPart_cons hi
  have hshort : ¬ rest.length = (minus ++ (int ++ (frac ++ (exp ++ rest)))).length := by
    rw [hint]
    simp only [length_append, length_cons]
    omega
  have hne : d ≠ MINUS := by
    rintro rfl
    cases hd
  rw [hstart, skipNumber_eq]
  have hsign : ∃ b, nextByte (minus ++ (int ++ (frac ++ (exp ++ rest)))) = .ok b ∧
      (if b = MINUS then (minus ++ (int ++ (frac ++ (exp ++ rest)))).drop 1
        else minus ++ (int ++ (frac ++ (exp ++ rest)))) = int ++ (frac ++ (exp ++ rest)) := by
    rcases hm with rfl | rfl
    · exact ⟨d, by rw [hint]; rfl, by rw [if_neg hne]; rfl⟩
    · exact ⟨MINUS, rfl, by rw [if_pos rfl]; rfl⟩
  obtain ⟨b, hb, hafter⟩ := hsign
  rw [hb, ok_bind, hafter, skipInt_append hi (head_frac_exp hf he hrest), ok_bind,
    skipNumberFracExp_append hf he hrest, ok_bind, if_neg hshort]

theorem skipNumber_eq_ok (h : skipNumber input = .ok rest) : ∃ n : Json.Num, input = n.tok ++ rest := by
  rw [skipNumber_eq] at h
  obtain ⟨b, hb, h⟩ := bind_eq_ok h
  obtain ⟨tail, rfl⟩ := nextByte_eq_ok hb
  obtain ⟨afterInt, hint, h⟩ := bind_eq_ok h
  obtain ⟨left, hfracExp, hshort⟩ := bind_eq_ok h
  obtain ⟨int, hi, hint⟩ := skipInt_eq_ok hint
  obtain ⟨frac, exp, hf, he, rfl⟩ := skipNumberFracExp_eq_ok hfracExp
  split at hshort
  case isTrue => cases hshort
  case isFalse =>
    cases hshort
    by_cases hminus : b = MINUS
    · rw [if_pos hminus, drop_one, tail_cons] at hint
      refine ⟨⟨_, .mk (.inr rfl) hi hf he⟩, ?_⟩
      rw [hint, hminus]
      simp only [append_assoc, cons_append, nil_append]
    · rw [if_neg hminus] at hint
      refine ⟨⟨_, .mk (.inl rfl) hi hf he⟩, ?_⟩
      rw [hint]
      simp only [append_assoc, nil_append]

end Praxis.JsonOps
