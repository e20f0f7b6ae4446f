/-
What holds between any two calls of a decoder: its buffers are within the limits and the record
under way is accounted for exactly. An error is final, and what was delivered before it is what a
decoder without limits delivers first.
-/
import Praxis.Sse.Chunking
import Praxis.Lib.Except
import Mathlib.Data.List.Infix

namespace Praxis.Sse

open Nat List Praxis.Lib

/-! ## Calls -/

inductive Call where
  | push (chunk : Bytes)
  | finish
deriving Repr, DecidableEq

def SseDecoder.call (d : SseDecoder) : Call → SseDecoder × SseBatch
  | .push chunk => d.push chunk
  | .finish => d.finish

/-- The decoder after a sequence of calls, and what each call returned. -/
def SseDecoder.calls : SseDecoder → List Call → SseDecoder × List SseBatch
  | d, [] => (d, [])
  | d, c :: cs => (((d.call c).1.calls cs).1, (d.call c).2 :: ((d.call c).1.calls cs).2)

/-- The records of a batch, complete or left at the end of the stream. -/
def SseBatch.delivered (batch : SseBatch) : List SseRecord := batch.records ++ batch.trailing.toList

def delivered (batches : List SseBatch) : List SseRecord := batches.flatMap SseBatch.delivered

def Call.bytes : Call → Bytes
  | .push chunk => chunk
  | .finish => []

/-- The bytes pushed by a sequence of calls. -/
def pushed (calls : List Call) : Bytes := calls.flatMap Call.bytes

/-! ## Buffers within the limits -/

/-- The buffers are within the limits, and the cost of the record under way is that of its fields. -/
structure SseDecoder.Bounded (d : SseDecoder) : Prop where
  line : d.lineBuf.length ≤ d.limits.maxLineBytes
  cost : d.recordBytes = recordCost d.fields
  record : d.recordBytes ≤ d.limits.maxRecordBytes
  fields : d.fields.length ≤ d.limits.maxFieldsPerRecord

/-- A step that keeps the limits and leaves the buffers within them. -/
structure SseDecoder.Keeps (d d' : SseDecoder) : Prop where
  limits : d'.limits = d.limits
  bounded : d'.Bounded

namespace SseDecoder

variable {d d' : SseDecoder}

theorem Bounded.empty (hline : d.lineBuf = []) (hfields : d.fields = []) (hcost : d.recordBytes = 0) : d.Bounded := by
  refine ⟨?_, ?_, ?_, ?_⟩
  · rw [hline]
    exact zero_le _
  · rw [hcost, hfields, recordCost_nil]
  · rw [hcost]
    exact zero_le _
  · rw [hfields]
    exact zero_le _

theorem Bounded.congr (h : d.Bounded) (hline : d'.lineBuf = d.lineBuf) (hfields : d'.fields = d.fields)
    (hcost : d'.recordBytes = d.recordBytes) (hlimits : d'.limits = d.limits) : d'.Bounded := by
  refine ⟨?_, ?_, ?_, ?_⟩
  · rw [hline, hlimits]
    exact h.line
  · rw [hcost, hfields]
    exact h.cost
  · rw [hcost, hlimits]
    exact h.record
  · rw [hfields, hlimits]
    exact h.fields

theorem Keeps.refl (h : d.Bounded) : d.Keeps d := ⟨rfl, h⟩

theorem Keeps.trans {d₁ d₂ d₃ : SseDecoder} (h₁ : d₁.Keeps d₂) (h₂ : d₂.Keeps d₃) : d₁.Keeps d₃ :=
  ⟨h₂.limits.trans h₁.limits, h₂.bounded⟩

theorem pushField_keeps (h : d.Bounded) {field : SseField} (hpush : d.pushField field = .ok d') : d.Keeps d' := by
  rw [pushField] at hpush
  split at hpush
  case isTrue => cases hpush
  case isFalse hfew =>
    dsimp only at hpush
    split at hpush
    case isTrue => cases hpush
    case isFalse hsmall =>
      cases hpush
      refine ⟨rfl, h.line, ?_, not_lt.1 hsmall, ?_⟩
      · rw [h.cost, recordCost_append]
        rfl
      · rw [length_append]
        exact not_le.1 hfew

theorem processLine_keeps (h : d.Bounded) {record : Option SseRecord} (hline : d.processLine = .ok (d', record)) :
    d.Keeps d' := by
  rw [processLine] at hline
  split at hline
  · split at hline
    · cases hline
      exact .refl h
    · cases hline
      exact ⟨rfl, h.line, rfl, zero_le _, zero_le _⟩
  · split at hline <;> cases hline
    exact pushField_keeps h (by assumption)

theorem clearLine_keeps (h : d.Bounded) : d.Keeps { d with lineBuf := [] } :=
  ⟨rfl, zero_le _, h.cost, h.record, h.fields⟩

variable {recs recs' : List SseRecord}

theorem endLine_keeps (h : d.Bounded) (hend : d.endLine recs = .ok (d', recs')) : d.Keeps d' := by
  rw [endLine] at hend
  split at hend <;> cases hend
  have hkeeps := processLine_keeps h (by assumption)
  exact hkeeps.trans (clearLine_keeps hkeeps.bounded)

theorem extendLine_keeps (h : d.Bounded) {run : Bytes} (hextend : d.extendLine run = .ok d') : d.Keeps d' := by
  rw [extendLine] at hextend
  split at hextend
  case isTrue => cases hextend
  case isFalse hshort =>
    cases hextend
    refine ⟨rfl, ?_, h.cost, h.record, h.fields⟩
    rw [length_append]
    exact not_lt.1 hshort

theorem handleCr_keeps (h : d.Bounded) {rest rest' : Bytes} (hcr : d.handleCr recs rest = .ok (d', recs', rest')) :
    d.Keeps d' := by
  rw [handleCr] at hcr
  split at hcr
  · cases hcr
  · have hkeeps := endLine_keeps h (by assumption)
    cases rest with
    | nil =>
      cases hcr
      exact ⟨hkeeps.limits, hkeeps.bounded.congr rfl rfl rfl rfl⟩
    | cons b rest =>
      dsimp only at hcr
      split at hcr <;> cases hcr <;> exact hkeeps

theorem feedLoop_keeps : ∀ (fuel : Nat) {d : SseDecoder} (recs : List SseRecord) (bytes : Bytes), d.Bounded →
    d.Keeps (feedLoop fuel d recs bytes).decoder
  | 0, d, recs, bytes, h => .refl h
  | fuel + 1, d, recs, [], h => .refl h
  | fuel + 1, d, recs, b :: rest, h => by
    rw [feedLoop]
    split
    · cases hend : d.endLine recs with
      | error e => exact .refl h
      | ok p =>
        have hkeeps := endLine_keeps h hend
        exact hkeeps.trans (feedLoop_keeps fuel _ _ hkeeps.bounded)
    · split
      · cases hcr : d.handleCr recs rest with
        | error e => exact .refl h
        | ok p =>
          have hkeeps := handleCr_keeps h hcr
          exact hkeeps.trans (feedLoop_keeps fuel _ _ hkeeps.bounded)
      · cases hextend : d.extendLine ((b :: rest).takeWhile fun c => !isTerminator c) with
        | error e => exact .refl h
        | ok d₁ =>
          have hkeeps := extendLine_keeps h hextend
          exact hkeeps.trans (feedLoop_keeps fuel _ _ hkeeps.bounded)

theorem feed_keeps (h : d.Bounded) (recs : List SseRecord) (bytes : Bytes) : d.Keeps (d.feed recs bytes).decoder := by
  rw [feed]
  split
  · exact .refl h
  · have hclear : d.Keeps { d with prevCr := false } := ⟨rfl, h.congr rfl rfl rfl rfl⟩
    exact hclear.trans (feedLoop_keeps _ _ _ hclear.bounded)

theorem resolveBom_keeps (h : d.Bounded) : d.Keeps { d with bomResolved := true, bomLen := 0 } :=
  ⟨rfl, h.congr rfl rfl rfl rfl⟩

theorem parse_keeps (h : d.Bounded) (chunk : Bytes) : d.Keeps (d.parse chunk).decoder := by
  have hresolved := resolveBom_keeps h
  rw [parse]
  split
  · exact feed_keeps h _ _
  · cases matchBom d.bomLen chunk with
    | more matched => exact ⟨rfl, h.congr rfl rfl rfl rfl⟩
    | complete rest => exact hresolved.trans (feed_keeps hresolved.bounded _ _)
    | mismatch =>
      have hheld := feed_keeps hresolved.bounded [] (BOM.take d.bomLen)
      dsimp only
      rcases hfed : feed { d with bomResolved := true, bomLen := 0 } [] (BOM.take d.bomLen) with ⟨d₁, recs, error⟩
      rw [hfed] at hheld
      cases error with
      | some e => exact hresolved.trans hheld
      | none => exact (hresolved.trans hheld).trans (feed_keeps hheld.bounded _ _)

theorem poison_keeps (d : SseDecoder) (err : SseDecodeError) : d.Keeps (d.poison err) :=
  ⟨rfl, Bounded.empty rfl rfl rfl⟩

theorem push_keeps (h : d.Bounded) (chunk : Bytes) : d.Keeps (d.push chunk).1 := by
  have hparse := parse_keeps h chunk
  rw [push]
  cases d.state with
  | finished | poisoned => exact .refl h
  | active =>
    dsimp only
    rcases hp : d.parse chunk with ⟨d₁, recs, error⟩
    rw [hp] at hparse
    cases error with
    | none => exact hparse
    | some err => exact hparse.trans (poison_keeps d₁ err)

theorem replayBom_keeps (h : d.Bounded) : d.Keeps d.replayBom.decoder := by
  have hresolved := resolveBom_keeps h
  rw [replayBom]
  split
  · exact hresolved.trans (feed_keeps hresolved.bounded _ _)
  · exact .refl h

theorem flushLine_keeps (h : d.Bounded) : d.Keeps d.flushLine.1 := by
  have hflush : ∀ {d₁ : SseDecoder}, d.Keeps d₁ → d.Keeps
      (if d₁.fields.isEmpty then (d₁, (.ok none : Except SseDecodeError (Option SseRecord)))
        else ({ d₁ with recordBytes := 0, fields := [] }, .ok (some ⟨d₁.fields⟩))).1 := by
    intro d₁ hkeeps
    split
    · exact hkeeps
    · exact hkeeps.trans ⟨rfl, hkeeps.bounded.line, rfl, zero_le _, zero_le _⟩
  rw [flushLine]
  by_cases hempty : d.lineBuf.isEmpty = true
  · rw [if_pos hempty]
    exact hflush (.refl h)
  · rw [if_neg hempty]
    cases hline : d.processLine with
    | error e => exact .refl h
    | ok p =>
      have hkeeps := processLine_keeps h hline
      exact hflush (hkeeps.trans (clearLine_keeps hkeeps.bounded))

theorem finish_keeps (h : d.Bounded) : d.Keeps d.finish.1 := by
  have hreplay := replayBom_keeps h
  rw [finish]
  cases d.state with
  | finished | poisoned => exact .refl h
  | active =>
    dsimp only
    rw [flush]
    rcases hr : d.replayBom with ⟨d₁, recs, error⟩
    rw [hr] at hreplay
    cases error with
    | some err => exact hreplay.trans (poison_keeps d₁ err)
    | none =>
      have hline := flushLine_keeps hreplay.bounded
      dsimp only
      rcases hf : d₁.flushLine with ⟨d₂, result⟩
      rw [hf] at hline
      cases result with
      | error err => exact (hreplay.trans hline).trans (poison_keeps d₂ err)
      | ok trailing =>
        exact (hreplay.trans hline).trans ⟨rfl, hline.bounded.congr rfl rfl rfl rfl⟩

theorem call_keeps (h : d.Bounded) (c : Call) : d.Keeps (d.call c).1 := by
  cases c with
  | push chunk => exact push_keeps h chunk
  | finish => exact finish_keeps h

theorem calls_keeps (h : d.Bounded) (cs : List Call) : d.Keeps (d.calls cs).1 := by
  induction cs generalizing d with
  | nil => exact .refl h
  | cons c cs ih =>
    have hcall := call_keeps h c
    exact hcall.trans (ih hcall.bounded)

/-! ## Errors are final -/

/-- A decoder that is poisoned or finished delivers nothing and stays so. -/
theorem call_of_closed (h : d.state ≠ .active) (c : Call) : (d.call c).1 = d ∧ (d.call c).2.delivered = [] := by
  cases hstate : d.state with
  | active => exact absurd hstate h
  | finished | poisoned => cases c <;> simp [call, push, finish, hstate, SseBatch.delivered]

/-- A call that returns an error leaves the decoder poisoned or finished. -/
theorem call_error {c : Call} (h : (d.call c).2.error ≠ none) : (d.call c).1.state ≠ .active := by
  by_cases hstate : d.state = .active
  · cases c with
    | push chunk =>
      simp only [call, push, hstate] at h ⊢
      rcases hp : d.parse chunk with ⟨d₁, recs, error⟩
      rw [hp] at h
      cases error with
      | none => cases h rfl
      | some err => rintro ⟨⟩
    | finish =>
      simp only [call, finish, hstate] at h ⊢
      rcases hf : d.flush with ⟨d₁, result⟩
      rw [hf] at h
      cases result with
      | ok | error => rintro ⟨⟩
  · rw [(call_of_closed hstate c).1]
    exact hstate

theorem calls_of_closed (h : d.state ≠ .active) (cs : List Call) :
    (d.calls cs).1 = d ∧ ∀ batch ∈ (d.calls cs).2, ∃ c, batch = (d.call c).2 := by
  induction cs with
  | nil => exact ⟨rfl, fun _ hbatch => absurd hbatch not_mem_nil⟩
  | cons c cs ih =>
    rw [calls, (call_of_closed h c).1]
    refine ⟨ih.1, fun batch hbatch => ?_⟩
    rcases hbatch with _ | ⟨_, hbatch⟩
    · exact ⟨c, rfl⟩
    · exact ih.2 batch hbatch

theorem delivered_of_closed (h : d.state ≠ .active) (cs : List Call) : ∀ batch ∈ (d.calls cs).2, batch.delivered = [] := by
  intro batch hbatch
  obtain ⟨c, rfl⟩ := (calls_of_closed h cs).2 batch hbatch
  exact (call_of_closed h c).2

/-- Once a call has returned an error, the decoder is poisoned or finished. -/
theorem calls_error {cs : List Call} (h : ∃ batch ∈ (d.calls cs).2, batch.error ≠ none) : (d.calls cs).1.state ≠ .active := by
  induction cs generalizing d with
  | nil =>
    obtain ⟨batch, hbatch, -⟩ := h
    cases hbatch
  | cons c cs ih =>
    by_cases hcall : (d.call c).2.error = none
    · obtain ⟨batch, hbatch, herror⟩ := h
      rcases hbatch with _ | ⟨_, hbatch⟩
      · exact absurd hcall herror
      · exact ih ⟨batch, hbatch, herror⟩
    · have hclosed := call_error hcall
      rw [calls, (calls_of_closed hclosed cs).1]
      exact hclosed

end SseDecoder

/-! ## Without limits -/

/-- Limits that a stream of `n` bytes cannot exceed. -/
structure SseLimits.Above (lim : SseLimits) (n : Nat) : Prop where
  line : n ≤ lim.maxLineBytes
  record : n ≤ lim.maxRecordBytes
  fields : n ≤ lim.maxFieldsPerRecord

variable {n : Nat} {s : Scan Assembly} {lim : SseLimits}

theorem SseLimits.Above.mono {m : Nat} (h : lim.Above n) (hmn : m ≤ n) : lim.Above m :=
  ⟨hmn.trans h.line, hmn.trans h.record, hmn.trans h.fields⟩

theorem length_stripSpace_le (val : Bytes) : (stripSpace val).length ≤ val.length := by
  cases val with
  | nil => exact le_rfl
  | cons b rest =>
    rw [stripSpace]
    split <;> simp

theorem fieldCost_classify_le (name val : Bytes) : fieldCost (classify name val) ≤ name.length + val.length := by
  rw [classify]
  repeat' split
  all_goals simp only [fieldCost, SseField.value]; omega

theorem fieldCost_fieldOf_le (line : Bytes) : fieldCost (fieldOf line) ≤ line.length := by
  rw [← classifyLine_eq, classifyLine]
  have hsplit := congrArg length (takeWhile_append_dropWhile (p := (· != COLON)) (l := line))
  rw [length_append] at hsplit
  cases hdrop : line.dropWhile (· != COLON) with
  | nil => simpa using fieldCost_classify_le line []
  | cons b rest =>
    rw [hdrop, length_cons] at hsplit
    have hcost := fieldCost_classify_le (line.takeWhile (· != COLON)) (stripSpace rest)
    have hspace := length_stripSpace_le rest
    dsimp only
    omega

/-- What a scanner holds is no more than it has read. -/
structure Small (n : Nat) (s : Scan Assembly) : Prop where
  cost : s.line.length + recordCost s.acc.2 ≤ n
  fields : s.line.length + s.acc.2.length ≤ n

/-- The line under way, once it is a field of the record. -/
theorem Small.commit (hs : Small n s) (hline : s.line ≠ []) (afterCr : Bool) :
    Small n ⟨[], afterCr, s.acc.1, s.acc.2 ++ [fieldOf s.line]⟩ := by
  have hpos : 0 < s.line.length := length_pos_iff.2 hline
  have hone : recordCost [fieldOf s.line] = fieldCost (fieldOf s.line) := by simp [recordCost]
  have hfield := fieldCost_fieldOf_le s.line
  have hcost := hs.cost
  have hfields := hs.fields
  constructor
  · rw [recordCost_append, hone, length_nil]
    omega
  · rw [length_append, length_singleton, length_nil]
    omega

theorem fits_of_small (hlimits : lim.Above n) (hs : Small n s) (hline : s.line ≠ []) :
    Fits lim (s.acc.2 ++ [fieldOf s.line]) := by
  obtain ⟨hcost, hfields⟩ := hs.commit hline false
  rw [length_nil, zero_add] at hcost hfields
  exact ⟨hfields.trans hlimits.fields, hcost.trans hlimits.record⟩

theorem onLine_above (hlimits : lim.Above n) (hs : Small n s) (afterCr : Bool) :
    ∃ acc, onLine lim s.acc s.line = .ok acc ∧ Small n ⟨[], afterCr, acc⟩ := by
  rw [onLine]
  by_cases hblank : s.line = []
  · rw [if_pos hblank]
    refine ⟨_, rfl, ?_⟩
    split <;> exact ⟨zero_le _, zero_le _⟩
  · rw [if_neg hblank, commitField_ok_iff.2 (fits_of_small hlimits hs hblank)]
    exact ⟨_, rfl, hs.commit hblank afterCr⟩

/-- What a byte does, whatever the limits: it is the second of a line end, it ends the line, or it belongs to it. -/
theorem scanByte_cases (s : Scan Assembly) (b : UInt8) :
    (∀ lim : SseLimits, scanByte lim.maxLineBytes lineExcess (onLine lim) s b = .ok { s with afterCr := false }) ∨
    (∃ afterCr, ∀ lim : SseLimits, scanByte lim.maxLineBytes lineExcess (onLine lim) s b =
      (onLine lim s.acc s.line).map fun acc => ⟨[], afterCr, acc⟩) ∨
    ∀ lim : SseLimits, scanByte lim.maxLineBytes lineExcess (onLine lim) s b =
      if lim.maxLineBytes < s.line.length + 1 then .error (lineExcess s.acc) else .ok ⟨s.line ++ [b], false, s.acc⟩ := by
  by_cases hlf : b = LF
  · by_cases hcr : s.afterCr = true
    · exact .inl fun _ => by rw [scanByte, if_pos hlf, if_pos hcr]
    · exact .inr (.inl ⟨false, fun _ => by rw [scanByte, if_pos hlf, if_neg hcr]⟩)
  · by_cases hcr : b = CR
    · exact .inr (.inl ⟨true, fun _ => by rw [scanByte, if_neg hlf, if_pos hcr]⟩)
    · exact .inr (.inr fun _ => by rw [scanByte, if_neg hlf, if_neg hcr])

/-- Under limits above the number of bytes a scanner does not fail. -/
theorem scanStream_above {lim : SseLimits} : ∀ (bytes : Bytes) {n : Nat} {s : Scan Assembly}, Small n s →
    lim.Above (n + bytes.length) → ∃ s', scanStream lim s bytes = .ok s' ∧ Small (n + bytes.length) s'
  | [], n, s, hs, _ => ⟨s, rfl, hs⟩
  | b :: rest, n, s, hs, hlimits => by
    have hnow : lim.Above n := hlimits.mono (by simp)
    have hlater : lim.Above (n + 1 + rest.length) := hlimits.mono (by rw [length_cons]; omega)
    -- every byte leaves a scanner that holds at most one byte more
    obtain ⟨s', hbyte, hs'⟩ : ∃ s', scanByte lim.maxLineBytes lineExcess (onLine lim) s b = .ok s' ∧ Small (n + 1) s' := by
      have hgrow : ∀ {s : Scan Assembly}, Small n s → Small (n + 1) s := fun h =>
        ⟨le_succ_of_le h.cost, le_succ_of_le h.fields⟩
      rcases scanByte_cases s b with hbyte | ⟨afterCr, hbyte⟩ | hbyte
      · exact ⟨_, hbyte lim, hgrow ⟨hs.cost, hs.fields⟩⟩
      · obtain ⟨acc, hline, hacc⟩ := onLine_above hnow hs afterCr
        rw [hbyte, hline]
        exact ⟨_, rfl, hgrow hacc⟩
      · have hcost := hs.cost
        have hfields := hs.fields
        have hroom := hlimits.line
        rw [length_cons] at hroom
        rw [hbyte, if_neg (by omega)]
        refine ⟨_, rfl, ?_, ?_⟩
        all_goals
          dsimp only
          rw [length_append, length_singleton]
          omega
    obtain ⟨s'', hrest, hs''⟩ := scanStream_above rest hs' hlater
    have hcount : n + (b :: rest).length = n + 1 + rest.length := by
      rw [length_cons]
      omega
    refine ⟨s'', ?_, hcount ▸ hs''⟩
    rw [scanStream, scan, hbyte]
    exact hrest

theorem onLine_records {a a' : Assembly} {line : Bytes} (h : onLine lim a line = .ok a') : a.1 <+: a'.1 := by
  rw [onLine] at h
  split at h
  · cases h
    split
    · exact prefix_refl _
    · exact prefix_append _ _
  · split at h
    · cases h
    · cases h
      exact prefix_refl _

theorem scanByte_records {s' : Scan Assembly} {b : UInt8} (h : scanByte lim.maxLineBytes lineExcess (onLine lim) s b = .ok s') :
    s.acc.1 <+: s'.acc.1 := by
  rcases scanByte_cases s b with hbyte | ⟨afterCr, hbyte⟩ | hbyte <;> rw [hbyte] at h
  · cases h
    exact prefix_refl _
  · obtain ⟨acc, hline, rfl⟩ := map_eq_ok h
    exact onLine_records hline
  · split at h <;> cases h
    exact prefix_refl _

theorem scanStream_records {lim : SseLimits} : ∀ (bytes : Bytes) {s s' : Scan Assembly},
    scanStream lim s bytes = .ok s' → s.acc.1 <+: s'.acc.1
  | [], s, s', h => by
    cases h
    exact prefix_refl _
  | b :: rest, s, s', h => by
    obtain ⟨s₁, hbyte, hrest⟩ := bind_eq_ok h
    exact (scanByte_records hbyte).trans (scanStream_records rest hrest)

section

variable (lim : SseLimits) {unlimited : SseLimits}

theorem onLine_compare {a a' : Assembly} {line : Bytes} (h : onLine unlimited a line = .ok a') :
    onLine lim a line = .ok a' ∨ ∃ kind, onLine lim a line = .error (a.1, kind) := by
  rw [onLine] at h ⊢
  by_cases hblank : line = []
  · rw [if_pos hblank] at h ⊢
    exact .inl h
  · rw [if_neg hblank] at h ⊢
    cases hunlimited : commitField unlimited a.2 (fieldOf line) with
    | error kind =>
      rw [hunlimited] at h
      cases h
    | ok fields =>
      rw [hunlimited] at h
      cases hlimited : commitField lim a.2 (fieldOf line) with
      | error kind => exact .inr ⟨kind, rfl⟩
      | ok fields' =>
        rw [commitField_eq_ok hlimited, ← commitField_eq_ok hunlimited]
        exact .inl h

/-- With limits, a byte is taken as without, or the scanner fails with the records it has. -/
theorem scanByte_compare {s' : Scan Assembly} {b : UInt8}
    (h : scanByte unlimited.maxLineBytes lineExcess (onLine unlimited) s b = .ok s') :
    scanByte lim.maxLineBytes lineExcess (onLine lim) s b = .ok s' ∨
      ∃ kind, scanByte lim.maxLineBytes lineExcess (onLine lim) s b = .error (s.acc.1, kind) := by
  rcases scanByte_cases s b with hbyte | ⟨afterCr, hbyte⟩ | hbyte <;> rw [hbyte] at h ⊢
  · exact .inl h
  · obtain ⟨acc, hline, rfl⟩ := map_eq_ok h
    rcases onLine_compare lim hline with hok | ⟨kind, herror⟩
    · exact .inl (by rw [hok]; rfl)
    · exact .inr ⟨kind, by rw [herror]; rfl⟩
  · split at h
    · cases h
    · split
      · exact .inr ⟨_, rfl⟩
      · exact .inl h

/-- Up to its failure a scanner with limits does what one without does. -/
theorem scanStream_compare : ∀ (bytes : Bytes) {s s' : Scan Assembly}, scanStream unlimited s bytes = .ok s' →
    scanStream lim s bytes = .ok s' ∨ ∃ excess, scanStream lim s bytes = .error excess ∧ excess.1 <+: s'.acc.1
  | [], s, s', h => .inl h
  | b :: rest, s, s', h => by
    have hgrows := scanStream_records (b :: rest) h
    obtain ⟨s₁, hbyte, hrest⟩ := bind_eq_ok h
    rw [scanStream, scan]
    rcases scanByte_compare lim hbyte with hok | ⟨kind, herror⟩
    · rw [hok]
      exact scanStream_compare rest hrest
    · rw [herror]
      exact .inr ⟨_, rfl, hgrows⟩

end

/-! ## Two decoders side by side -/

theorem length_stripBom_le (bytes : Bytes) : (stripBom bytes).length ≤ bytes.length := by
  rw [stripBom]
  split <;> simp

section

variable {lim unlimited : SseLimits} {d : SseDecoder} {read : Bytes} {out : List SseRecord}

/-- Under limits above the number of bytes read a decoder has not failed. -/
theorem active_of_above {recs : List SseRecord} (h : Tracks unlimited (d, recs) read)
    (habove : unlimited.Above read.length) : d.state = .active := by
  cases h with
  | waiting hn => rfl
  | reading hread hscan hm hcr => exact hm.active
  | failed hread hscan hd =>
    have hstart : Small 0 startScan := ⟨le_rfl, le_rfl⟩
    obtain ⟨s, hok, -⟩ := scanStream_above (stripBom read) hstart
      (habove.mono (by rw [zero_add]; exact length_stripBom_le read))
    rw [hok] at hscan
    cases hscan

theorem error_of_above (habove : unlimited.Above read.length) : (limitedReference unlimited read).error = none := by
  have hstart : Small 0 startScan := ⟨le_rfl, le_rfl⟩
  have habove' : unlimited.Above (0 + (stripBom read).length) :=
    habove.mono (by rw [zero_add]; exact length_stripBom_le read)
  obtain ⟨s, hok, hs⟩ := scanStream_above (stripBom read) hstart habove'
  rw [limitedReference_eq, hok]
  show (closeStream unlimited (.ok (s.line, s.acc))).error = none
  rw [closeStream]
  by_cases hline : s.line = []
  · rw [if_pos hline]
  · rw [if_neg hline, commitField_ok_iff.2 (fits_of_small habove' hs hline)]

theorem Tracks.nil_of_undecided (h : Tracks lim (d, out) read) (hread : ¬ BomDecided read) : out = [] := by
  cases h with
  | waiting hn => rfl
  | reading hdecided | failed hdecided => exact absurd hdecided hread

variable {d' : SseDecoder} {out' : List SseRecord}

/-- As long as both have read the same bytes, the decoder with limits has delivered the same
records as the other one, or has failed after the first of them. -/
theorem Tracks.compare (h : Tracks lim (d, out) read) (h' : Tracks unlimited (d', out') read)
    (hactive : d'.state = .active) : out <+: out' := by
  cases h' with
  | @waiting n' hn' =>
    rw [h.nil_of_undecided fun hread => hread n' hn' rfl]
  | @reading _ _ _ s' hread' hscan' hm' hcr' =>
    have hout' : out' = s'.acc.1 := by simpa using hm'.records.symm
    rw [hout']
    have hcompare := scanStream_compare lim (stripBom read) hscan'
    cases h with
    | waiting hn => exact nil_prefix
    | @reading _ _ _ s hread hscan hm hcr =>
      rw [hscan] at hcompare
      rcases hcompare with hsame | ⟨excess, herror, -⟩
      · have hout : out = s.acc.1 := by simpa using hm.records.symm
        rw [hout, Except.ok.inj hsame]
      · cases herror
    | failed hread hscan hd =>
      rw [hscan] at hcompare
      rcases hcompare with hsame | ⟨excess, herror, hrecords⟩
      · cases hsame
      · obtain rfl := Except.error.inj herror
        exact hrecords
  | failed hread hscan hd =>
    rw [hd] at hactive
    cases hactive

theorem push_delivered {chunk : Bytes} : (d.push chunk).2.delivered = (d.push chunk).2.records := by
  have hnone : (d.push chunk).2.trailing = none := by
    rw [SseDecoder.push]
    cases d.state with
    | finished | poisoned => rfl
    | active =>
      dsimp only
      rcases d.parse chunk with ⟨d₁, recs, error⟩
      cases error <;> rfl
  rw [SseBatch.delivered, hnone, Option.toList_none, append_nil]

theorem finish_records (d : SseDecoder) : d.finish.2.records = [] ∧ (d.finish.2.error ≠ none → d.finish.2.trailing = none) := by
  rw [SseDecoder.finish]
  cases d.state with
  | finished | poisoned => exact ⟨rfl, fun _ => rfl⟩
  | active =>
    dsimp only
    rcases d.flush with ⟨d₁, result⟩
    cases result with
    | ok trailing => exact ⟨rfl, fun h => absurd rfl h⟩
    | error err => exact ⟨rfl, fun _ => rfl⟩

theorem finish_closed (d : SseDecoder) : d.finish.1.state ≠ .active := by
  by_cases hstate : d.state = .active
  · rw [SseDecoder.finish, hstate]
    dsimp only
    rcases d.flush with ⟨d₁, result⟩
    cases result <;> rintro ⟨⟩
  · rw [show d.finish.1 = d from (d.call_of_closed hstate .finish).1]
    exact hstate

/-- What `finish` delivers after the bytes read: the reference parser's records, unless a limit
is exceeded. -/
theorem finish_reference (h : Tracks lim (d, out) read) (hok : d.finish.2.error = none) :
    out ++ d.finish.2.delivered = (reference read).1 ++ (reference read).2.toList := by
  have houtcome := finish_tracks h
  have herror := congrArg Outcome.error houtcome
  rw [SseBatch.outcome, hok] at herror
  rw [limitedReference_within (limitedReference_excess herror.symm), SseBatch.outcome, Outcome.mk.injEq,
    (finish_records d).1, append_nil] at houtcome
  dsimp only at houtcome
  rw [SseBatch.delivered, (finish_records d).1, nil_append, houtcome.1, houtcome.2.1]

theorem finish_error_of_above (h : Tracks unlimited (d, out) read) (habove : unlimited.Above read.length) :
    d.finish.2.error = none := by
  have herror := congrArg Outcome.error (finish_tracks h)
  rw [error_of_above habove] at herror
  exact Option.map_eq_none_iff.1 herror

theorem finish_compare (h : Tracks lim (d, out) read) (h' : Tracks unlimited (d', out') read)
    (habove : unlimited.Above read.length) : out ++ d.finish.2.delivered <+: out' ++ d'.finish.2.delivered := by
  by_cases hok : d.finish.2.error = none
  · rw [finish_reference h hok, finish_reference h' (finish_error_of_above h' habove)]
  · have hnone : d.finish.2.delivered = [] := by
      rw [SseBatch.delivered, (finish_records d).1, (finish_records d).2 hok]
      rfl
    rw [hnone, append_nil]
    exact (h.compare h' (active_of_above h' habove)).trans (prefix_append _ _)

theorem delivered_cons (batch : SseBatch) (batches : List SseBatch) :
    delivered (batch :: batches) = batch.delivered ++ delivered batches := rfl

theorem delivered_calls_of_closed (h : d.state ≠ .active) {cs : List Call} : delivered (d.calls cs).2 = [] := by
  rw [delivered, flatMap_eq_nil_iff]
  exact SseDecoder.delivered_of_closed h cs

/-- Whatever is called, the decoder with limits delivers the first of the records that the one
without delivers. -/
theorem calls_compare : ∀ (cs : List Call) {d d' : SseDecoder} {out out' : List SseRecord} {read : Bytes},
    Tracks lim (d, out) read → Tracks unlimited (d', out') read → unlimited.Above (read ++ pushed cs).length →
    out ++ delivered (d.calls cs).2 <+: out' ++ delivered (d'.calls cs).2
  | [], d, d', out, out', read, h, h', habove => by
    have hactive := active_of_above h' (habove.mono (by simp))
    simpa [SseDecoder.calls, delivered] using h.compare h' hactive
  | .push chunk :: cs, d, d', out, out', read, h, h', habove => by
    have hnext : unlimited.Above ((read ++ chunk) ++ pushed cs).length := by
      rw [append_assoc]
      exact habove
    have ih := calls_compare cs (push_tracks h chunk) (push_tracks h' chunk) hnext
    rw [SseDecoder.calls, SseDecoder.calls, delivered_cons, delivered_cons]
    simpa only [SseDecoder.call, push_delivered, append_assoc] using ih
  | .finish :: cs, d, d', out, out', read, h, h', habove => by
    have hread : unlimited.Above read.length := habove.mono (by simp)
    rw [SseDecoder.calls, SseDecoder.calls, delivered_cons, delivered_cons, SseDecoder.call, SseDecoder.call,
      delivered_calls_of_closed (finish_closed d), delivered_calls_of_closed (finish_closed d'), append_nil, append_nil]
    exact finish_compare h h' hread

theorem errors_of_finished (h : d.state = .finished) (cs : List Call) :
    ∀ batch ∈ (d.calls cs).2, batch.error = none ∨ batch.error = some .finished := by
  intro batch hbatch
  obtain ⟨c, rfl⟩ := (SseDecoder.calls_of_closed (by rw [h]; rintro ⟨⟩) cs).2 batch hbatch
  cases c <;> simp [SseDecoder.call, SseDecoder.push, SseDecoder.finish, h]

theorem finish_state (hactive : d.state = .active) (h : d.finish.2.error = none) : d.finish.1.state = .finished := by
  rw [SseDecoder.finish, hactive] at h ⊢
  dsimp only at h ⊢
  rcases hf : d.flush with ⟨d₁, result⟩
  rw [hf] at h
  cases result with
  | ok trailing => rfl
  | error err => cases h

/-- A decoder whose limits are above the number of bytes never exceeds one. -/
theorem errors_of_above : ∀ (cs : List Call) {d : SseDecoder} {out : List SseRecord} {read : Bytes},
    Tracks unlimited (d, out) read → unlimited.Above (read ++ pushed cs).length →
    ∀ batch ∈ (d.calls cs).2, batch.error = none ∨ batch.error = some .finished
  | [], d, out, read, _, _ => nofun
  | .push chunk :: cs, d, out, read, h, habove => by
    have hnext : unlimited.Above ((read ++ chunk) ++ pushed cs).length := by
      rw [append_assoc]
      exact habove
    have htracks := push_tracks h chunk
    have hactive := active_of_above htracks (hnext.mono (by simp))
    intro batch hbatch
    rcases hbatch with _ | ⟨_, hbatch⟩
    · refine .inl (Classical.not_not.1 fun herror => ?_)
      exact SseDecoder.call_error (c := .push chunk) herror hactive
    · exact errors_of_above cs htracks hnext batch hbatch
  | .finish :: cs, d, out, read, h, habove => by
    have hread : unlimited.Above read.length := habove.mono (by simp)
    have herror := finish_error_of_above h hread
    have hfinished := finish_state (active_of_above h hread) herror
    intro batch hbatch
    rcases hbatch with _ | ⟨_, hbatch⟩
    · exact .inl herror
    · exact errors_of_finished hfinished cs batch hbatch

end

/-- Between any two calls the buffers are within the limits and the record under way is accounted
for exactly; after an error no call delivers a record; and a decoder whose limits are above the
number of bytes pushed exceeds none and delivers, on the same calls, the same records and perhaps
more. -/
theorem calls_within_limits (lim : SseLimits) (cs : List Call) :
    ((SseDecoder.withLimits lim).calls cs).1.Bounded ∧ ((SseDecoder.withLimits lim).calls cs).1.limits = lim ∧
    ((∃ batch ∈ ((SseDecoder.withLimits lim).calls cs).2, batch.error ≠ none) → ∀ later : List Call,
      ∀ batch ∈ (((SseDecoder.withLimits lim).calls cs).1.calls later).2, batch.records = [] ∧ batch.trailing = none) ∧
    ∀ unlimited : SseLimits, unlimited.Above (pushed cs).length →
      (∀ batch ∈ ((SseDecoder.withLimits unlimited).calls cs).2, batch.error = none ∨ batch.error = some .finished) ∧
      delivered ((SseDecoder.withLimits lim).calls cs).2 <+: delivered ((SseDecoder.withLimits unlimited).calls cs).2 := by
  have hempty : (SseDecoder.withLimits lim).Bounded := .empty rfl rfl rfl
  have hkeeps := SseDecoder.calls_keeps hempty cs
  have hstart : ∀ lim, Tracks lim (SseDecoder.withLimits lim, []) [] := fun _ => .waiting (n := 0) (by decide)
  refine ⟨hkeeps.bounded, hkeeps.limits, fun herror later batch hbatch => ?_, fun unlimited habove => ⟨?_, ?_⟩⟩
  · have hnone := SseDecoder.delivered_of_closed (SseDecoder.calls_error herror) later batch hbatch
    rw [SseBatch.delivered, append_eq_nil_iff, Option.toList_eq_nil_iff] at hnone
    exact hnone
  · exact errors_of_above cs (hstart unlimited) habove
  · exact calls_compare cs (hstart lim) (hstart unlimited) habove

/-- A complete record, then one with a field too many. -/
def exceedingCalls : List Call := [.push (ascii "id:1\n\nid:2\nid:3\n"), .push (ascii "\n")]

theorem exceedingCalls_delivered :
    (∃ batch ∈ ((SseDecoder.withLimits ⟨8, 8, 1⟩).calls exceedingCalls).2, batch.error ≠ none) ∧
    (∀ batch ∈ (((SseDecoder.withLimits ⟨8, 8, 1⟩).calls exceedingCalls).1.calls [.push (ascii "\n"), .finish]).2,
      batch.records = [] ∧ batch.trailing = none) ∧
    delivered ((SseDecoder.withLimits ⟨8, 8, 1⟩).calls exceedingCalls).2 <+:
      delivered ((SseDecoder.withLimits .default).calls exceedingCalls).2 := by
  have herror : ∃ batch ∈ ((SseDecoder.withLimits ⟨8, 8, 1⟩).calls exceedingCalls).2, batch.error ≠ none := by decide +kernel
  have hwithin := calls_within_limits ⟨8, 8, 1⟩ exceedingCalls
  refine ⟨herror, hwithin.2.2.1 herror _, (hwithin.2.2.2 .default ?_).2⟩
  exact ⟨by decide +kernel, by decide +kernel, by decide +kernel⟩

end Praxis.Sse
