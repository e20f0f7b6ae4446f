/-
A reference parser for whole event streams, and when a stream stays within the limits. The
parser removes a leading byte order mark, splits the rest into lines, reads each line as a field
and lets blank lines end records. A second version takes the lines one by one and stops at the
first limit that is exceeded; it is the reference parser where none is.
-/
import Praxis.Sse.Decoder
import Mathlib.Algebra.BigOperators.Group.List.Basic
import Mathlib.Algebra.Ring.Nat

namespace Praxis.Sse

open List Praxis.Lib

/-! ## Without limits -/

def stripBom (bytes : Bytes) : Bytes := if BOM.isPrefixOf bytes then bytes.drop BOM.length else bytes

/-- A line as a field: the name is what comes before the first colon, the value what comes after
it, less one leading space. -/
def fieldOf (line : Bytes) : SseField :=
  let name := line.takeWhile (· != COLON)
  let val := line.drop (name.length + 1)
  classify name (if val.head? = some SPACE then val.tail else val)

/-- Lines grouped into records by the blank ones; `fields` are those of the record under way. -/
def assemble (fields : List SseField) : List Bytes → List SseRecord × List SseField
  | [] => ([], fields)
  | line :: lines =>
    if line = [] then
      if fields = [] then assemble [] lines
      else (⟨fields⟩ :: (assemble [] lines).1, (assemble [] lines).2)
    else assemble (fields ++ [fieldOf line]) lines

/-- The fields of the record under way once the bytes after the last line end are a line too. -/
def closeLine (fields : List SseField) (tail : Bytes) : List SseField :=
  if tail = [] then fields else fields ++ [fieldOf tail]

def trailingRecord (fields : List SseField) : Option SseRecord := if fields = [] then none else some ⟨fields⟩

/-- The records of a stream, and the record it leaves without its blank line. -/
def reference (bytes : Bytes) : List SseRecord × Option SseRecord :=
  let (lines, tail) := splitLines (stripBom bytes)
  let (recs, fields) := assemble [] lines
  (recs, trailingRecord (closeLine fields tail))

theorem reference_eq {bytes : Bytes} : reference bytes =
    ((assemble [] (splitLines (stripBom bytes)).1).1,
      trailingRecord (closeLine (assemble [] (splitLines (stripBom bytes)).1).2 (splitLines (stripBom bytes)).2)) := rfl

theorem stripSpace_eq (val : Bytes) : stripSpace val = if val.head? = some SPACE then val.tail else val := by
  cases val with
  | nil => rfl
  | cons b rest => by_cases hb : b = SPACE <;> simp [stripSpace, hb]

theorem classifyLine_eq (line : Bytes) : classifyLine line = fieldOf line := by
  have hsplit := takeWhile_append_dropWhile (p := (· != COLON)) (l := line)
  have hdrop : line.drop ((line.takeWhile (· != COLON)).length + 1) = (line.dropWhile (· != COLON)).tail := by
    have happend : ∀ name rest : Bytes, (name ++ rest).drop (name.length + 1) = rest.tail := by
      intro name rest
      simp [drop_append]
    have h := happend (line.takeWhile (· != COLON)) (line.dropWhile (· != COLON))
    rwa [hsplit] at h
  rw [classifyLine, fieldOf, hdrop, ← stripSpace_eq]
  cases h : line.dropWhile (· != COLON) with
  | nil =>
    rw [h, append_nil] at hsplit
    rw [hsplit]
    rfl
  | cons c rest => rfl

/-! ## The limits -/

def recordCost (fields : List SseField) : Nat := (fields.map fieldCost).sum

/-- A record of these fields is within the limits. -/
def Fits (lim : SseLimits) (fields : List SseField) : Prop :=
  fields.length ≤ lim.maxFieldsPerRecord ∧ recordCost fields ≤ lim.maxRecordBytes

instance (lim : SseLimits) (fields : List SseField) : Decidable (Fits lim fields) :=
  inferInstanceAs (Decidable (_ ∧ _))

/-- No line of the stream and no record exceeds its limit. -/
def WithinLimits (lim : SseLimits) (bytes : Bytes) : Prop :=
  (∀ line ∈ (splitLines (stripBom bytes)).1 ++ [(splitLines (stripBom bytes)).2], line.length ≤ lim.maxLineBytes) ∧
  ∀ record ∈ (reference bytes).1 ++ (reference bytes).2.toList, Fits lim record.fields

instance (lim : SseLimits) (bytes : Bytes) : Decidable (WithinLimits lim bytes) :=
  inferInstanceAs (Decidable (_ ∧ _))

@[simp] theorem recordCost_nil : recordCost [] = 0 := rfl

@[simp] theorem recordCost_append (xs ys : List SseField) : recordCost (xs ++ ys) = recordCost xs + recordCost ys := by
  simp [recordCost]

theorem fits_nil (lim : SseLimits) : Fits lim [] := ⟨Nat.zero_le _, Nat.zero_le _⟩

variable {lim : SseLimits} {fields : List SseField} {bytes : Bytes}

theorem Fits.left {xs ys : List SseField} (h : Fits lim (xs ++ ys)) : Fits lim xs := by
  obtain ⟨hlen, hcost⟩ := h
  rw [length_append] at hlen
  rw [recordCost_append] at hcost
  exact ⟨by omega, by omega⟩

theorem fits_of_assemble {lim : SseLimits} : ∀ {lines : List Bytes} {fields : List SseField},
    (∀ record ∈ (assemble fields lines).1, Fits lim record.fields) → Fits lim (assemble fields lines).2 →
    Fits lim fields
  | [], fields, _, hrest => hrest
  | line :: lines, fields, hrecords, hrest => by
    rw [assemble] at hrecords hrest
    by_cases hline : line = []
    · by_cases hfields : fields = []
      · rw [hfields]
        exact fits_nil lim
      · rw [if_pos hline, if_neg hfields] at hrecords
        exact hrecords ⟨fields⟩ (.head _)
    · rw [if_neg hline] at hrecords hrest
      exact (fits_of_assemble hrecords hrest).left

/-! ## Line by line, up to the first excess -/

inductive ErrorKind where
  | lineTooLong
  | recordTooLarge
  | tooManyFields
  | finished
deriving Repr, DecidableEq

def SseDecodeError.kind : SseDecodeError → ErrorKind
  | .lineTooLong _ _ => .lineTooLong
  | .recordTooLarge _ _ => .recordTooLarge
  | .tooManyFields _ _ => .tooManyFields
  | .finished => .finished

/-- One more field for the record under way. -/
def commitField (lim : SseLimits) (fields : List SseField) (field : SseField) : Except ErrorKind (List SseField) :=
  if lim.maxFieldsPerRecord ≤ fields.length then .error .tooManyFields
  else if lim.maxRecordBytes < recordCost fields + fieldCost field then .error .recordTooLarge
  else .ok (fields ++ [field])

/-- The records completed so far and the fields of the one under way. -/
abbrev Assembly := List SseRecord × List SseField

/-- The records completed before an excess, and its kind. -/
abbrev Excess := List SseRecord × ErrorKind

/-- One more line. -/
def onLine (lim : SseLimits) (a : Assembly) (line : Bytes) : Except Excess Assembly :=
  if line = [] then .ok (if a.2 = [] then (a.1, []) else (a.1 ++ [⟨a.2⟩], []))
  else
    match commitField lim a.2 (fieldOf line) with
    | .error kind => .error (a.1, kind)
    | .ok fields => .ok (a.1, fields)

def lineExcess (a : Assembly) : Excess := (a.1, .lineTooLong)

theorem commitField_ok_iff {field : SseField} :
    commitField lim fields field = .ok (fields ++ [field]) ↔ Fits lim (fields ++ [field]) := by
  have hcost : recordCost (fields ++ [field]) = recordCost fields + fieldCost field := by simp [recordCost]
  rw [commitField, Fits, hcost, length_append, length_singleton]
  by_cases hmany : lim.maxFieldsPerRecord ≤ fields.length
  · rw [if_pos hmany]
    exact ⟨nofun, fun h => absurd h.1 (by omega)⟩
  · by_cases hlarge : lim.maxRecordBytes < recordCost fields + fieldCost field
    · rw [if_neg hmany, if_pos hlarge]
      exact ⟨nofun, fun h => absurd h.2 (by omega)⟩
    · rw [if_neg hmany, if_neg hlarge]
      exact ⟨fun _ => ⟨by omega, by omega⟩, fun _ => rfl⟩

theorem commitField_eq_ok {fields' : List SseField} {field : SseField} (h : commitField lim fields field = .ok fields') :
    fields' = fields ++ [field] := by
  rw [commitField] at h
  split at h
  · cases h
  · split at h
    · cases h
    · exact (Except.ok.inj h).symm

theorem onLines_assemble {lim : SseLimits} : ∀ {lines : List Bytes} {recs : List SseRecord} {fields : List SseField},
    (∀ line ∈ lines, line.length ≤ lim.maxLineBytes) →
    (∀ record ∈ (assemble fields lines).1, Fits lim record.fields) → Fits lim (assemble fields lines).2 →
    onLines lim.maxLineBytes lineExcess (onLine lim) (recs, fields) lines =
      .ok (recs ++ (assemble fields lines).1, (assemble fields lines).2)
  | [], recs, fields, _, _, _ => by
    rw [onLines, assemble, append_nil]
  | line :: lines, recs, fields, hlines, hrecords, hrest => by
    have hshort : ∀ l ∈ lines, l.length ≤ lim.maxLineBytes := fun l hl => hlines l (.tail line hl)
    have hline := hlines line (.head _)
    rw [onLines, if_neg (by omega), onLine]
    rw [assemble] at hrecords hrest ⊢
    by_cases hblank : line = []
    · rw [if_pos hblank] at hrecords hrest ⊢
      rw [if_pos hblank]
      by_cases hfields : fields = []
      · rw [if_pos hfields] at hrecords hrest ⊢
        rw [if_pos hfields]
        exact onLines_assemble hshort hrecords hrest
      · rw [if_neg hfields] at hrecords hrest ⊢
        have hlater : ∀ r ∈ (assemble [] lines).1, Fits lim r.fields :=
          fun r hr => hrecords r (.tail _ hr)
        have ih : onLines lim.maxLineBytes lineExcess (onLine lim) (recs ++ [⟨fields⟩], []) lines = _ :=
          onLines_assemble hshort hlater hrest
        rw [append_assoc] at ih
        rw [if_neg hfields]
        exact ih
    · rw [if_neg hblank] at hrecords hrest ⊢
      rw [commitField_ok_iff.2 (fits_of_assemble hrecords hrest), if_neg hblank]
      exact onLines_assemble hshort hrecords hrest

theorem onLines_fits {lim : SseLimits} : ∀ {lines : List Bytes} {recs : List SseRecord} {fields : List SseField}
    {a : Assembly}, Fits lim fields →
    onLines lim.maxLineBytes lineExcess (onLine lim) (recs, fields) lines = .ok a →
    (∀ line ∈ lines, line.length ≤ lim.maxLineBytes) ∧
    (∀ record ∈ (assemble fields lines).1, Fits lim record.fields) ∧ Fits lim (assemble fields lines).2
  | [], recs, fields, a, hfits, _ => ⟨nofun, nofun, hfits⟩
  | line :: lines, recs, fields, a, hfits, h => by
    rw [onLines] at h
    split at h
    case isTrue => cases h
    case isFalse hline =>
      have hshort : (∀ l ∈ lines, l.length ≤ lim.maxLineBytes) → ∀ l ∈ line :: lines, l.length ≤ lim.maxLineBytes := by
        intro hl l hmem
        rcases hmem with _ | ⟨_, hmem⟩
        · exact Nat.not_lt.1 hline
        · exact hl l hmem
      rw [onLine] at h
      rw [assemble]
      by_cases hblank : line = []
      · rw [if_pos hblank] at h ⊢
        by_cases hfields : fields = []
        · rw [if_pos hfields] at h ⊢
          obtain ⟨hl, hr, hrest⟩ := onLines_fits (fits_nil lim) h
          exact ⟨hshort hl, hr, hrest⟩
        · rw [if_neg hfields] at h ⊢
          obtain ⟨hl, hr, hrest⟩ := onLines_fits (fits_nil lim) h
          refine ⟨hshort hl, fun r hmem => ?_, hrest⟩
          rcases hmem with _ | ⟨_, hmem⟩
          · exact hfits
          · exact hr r hmem
      · rw [if_neg hblank] at h ⊢
        cases hc : commitField lim fields (fieldOf line) with
        | error kind =>
          rw [hc] at h
          cases h
        | ok fields' =>
          obtain rfl := commitField_eq_ok hc
          rw [hc] at h
          obtain ⟨hl, hr, hrest⟩ := onLines_fits (commitField_ok_iff.1 hc) h
          exact ⟨hshort hl, hr, hrest⟩

/-! ## Whole streams -/

/-- What a decoder reports of a whole stream, but for the sizes in an error. -/
structure Outcome where
  records : List SseRecord
  trailing : Option SseRecord
  error : Option ErrorKind
deriving Repr, DecidableEq

def SseBatch.outcome (batch : SseBatch) : Outcome := ⟨batch.records, batch.trailing, batch.error.map SseDecodeError.kind⟩

/-- The end of a stream: the bytes after the last line end are a line, the fields a record. -/
def closeStream (lim : SseLimits) : Except Excess (Bytes × Assembly) → Outcome
  | .error (recs, kind) => ⟨recs, none, some kind⟩
  | .ok (tail, recs, fields) =>
    if tail = [] then ⟨recs, trailingRecord fields, none⟩
    else
      match commitField lim fields (fieldOf tail) with
      | .error kind => ⟨recs, none, some kind⟩
      | .ok fields => ⟨recs, trailingRecord fields, none⟩

/-- The reference parser with limits. -/
def limitedReference (lim : SseLimits) (bytes : Bytes) : Outcome :=
  closeStream lim (linesResult lim.maxLineBytes lineExcess (onLine lim) ([], []) (splitLines (stripBom bytes)))

theorem mem_trailingRecord {record : SseRecord} :
    record ∈ (trailingRecord fields).toList ↔ fields ≠ [] ∧ record = ⟨fields⟩ := by
  by_cases hfields : fields = []
  · simp [trailingRecord, hfields]
  · simp [trailingRecord, hfields]

theorem withinLimits_iff :
    WithinLimits lim bytes ↔
      ((∀ line ∈ (splitLines (stripBom bytes)).1, line.length ≤ lim.maxLineBytes) ∧
        (splitLines (stripBom bytes)).2.length ≤ lim.maxLineBytes) ∧
      (∀ record ∈ (assemble [] (splitLines (stripBom bytes)).1).1, Fits lim record.fields) ∧
        Fits lim (closeLine (assemble [] (splitLines (stripBom bytes)).1).2 (splitLines (stripBom bytes)).2) := by
  rw [WithinLimits, reference_eq]
  simp only [mem_append, mem_singleton, mem_trailingRecord, or_imp, forall_and, forall_eq, and_imp]
  refine and_congr Iff.rfl (and_congr Iff.rfl ⟨fun h => ?_, fun h record _ hrecord => hrecord ▸ h⟩)
  by_cases hfields : closeLine (assemble [] (splitLines (stripBom bytes)).1).2 (splitLines (stripBom bytes)).2 = []
  · rw [hfields]
    exact fits_nil lim
  · exact h _ hfields rfl

theorem limitedReference_within (h : WithinLimits lim bytes) :
    limitedReference lim bytes = ⟨(reference bytes).1, (reference bytes).2, none⟩ := by
  obtain ⟨⟨hlines, htail⟩, hrecords, hclose⟩ := withinLimits_iff.1 h
  rw [limitedReference, reference_eq, linesResult]
  generalize (splitLines (stripBom bytes)).1 = lines at *
  generalize (splitLines (stripBom bytes)).2 = tail at *
  by_cases hempty : tail = []
  · rw [closeLine, if_pos hempty] at hclose
    rw [onLines_assemble hlines hrecords hclose]
    show closeStream lim (if lim.maxLineBytes < tail.length then _ else _) = _
    rw [if_neg (by omega), closeStream, if_pos hempty, closeLine, if_pos hempty]
    rfl
  · rw [closeLine, if_neg hempty] at hclose
    rw [onLines_assemble hlines hrecords hclose.left]
    show closeStream lim (if lim.maxLineBytes < tail.length then _ else _) = _
    rw [if_neg (by omega), closeStream, if_neg hempty, commitField_ok_iff.2 hclose, closeLine, if_neg hempty]
    rfl

theorem limitedReference_excess (h : (limitedReference lim bytes).error = none) : WithinLimits lim bytes := by
  rw [withinLimits_iff]
  rw [limitedReference, linesResult] at h
  generalize (splitLines (stripBom bytes)).1 = lines at *
  generalize (splitLines (stripBom bytes)).2 = tail at *
  cases hrun : onLines lim.maxLineBytes lineExcess (onLine lim) ([], []) lines with
  | error e =>
    rw [hrun] at h
    cases h
  | ok a =>
    obtain ⟨hlines, hrecords, hrest⟩ := onLines_fits (fits_nil lim) hrun
    obtain rfl : a = ([] ++ (assemble [] lines).1, (assemble [] lines).2) := by
      rw [onLines_assemble hlines hrecords hrest] at hrun
      exact (Except.ok.inj hrun).symm
    rw [hrun] at h
    replace h : (closeStream lim (if lim.maxLineBytes < tail.length then .error (lineExcess _) else
      .ok (tail, [] ++ (assemble [] lines).1, (assemble [] lines).2))).error = none := h
    split at h
    case isTrue => cases h
    case isFalse htail =>
      refine ⟨⟨hlines, Nat.not_lt.1 htail⟩, hrecords, ?_⟩
      rw [closeLine]
      rw [closeStream] at h
      by_cases hempty : tail = []
      · rw [if_pos hempty]
        exact hrest
      · rw [if_neg hempty] at h ⊢
        cases hc : commitField lim (assemble [] lines).2 (fieldOf tail) with
        | error kind =>
          rw [hc] at h
          cases h
        | ok fields =>
          obtain rfl := commitField_eq_ok hc
          exact commitField_ok_iff.1 hc

end Praxis.Sse
