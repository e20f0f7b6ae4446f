/-
Encoding records and decoding the bytes. A field that the builder accepts is read back from its
line, and a blank line ends each record, so the decoder returns the records it was given. The one
exception comes from the start of the stream: an unknown field name may begin with the bytes of
the byte order mark, and the decoder removes them when that name is the first thing written.
-/
import Praxis.Sse.Chunking

namespace Praxis.Sse

open List Praxis.Lib

/-! ## What the builder accepts -/

/-- A field whose line ends where it should and whose name ends at the colon written after it. -/
structure SseField.Framed (field : SseField) : Prop where
  value : ∀ b ∈ field.value, isTerminator b = false
  name : ∀ b ∈ field.name, b ≠ COLON ∧ isTerminator b = false

/-- The field that a name and a value stand for; an unknown field may be another one in disguise. -/
def SseField.reread (field : SseField) : SseField := classify field.name field.value

variable {field : SseField} {recs : List SseRecord}

theorem framed_of_value (hname : ∀ b ∈ field.name, b ≠ COLON ∧ isTerminator b = false)
    (h : (if hasNewline field.value then Except.error SseBuildError.newlineInValue else .ok ()) = .ok ()) : field.Framed := by
  refine ⟨fun b hb => ?_, hname⟩
  cases hnew : hasNewline field.value with
  | true =>
    rw [hnew] at h
    cases h
  | false =>
    rw [hasNewline, any_eq_false] at hnew
    simpa using hnew b hb

/-- A field that passes the check is framed and is no other field in disguise. -/
theorem validateField_ok (h : validateField field = .ok ()) : field.Framed ∧ field.reread = field := by
  cases field with
  | event v => exact ⟨framed_of_value (by decide : ∀ b ∈ ascii "event", b ≠ COLON ∧ isTerminator b = false) h, rfl⟩
  | data v => exact ⟨framed_of_value (by decide : ∀ b ∈ ascii "data", b ≠ COLON ∧ isTerminator b = false) h, rfl⟩
  | id v => exact ⟨framed_of_value (by decide : ∀ b ∈ ascii "id", b ≠ COLON ∧ isTerminator b = false) h, rfl⟩
  | retry v => exact ⟨framed_of_value (by decide : ∀ b ∈ ascii "retry", b ≠ COLON ∧ isTerminator b = false) h, rfl⟩
  | comment v => exact ⟨framed_of_value (by decide : ∀ b ∈ ([] : Bytes), b ≠ COLON ∧ isTerminator b = false) h, rfl⟩
  | unknown name v =>
    rw [validateField] at h
    by_cases hname : name.isEmpty || name.any (fun b => b == COLON || isTerminator b) || isKnownName name
    · rw [if_pos hname] at h
      split at h <;> cases h
    · rw [if_neg hname] at h
      simp only [isKnownName, Bool.or_eq_true, List.isEmpty_iff, List.any_eq_true, beq_iff_eq, not_or, not_exists,
        not_and, Bool.not_eq_true] at hname
      obtain ⟨⟨hne, hbytes⟩, ⟨⟨hevent, hdata⟩, hid⟩, hretry⟩ := hname
      refine ⟨framed_of_value hbytes h, ?_⟩
      show classify name v = .unknown name v
      rw [classify, if_neg hne, if_neg hevent, if_neg hdata, if_neg hid, if_neg hretry]

theorem validateFields_ok : ∀ {fields : List SseField}, validateFields fields = .ok () →
    ∀ field ∈ fields, field.Framed ∧ field.reread = field
  | [], _ => nofun
  | field :: rest, h => by
    rw [validateFields] at h
    split at h
    · cases h
    · rintro f (_ | ⟨_, hf⟩)
      · exact validateField_ok (by assumption)
      · exact validateFields_ok h f hf

/-- A record that came out of the builder. -/
def Built (record : SseRecord) : Prop := SseRecord.build record.fields = .ok record

/-- A record that has fields, all of them framed. -/
structure SseRecord.Framed (record : SseRecord) : Prop where
  nonempty : record.fields ≠ []
  fields : ∀ field ∈ record.fields, field.Framed

def SseRecord.reread (record : SseRecord) : SseRecord := ⟨record.fields.map SseField.reread⟩

theorem Built.framed {record : SseRecord} (h : Built record) : record.Framed ∧ record.reread = record := by
  rw [Built, SseRecord.build] at h
  split at h
  case isTrue => cases h
  case isFalse hne =>
    have hfields : ∀ field ∈ record.fields, field.Framed ∧ field.reread = field := by
      cases hv : validateFields record.fields with
      | error e =>
        rw [hv] at h
        cases h
      | ok u => exact validateFields_ok hv
    refine ⟨⟨by simpa using hne, fun field hf => (hfields field hf).1⟩, ?_⟩
    rw [SseRecord.reread, map_congr_left fun field hf => (hfields field hf).2, map_id']

/-! ## The lines of encoded records -/

def recordLines (record : SseRecord) : List Bytes := record.fields.map encodeLine ++ [[]]

def encodedLines (recs : List SseRecord) : List Bytes := recs.flatMap recordLines

theorem encode_eq_joinLines (record : SseRecord) : encode record = joinLines (recordLines record) := by
  have hfields : ∀ fields : List SseField, encodeFields fields = joinLines (fields.map encodeLine) := by
    intro fields
    induction fields with
    | nil => rfl
    | cons field rest ih =>
      rw [encodeFields, ih, writeNamed]
      simp [joinLines, encodeLine]
  rw [encode, hfields, recordLines]
  simp [joinLines]

theorem encodeAll_eq_joinLines : ∀ recs : List SseRecord, encodeAll recs = joinLines (encodedLines recs)
  | [] => rfl
  | record :: rest => by
    rw [encodeAll, encode_eq_joinLines, encodeAll_eq_joinLines rest]
    simp [encodedLines, joinLines]

theorem fieldOf_encodeLine (h : field.Framed) : fieldOf (encodeLine field) = field.reread := by
  obtain ⟨-, hname⟩ := h
  rw [encodeLine, SseField.reread]
  generalize field.name = name at *
  generalize field.value = val at *
  have htake : (name ++ [COLON, SPACE] ++ val).takeWhile (· != COLON) = name := by
    rw [append_assoc, takeWhile_append_of_pos (by simpa using fun b hb => (hname b hb).1)]
    simp
  have hdrop : (name ++ [COLON, SPACE] ++ val).drop (name.length + 1) = SPACE :: val := by
    rw [append_assoc, drop_append, drop_of_length_le (by omega)]
    simp
  rw [fieldOf, htake, hdrop]
  rfl

theorem encodeLine_ne_nil (field : SseField) : encodeLine field ≠ [] := by
  simp [encodeLine]

theorem encodeLine_data (h : field.Framed) : ∀ b ∈ encodeLine field, isTerminator b = false := by
  intro b hb
  rw [encodeLine, mem_append, mem_append] at hb
  rcases hb with (hb | hb) | hb
  · exact (h.name b hb).2
  · exact (by decide : ∀ b ∈ [COLON, SPACE], isTerminator b = false) b hb
  · exact h.value b hb

theorem mem_encodedLines {line : Bytes} (h : line ∈ encodedLines recs) :
    line = [] ∨ ∃ record ∈ recs, ∃ field ∈ record.fields, line = encodeLine field := by
  obtain ⟨record, hrecord, hline⟩ := mem_flatMap.1 h
  rw [recordLines, mem_append, mem_singleton] at hline
  rcases hline with hline | rfl
  · obtain ⟨field, hfield, rfl⟩ := mem_map.1 hline
    exact .inr ⟨record, hrecord, field, hfield, rfl⟩
  · exact .inl rfl

theorem splitLines_encodeAll (h : ∀ record ∈ recs, record.Framed) :
    splitLines (encodeAll recs) = (encodedLines recs, []) := by
  rw [encodeAll_eq_joinLines]
  refine splitLines_joinLines fun line hline => ?_
  rcases mem_encodedLines hline with rfl | ⟨record, hrecord, field, hfield, rfl⟩
  · nofun
  · exact encodeLine_data ((h record hrecord).fields field hfield)

/-! ## Reading them back -/

theorem assemble_fields : ∀ {fields : List SseField}, (∀ field ∈ fields, field.Framed) →
    ∀ (before : List SseField) (lines : List Bytes),
    assemble before (fields.map encodeLine ++ lines) = assemble (before ++ fields.map SseField.reread) lines
  | [], _, before, lines => by rw [map_nil, map_nil, nil_append, append_nil]
  | field :: rest, h, before, lines => by
    rw [map_cons, cons_append, assemble, if_neg (encodeLine_ne_nil field),
      fieldOf_encodeLine (h field (.head _)),
      assemble_fields (fun f hf => h f (.tail field hf)), append_assoc]
    rfl

theorem assemble_encodedLines : ∀ {recs : List SseRecord}, (∀ record ∈ recs, record.Framed) →
    assemble [] (encodedLines recs) = (recs.map SseRecord.reread, [])
  | [], _ => rfl
  | record :: rest, h => by
    obtain ⟨hne, hfields⟩ := h record (.head _)
    have ih := assemble_encodedLines fun r hr => h r (.tail record hr)
    have hlines : encodedLines (record :: rest) = record.fields.map encodeLine ++ [] :: encodedLines rest := by
      simp [encodedLines, recordLines]
    rw [hlines, assemble_fields hfields, nil_append, assemble, if_pos rfl, if_neg (by simpa using hne), ih]
    rfl

/-- The first name written starts with the byte order mark. -/
def startsWithBom : List SseRecord → Bool
  | ⟨.unknown name _ :: _⟩ :: _ => BOM.isPrefixOf name
  | _ => false

/-- Limits that none of the lines and records exceeds. -/
def Ample (lim : SseLimits) (recs : List SseRecord) : Prop :=
  ∀ record ∈ recs, (∀ field ∈ record.fields, (encodeLine field).length ≤ lim.maxLineBytes) ∧
    Fits lim record.fields

theorem encodeAll_cons (fields : List SseField) (rest : List SseRecord) :
    encodeAll (⟨field :: fields⟩ :: rest) =
      field.name ++ COLON :: SPACE :: (field.value ++ LF :: encodeAll (⟨fields⟩ :: rest)) := by
  simp [encodeAll, encode, encodeFields, writeNamed]

/-- The mark can only come from a name, as it has no colon. -/
theorem bom_isPrefixOf_encodeAll (h : ∀ record ∈ recs, record.Framed) :
    BOM.isPrefixOf (encodeAll recs) = startsWithBom recs := by
  have hname : ∀ (field : SseField) (fields : List SseField) (rest : List SseRecord),
      BOM.isPrefixOf (encodeAll (⟨field :: fields⟩ :: rest)) = BOM.isPrefixOf field.name := by
    intro field fields rest
    rw [Bool.eq_iff_iff, isPrefixOf_iff_prefix, isPrefixOf_iff_prefix, encodeAll_cons]
    exact prefix_append_cons_iff (by decide)
  match recs, h with
  | [], _ => rfl
  | ⟨[]⟩ :: rest, h => exact absurd rfl (h _ (.head _)).nonempty
  | ⟨field :: fields⟩ :: rest, _ =>
    rw [hname]
    cases field <;> rfl

theorem reference_encodeAll (hbuilt : ∀ record ∈ recs, Built record) (hbom : startsWithBom recs = false) :
    reference (encodeAll recs) = (recs, none) ∧
      splitLines (stripBom (encodeAll recs)) = (encodedLines recs, []) := by
  have hframed : ∀ record ∈ recs, record.Framed := fun record hr => (hbuilt record hr).framed.1
  have hreread : recs.map SseRecord.reread = recs := by
    rw [map_congr_left fun record hr => (hbuilt record hr).framed.2, map_id']
  have hsplit : splitLines (stripBom (encodeAll recs)) = (encodedLines recs, []) := by
    rw [stripBom, bom_isPrefixOf_encodeAll hframed, hbom, if_neg Bool.false_ne_true, splitLines_encodeAll hframed]
  refine ⟨?_, hsplit⟩
  rw [reference_eq, hsplit, assemble_encodedLines hframed, hreread]
  rfl

theorem withinLimits_encodeAll {lim : SseLimits} (hbuilt : ∀ record ∈ recs, Built record)
    (hample : Ample lim recs) (hbom : startsWithBom recs = false) : WithinLimits lim (encodeAll recs) := by
  obtain ⟨href, hsplit⟩ := reference_encodeAll hbuilt hbom
  rw [WithinLimits, href, hsplit]
  constructor
  · intro line hline
    rcases mem_append.1 hline with hline | hline
    · rcases mem_encodedLines hline with rfl | ⟨record, hrecord, field, hfield, rfl⟩
      · exact Nat.zero_le _
      · exact (hample record hrecord).1 field hfield
    · rw [mem_singleton.1 hline]
      exact Nat.zero_le _
  · intro record hrecord
    rw [Option.toList_none, append_nil] at hrecord
    exact (hample record hrecord).2

theorem name_of_classify {name val name' val' : Bytes} (h : classify name val = .unknown name' val') :
    name' = name := by
  rw [classify] at h
  iterate 5
    split at h
    · cases h
  exact (SseField.unknown.inj h).1.symm

/-- Without the bytes of the mark the first name is another one, and nothing else changes. -/
theorem reference_ne_of_startsWithBom (hbuilt : ∀ record ∈ recs, Built record) (hbom : startsWithBom recs = true) :
    (reference (encodeAll recs)).1 ≠ recs := by
  match recs, hbuilt, hbom with
  | ⟨.unknown name val :: fields⟩ :: rest, hbuilt, hbom =>
    obtain ⟨short, rfl⟩ := isPrefixOf_iff_prefix.1 hbom
    have hstrip : stripBom (encodeAll (⟨.unknown (BOM ++ short) val :: fields⟩ :: rest)) =
        encodeAll (⟨.unknown short val :: fields⟩ :: rest) := by
      rw [encodeAll_cons, encodeAll_cons, SseField.name, append_assoc, (bomDecided_append _).2]
      rfl
    have hframed : ∀ record ∈ ⟨.unknown short val :: fields⟩ :: rest, record.Framed := by
      have hfirst := (hbuilt _ (.head _)).framed.1
      have hfield := hfirst.fields _ (.head _)
      intro record hr
      rcases hr with _ | ⟨_, hr⟩
      · refine ⟨nofun, fun field hf => ?_⟩
        rcases hf with _ | ⟨_, hf⟩
        · exact ⟨hfield.value, fun b hb => hfield.name b (mem_append_right BOM hb)⟩
        · exact hfirst.fields field (.tail _ hf)
      · exact (hbuilt record (.tail _ hr)).framed.1
    intro heq
    rw [reference_eq, hstrip, splitLines_encodeAll hframed, assemble_encodedLines hframed] at heq
    have hrecord := congrArg SseRecord.fields (cons.inj heq).1
    have hname : BOM ++ short = short := name_of_classify (cons.inj hrecord).1
    have hlonger := congrArg length hname
    rw [length_append, show BOM.length = 3 from rfl] at hlonger
    omega

/-! ## The round trip -/

/-- Records of the builder, encoded one after another into one buffer and decoded under ample
limits, come back as they were, unless the buffer starts with the bytes of a byte order mark. -/
theorem decodeChunks_encodeAll (lim : SseLimits) (recs : List SseRecord) (chunks : List Bytes)
    (hbuilt : ∀ record ∈ recs, Built record) (hample : Ample lim recs)
    (hchunks : chunks.flatten = encodeAll recs) :
    decodeChunks lim chunks = ⟨recs, none, none⟩ ↔ startsWithBom recs = false := by
  constructor
  · intro h
    have hwithin : WithinLimits lim chunks.flatten := withinLimits_of_no_error (congrArg SseBatch.error h)
    rw [decodeChunks_within hwithin, hchunks] at h
    rw [Bool.eq_false_iff]
    exact fun hbom => reference_ne_of_startsWithBom hbuilt hbom (congrArg SseBatch.records h)
  · intro hbom
    have hwithin : WithinLimits lim chunks.flatten := by
      rw [hchunks]
      exact withinLimits_encodeAll hbuilt hample hbom
    rw [decodeChunks_within hwithin, hchunks, (reference_encodeAll hbuilt hbom).1]

instance (record : SseRecord) : Decidable (Built record) := inferInstanceAs (Decidable (_ = _))

instance (lim : SseLimits) (recs : List SseRecord) : Decidable (Ample lim recs) :=
  inferInstanceAs (Decidable (∀ _ ∈ _, _))

/-- Two records that need the space after the colon, an empty value and an unknown name. -/
def plainRecords : List SseRecord :=
  [⟨[.event (ascii "add"), .data (ascii " {}"), .comment []]⟩, ⟨[.unknown (ascii "x") (ascii ":1")]⟩]

theorem plainRecords_decoded : (∀ record ∈ plainRecords, Built record) ∧ Ample .default plainRecords ∧
    decodeChunks .default [encodeAll plainRecords] = ⟨plainRecords, none, none⟩ := by
  have hbuilt : ∀ record ∈ plainRecords, Built record := by decide +kernel
  have hample : Ample .default plainRecords := by decide +kernel
  exact ⟨hbuilt, hample, (decodeChunks_encodeAll _ _ [encodeAll plainRecords] hbuilt hample (by simp)).2 (by decide)⟩

/-- One record whose only field has a name that starts with the byte order mark. -/
def markedRecord : SseRecord := ⟨[.unknown (BOM ++ ascii "x") (ascii "v")]⟩

theorem markedRecord_changed : Built markedRecord ∧ Ample .default [markedRecord] ∧
    decodeChunks .default [encodeAll [markedRecord]] = ⟨[⟨[.unknown (ascii "x") (ascii "v")]⟩], none, none⟩ ∧
    decodeChunks .default [encodeAll [markedRecord]] ≠ ⟨[markedRecord], none, none⟩ := by
  decide +kernel

end Praxis.Sse
