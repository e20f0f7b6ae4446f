/-
What admission does to the header lines: the values of every name before and after. Identical
lines of `Host`, `Content-Length` and `Content-Type` become one and a folded value is unfolded. The
setter that writes an unfolded value replaces every line of its name, which no value of a header map needs.
-/
import Praxis.Admission.Inbound

namespace Praxis.Admission

open List Praxis.Lib Praxis.Headers

/-! ## The lines that should be left -/

/-- A value, unfolded if it is folded. -/
def unfoldedForm (val : HeaderValue) : HeaderValue := if containsObsFold val then unfoldObsFold val else val

/-- The names whose identical lines become one. -/
def oneLineHeaders : List String := ["host", "content-length", "content-type"]

/-- The values that a name should have after admission. -/
def expectedLines (name : String) : List HeaderValue → List HeaderValue
  | first :: second :: rest =>
    if name ∈ oneLineHeaders ∧ ∀ val ∈ second :: rest, val = first then [unfoldedForm first]
    else (first :: second :: rest).map unfoldedForm
  | values => values.map unfoldedForm

/-- A folded line can be unfolded, and is the only one of its name. -/
def FoldsAlone {Map : Type} (http : HttpMap Map) (hs : Map) : Prop :=
  ∀ name, ∀ val ∈ http.getAll hs name, containsObsFold val →
    wellFolded val ∧ (name = "content-type" ∨ (http.getAll hs name).length = 1)

/-! ## The lines that are left -/

section

variable {Map : Type} {http : HttpMap Map} {path : List UInt8} {hs collapsed hs' : Map} {name : String}

theorem expectedLines_of_not_mem (hname : name ∉ oneLineHeaders) (values : List HeaderValue) :
    expectedLines name values = values.map unfoldedForm := by
  unfold expectedLines
  split
  · rw [if_neg fun h => hname h.1]
  · rfl

theorem expectedLines_of_mem (hname : name ∈ oneLineHeaders) {values collapsed : List HeaderValue}
    (hmem : ∀ val, val ∈ collapsed ↔ val ∈ values) (hone : collapsed.length ≤ 1) :
    expectedLines name values = collapsed.map unfoldedForm := by
  match collapsed, hone with
  | [], _ =>
    obtain rfl : values = [] := eq_nil_iff_forall_not_mem.2 fun val hval => by simpa using (hmem val).2 hval
    rfl
  | [line], _ =>
    have hsame : ∀ val ∈ values, val = line := fun val hval => by simpa using (hmem val).2 hval
    match values, hsame with
    | [], _ => exact absurd ((hmem line).1 (.head _)) (by simp)
    | [first], hsame => rw [hsame first mem_cons_self]; rfl
    | first :: second :: rest, hsame =>
      obtain rfl := hsame first (.head _)
      rw [expectedLines, if_pos ⟨hname, fun val hval => hsame val (.tail _ hval)⟩]
      rfl

section

variable (h : Admitted http path hs collapsed hs')
include h

/-- A name keeps its lines, the folded ones unfolded, exactly if it has a folded line only alone. -/
theorem Admitted.lines_iff (laws : http.Laws) (name : String) :
    http.getAll hs' name = (http.getAll collapsed name).map unfoldedForm ↔
      ∀ val ∈ http.getAll collapsed name, containsObsFold val →
        wellFolded val ∧ (http.getAll collapsed name).length = 1 := by
  rcases h.folds name with ⟨line, hline, -, hfold, hwell, heq⟩ | ⟨hill, heq⟩
  · -- a line was unfolded and stands alone afterwards
    rw [heq]
    constructor
    · intro hmap
      have hone : (http.getAll collapsed name).length = 1 := by simpa using (congrArg length hmap).symm
      obtain ⟨only, honly⟩ := length_eq_one_iff.1 hone
      rw [honly, mem_singleton] at hline
      subst hline
      simp [honly, hwell]
    · intro halone
      obtain ⟨only, honly⟩ := length_eq_one_iff.1 (halone line hline hfold).2
      rw [honly, mem_singleton] at hline
      subst hline
      simp [honly, unfoldedForm, hfold]
  · rw [heq]
    constructor
    · intro hmap val hval hfold
      -- every value is its own unfolded form, but that of a folded one is shorter
      have hself : unfoldedForm val = val := by
        have hall : ∀ v ∈ http.getAll collapsed name, unfoldedForm v = id v := map_inj_left.1 (by rw [← hmap, map_id])
        exact hall val hval
      have hlt := (length_unfoldLoop false val).2 hfold
      rw [unfoldedForm, if_pos hfold, unfoldObsFold] at hself
      rw [hself] at hlt
      exact absurd hlt (Nat.lt_irrefl _)
    · intro halone
      have hnone : ∀ val ∈ http.getAll collapsed name, containsObsFold val = false := by
        intro val hval
        by_cases hname : name ∈ obsFoldRejectHeaders
        · exact h.strict_unfolded laws hname val hval
        · refine Bool.eq_false_iff.2 fun hfold => ?_
          exact Bool.eq_false_iff.1 (hill val hval hname hfold) (halone val hval hfold).1
      rw [map_congr_left (g := id) fun val hval => by simp [unfoldedForm, hnone val hval], map_id]

end

/-- In an admitted HTTP/1 request every name has the lines it should have exactly if a folded line can be
unfolded and is the only one of its name. -/
theorem admitted_lines_iff {authority : List UInt8 → Option String} (laws : http.Laws) {version : Version}
    (hversion : version ∈ [.http09, .http10, .http11])
    (h : admitInbound http authority version path hs = some (none, hs')) :
    (∀ name, http.getAll hs' name = expectedLines name (http.getAll hs name)) ↔ FoldsAlone http hs := by
  obtain ⟨collapsed, h, hothers⟩ := admitInbound_spec laws hversion h
  refine forall_congr' fun name => ?_
  by_cases hname : name ∈ oneLineHeaders
  · have hone := h.single name hname
    rw [expectedLines_of_mem hname (h.lines.mem_iff name) hone, h.lines_iff laws name]
    constructor
    · intro halone val hval hfold
      rw [← h.lines.mem_iff] at hval
      refine ⟨(halone val hval hfold).1, ?_⟩
      by_cases htype : name = "content-type"
      · exact .inl htype
      · -- the other two names are rejected for a fold
        have hstrict : name ∈ obsFoldRejectHeaders := by
          simp only [oneLineHeaders, obsFoldRejectHeaders, mem_cons, not_mem_nil, or_false] at hname ⊢
          tauto
        exact absurd hfold (Bool.eq_false_iff.1 (h.strict_unfolded laws hstrict val hval))
    · intro halone val hval hfold
      have hpos := length_pos_of_mem hval
      exact ⟨(halone val ((h.lines.mem_iff name val).1 hval) hfold).1, by omega⟩
  · rw [expectedLines_of_not_mem hname, ← hothers name hname, h.lines_iff laws name]
    have htype : name ≠ "content-type" := by
      rintro rfl
      exact hname (by decide)
    simp [htype]

/-- In an admitted HTTP/1 request every name has the lines it should have. -/
theorem admitted_lines {authority : List UInt8 → Option String} (laws : http.Laws) {version : Version}
    (hversion : version ∈ [.http09, .http10, .http11]) {hs : http.Checked}
    (h : admitInbound http authority version path hs.map = some (none, hs')) (name : String) :
    http.getAll hs' name = expectedLines name (http.getAll hs.map name) := by
  refine (admitted_lines_iff laws hversion h).2 (fun name val hval hfold => ?_) name
  rw [checked_unfolded laws hs name val hval] at hfold
  cases hfold

end

/-- The two lines of `Content-Length` become one, and `Host` stays. -/
theorem repeatedLength_lines : repeatedLength.map = [("host", [97]), ("content-length", [51]), ("content-length", [51])] ∧
    ∀ name, assocHttpMap.getAll [("host", [97]), ("content-length", [51])] name =
      expectedLines name (assocHttpMap.getAll repeatedLength.map name) :=
  ⟨rfl, admitted_lines assocHttpMap_laws (by decide) repeatedLength_admitted⟩

end Praxis.Admission
