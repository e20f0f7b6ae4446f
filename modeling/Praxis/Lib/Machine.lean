/-
Machines that take one labelled step after the other. A label that is not enabled in a state has
no step. What holds of a run is shown step by step: an invariant is kept, and a condition on
every step of the run gives a property of every step. What the steps cost is paid for by a
potential. Two machines that stay related give the same answers.
-/
import Mathlib.Algebra.Order.Monoid.Defs
import Mathlib.Data.List.Basic

namespace Praxis.Lib

variable {σ α : Type}

/-- The steps of the labels, one after the other. -/
def run (step : σ → α → Option σ) : σ → List α → Option σ
  | s, [] => some s
  | s, a :: as => (step s a).bind fun t => run step t as

/-- Every step of the run from the state has the property. -/
def Along (step : σ → α → Option σ) (P : σ → α → Prop) : σ → List α → Prop
  | _, [] => True
  | s, a :: as => P s a ∧ ∀ t, step s a = some t → Along step P t as

section

variable {step : σ → α → Option σ}

theorem run_cons {s u : σ} {a : α} {as : List α} : run step s (a :: as) = some u ↔
    ∃ t, step s a = some t ∧ run step t as = some u := Option.bind_eq_some_iff

theorem run_append {s u : σ} : ∀ {as bs : List α}, run step s (as ++ bs) = some u ↔
    ∃ t, run step s as = some t ∧ run step t bs = some u := by
  intro as
  induction as generalizing s with
  | nil => simp [run]
  | cons a as ih =>
    intro bs
    rw [List.cons_append, run_cons]
    constructor
    · rintro ⟨t, ha, h⟩
      obtain ⟨t', h, h'⟩ := ih.1 h
      exact ⟨t', run_cons.2 ⟨t, ha, h⟩, h'⟩
    · rintro ⟨t', h, h'⟩
      obtain ⟨t, ha, h⟩ := run_cons.1 h
      exact ⟨t, ha, ih.2 ⟨t', h, h'⟩⟩

/-- The invariant rule, for runs whose steps all meet a condition. -/
theorem run_invariant {I : σ → Prop} {G : σ → α → Prop}
    (hstep : ∀ s a t, I s → G s a → step s a = some t → I t) :
    ∀ {as : List α} {s t : σ}, I s → Along step G s as → run step s as = some t → I t
  | [], _, _, hI, _, hrun => Option.some.inj hrun ▸ hI
  | _ :: _, _, _, hI, ⟨hG, halong⟩, hrun => by
    obtain ⟨u, ha, hrest⟩ := run_cons.1 hrun
    exact run_invariant hstep (hstep _ _ u hI hG ha) (halong u ha) hrest

theorem Along.of_invariant {I : σ → Prop} {G P : σ → α → Prop} (hP : ∀ s a, I s → G s a → P s a)
    (hstep : ∀ s a t, I s → G s a → step s a = some t → I t) :
    ∀ {as : List α} {s : σ}, I s → Along step G s as → Along step P s as
  | [], _, _, _ => trivial
  | _ :: _, _, hI, ⟨hG, halong⟩ =>
    ⟨hP _ _ hI hG, fun t ha => Along.of_invariant hP hstep (hstep _ _ t hI hG ha) (halong t ha)⟩

theorem Along.of_forall {P : σ → α → Prop} : ∀ {as : List α} {s : σ}, (∀ a ∈ as, ∀ s, P s a) → Along step P s as
  | [], _, _ => trivial
  | a :: _, s, h => ⟨h a (.head _) s, fun _ _ => Along.of_forall fun a' ha' => h a' (.tail a ha')⟩

/-- A condition that can be decided in a state can be decided along a run. -/
instance Along.decidable (step : σ → α → Option σ) (P : σ → α → Prop) [∀ s a, Decidable (P s a)] :
    ∀ (s : σ) (as : List α), Decidable (Along step P s as)
  | _, [] => .isTrue trivial
  | s, a :: as =>
    match hstep : step s a with
    | none => decidable_of_iff (P s a) ⟨fun h => ⟨h, fun t ht => by rw [hstep] at ht; cases ht⟩, And.left⟩
    | some t =>
      have := Along.decidable step P t as
      decidable_of_iff (P s a ∧ Along step P t as)
        ⟨fun h => ⟨h.1, fun u hu => by cases hstep.symm.trans hu; exact h.2⟩,
          fun h => ⟨h.1, h.2 t hstep⟩⟩

theorem Along.after {P : σ → α → Prop} {bs : List α} : ∀ {as : List α} {s t : σ}, Along step P s (as ++ bs) →
    run step s as = some t → Along step P t bs
  | [], _, _, h, hrun => Option.some.inj hrun ▸ h
  | _ :: _, _, _, h, hrun => by
    obtain ⟨u, ha, hrest⟩ := run_cons.1 hrun
    exact Along.after (h.2 u ha) hrest

end

/-! ## Costs -/

section

variable {M : Type} [AddCommMonoid M]

/-- What the steps of a run cost together. -/
def total (step : σ → α → Option σ) (cost : σ → α → M) : σ → List α → M
  | _, [] => 0
  | s, a :: as => cost s a + (step s a).elim 0 fun t => total step cost t as

theorem total_le [PartialOrder M] [IsOrderedAddMonoid M] {step : σ → α → Option σ} {cost : σ → α → M} {I : σ → Prop}
    (potential : σ → M)
    (hstep : ∀ s a t, I s → step s a = some t → I t ∧ cost s a + potential t ≤ potential s) :
    ∀ {as : List α} {s t : σ}, I s → run step s as = some t → total step cost s as + potential t ≤ potential s
  | [], s, _, _, hrun => by
    cases hrun
    rw [total, zero_add]
  | a :: as, s, t, hI, hrun => by
    obtain ⟨u, ha, hrest⟩ := run_cons.1 hrun
    obtain ⟨hI', hpaid⟩ := hstep s a u hI ha
    calc total step cost s (a :: as) + potential t
        = cost s a + (total step cost u as + potential t) := by rw [total, ha, Option.elim_some, add_assoc]
      _ ≤ cost s a + potential u := by gcongr; exact total_le potential hstep hI' hrest
      _ ≤ potential s := hpaid

end

/-! ## Answers -/

section

variable {β τ : Type}

/-- The answers that a machine gives, one for each input. -/
def answers (step : σ → α → β × σ) : σ → List α → List β
  | _, [] => []
  | s, a :: as => (step s a).1 :: answers step (step s a).2 as

/-- The state that a machine is in after the inputs. -/
def stateAfter (step : σ → α → β × σ) : σ → List α → σ
  | s, [] => s
  | s, a :: as => stateAfter step (step s a).2 as

/-- The simulation rule; the relation may look at the inputs to come. -/
theorem answers_eq {f : σ → α → β × σ} {g : τ → α → β × τ} {R : σ → τ → List α → Prop}
    (hstep : ∀ s t a as, R s t (a :: as) → (f s a).1 = (g t a).1 ∧ R (f s a).2 (g t a).2 as) :
    ∀ {as : List α} {s : σ} {t : τ}, R s t as → answers f s as = answers g t as
  | [], _, _, _ => rfl
  | a :: as, s, t, hR => by
    obtain ⟨hanswer, hnext⟩ := hstep s t a as hR
    rw [answers, answers, hanswer, answers_eq hstep hnext]

end

end Praxis.Lib
