/-
The filters of a tree listed in structural order: a filter, then the filters of its branches in
branch order, then the filters after it. Static facts about a pipeline quantify over this list.
-/
import Praxis.Pipeline.Context
import Mathlib.Data.List.Nodup
import Mathlib.Data.List.Pairwise

namespace Praxis.Pipeline

open PipelineFilter ResolvedBranch List

variable {σ : Type}

mutual

/-- A filter followed by every filter below it. -/
def PipelineFilter.subfilters : PipelineFilter σ → List (PipelineFilter σ)
  | .mk h branches => .mk h branches :: branchSubfilters branches

/-- Every filter of the chains of `branches`, at any depth. -/
def branchSubfilters : List (ResolvedBranch σ) → List (PipelineFilter σ)
  | [] => []
  | b :: rest => b.subfilters ++ branchSubfilters rest

/-- Every filter of the branch's chain, at any depth. -/
def ResolvedBranch.subfilters : ResolvedBranch σ → List (PipelineFilter σ)
  | .mk _ pfs => subfilters pfs

/-- Every filter of a chain, at any depth. -/
def subfilters : List (PipelineFilter σ) → List (PipelineFilter σ)
  | [] => []
  | pf :: rest => pf.subfilters ++ subfilters rest

end

/-- The ids of a chain's filters at every depth, in structural order. -/
def filterIds (pfs : List (PipelineFilter σ)) : List Nat := (subfilters pfs).map (·.head.filterId)

/-- The ids of the filters inside the chains of `branches`. -/
def branchFilterIds (branches : List (ResolvedBranch σ)) : List Nat :=
  (branchSubfilters branches).map (·.head.filterId)

theorem PipelineFilter.subfilters_eq (pf : PipelineFilter σ) : pf.subfilters = pf :: branchSubfilters pf.branches := by
  cases pf with
  | mk h bs => rw [subfilters]; rfl

theorem ResolvedBranch.subfilters_eq (b : ResolvedBranch σ) : b.subfilters = Praxis.Pipeline.subfilters b.filters := by
  cases b with
  | mk h fs => rw [subfilters]; rfl

theorem mem_subfilters_self (pf : PipelineFilter σ) : pf ∈ pf.subfilters := by
  rw [PipelineFilter.subfilters_eq]
  exact .head _

theorem subfilters_eq_flatMap : ∀ pfs : List (PipelineFilter σ), subfilters pfs = pfs.flatMap PipelineFilter.subfilters
  | [] => by rw [subfilters, flatMap_nil]
  | pf :: rest => by rw [subfilters, flatMap_cons, subfilters_eq_flatMap rest]

theorem branchSubfilters_eq_flatMap : ∀ branches : List (ResolvedBranch σ),
    branchSubfilters branches = branches.flatMap fun b => subfilters b.filters
  | [] => by rw [branchSubfilters, flatMap_nil]
  | b :: rest => by
    rw [branchSubfilters, flatMap_cons, branchSubfilters_eq_flatMap rest, ResolvedBranch.subfilters_eq]

variable {pf c x y : PipelineFilter σ} {pfs : List (PipelineFilter σ)}

theorem mem_subfilters (h : pf ∈ pfs) : pf ∈ subfilters pfs := by
  rw [subfilters_eq_flatMap]
  exact mem_flatMap.2 ⟨pf, h, mem_subfilters_self pf⟩

@[simp] theorem subfilters_cons (rest : List (PipelineFilter σ)) :
    subfilters (pf :: rest) = pf :: (branchSubfilters pf.branches ++ subfilters rest) := by
  rw [subfilters, PipelineFilter.subfilters_eq]
  rfl

theorem filterIds_cons (rest : List (PipelineFilter σ)) :
    filterIds (pf :: rest) = pf.head.filterId :: (branchFilterIds pf.branches ++ filterIds rest) := by
  rw [filterIds, subfilters_cons, map_cons, map_append]
  rfl

@[simp] theorem subfilters_nil : subfilters ([] : List (PipelineFilter σ)) = [] := by rw [subfilters]

@[simp] theorem branchSubfilters_nil : branchSubfilters ([] : List (ResolvedBranch σ)) = [] := by
  rw [branchSubfilters]

@[simp] theorem branchSubfilters_cons {b : ResolvedBranch σ} (rest : List (ResolvedBranch σ)) :
    branchSubfilters (b :: rest) = subfilters b.filters ++ branchSubfilters rest := by
  rw [branchSubfilters, ResolvedBranch.subfilters_eq]

variable {b : ResolvedBranch σ} {bs : List (ResolvedBranch σ)} {fs : List (PipelineFilter σ)} {p q : PipelineFilter σ}

theorem branchSubfilters_subset_cons : branchSubfilters bs ⊆ branchSubfilters (b :: bs) := by
  rw [branchSubfilters_cons]
  exact subset_append_right _ _

@[simp] theorem subfilters_append (xs ys : List (PipelineFilter σ)) :
    subfilters (xs ++ ys) = subfilters xs ++ subfilters ys := by
  rw [subfilters_eq_flatMap, subfilters_eq_flatMap, subfilters_eq_flatMap, flatMap_append]

theorem branchSubfilters_subset :
    ∀ {pfs : List (PipelineFilter σ)}, pf ∈ pfs → branchSubfilters pf.branches ⊆ subfilters pfs := by
  intro pfs h x hx
  rw [subfilters_eq_flatMap]
  refine mem_flatMap.2 ⟨pf, h, ?_⟩
  rw [PipelineFilter.subfilters_eq]
  exact .tail _ hx

theorem subfilters_filters_subset {branches : List (ResolvedBranch σ)} (h : b ∈ branches) :
    subfilters b.filters ⊆ branchSubfilters branches := by
  intro x hx
  rw [branchSubfilters_eq_flatMap]
  exact mem_flatMap.2 ⟨b, h, hx⟩

mutual

/-- A filter of the tree is listed together with everything below it. -/
theorem PipelineFilter.subfilters_sublist {x : PipelineFilter σ} : ∀ {pf : PipelineFilter σ},
    x ∈ pf.subfilters → x.subfilters.Sublist pf.subfilters
  | .mk h bs, hx => by
    rw [PipelineFilter.subfilters_eq] at hx
    rcases hx with _ | ⟨_, hx⟩
    · exact Sublist.refl _
    · rw [PipelineFilter.subfilters_eq (.mk h bs)]
      exact (branchSubfilters_sublist hx).cons _

theorem branchSubfilters_sublist {x : PipelineFilter σ} : ∀ {bs : List (ResolvedBranch σ)},
    x ∈ branchSubfilters bs → x.subfilters.Sublist (branchSubfilters bs)
  | [], hx => by
    rw [branchSubfilters_nil] at hx
    cases hx
  | b :: bs, hx => by
    rw [branchSubfilters] at hx ⊢
    rcases mem_append.1 hx with hx | hx
    · exact (ResolvedBranch.subfilters_sublist hx).trans (sublist_append_left _ _)
    · exact (branchSubfilters_sublist hx).trans (sublist_append_right _ _)

theorem ResolvedBranch.subfilters_sublist {x : PipelineFilter σ} : ∀ {b : ResolvedBranch σ},
    x ∈ b.subfilters → x.subfilters.Sublist b.subfilters
  | .mk h fs, hx => by
    rw [ResolvedBranch.subfilters] at hx ⊢
    exact subfilters_sublist hx

theorem subfilters_sublist {x : PipelineFilter σ} : ∀ {fs : List (PipelineFilter σ)},
    x ∈ subfilters fs → x.subfilters.Sublist (subfilters fs)
  | [], hx => by
    rw [subfilters_nil] at hx
    cases hx
  | pf :: fs, hx => by
    rw [subfilters] at hx ⊢
    rcases mem_append.1 hx with hx | hx
    · exact (PipelineFilter.subfilters_sublist hx).trans (sublist_append_left _ _)
    · exact (subfilters_sublist hx).trans (sublist_append_right _ _)

end

theorem mem_subfilters_below (h : c ∈ branchSubfilters pf.branches) : c ∈ pf.subfilters := by
  rw [PipelineFilter.subfilters_eq]
  exact .tail _ h

theorem subfilters_trans (hx : x ∈ subfilters fs) (hy : y ∈ branchSubfilters x.branches) : y ∈ subfilters fs :=
  (subfilters_sublist hx).subset (mem_subfilters_below hy)

theorem branchSubfilters_trans (hx : x ∈ branchSubfilters bs) (hy : y ∈ branchSubfilters x.branches) :
    y ∈ branchSubfilters bs :=
  (branchSubfilters_sublist hx).subset (mem_subfilters_below hy)

theorem PipelineFilter.subfilters_trans (hx : x ∈ pf.subfilters) (hy : y ∈ branchSubfilters x.branches) :
    y ∈ branchSubfilters pf.branches := by
  rw [subfilters_eq] at hx
  rcases hx with _ | ⟨_, hx⟩
  · exact hy
  · exact branchSubfilters_trans hx hy

theorem not_below_self (hnd : (filterIds fs).Nodup) (hpf : pf ∈ subfilters fs) :
    pf.head.filterId ∉ branchFilterIds pf.branches := by
  have hown : (pf.subfilters.map (·.head.filterId)).Nodup := ((subfilters_sublist hpf).map _).nodup hnd
  rw [PipelineFilter.subfilters_eq, map_cons] at hown
  exact (nodup_cons.1 hown).1

/-! ## Parents -/

/-- The filters directly inside a filter's branches. -/
def PipelineFilter.children (pf : PipelineFilter σ) : List (PipelineFilter σ) := pf.branches.flatMap (·.filters)

theorem mem_children : c ∈ pf.children ↔ ∃ b ∈ pf.branches, c ∈ b.filters := mem_flatMap

/-- The ids of a filter's children. -/
def childIds (pf : PipelineFilter σ) : List Nat := pf.children.map (·.head.filterId)

mutual

theorem PipelineFilter.exists_parent {c : PipelineFilter σ} : ∀ {pf : PipelineFilter σ},
    c ∈ branchSubfilters pf.branches → ∃ q ∈ pf.subfilters, c ∈ q.children
  | .mk h bs, hc => by
    rw [PipelineFilter.subfilters_eq]
    rcases branchSubfilters_exists_parent hc with ⟨b, hb, hcb⟩ | ⟨q, hq, hqc⟩
    · exact ⟨.mk h bs, .head _, mem_children.2 ⟨b, hb, hcb⟩⟩
    · exact ⟨q, .tail _ hq, hqc⟩

theorem branchSubfilters_exists_parent {c : PipelineFilter σ} : ∀ {bs : List (ResolvedBranch σ)},
    c ∈ branchSubfilters bs → (∃ b ∈ bs, c ∈ b.filters) ∨ ∃ q ∈ branchSubfilters bs, c ∈ q.children
  | [], hc => by
    rw [branchSubfilters_nil] at hc
    cases hc
  | b :: bs, hc => by
    rw [branchSubfilters] at hc ⊢
    rcases mem_append.1 hc with hc | hc
    · rcases ResolvedBranch.exists_parent hc with hcb | ⟨q, hq, hqc⟩
      · exact .inl ⟨b, .head _, hcb⟩
      · exact .inr ⟨q, mem_append_left _ hq, hqc⟩
    · rcases branchSubfilters_exists_parent hc with ⟨b', hb', hcb⟩ | ⟨q, hq, hqc⟩
      · exact .inl ⟨b', .tail _ hb', hcb⟩
      · exact .inr ⟨q, mem_append_right _ hq, hqc⟩

theorem ResolvedBranch.exists_parent {c : PipelineFilter σ} : ∀ {b : ResolvedBranch σ},
    c ∈ b.subfilters → c ∈ b.filters ∨ ∃ q ∈ b.subfilters, c ∈ q.children
  | .mk h fs, hc => by
    rw [ResolvedBranch.subfilters] at hc ⊢
    exact subfilters_exists_parent hc

theorem subfilters_exists_parent {c : PipelineFilter σ} : ∀ {fs : List (PipelineFilter σ)},
    c ∈ subfilters fs → c ∈ fs ∨ ∃ q ∈ subfilters fs, c ∈ q.children
  | [], hc => by
    rw [subfilters_nil] at hc
    cases hc
  | pf :: fs, hc => by
    rw [subfilters] at hc ⊢
    rcases mem_append.1 hc with hc | hc
    · rw [PipelineFilter.subfilters_eq] at hc
      rcases hc with _ | ⟨_, hc⟩
      · exact .inl (.head _)
      · obtain ⟨q, hq, hqc⟩ := PipelineFilter.exists_parent hc
        exact .inr ⟨q, mem_append_left _ hq, hqc⟩
    · rcases subfilters_exists_parent hc with hc | ⟨q, hq, hqc⟩
      · exact .inl (.tail _ hc)
      · exact .inr ⟨q, mem_append_right _ hq, hqc⟩

end

mutual

/-- The children of all filters below a filter, that filter included, are the filters below it. -/
theorem PipelineFilter.count_children (x : Nat) : ∀ pf : PipelineFilter σ,
    (pf.subfilters.flatMap childIds).count x = (branchFilterIds pf.branches).count x
  | .mk h bs => by
    rw [PipelineFilter.subfilters_eq, flatMap_cons, count_append]
    exact count_branch_children x bs

theorem count_branch_children (x : Nat) : ∀ bs : List (ResolvedBranch σ),
    ((bs.flatMap (·.filters)).map (·.head.filterId)).count x + ((branchSubfilters bs).flatMap childIds).count x =
      (branchFilterIds bs).count x
  | [] => by simp [branchFilterIds]
  | b :: bs => by
    have hb := ResolvedBranch.count_children x b
    have hbs := count_branch_children x bs
    have hids : branchFilterIds (b :: bs) = b.subfilters.map (·.head.filterId) ++ branchFilterIds bs := by
      rw [branchFilterIds, branchSubfilters, map_append]
      rfl
    rw [hids, branchSubfilters, flatMap_cons, map_append, flatMap_append]
    simp only [count_append]
    omega

theorem ResolvedBranch.count_children (x : Nat) : ∀ b : ResolvedBranch σ,
    (b.filters.map (·.head.filterId)).count x + (b.subfilters.flatMap childIds).count x =
      (b.subfilters.map (·.head.filterId)).count x
  | .mk h fs => by
    rw [ResolvedBranch.subfilters]
    exact count_chain_children x fs

theorem count_chain_children (x : Nat) : ∀ fs : List (PipelineFilter σ),
    (fs.map (·.head.filterId)).count x + ((subfilters fs).flatMap childIds).count x = (filterIds fs).count x
  | [] => by simp [filterIds]
  | pf :: fs => by
    have hp := PipelineFilter.count_children x pf
    have hfs := count_chain_children x fs
    rw [filterIds_cons, subfilters, map_cons, flatMap_append]
    simp only [count_append, count_cons]
    omega

end

section

variable (hnd : (filterIds pfs).Nodup) (hp : p ∈ subfilters pfs) (hq : q ∈ subfilters pfs)
include hnd hp hq

/-- With distinct ids, two filters of the tree with a child of the same id are the same filter. -/
theorem parent_unique {x : Nat} (hxp : x ∈ childIds p) (hxq : x ∈ childIds q) : p = q := by
  have hchildren : ((subfilters pfs).flatMap childIds).Nodup := by
    rw [nodup_iff_count_le_one] at hnd ⊢
    intro a
    have := count_chain_children a pfs
    have := hnd a
    omega
  have : Std.Symm (Function.onFun Disjoint (childIds (σ := σ))) := ⟨fun _ _ h _ ha hb => h hb ha⟩
  by_contra hne
  exact (nodup_flatMap.1 hchildren).2.forall hp hq hne hxp hxq

theorem parent_below (hc : c ∈ branchSubfilters p.branches) (hqc : c.head.filterId ∈ childIds q) :
    q = p ∨ q ∈ branchSubfilters p.branches := by
  obtain ⟨q', hq', hchild⟩ := PipelineFilter.exists_parent hc
  have hmem : c.head.filterId ∈ childIds q' := mem_map_of_mem hchild
  rw [PipelineFilter.subfilters_eq] at hq'
  rcases hq' with _ | ⟨_, hbelow⟩
  · exact .inl (parent_unique hnd hq hp hqc hmem)
  · have hin : q' ∈ subfilters pfs := subfilters_trans hp hbelow
    exact .inr (parent_unique hnd hq hin hqc hmem ▸ hbelow)

end

end Praxis.Pipeline
