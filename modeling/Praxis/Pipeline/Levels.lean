/-
The shape of what branch resolution returns. Every call of the resolver goes one level down and
the depth is bounded, so resolution ends for every configuration, cyclic ones included. A level
of the tree is the top level or the joined chains of one branch. Ids, iteration limits, the number
of filters and the depth are as documented; a forward rejoin is resolved inside its own chain, and
its index is one of the level only if no chain stands before it.
-/
import Praxis.Pipeline.Resolved

namespace Praxis.Pipeline

open PipelineFilter ResolvedBranch List Nat

variable {σ κ : Type}

/-! ## Termination -/

/-- A call of `resolve_chain_filters_with_stack` at a depth, and the calls it makes unless the
depth is exceeded. -/
inductive NestedCall (chains : String → Option (List (FilterEntry κ))) :
    Nat × List (FilterEntry κ) → Nat × List (FilterEntry κ) → Prop
  | branch {depth : Nat} {es : List (FilterEntry κ)} {entry : FilterEntry κ} {cfg : BranchChainConfig κ}
    {ref : ChainRef κ} (hdepth : depth ≤ maxBranchDepth) (hentry : entry ∈ es)
    (hconfig : cfg ∈ entry.branchConfigs) (href : ref ∈ cfg.refs) :
    NestedCall chains (depth + 1, ref.entries chains) (depth, es)

/-- No call of the resolver makes calls without end. -/
theorem nestedCall_wellFounded (chains : String → Option (List (FilterEntry κ))) : WellFounded (NestedCall chains) := by
  refine Subrelation.wf ?_ (measure fun call : Nat × List (FilterEntry κ) => maxBranchDepth + 1 - call.1).wf
  rintro _ _ ⟨hdepth, -, -, -⟩
  show maxBranchDepth + 1 - (_ + 1) < maxBranchDepth + 1 - _
  omega

/-! ## Levels of the tree -/

/-- The top level and the chain of every branch. -/
def treeLevels (fs : List (PipelineFilter σ)) : List (List (PipelineFilter σ)) :=
  fs :: (subfilters fs).flatMap fun pf => pf.branches.map (·.filters)

mutual

def PipelineFilter.depth : PipelineFilter σ → Nat
  | .mk _ branches => branchesDepth branches

def branchesDepth : List (ResolvedBranch σ) → Nat
  | [] => 0
  | b :: rest => max b.depth (branchesDepth rest)

def ResolvedBranch.depth : ResolvedBranch σ → Nat
  | .mk _ [] => 0
  | .mk _ (pf :: rest) => max pf.depth (levelDepth rest) + 1

/-- How many branches deep the deepest filter below a level is nested. -/
def levelDepth : List (PipelineFilter σ) → Nat
  | [] => 0
  | pf :: rest => max pf.depth (levelDepth rest)

end

/-- Rejoin targets of a level: forward ones stand after their host and inside the level, backward
ones at or before it and with an iteration limit. -/
structure LevelOk (level : List (PipelineFilter σ)) : Prop where
  forward : ∀ i (pf : PipelineFilter σ), level[i]? = some pf → ∀ b ∈ pf.branches, ∀ t, b.head.rejoin = .skipTo t →
    i < t ∧ t < level.length
  backward : ∀ i (pf : PipelineFilter σ), level[i]? = some pf → ∀ b ∈ pf.branches, ∀ t, b.head.rejoin = .reEnter t →
    t ≤ i ∧ ∃ limit, b.head.maxIterations = some limit

structure WellFormed (fs : List (PipelineFilter σ)) : Prop where
  ids : (filterIds fs).Nodup
  levels : ∀ level ∈ treeLevels fs, LevelOk level
  instances : (subfilters fs).length ≤ maxPipelineFilterInstances
  depth : levelDepth fs ≤ maxBranchDepth

/-! ## Rejoin targets at every level -/

section

variable (Q : Nat → Nat → BranchHead → Prop)

/-- `Q` holds of every branch of a level: of the length of the level, the position of the host and
the branch. The filters start at position `offset` of a level of length `n`. -/
def LevelAll (offset n : Nat) (level : List (PipelineFilter σ)) : Prop :=
  ∀ i (pf : PipelineFilter σ), level[i]? = some pf → ∀ b ∈ pf.branches, Q n (offset + i) b.head

/-- And of every branch of the levels below. -/
def DeepAll (offset n : Nat) (level : List (PipelineFilter σ)) : Prop :=
  LevelAll Q offset n level ∧ ∀ pf ∈ subfilters level, ∀ b ∈ pf.branches, LevelAll Q 0 b.filters.length b.filters

variable {Q} {offset n : Nat} {xs ys : List (PipelineFilter σ)}

theorem levelAll_append : LevelAll Q offset n (xs ++ ys) ↔ LevelAll Q offset n xs ∧ LevelAll Q (offset + xs.length) n ys := by
  constructor
  · refine fun h => ⟨fun i pf hpf => h i pf ?_, fun i pf hpf b hb => ?_⟩
    · obtain ⟨hlt, -⟩ := List.getElem?_eq_some_iff.1 hpf
      rw [List.getElem?_append_left hlt, hpf]
    · have := h (xs.length + i) pf (by rw [List.getElem?_append_right (by omega), Nat.add_sub_cancel_left, hpf]) b hb
      rwa [← Nat.add_assoc] at this
  · rintro ⟨hx, hy⟩ i pf hpf b hb
    by_cases hlt : i < xs.length
    · rw [List.getElem?_append_left hlt] at hpf
      exact hx i pf hpf b hb
    · rw [List.getElem?_append_right (by omega)] at hpf
      have := hy (i - xs.length) pf hpf b hb
      rwa [show offset + xs.length + (i - xs.length) = offset + i by omega] at this

theorem deepAll_append : DeepAll Q offset n (xs ++ ys) ↔ DeepAll Q offset n xs ∧ DeepAll Q (offset + xs.length) n ys := by
  rw [DeepAll, DeepAll, DeepAll, levelAll_append, subfilters_append, forall_mem_append]
  tauto

theorem deepAll_iff_get {level : List (PipelineFilter σ)} :
    DeepAll Q offset n level ↔ ∀ i (pf : PipelineFilter σ), level[i]? = some pf → ∀ b ∈ pf.branches,
      Q n (offset + i) b.head ∧ DeepAll Q 0 b.filters.length b.filters := by
  constructor
  · rintro ⟨hlevel, hbelow⟩ i pf hpf b hb
    have hmem : pf ∈ level := mem_of_getElem? hpf
    refine ⟨hlevel i pf hpf b hb, hbelow pf (mem_subfilters hmem) b hb, fun pf' hpf' => hbelow pf' ?_⟩
    refine branchSubfilters_subset hmem ?_
    rw [branchSubfilters_eq_flatMap]
    exact mem_flatMap.2 ⟨b, hb, hpf'⟩
  · intro h
    refine ⟨fun i pf hpf b hb => (h i pf hpf b hb).1, fun pf hpf b hb => ?_⟩
    rw [subfilters_eq_flatMap] at hpf
    obtain ⟨top, htop, hpf⟩ := mem_flatMap.1 hpf
    obtain ⟨i, hi⟩ := getElem?_of_mem htop
    rw [PipelineFilter.subfilters_eq] at hpf
    rcases hpf with _ | ⟨_, hpf⟩
    · exact (h i pf hi b hb).2.1
    · rw [branchSubfilters_eq_flatMap] at hpf
      obtain ⟨b', hb', hpf⟩ := mem_flatMap.1 hpf
      exact (h i top hi b' hb').2.2 pf hpf b hb

end

/-- What a branch of the host at position `idx` must be in a level of length `n`. -/
def RejoinOk (n idx : Nat) (b : BranchHead) : Prop :=
  (∀ t, b.rejoin = .skipTo t → idx < t ∧ t < n) ∧
    ∀ t, b.rejoin = .reEnter t → t ≤ idx ∧ ∃ limit, b.maxIterations = some limit

theorem levelOk_iff {level : List (PipelineFilter σ)} : LevelOk level ↔ LevelAll RejoinOk 0 level.length level := by
  constructor
  · intro h i pf hpf b hb
    rw [Nat.zero_add]
    exact ⟨h.forward i pf hpf b hb, h.backward i pf hpf b hb⟩
  · intro h
    refine ⟨fun i pf hpf b hb => ?_, fun i pf hpf b hb => ?_⟩
    · have := (h i pf hpf b hb).1
      rwa [Nat.zero_add] at this
    · have := (h i pf hpf b hb).2
      rwa [Nat.zero_add] at this

theorem levels_ok_iff {fs : List (PipelineFilter σ)} :
    (∀ level ∈ treeLevels fs, LevelOk level) ↔ DeepAll RejoinOk 0 fs.length fs := by
  rw [treeLevels, forall_mem_cons, levelOk_iff, DeepAll]
  refine and_congr Iff.rfl ⟨fun h pf hpf b hb => ?_, fun h level hlevel => ?_⟩
  · exact levelOk_iff.1 (h b.filters (mem_flatMap.2 ⟨pf, hpf, mem_map_of_mem hb⟩))
  · obtain ⟨pf, hpf, hlevel⟩ := mem_flatMap.1 hlevel
    obtain ⟨b, hb, rfl⟩ := mem_map.1 hlevel
    exact levelOk_iff.2 (h pf hpf b hb)

/-! ## Configurations whose forward rejoins stay forward -/

/-- The rejoin of a branch at position `idx` of its chain names the filter at the later position
`t` of that chain. -/
def ForwardTarget (names : List (Option String)) (rejoin : String) (idx t : Nat) : Prop :=
  (rejoin ≠ "next" ∧ rejoin ≠ "terminal" ∧ rejoin ≠ "client") ∧ nameIndex names rejoin = [t] ∧ idx < t

section

variable (chains : String → Option (List (FilterEntry κ))) (aligned : Nat → List (FilterEntry κ) → Prop)

/-- The chains of a branch, each behind the filters of those before it. -/
def RefsAligned : Nat → List (ChainRef κ) → Prop
  | _, [] => True
  | offset, ref :: refs => aligned offset (ref.entries chains) ∧ RefsAligned (offset + (ref.entries chains).length) refs

end

/-- Every forward rejoin of a chain that stands behind `offset` other filters names a filter whose
position in the chain is after the host's position in the level, and so in the chains of its
branches, `levels` deep. -/
def Aligned (chains : String → Option (List (FilterEntry κ))) : Nat → Nat → List (FilterEntry κ) → Prop
  | 0, _, _ => True
  | levels + 1, offset, es => ∀ idx entry, es[idx]? = some entry → ∀ cfg ∈ entry.branchConfigs,
    (∀ t, ForwardTarget (entryNames es) cfg.head.rejoin idx t → offset + idx < t) ∧
      RefsAligned chains (Aligned chains levels) 0 cfg.refs

variable {names : List (Option String)}

theorem lt_of_nameIndex {target : String} {t : Nat} (h : nameIndex names target = [t]) : t < names.length := by
  have hmem : t ∈ nameIndex names target := by rw [h]; exact mem_singleton_self t
  exact mem_range.1 (mem_filter.1 hmem).1

theorem resolveRejoin_skipTo_iff {rejoin : String} {idx : Nat} {target : RejoinTarget}
    (h : resolveRejoin rejoin names idx = .ok target) (t : Nat) : target = .skipTo t ↔ ForwardTarget names rejoin idx t := by
  rw [resolveRejoin] at h
  split at h
  case isTrue hnext =>
    cases h
    exact ⟨nofun, fun hf => absurd hnext hf.1.1⟩
  case isFalse hnext =>
    split at h
    case isTrue hterminal =>
      cases h
      exact ⟨nofun, fun hf => absurd hterminal (not_or.2 hf.1.2)⟩
    case isFalse hterminal =>
      have hnamed : rejoin ≠ "next" ∧ rejoin ≠ "terminal" ∧ rejoin ≠ "client" := ⟨hnext, not_or.1 hterminal⟩
      rw [resolveNamedRejoin] at h
      split at h
      case h_1 i hi =>
        split at h
        case isTrue hle =>
          cases h
          refine ⟨nofun, fun hf => ?_⟩
          obtain rfl : i = t := by simpa [hi] using hf.2.1
          exact absurd hf.2.2 (Nat.not_lt.2 hle)
        case isFalse hlt =>
          cases h
          refine ⟨fun ht => ?_, fun hf => ?_⟩
          · obtain rfl : i = t := by simpa using ht
            exact ⟨hnamed, hi, Nat.not_le.1 hlt⟩
          · obtain rfl : i = t := by simpa [hi] using hf.2.1
            rfl
      case h_2 => cases h
      case h_3 => cases h

section

variable {chains : String → Option (List (FilterEntry κ))} {below : List (FilterEntry κ) → List (PipelineFilter σ) → Prop}
  {names : List (Option String)} {idx n : Nat}

theorem EntriesYield.length_eq {es : List (FilterEntry κ)} {fs : List (PipelineFilter σ)}
    (h : EntriesYield chains below names idx es fs) : fs.length = es.length := by
  induction h with
  | nil => rfl
  | cons hbranches hrest ih => rw [length_cons, length_cons, ih]

theorem forall₂_forall_iff {α β : Type} {R : α → β → Prop} {P : α → Prop} {Q : β → Prop} {xs : List α} {ys : List β}
    (h : Forall₂ R xs ys) (hPQ : ∀ x y, R x y → (Q y ↔ P x)) : (∀ y ∈ ys, Q y) ↔ ∀ x ∈ xs, P x := by
  induction h with
  | nil => exact ⟨fun _ => nofun, fun _ => nofun⟩
  | cons hxy hrest ih => rw [forall_mem_cons, forall_mem_cons, ih, hPQ _ _ hxy]

theorem RefsYield.deepAll_iff {aligned : Nat → List (FilterEntry κ) → Prop}
    (hlength : ∀ es (xs : List (PipelineFilter σ)), below es xs → xs.length = es.length)
    (hbelow : ∀ es (xs : List (PipelineFilter σ)) offset, below es xs → xs.length ≤ n →
      (DeepAll RejoinOk offset n xs ↔ aligned offset es)) {refs : List (ChainRef κ)} {out : List (PipelineFilter σ)}
    (h : RefsYield chains below refs out) (hout : out.length ≤ n) (offset : Nat) :
    DeepAll RejoinOk offset n out ↔ RefsAligned chains aligned offset refs := by
  induction h generalizing offset with
  | nil =>
    refine ⟨fun _ => trivial, fun _ => ⟨fun i pf hpf => ?_, by simp⟩⟩
    cases hpf
  | @cons ref refs xs ys hx hy ih =>
    rw [length_append] at hout
    rw [deepAll_append, RefsAligned, hbelow _ _ _ hx (by omega), ih (by omega), hlength _ _ hx]

/-- A branch is as it must be exactly when a forward rejoin of its configuration stays forward. -/
theorem BranchYields.rejoinOk_iff {offset : Nat} {cfg : BranchChainConfig κ} {b : ResolvedBranch σ}
    (h : BranchYields chains below names idx cfg b) (hn : names.length ≤ n) :
    RejoinOk n (offset + idx) b.head ↔ ∀ t, ForwardTarget names cfg.head.rejoin idx t → offset + idx < t := by
  constructor
  · intro hok t ht
    exact (hok.1 t ((resolveRejoin_skipTo_iff h.rejoin t).2 ht)).1
  · intro hforward
    refine ⟨fun t ht => ?_, fun t ht => ⟨?_, h.limit t ht⟩⟩
    · have htarget := (resolveRejoin_skipTo_iff h.rejoin t).1 ht
      exact ⟨hforward t htarget, Nat.lt_of_lt_of_le (lt_of_nameIndex htarget.2.1) hn⟩
    · have := (resolveRejoin_ok h.rejoin).2 t ht
      omega

end

theorem Yields.length_eq {chains : String → Option (List (FilterEntry κ))} : ∀ {levels : Nat} {es : List (FilterEntry κ)}
    {fs : List (PipelineFilter σ)}, Yields chains levels es fs → fs.length = es.length
  | 0, _, _, h => h.elim
  | _ + 1, _, _, h => EntriesYield.length_eq h

/-- A tree is as it must be, level by level, exactly when its configuration is aligned. -/
theorem Yields.deepAll_iff {chains : String → Option (List (FilterEntry κ))} : ∀ {levels : Nat}
    {es : List (FilterEntry κ)} {fs : List (PipelineFilter σ)} {n : Nat} (offset : Nat),
    Yields chains levels es fs → fs.length ≤ n →
      (DeepAll RejoinOk offset n fs ↔ Aligned chains levels offset es)
  | 0, _, _, _, _, h, _ => h.elim
  | levels + 1, es, fs, n, offset, h, hn => by
    have hlength : fs.length = es.length := h.length_eq
    have hnames : (entryNames es).length ≤ n := by rw [entryNames, List.length_map, ← hlength]; exact hn
    rw [deepAll_iff_get, Aligned]
    -- the branches of one host against the configurations of its entry
    have hhost : ∀ {idx : Nat} {entry : FilterEntry κ} {pf : PipelineFilter σ}, es[idx]? = some entry →
        fs[idx]? = some pf →
        ((∀ b ∈ pf.branches, RejoinOk n (offset + idx) b.head ∧ DeepAll RejoinOk 0 b.filters.length b.filters) ↔
          ∀ cfg ∈ entry.branchConfigs,
            (∀ t, ForwardTarget (entryNames es) cfg.head.rejoin idx t → offset + idx < t) ∧
              RefsAligned chains (Aligned chains levels) 0 cfg.refs) := by
      intro idx entry pf hentry hpf
      obtain ⟨_, hsame, hbranches⟩ := EntriesYield.branches h hpf
      cases hentry.symm.trans hsame
      rw [Nat.zero_add] at hbranches
      refine forall₂_forall_iff hbranches fun cfg b hb => and_congr (hb.rejoinOk_iff hnames) ?_
      exact hb.chain.deepAll_iff (fun _ _ hy => hy.length_eq) (fun _ _ offset hy hle => hy.deepAll_iff offset hle)
        (Nat.le_refl _) 0
    constructor
    · intro hall idx entry hentry
      obtain ⟨hlt, -⟩ := List.getElem?_eq_some_iff.1 hentry
      have hpf := List.getElem?_eq_getElem (l := fs) (i := idx) (by omega)
      exact (hhost hentry hpf).1 (hall idx _ hpf)
    · intro hall idx pf hpf
      obtain ⟨hlt, -⟩ := List.getElem?_eq_some_iff.1 hpf
      have hentry := List.getElem?_eq_getElem (l := es) (i := idx) (by omega)
      exact (hhost hentry hpf).2 (hall idx _ hentry)

/-! ## Depth -/

theorem levelDepth_append {xs ys : List (PipelineFilter σ)} :
    levelDepth (xs ++ ys) = max (levelDepth xs) (levelDepth ys) := by
  induction xs with
  | nil => rw [List.nil_append, levelDepth, Nat.zero_max]
  | cons pf xs ih => rw [List.cons_append, levelDepth, levelDepth, ih, Nat.max_assoc]

theorem PipelineFilter.depth_eq (pf : PipelineFilter σ) : pf.depth = branchesDepth pf.branches := by
  cases pf with
  | mk head branches => rw [depth]; rfl

theorem ResolvedBranch.depth_le {b : ResolvedBranch σ} {n : Nat} (h : b.filters ≠ [] → levelDepth b.filters + 1 ≤ n) :
    b.depth ≤ n := by
  cases b with
  | mk head fs =>
    cases fs with
    | nil => rw [depth]; exact zero_le _
    | cons pf rest => rw [depth, ← levelDepth]; exact h nofun

theorem branchesDepth_le {n : Nat} : ∀ {branches : List (ResolvedBranch σ)}, (∀ b ∈ branches, b.depth ≤ n) →
    branchesDepth branches ≤ n
  | [], _ => by rw [branchesDepth]; exact Nat.zero_le _
  | b :: rest, h => by
    rw [branchesDepth]
    exact Nat.max_le.2 ⟨h b (.head _), branchesDepth_le fun b' hb' => h b' (.tail b hb')⟩

section

variable {chains : String → Option (List (FilterEntry κ))} {below : List (FilterEntry κ) → List (PipelineFilter σ) → Prop}

theorem RefsYield.depth_lt {n : Nat} (hbelow : ∀ es (xs : List (PipelineFilter σ)), below es xs → levelDepth xs < n)
    {refs : List (ChainRef κ)} {out : List (PipelineFilter σ)} (h : RefsYield chains below refs out) (hout : out ≠ []) :
    levelDepth out < n := by
  induction h with
  | nil => cases hout rfl
  | @cons ref refs xs ys hx hy ih =>
    have hxs := hbelow _ _ hx
    rw [levelDepth_append]
    by_cases hys : ys = []
    · rw [hys, levelDepth, Nat.max_zero]
      exact hxs
    · exact Nat.max_lt.2 ⟨hxs, ih hys⟩

theorem EntriesYield.depth_le {n : Nat} (hbelow : ∀ es (xs : List (PipelineFilter σ)), below es xs → levelDepth xs < n)
    {names : List (Option String)} {idx : Nat} {es : List (FilterEntry κ)} {fs : List (PipelineFilter σ)}
    (h : EntriesYield chains below names idx es fs) : levelDepth fs ≤ n := by
  induction h with
  | nil => rw [levelDepth]; exact Nat.zero_le _
  | @cons idx entry es pf fs hbranches hrest ih =>
    rw [levelDepth, PipelineFilter.depth_eq]
    refine Nat.max_le.2 ⟨branchesDepth_le fun b hb => ResolvedBranch.depth_le fun hne => ?_, ih⟩
    obtain ⟨cfg, hb⟩ := exists_of_forall₂ hbranches b hb
    exact hb.chain.depth_lt hbelow hne

end

theorem Yields.depth_lt {chains : String → Option (List (FilterEntry κ))} : ∀ {levels : Nat} {es : List (FilterEntry κ)}
    {fs : List (PipelineFilter σ)}, Yields chains levels es fs → levelDepth fs < levels
  | 0, _, _, h => h.elim
  | _ + 1, _, _, h => lt_succ_of_le (EntriesYield.depth_le (fun _ _ hy => hy.depth_lt) h)

/-! ## Instances -/

theorem IdsBetween.length_le {hi : Nat} {ids : List Nat} (h : IdsBetween 0 hi ids) : ids.length ≤ hi := by
  have hsub : ids ⊆ range hi := fun x hx => mem_range.2 (h.bounds x hx).2
  have := (subperm_of_subset h.nodup hsub).length_le
  rwa [length_range] at this

/-! ## The whole resolution -/

/-- Resolution ends for every configuration. A tree that it returns is well formed exactly when
every forward rejoin names a filter whose position in its own chain is after the host's position
among all filters of the branch. -/
theorem resolution_wellFormed_iff (reg : FilterRegistry σ κ) (hreg : reg.Counts)
    (chains : String → Option (List (FilterEntry κ))) (es : List (FilterEntry κ)) :
    WellFounded (NestedCall chains) ∧
    ∀ fs, buildWithChains reg chains es = .ok fs →
      (WellFormed fs ↔ Aligned chains (maxBranchDepth + 1) 0 es) := by
  refine ⟨nestedCall_wellFounded chains, fun fs h => ?_⟩
  obtain ⟨hyields, st, hadds⟩ := buildWithChains_ok h
  have hwithin := hadds.within hreg ⟨Nat.le_refl _, Nat.zero_le _⟩
  have hlevels := levels_ok_iff.trans (hyields.deepAll_iff 0 (Nat.le_refl fs.length))
  refine ⟨fun hwf => hlevels.1 hwf.levels, fun haligned => ⟨hadds.ids.nodup, hlevels.2 haligned, ?_, ?_⟩⟩
  · have hcount := hadds.ids.length_le
    rw [List.length_map] at hcount
    exact Nat.le_trans hcount (Nat.le_trans hwithin.counted hwithin.limited)
  · exact Nat.le_of_lt_succ hyields.depth_lt

theorem noopRegistry_counts : noopRegistry.Counts where
  grows _ _ _ budget _ spent h := by
    cases h
    exact Nat.le_refl _

/-- A forward rejoin at the top level, over a branch of one chain. -/
def forwardEntries : List (FilterEntry Unit) :=
  [.mk (.plain "headers" none) (some [.mk
     { name := "skip", maxIterations := none, onResult := none, rejoin := "last" }
     [.inline "only" [.mk (.plain "cors" none) none]]]),
   .mk (.plain "guardrails" (some "last")) none]

/-- What the build makes of `forwardEntries`. -/
def forwardFilters : List (PipelineFilter Unit) :=
  [.mk (.plain 0 none (.http (.noop "headers")))
     [.mk { name := "skip", condition := none, maxIterations := none, rejoin := .skipTo 1 }
       [.mk (.plain 2 none (.http (.noop "cors"))) []]],
   .mk (.plain 1 (some "last") (.http (.noop "guardrails"))) []]

theorem forwardFilters_wellFormed :
    buildWithChains noopRegistry (fun _ => none) forwardEntries = .ok forwardFilters ∧ WellFormed forwardFilters := by
  have hbuild : buildWithChains noopRegistry (fun _ => none) forwardEntries = .ok forwardFilters := rfl
  refine ⟨hbuild, ((resolution_wellFormed_iff noopRegistry noopRegistry_counts _ _).2 _ hbuild).2 ?_⟩
  intro idx entry hentry cfg hconfig
  match idx with
  | 0 =>
    cases hentry
    obtain rfl := mem_singleton.1 hconfig
    refine ⟨fun t ht => by simpa using ht.2.2, ?_, trivial⟩
    intro idx entry hentry cfg hconfig
    obtain rfl : entry = .mk (.plain "cors" none) none := mem_singleton.1 (mem_of_getElem? hentry)
    cases hconfig
  | 1 =>
    cases hentry
    cases hconfig
  | _ + 2 => cases hentry

/-- A forward rejoin in the second chain of a branch. -/
def joinedEntries : List (FilterEntry Unit) :=
  [.mk (.plain "headers" none) (some [.mk
     { name := "outer", maxIterations := none, onResult := none, rejoin := "next" }
     [.inline "first" [.mk (.plain "cors" none) none],
      .inline "second"
        [.mk (.plain "guardrails" none) (some [.mk
           { name := "skip", maxIterations := none, onResult := none, rejoin := "last" }
           [.inline "third" [.mk (.plain "access_log" none) none]]]),
         .mk (.plain "rate_limit" (some "last")) none]]])]

/-- The filters of the branch: the host of the rejoin is at position 1, and so is its target. -/
def joinedLevel : List (PipelineFilter Unit) :=
  [.mk (.plain 1 none (.http (.noop "cors"))) [],
   .mk (.plain 2 none (.http (.noop "guardrails")))
     [.mk { name := "skip", condition := none, maxIterations := none, rejoin := .skipTo 1 }
       [.mk (.plain 4 none (.http (.noop "access_log"))) []]],
   .mk (.plain 3 (some "last") (.http (.noop "rate_limit"))) []]

/-- What the build makes of `joinedEntries`. -/
def joinedFilters : List (PipelineFilter Unit) :=
  [.mk (.plain 0 none (.http (.noop "headers")))
     [.mk { name := "outer", condition := none, maxIterations := none, rejoin := .next } joinedLevel]]

theorem joinedFilters_not_wellFormed :
    buildWithChains noopRegistry (fun _ => none) joinedEntries = .ok joinedFilters ∧ ¬ WellFormed joinedFilters := by
  refine ⟨rfl, fun hwf => ?_⟩
  have hlevel : joinedLevel ∈ treeLevels joinedFilters := .tail _
    (List.mem_flatMap.2 ⟨_, mem_subfilters (.head _), List.mem_map_of_mem (.head _)⟩)
  have hafter := (hwf.levels joinedLevel hlevel).forward 1 _ rfl _ (.head _) 1 rfl
  exact Nat.lt_irrefl 1 hafter.1

end Praxis.Pipeline
