/-
What branch resolution guarantees about the tree it returns: filter ids are pairwise distinct at
every depth, TCP filters carry neither conditions nor branches, branch conditions name their own
host, and the rejoin targets of the top level point where the executor expects them.
-/
import Praxis.Pipeline.Build
import Mathlib.Data.List.Perm.Basic

namespace Praxis.Pipeline

open List

variable {σ κ : Type}

/-! ## Statement -/

/-- A filter as resolution leaves it. -/
structure NodeOk (pf : PipelineFilter σ) : Prop where
  tcp : pf.head.filter.isHttp = false → pf.head.conditions = [] ∧ pf.branches = []
  condition : ∀ b ∈ pf.branches, ∀ c, b.head.condition = some c → c.filterName = pf.head.filter.name

/-- A resolved pipeline. -/
structure Resolved (fs : List (PipelineFilter σ)) : Prop where
  ids : (filterIds fs).Nodup
  nodes : ∀ pf ∈ subfilters fs, NodeOk pf
  forward : ∀ i (pf : PipelineFilter σ), fs[i]? = some pf → ∀ b ∈ pf.branches, ∀ t, b.head.rejoin = .skipTo t → i < t
  backward : ∀ i (pf : PipelineFilter σ), fs[i]? = some pf → ∀ b ∈ pf.branches, ∀ t,
    b.head.rejoin = .reEnter t → t ≤ i ∧ ∃ limit, b.head.maxIterations = some limit

/-- The ids of the filters below a level, level filters left out. -/
def nestedIds (fs : List (PipelineFilter σ)) : List Nat := fs.flatMap fun pf => branchFilterIds pf.branches

theorem filterIds_perm (fs : List (PipelineFilter σ)) : (fs.map (·.head.filterId) ++ nestedIds fs).Perm (filterIds fs) := by
  induction fs with
  | nil => simp [filterIds, nestedIds]
  | cons pf rest hrest =>
    have hswap : ∀ as bs cs : List Nat, (as ++ (bs ++ cs)).Perm (bs ++ (as ++ cs)) := fun as bs cs => by
      rw [← append_assoc, ← append_assoc]
      exact perm_append_comm.append_right _
    rw [filterIds_cons, nestedIds, flatMap_cons, map_cons, cons_append]
    exact Perm.cons _ ((hswap _ _ _).trans (hrest.append_left _))

variable {fs : List (PipelineFilter σ)} {p q : PipelineFilter σ} {st : BuildState}

/-- Top-level ids are distinct from each other and from the ids inside branches. -/
theorem Resolved.top_nodup (h : Resolved fs) :
    (fs.map (·.head.filterId) ++ nestedIds fs).Nodup := (filterIds_perm fs).nodup_iff.2 h.ids

theorem Resolved.top_inj (h : Resolved fs) {i j : Nat} (hp : fs[i]? = some p) (hq : fs[j]? = some q)
    (hid : p.head.filterId = q.head.filterId) : i = j := by
  have hnd : (fs.map (·.head.filterId)).Nodup := (List.nodup_append.1 h.top_nodup).1
  have hi : (fs.map (·.head.filterId))[i]? = some p.head.filterId := by rw [List.getElem?_map, hp]; rfl
  have hj : (fs.map (·.head.filterId))[j]? = some p.head.filterId := by rw [List.getElem?_map, hq, hid]; rfl
  obtain ⟨hlt, -⟩ := List.getElem?_eq_some_iff.1 hi
  exact (List.getElem?_inj hlt hnd).1 (hi.trans hj.symm)

theorem Resolved.top_not_nested (h : Resolved fs) {c : PipelineFilter σ} (hp : p ∈ fs) (hq : q ∈ subfilters fs)
    (hc : c ∈ branchSubfilters q.branches) : c.head.filterId ≠ p.head.filterId := by
  have hdisj := (nodup_append.1 h.top_nodup).2.2
  rw [subfilters_eq_flatMap] at hq
  obtain ⟨t, ht, hqt⟩ := mem_flatMap.1 hq
  refine fun he => hdisj p.head.filterId (mem_map_of_mem hp) c.head.filterId ?_ he.symm
  exact mem_flatMap.2 ⟨t, ht, mem_map_of_mem (PipelineFilter.subfilters_trans hqt hc)⟩

theorem Resolved.id_inj (h : Resolved fs) (hp : p ∈ subfilters fs) (hq : q ∈ subfilters fs)
    (hid : p.head.filterId = q.head.filterId) : p = q :=
  inj_on_of_nodup_map h.ids hp hq hid

/-! ## The build monad -/

variable {α : Type} {st' : BuildState} {lo hi : Nat} {xs ys : List Nat} {entry : EntryHead κ}
  {bc : Option (List (BranchChainConfig κ))}

theorem buildM_bind_ok {β : Type} {x : BuildM α} {f : α → BuildM β} {r : β × BuildState} (h : (x >>= f) st = .ok r) :
    ∃ a st', x st = .ok (a, st') ∧ f a st' = .ok r := by
  change (x st >>= fun p => f p.1 p.2) = .ok r at h
  cases hx : x st with
  | error e => rw [hx] at h; cases h
  | ok p => rw [hx] at h; exact ⟨p.1, p.2, rfl, h⟩

theorem buildM_lift_ok {x : Except FilterError α} {a : α} (h : (liftM x : BuildM α) st = .ok (a, st')) :
    x = .ok a ∧ st' = st := by
  cases x with
  | error e => cases h
  | ok b => cases h; exact ⟨rfl, rfl⟩

/-! ## Fresh ids -/

/-- Distinct ids handed out between two values of the counter. -/
structure IdsBetween (lo hi : Nat) (ids : List Nat) : Prop where
  le : lo ≤ hi
  nodup : ids.Nodup
  bounds : ∀ x ∈ ids, lo ≤ x ∧ x < hi

theorem IdsBetween.nil (n : Nat) : IdsBetween n n [] := ⟨Nat.le_refl n, nodup_nil, by simp⟩

theorem IdsBetween.append {mid : Nat} (hx : IdsBetween lo mid xs) (hy : IdsBetween mid hi ys) :
    IdsBetween lo hi (xs ++ ys) := by
  refine ⟨Nat.le_trans hx.le hy.le, nodup_append.2 ⟨hx.nodup, hy.nodup, ?_⟩, ?_⟩
  · intro a ha b hb hab
    have := (hx.bounds a ha).2
    have := (hy.bounds b hb).1
    omega
  · intro x hm
    rcases mem_append.1 hm with hm | hm
    · have := hx.bounds x hm
      have := hy.le
      omega
    · have := hy.bounds x hm
      have := hx.le
      omega

theorem IdsBetween.perm (h : IdsBetween lo hi xs) (hp : xs.Perm ys) : IdsBetween lo hi ys :=
  ⟨h.le, hp.nodup_iff.1 h.nodup, fun x hx => h.bounds x (hp.mem_iff.2 hx)⟩

/-! ## What resolution makes of a configuration -/

/-- The entries that a chain reference stands for; an unknown name has none and fails. -/
def ChainRef.entries (chains : String → Option (List (FilterEntry κ))) : ChainRef κ → List (FilterEntry κ)
  | .inline _ fs => fs
  | .named name => (chains name).getD []

def FilterEntry.head : FilterEntry κ → EntryHead κ
  | .mk head _ => head

/-- The branch configurations of an entry. -/
def FilterEntry.branchConfigs : FilterEntry κ → List (BranchChainConfig κ)
  | .mk _ branchChains => branchChains.getD []

def BranchChainConfig.head : BranchChainConfig κ → BranchConfigHead
  | .mk head _ => head

def BranchChainConfig.refs : BranchChainConfig κ → List (ChainRef κ)
  | .mk _ chains => chains

/-- The names that rejoin targets of a chain are looked up in. -/
def entryNames (es : List (FilterEntry κ)) : List (Option String) := es.map (·.head.name)

section

variable (chains : String → Option (List (FilterEntry κ)))
  (below : List (FilterEntry κ) → List (PipelineFilter σ) → Prop)

/-- Chain references resolved one after another and joined. -/
inductive RefsYield : List (ChainRef κ) → List (PipelineFilter σ) → Prop
  | nil : RefsYield [] []
  | cons {ref : ChainRef κ} {refs : List (ChainRef κ)} {xs ys : List (PipelineFilter σ)}
    (hx : below (ref.entries chains) xs) (hy : RefsYield refs ys) : RefsYield (ref :: refs) (xs ++ ys)

/-- A branch configuration of the host at position `idx` and the branch it becomes. -/
structure BranchYields (names : List (Option String)) (idx : Nat) (cfg : BranchChainConfig κ) (b : ResolvedBranch σ) :
    Prop where
  rejoin : resolveRejoin cfg.head.rejoin names idx = .ok b.head.rejoin
  limit : ∀ t, b.head.rejoin = .reEnter t → ∃ limit, b.head.maxIterations = some limit
  chain : RefsYield chains below cfg.refs b.filters

/-- The filters of a chain from position `idx` on, with their branches. -/
inductive EntriesYield (names : List (Option String)) : Nat → List (FilterEntry κ) → List (PipelineFilter σ) → Prop
  | nil {idx : Nat} : EntriesYield names idx [] []
  | cons {idx : Nat} {entry : FilterEntry κ} {es : List (FilterEntry κ)} {pf : PipelineFilter σ}
    {fs : List (PipelineFilter σ)}
    (hbranches : Forall₂ (BranchYields chains below names idx) entry.branchConfigs pf.branches)
    (hrest : EntriesYield names (idx + 1) es fs) : EntriesYield names idx (entry :: es) (pf :: fs)

end

/-- The tree of a chain, to a nesting of `levels`. -/
def Yields (chains : String → Option (List (FilterEntry κ))) : Nat → List (FilterEntry κ) → List (PipelineFilter σ) → Prop
  | 0, _, _ => False
  | levels + 1, es, fs => EntriesYield chains (Yields chains levels) (entryNames es) 0 es fs

/-! ## Filters of one level -/

/-- Creating a filter only adds to the number of instances built so far. -/
structure FilterRegistry.Counts (reg : FilterRegistry σ κ) : Prop where
  grows : ∀ filterType cfg stack budget filter spent,
    reg.create filterType cfg stack budget = .ok (filter, spent) → budget ≤ spent

/-- Every id handed out is an instance of the budget, which is within the limit. -/
structure BuildState.Within (st : BuildState) : Prop where
  counted : st.nextFilterId ≤ st.budget
  limited : st.budget ≤ maxPipelineFilterInstances

theorem rejectTcp_ok {filter : AnyFilter σ} (h : rejectTcpUnsupportedFields filter entry bc = .ok ())
    (htcp : filter.isHttp = false) : entry.conditions = [] ∧ bc = none := by
  cases filter with
  | http f => cases htcp
  | tcp name =>
    unfold rejectTcpUnsupportedFields at h
    dsimp only at h
    split at h
    · cases h
    · rename_i hc
      split at h
      · cases h
      · rename_i hb
        simp only [Bool.or_eq_true, Bool.not_eq_true', not_or, Bool.not_eq_false] at hc
        exact ⟨isEmpty_iff.1 hc.1, by simpa using hb⟩

/-- One entry becomes one filter, with the next id, and is an instance of the budget. -/
theorem buildFilter_ok {reg : FilterRegistry σ κ} {stack : List String} {pf : FilterHead σ}
    (h : buildFilter reg stack entry bc st = .ok (pf, st')) :
    pf.filterId = st.nextFilterId ∧ st'.nextFilterId = st.nextFilterId + 1 ∧ pf.name = entry.name ∧
      (pf.filter.isHttp = false → pf.conditions = [] ∧ bc = none) ∧ (reg.Counts → st.Within → st'.Within) := by
  unfold buildFilter at h
  cases hc : reg.create entry.filterType entry.config stack st.budget with
  | error e => rw [hc] at h; cases h
  | ok p =>
    rw [hc] at h
    obtain ⟨filter, spent⟩ := p
    change (rejectTcpUnsupportedFields filter entry bc >>= fun _ => _) = Except.ok (pf, st') at h
    cases hr : rejectTcpUnsupportedFields filter entry bc with
    | error e => rw [hr] at h; cases h
    | ok u =>
      rw [hr] at h
      change (if _ then _ else _) = Except.ok (pf, st') at h
      split at h
      · cases h
      · rename_i hlimit
        cases h
        refine ⟨rfl, rfl, rfl, fun htcp => rejectTcp_ok hr htcp, fun hreg hst => ⟨?_, Nat.not_lt.1 hlimit⟩⟩
        exact Nat.succ_le_succ (Nat.le_trans hst.counted (hreg.grows _ _ _ _ _ _ hc))

theorem buildFilters_ok {reg : FilterRegistry σ κ} {stack : List String} : ∀ {es : List (FilterEntry κ)}
    {st st' : BuildState} {built : List (FilterHead σ × Option (List (BranchChainConfig κ)))},
    buildFilters reg stack es st = .ok (built, st') →
      IdsBetween st.nextFilterId st'.nextFilterId (built.map (·.1.filterId)) ∧
      (∀ p ∈ built, p.1.filter.isHttp = false → p.1.conditions = [] ∧ p.2 = none) ∧
      built.map (·.1.name) = entryNames es ∧ built.map (·.2.getD []) = es.map (·.branchConfigs) ∧
      (reg.Counts → st.Within → st'.Within)
  | [], st, st', built, h => by
    rw [buildFilters] at h
    cases h
    exact ⟨IdsBetween.nil _, by simp, rfl, rfl, fun _ hst => hst⟩
  | .mk entry bc :: rest, st, st', built, h => by
    rw [buildFilters] at h
    obtain ⟨pf, st₁, h₁, h⟩ := buildM_bind_ok h
    obtain ⟨more, st₂, h₂, h⟩ := buildM_bind_ok h
    cases h
    obtain ⟨hid, hnext, hname, htcp, hwithin⟩ := buildFilter_ok h₁
    obtain ⟨hids, hnodes, hnames, hbranches, hwithin'⟩ := buildFilters_ok h₂
    have hhead : IdsBetween st.nextFilterId st₁.nextFilterId [pf.filterId] :=
      ⟨by omega, nodup_singleton _, by simp; omega⟩
    refine ⟨hhead.append hids, forall_mem_cons.2 ⟨htcp, hnodes⟩, ?_, ?_, fun hreg hst => hwithin' hreg (hwithin hreg hst)⟩
    · rw [map_cons, hname, hnames]
      rfl
    · rw [map_cons, hbranches]
      rfl

/-! ## Rejoin targets -/

theorem resolveRejoin_ok {rejoin : String} {names : List (Option String)} {idx : Nat} {target : RejoinTarget}
    (h : resolveRejoin rejoin names idx = .ok target) :
    (∀ t, target = .skipTo t → idx < t) ∧ ∀ t, target = .reEnter t → t ≤ idx := by
  unfold resolveRejoin at h
  split at h
  · cases h
    exact ⟨nofun, nofun⟩
  split at h
  · cases h
    exact ⟨nofun, nofun⟩
  unfold resolveNamedRejoin at h
  split at h
  · rename_i i hi
    split at h
    · cases h
      refine ⟨nofun, fun t ht => ?_⟩
      cases ht
      assumption
    · cases h
      refine ⟨fun t ht => ?_, nofun⟩
      cases ht
      omega
  · cases h
  · cases h

/-! ## Branches of one level -/

/-- Filters that a part of the build adds: with fresh ids, as resolution leaves them, and, if instances are
counted, within the budget. -/
structure Adds (counts : Prop) (st st' : BuildState) (fs : List (PipelineFilter σ)) : Prop where
  ids : IdsBetween st.nextFilterId st'.nextFilterId (fs.map (·.head.filterId))
  nodes : ∀ pf ∈ fs, NodeOk pf
  within : counts → st.Within → st'.Within

section

variable {chains : String → Option (List (FilterEntry κ))} {below : List (FilterEntry κ) → List (PipelineFilter σ) → Prop}
  {resolve : List String → List (FilterEntry κ) → BuildM (List (PipelineFilter σ))} {counts : Prop}

theorem Adds.nil (st : BuildState) : Adds counts st st ([] : List (PipelineFilter σ)) :=
  ⟨IdsBetween.nil _, by simp, fun _ hst => hst⟩

theorem Adds.append {st₀ st₁ st₂ : BuildState} {xs ys : List (PipelineFilter σ)} (hx : Adds counts st₀ st₁ xs)
    (hy : Adds counts st₁ st₂ ys) : Adds counts st₀ st₂ (xs ++ ys) := by
  refine ⟨?_, forall_mem_append.2 ⟨hx.nodes, hy.nodes⟩, fun hc hst => hy.within hc (hx.within hc hst)⟩
  rw [map_append]
  exact hx.ids.append hy.ids

/-- What the resolver one level down is trusted with: it builds what `below` says. -/
def ResolvesChains (resolve : List String → List (FilterEntry κ) → BuildM (List (PipelineFilter σ)))
    (below : List (FilterEntry κ) → List (PipelineFilter σ) → Prop) (counts : Prop) : Prop :=
  ∀ stack es st out st', resolve stack es st = .ok (out, st') →
    below es out ∧ Adds counts st st' (subfilters out)

variable {refs : List (ChainRef κ)} {es : List (FilterEntry κ)} {st' : BuildState} {out : List (PipelineFilter σ)}
  {stack : List String} {host : String} {reg : FilterRegistry σ κ}

theorem resolveChainRefs_cons (hres : ResolvesChains resolve below counts) {inner : List String} {ref : ChainRef κ}
    {rest : BuildM (List (PipelineFilter σ))}
    (hrest : ∀ {st st' out}, rest st = .ok (out, st') → RefsYield chains below refs out ∧ Adds counts st st' (subfilters out))
    (h : (do let fs ← resolve inner es
             let more ← rest
             pure (fs ++ more) : BuildM _) st = .ok (out, st')) (hentries : ref.entries chains = es) :
    RefsYield chains below (ref :: refs) out ∧ Adds counts st st' (subfilters out) := by
  obtain ⟨fs, st₁, h₁, h⟩ := buildM_bind_ok h
  obtain ⟨more, st₂, h₂, h⟩ := buildM_bind_ok h
  cases h
  obtain ⟨hx, hadds⟩ := hres _ _ _ _ _ h₁
  obtain ⟨hy, hadds'⟩ := hrest h₂
  rw [subfilters_append]
  exact ⟨.cons (hentries ▸ hx) hy, hadds.append hadds'⟩

theorem resolveChainRefs_ok (hres : ResolvesChains resolve below counts)
    (h : resolveChainRefs chains resolve stack refs st = .ok (out, st')) :
    RefsYield chains below refs out ∧ Adds counts st st' (subfilters out) := by
  induction refs generalizing st st' out with
  | nil =>
    rw [resolveChainRefs] at h
    cases h
    exact ⟨.nil, Adds.nil st⟩
  | cons ref rest ih =>
    cases ref with
    | named name =>
      rw [resolveChainRefs] at h
      cases hch : chains name with
      | none =>
        simp only [hch] at h
        cases h
      | some es =>
        simp only [hch] at h
        obtain ⟨inner, st₀, h₀, hafter⟩ := buildM_bind_ok h
        obtain ⟨-, rfl⟩ := buildM_lift_ok h₀
        have hentries : (ChainRef.named name).entries chains = es := by rw [ChainRef.entries, hch, Option.getD_some]
        exact resolveChainRefs_cons hres ih hafter hentries
    | «inline» name es =>
      rw [resolveChainRefs] at h
      exact resolveChainRefs_cons hres ih h rfl

theorem checkOnResultFilter_ok {cfg : BranchConfigHead} (h : checkOnResultFilter cfg host = .ok ()) :
    ∀ c, cfg.onResult.map resolveCondition = some c → c.filterName = host := by
  intro c hc
  unfold checkOnResultFilter at h
  split at h
  · rename_i hnone
    rw [hnone] at hc
    cases hc
  · rename_i cond hcond
    rw [hcond] at hc
    cases hc
    split at h
    · assumption
    · cases h

theorem resolveSingleBranch_ok (hres : ResolvesChains resolve below counts) {names : List (Option String)} {idx : Nat}
    {cfg : BranchChainConfig κ} {b : ResolvedBranch σ}
    (h : resolveSingleBranch chains resolve stack host names idx cfg st = .ok (b, st')) :
    BranchYields chains below names idx cfg b ∧ (∀ c, b.head.condition = some c → c.filterName = host) ∧
      Adds counts st st' (subfilters b.filters) := by
  obtain ⟨cfg, refs⟩ := cfg
  rw [resolveSingleBranch] at h
  obtain ⟨u, st₀, h₀, hafter⟩ := buildM_bind_ok h
  obtain ⟨hon, rfl⟩ := buildM_lift_ok h₀
  obtain ⟨fs, st₁, h₁, hafter⟩ := buildM_bind_ok hafter
  obtain ⟨rejoin, st₂, h₂, hchecked⟩ := buildM_bind_ok hafter
  obtain ⟨hrejoin, rfl⟩ := buildM_lift_ok h₂
  obtain ⟨v, st₃, h₃, hlast⟩ := buildM_bind_ok hchecked
  obtain ⟨hlimit, rfl⟩ := buildM_lift_ok h₃
  cases hlast
  obtain ⟨hrefs, hadds⟩ := resolveChainRefs_ok hres h₁
  refine ⟨⟨hrejoin, fun t ht => ?_, hrefs⟩, checkOnResultFilter_ok hon, hadds⟩
  change rejoin = .reEnter t at ht
  rw [ht, checkBackwardRejoin] at hlimit
  split at hlimit
  · cases hlimit
  · rename_i hsome
    exact Option.ne_none_iff_exists'.1 (by simpa using hsome)

theorem resolveBranches_ok (hres : ResolvesChains resolve below counts) {stack : List String} {host : String}
    {names : List (Option String)} {idx : Nat} : ∀ {configs : List (BranchChainConfig κ)} {st st' : BuildState}
    {bs : List (ResolvedBranch σ)}, resolveBranches chains resolve stack host names idx configs st = .ok (bs, st') →
      Forall₂ (BranchYields chains below names idx) configs bs ∧
      (∀ b ∈ bs, ∀ c, b.head.condition = some c → c.filterName = host) ∧ Adds counts st st' (branchSubfilters bs)
  | [], st, st', bs, h => by
    rw [resolveBranches] at h
    cases h
    exact ⟨.nil, by simp, Adds.nil st⟩
  | cfg :: rest, st, st', bs, h => by
    rw [resolveBranches] at h
    obtain ⟨b, st₁, h₁, h⟩ := buildM_bind_ok h
    obtain ⟨more, st₂, h₂, h⟩ := buildM_bind_ok h
    cases h
    obtain ⟨hb, hcond, hadds⟩ := resolveSingleBranch_ok hres h₁
    obtain ⟨hbs, hconds, hadds'⟩ := resolveBranches_ok hres h₂
    rw [branchSubfilters_cons]
    exact ⟨.cons hb hbs, forall_mem_cons.2 ⟨hcond, hconds⟩, hadds.append hadds'⟩

/-- `attach_branches` keeps the filters of the level and fills in their branches. -/
theorem attachBranches_ok (hres : ResolvesChains resolve below counts) {stack : List String} {names : List (Option String)} :
    ∀ {built : List (FilterHead σ × Option (List (BranchChainConfig κ)))} {es : List (FilterEntry κ)} {idx : Nat}
      {st st' : BuildState} {out : List (PipelineFilter σ)},
      attachBranches chains resolve stack names idx built st = .ok (out, st') →
      built.map (·.2.getD []) = es.map (·.branchConfigs) →
      (∀ p ∈ built, p.1.filter.isHttp = false → p.1.conditions = [] ∧ p.2 = none) →
      EntriesYield chains below names idx es out ∧ out.map (·.head) = built.map (·.1) ∧ (∀ pf ∈ out, NodeOk pf) ∧
      Adds counts st st' (out.flatMap fun pf => branchSubfilters pf.branches)
  | [], es, idx, st, st', out, h, hentries, _ => by
    rw [attachBranches] at h
    cases h
    obtain rfl : es = [] := by simpa using hentries.symm
    exact ⟨.nil, rfl, by simp, Adds.nil st⟩
  | (pf, configs) :: rest, es, idx, st, st', out, h, hentries, htcp => by
    rw [attachBranches] at h
    obtain ⟨bs, st₁, h₁, h⟩ := buildM_bind_ok h
    obtain ⟨more, st₂, h₂, h⟩ := buildM_bind_ok h
    cases h
    cases es with
    | nil => cases hentries
    | cons entry es =>
      rw [map_cons, map_cons, cons.injEq] at hentries
      obtain ⟨hbs, hconds, hadds⟩ := resolveBranches_ok hres h₁
      obtain ⟨hrest, hheads, hnodes, hadds'⟩ :=
        attachBranches_ok hres h₂ hentries.2 fun p hp => htcp p (.tail _ hp)
      have hpf : NodeOk (.mk pf bs) := by
        refine ⟨fun hh => ?_, hconds⟩
        obtain ⟨hempty, hnone⟩ := htcp (pf, configs) (.head _) hh
        change configs = none at hnone
        rw [hnone, Option.getD_none, resolveBranches] at h₁
        cases h₁
        exact ⟨hempty, rfl⟩
      rw [show configs.getD [] = entry.branchConfigs from hentries.1] at hbs
      refine ⟨.cons hbs hrest, ?_, forall_mem_cons.2 ⟨hpf, hnodes⟩, ?_⟩
      · rw [map_cons, map_cons, hheads]
        rfl
      · rw [flatMap_cons]
        exact hadds.append hadds'

/-! ## The whole resolution -/

theorem resolveChainFilters_ok {reg : FilterRegistry σ κ} :
    ∀ levels : Nat, ResolvesChains (resolveChainFilters reg chains levels) (Yields chains levels) reg.Counts
  | 0 => by
    intro stack es st out st' h
    cases h
  | levels + 1 => by
    intro stack es st out st' h
    rw [resolveChainFilters] at h
    obtain ⟨built, st₁, h₁, h₂⟩ := buildM_bind_ok h
    obtain ⟨hids, htcp, hnames, hbranches, hwithin⟩ := buildFilters_ok h₁
    obtain ⟨hyields, hheads, hnodes, hadds⟩ := attachBranches_ok (resolveChainFilters_ok levels) h₂ hbranches htcp
    rw [hnames] at hyields
    refine ⟨hyields, IdsBetween.perm ?_ (filterIds_perm out), fun pf hpf => ?_, fun hreg hst => hadds.within hreg (hwithin hreg hst)⟩
    · have hmap : out.map (·.head.filterId) = built.map (·.1.filterId) := by
        have := congrArg (map FilterHead.filterId) hheads
        simpa only [map_map, Function.comp_def] using this
      have hnested : (out.flatMap fun pf => branchSubfilters pf.branches).map (·.head.filterId) = nestedIds out :=
        map_flatMap
      rw [hmap, ← hnested]
      exact hids.append hadds.ids
    · rw [subfilters_eq_flatMap] at hpf
      obtain ⟨top, htop, hpf⟩ := mem_flatMap.1 hpf
      rw [PipelineFilter.subfilters_eq] at hpf
      rcases hpf with _ | ⟨_, hpf⟩
      · exact hnodes pf htop
      · exact hadds.nodes pf (mem_flatMap.2 ⟨top, htop, hpf⟩)

theorem exists_of_forall₂ {α β : Type} {R : α → β → Prop} {xs : List α} {ys : List β} (h : Forall₂ R xs ys) :
    ∀ y ∈ ys, ∃ x, R x y := by
  induction h with
  | nil => simp
  | cons hxy _ ih => exact forall_mem_cons.2 ⟨⟨_, hxy⟩, ih⟩

theorem EntriesYield.branches {names : List (Option String)} {start : Nat} {es : List (FilterEntry κ)}
    (h : EntriesYield chains below names start es fs) {i : Nat} (hp : fs[i]? = some p) :
    ∃ entry, es[i]? = some entry ∧ Forall₂ (BranchYields chains below names (start + i)) entry.branchConfigs p.branches := by
  induction h generalizing i with
  | nil => cases hp
  | @cons idx _ _ _ _ hbranches hrest ih =>
    cases i with
    | zero =>
      cases hp
      exact ⟨_, rfl, hbranches⟩
    | succ i =>
      have := ih hp
      rwa [show idx + 1 + i = idx + (i + 1) by omega] at this

theorem buildWithChains_ok (h : buildWithChains reg chains es = .ok fs) :
    Yields chains (maxBranchDepth + 1) es fs ∧
      ∃ st, Adds reg.Counts ⟨0, 0⟩ st (subfilters fs) := by
  unfold buildWithChains at h
  cases hr : resolveChainFilters reg chains (maxBranchDepth + 1) [] es ⟨0, 0⟩ with
  | error e => rw [hr] at h; cases h
  | ok r =>
    rw [hr] at h
    cases h
    exact (resolveChainFilters_ok _ _ _ _ _ _ hr).imp id fun hadds => ⟨r.2, hadds⟩

theorem buildWithChains_resolved (h : buildWithChains reg chains es = .ok fs) : Resolved fs := by
  obtain ⟨hyields, st, hadds⟩ := buildWithChains_ok h
  have hrejoin : ∀ i (pf : PipelineFilter σ), fs[i]? = some pf → ∀ b ∈ pf.branches,
      ∃ cfg, BranchYields chains (Yields chains maxBranchDepth) (entryNames es) i cfg b := fun i pf hpf b hb => by
    obtain ⟨_, -, hbranches⟩ := EntriesYield.branches hyields hpf
    obtain ⟨cfg, hconfig⟩ := exists_of_forall₂ hbranches b hb
    exact ⟨cfg, Nat.zero_add i ▸ hconfig⟩
  refine ⟨hadds.ids.nodup, hadds.nodes, fun i pf hpf b hb t ht => ?_, fun i pf hpf b hb t ht => ?_⟩
  · obtain ⟨cfg, hconfig⟩ := hrejoin i pf hpf b hb
    exact (resolveRejoin_ok hconfig.rejoin).1 t ht
  · obtain ⟨cfg, hconfig⟩ := hrejoin i pf hpf b hb
    exact ⟨(resolveRejoin_ok hconfig.rejoin).2 t ht, hconfig.limit t ht⟩

end

end Praxis.Pipeline
