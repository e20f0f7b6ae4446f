/-
Population of the Maglev lookup table. Every endpoint has as many replicas as it weighs; the
replicas take turns, and in its turn a replica probes along its own sequence up to a free slot and
takes it. The loop is a machine whose step is one probe. What a slot holds is left open: a table of
owners is what the code builds, and the same fill with a number for each replica counts the slots
that a replica has taken.
-/
import Mathlib.Tactic.NormNum.Prime
import Praxis.Balancing.Endpoint
import Praxis.Lib.Probing
import Praxis.Lib.Slots

namespace Praxis.Balancing

open List Option Nat Praxis.Lib

/-- A prime, so that every probe sequence visits every slot. -/
def tableSize : Nat := 65537

theorem tableSize_prime : tableSize.Prime := by norm_num [tableSize]

/-- The seed of the hash that a replica's step comes from. -/
def skipSeed : UInt64 := 0x9E3779B97F4A7C15

/-- The mark of a free slot. -/
def sentinel : Nat := 2 ^ 32 - 1

/-- The probe sequence of a replica, and what it writes into the slots it takes. -/
structure Replica (γ : Type) where
  offset : Nat
  skip : Nat
  owner : γ
  offset_lt : offset < tableSize
  skip_pos : 0 < skip
  skip_lt : skip < tableSize

/-- FNV-1a with a salted offset basis. -/
def fnv1aSeeded (s : String) (seed : UInt64) : UInt64 :=
  s.toUTF8.toList.foldl (fun hash byte => (hash ^^^ byte.toUInt64) * 0x00000100000001B3) (0xCBF29CE484222325 ^^^ seed)

/-- The replicas of all endpoints; the owner is the position of the endpoint as a 32-bit number. -/
def buildReplicas (hash : String → UInt64 → UInt64) (eps : List WeightedEndpoint) : List (Replica Nat) :=
  eps.zipIdx.flatMap fun (ep, idx) =>
    (range ep.weight).map fun replica =>
      let key := ep.address ++ "#" ++ toString replica
      { offset := (hash key 0).toNat % tableSize
        skip := (hash key skipSeed).toNat % (tableSize - 1) + 1
        owner := idx % 2 ^ 32
        offset_lt := mod_lt _ (by decide)
        skip_pos := succ_pos _
        skip_lt := add_lt_of_lt_sub (mod_lt _ (by decide)) }

section

variable {γ : Type}

/-- The slot a replica probes at a cursor. -/
def Replica.slot (r : Replica γ) (cursor : Nat) : Nat := probeSlot tableSize r.offset r.skip cursor

/-- The variables of the loop, with the position of the replica whose turn it is. -/
structure Filling (γ : Type) where
  table : List γ
  cursors : List Nat
  filled : Nat
  turn : Nat

variable [DecidableEq γ] (free : γ) (reps : List (Replica γ))

def Filling.start : Filling γ where
  table := replicate tableSize free
  cursors := replicate reps.length 0
  filled := 0
  turn := 0

/-- One probe of the replica whose turn it is: a taken slot moves its cursor on, a free slot is taken and the
turn passes to the next replica. -/
def Filling.step (s : Filling γ) : Filling γ :=
  match reps[s.turn]? with
  | none => s
  | some r =>
    let cursor := s.cursors.getD s.turn 0
    let c := r.slot cursor
    if s.table.getD c free ≠ free then { s with cursors := s.cursors.set s.turn (cursor + 1) }
    else
      { table := s.table.set c r.owner
        cursors := s.cursors.set s.turn (cursor + 1)
        filled := s.filled + 1
        turn := if s.turn + 1 = reps.length then 0 else s.turn + 1 }

/-- The loop, which returns when the last slot is taken; it has no result when the fuel runs out first. -/
def fillLoop : Nat → Filling γ → Option (List γ)
  | 0, _ => none
  | fuel + 1, s =>
    let s' := s.step free reps
    if s'.filled = tableSize then some s'.table else fillLoop fuel s'

end

/-- The lookup table of the endpoints. -/
def buildTable (hash : String → UInt64 → UInt64) (eps : List WeightedEndpoint) (fuel : Nat) : Option (List Nat) :=
  let reps := buildReplicas hash eps
  if reps.isEmpty then some []
  else fillLoop sentinel reps fuel (Filling.start sentinel reps)

/-! ## The fill never gets stuck -/

variable {γ : Type} {hash : String → UInt64 → UInt64}

theorem Replica.slot_lt (r : Replica γ) (cursor : Nat) : r.slot cursor < tableSize :=
  probeSlot_lt tableSize_prime.pos cursor

theorem Replica.exists_slot (r : Replica γ) {c : Nat} (hc : c < tableSize) : ∃ cursor < tableSize, r.slot cursor = c :=
  exists_probeSlot
    ((Nat.Prime.coprime_iff_not_dvd tableSize_prime).2 fun hdvd => (Nat.le_of_dvd r.skip_pos hdvd).not_gt r.skip_lt) hc

section

variable {γ : Type} [DecidableEq γ] {free : γ} {reps : List (Replica γ)}

/-- The states that the loop passes through. -/
inductive Filling.Visited (free : γ) (reps : List (Replica γ)) : Filling γ → Prop
  | start : Visited free reps (Filling.start free reps)
  | probe {s} : Visited free reps s → s.filled ≠ tableSize → Visited free reps (s.step free reps)

/-- What holds before every probe. -/
structure Filling.Inv (free : γ) (reps : List (Replica γ)) (s : Filling γ) : Prop where
  table_length : s.table.length = tableSize
  cursors_length : s.cursors.length = reps.length
  turn_lt : s.turn < reps.length
  /-- The slots below a cursor are taken. -/
  probed : ∀ i r, reps[i]? = some r → ∀ j < s.cursors.getD i 0, s.table.getD (r.slot j) free ≠ free
  filled_eq : s.filled = s.table.countP (· ≠ free)
  owners : ∀ x ∈ s.table, x = free ∨ ∃ r ∈ reps, x = r.owner

namespace Filling

variable {s : Filling γ}

theorem step_cases (free : γ) (hturn : s.turn < reps.length) : ∃ r, reps[s.turn]? = some r ∧
    (s.table.getD (r.slot (s.cursors.getD s.turn 0)) free ≠ free ∧
      s.step free reps = { s with cursors := s.cursors.set s.turn (s.cursors.getD s.turn 0 + 1) } ∨
    s.table.getD (r.slot (s.cursors.getD s.turn 0)) free = free ∧
      s.step free reps =
        { table := s.table.set (r.slot (s.cursors.getD s.turn 0)) r.owner
          cursors := s.cursors.set s.turn (s.cursors.getD s.turn 0 + 1)
          filled := s.filled + 1
          turn := if s.turn + 1 = reps.length then 0 else s.turn + 1 }) := by
  obtain ⟨r, hr⟩ : ∃ r, reps[s.turn]? = some r := ⟨_, getElem?_eq_getElem hturn⟩
  refine ⟨r, hr, ?_⟩
  simp only [step, hr]
  split
  case isTrue htaken => exact .inl ⟨htaken, rfl⟩
  case isFalse hfree => exact .inr ⟨not_not.1 hfree, rfl⟩

theorem step_cursors (hturn : s.turn < reps.length) :
    (s.step free reps).cursors = s.cursors.set s.turn (s.cursors.getD s.turn 0 + 1) := by
  obtain ⟨r, -, ⟨-, hstep⟩ | ⟨-, hstep⟩⟩ := step_cases free hturn <;> rw [hstep]

theorem start_inv (hne : reps ≠ []) : (start free reps).Inv free reps where
  table_length := List.length_replicate
  cursors_length := List.length_replicate
  turn_lt := List.length_pos_iff.2 hne
  probed i r hr j hj := by
    have hi := (List.getElem?_eq_some_iff.1 hr).1
    simp [start, List.getD_eq_getElem?_getD, hi] at hj
  filled_eq := by simp [start, List.countP_replicate]
  owners x hx := .inl (List.eq_of_mem_replicate hx)

/-- As long as a slot is free, no cursor has gone round the table. -/
theorem Inv.cursor_lt (h : s.Inv free reps) (hfilled : s.filled ≠ tableSize) (i : Nat) : s.cursors.getD i 0 < tableSize := by
  by_contra! hround
  have hi : i < reps.length := by
    by_contra! hge
    rw [getD_eq_default _ _ (h.cursors_length ▸ hge)] at hround
    cases hround
  refine hfilled (h.filled_eq.trans (Eq.trans ?_ h.table_length))
  -- its sequence reaches every slot, and below the cursor all of them are taken
  refine countP_eq_length.2 fun x hx => decide_eq_true ?_
  obtain ⟨c, hc, rfl⟩ := getElem_of_mem hx
  obtain ⟨j, hj, rfl⟩ := reps[i].exists_slot (h.table_length ▸ hc)
  rw [← getD_eq_getElem _ free hc]
  exact h.probed i _ (getElem?_eq_getElem hi) j (hj.trans_le hround)

/-- The cursor of the turn moves on by one, over the slot it has just probed. -/
theorem lt_of_lt_step (h : s.Inv free reps) {i j : Nat}
    (hj : j < (s.cursors.set s.turn (s.cursors.getD s.turn 0 + 1)).getD i 0) :
    j < s.cursors.getD i 0 ∨ i = s.turn ∧ j = s.cursors.getD s.turn 0 := by
  rw [getD_set (h.cursors_length ▸ h.turn_lt)] at hj
  split at hj
  case isTrue heq =>
    subst heq
    rcases Nat.lt_succ_iff_lt_or_eq.1 hj with hj | hj
    · exact .inl hj
    · exact .inr ⟨rfl, hj⟩
  case isFalse => exact .inl hj

theorem Inv.step {s : Filling γ} (howner : ∀ r ∈ reps, r.owner ≠ free) (h : s.Inv free reps) :
    (s.step free reps).Inv free reps := by
  obtain ⟨r, hr, ⟨htaken, hstep⟩ | ⟨hfree, hstep⟩⟩ := step_cases free h.turn_lt
  · rw [hstep]
    refine { h with cursors_length := List.length_set.trans h.cursors_length, probed := fun i r' hr' j hj => ?_ }
    rcases lt_of_lt_step h hj with hj | ⟨rfl, rfl⟩
    · exact h.probed i r' hr' j hj
    · cases hr.symm.trans hr'
      exact htaken
  · have hmem := List.mem_of_getElem? hr
    have hslot : r.slot (s.cursors.getD s.turn 0) < s.table.length := h.table_length ▸ r.slot_lt _
    rw [hstep]
    refine ⟨List.length_set.trans h.table_length, List.length_set.trans h.cursors_length, ?_, fun i r' hr' j hj => ?_, ?_,
      fun x hx => ?_⟩
    · have := h.turn_lt
      dsimp only
      split <;> omega
    · rw [getD_set hslot]
      split
      case isTrue => exact howner r hmem
      case isFalse hne =>
        rcases lt_of_lt_step h hj with hj | ⟨rfl, rfl⟩
        · exact h.probed i r' hr' j hj
        · cases hr.symm.trans hr'
          cases hne rfl
    · rw [List.getD_eq_getElem _ _ hslot] at hfree
      simp only [h.filled_eq, List.countP_set hslot, hfree, howner r hmem, ne_eq, not_true_eq_false, decide_false,
        Bool.false_eq_true, if_false, not_false_eq_true, decide_true, if_true, Nat.sub_zero]
    · rcases List.mem_or_eq_of_mem_set hx with hx | rfl
      · exact h.owners x hx
      · exact .inr ⟨r, hmem, rfl⟩

theorem Visited.inv (hne : reps ≠ []) (howner : ∀ r ∈ reps, r.owner ≠ free) (hs : Visited free reps s) : s.Inv free reps := by
  induction hs with
  | start => exact start_inv hne
  | probe _ _ ih => exact ih.step howner

/-- The cursors together have moved less than once round the table each. -/
theorem Inv.cursors_sum (h : s.Inv free reps) (hfilled : s.filled ≠ tableSize) : s.cursors.sum < reps.length * tableSize := by
  have hle : s.cursors.sum ≤ s.cursors.length * (tableSize - 1) := by
    refine sum_le_card_nsmul _ _ fun cursor hcursor => ?_
    obtain ⟨i, hi, rfl⟩ := getElem_of_mem hcursor
    have := h.cursor_lt hfilled i
    rw [getD_eq_getElem _ _ hi] at this
    omega
  have hpos := h.turn_lt
  rw [h.cursors_length] at hle
  refine hle.trans_lt (mul_lt_mul_of_pos_left ?_ ?_)
  · decide
  · omega

/-- A cursor moves in every step, so the loop returns; what it returns is the table of a full state. -/
theorem fillLoop_returns (howner : ∀ r ∈ reps, r.owner ≠ free) (hne : reps ≠ []) {fuel : Nat}
    (hs : Visited free reps s) (hfilled : s.filled ≠ tableSize)
    (hfuel : reps.length * tableSize ≤ fuel + s.cursors.sum) :
    ∃ s', Visited free reps s' ∧ s'.filled = tableSize ∧ fillLoop free reps fuel s = some s'.table := by
  induction fuel generalizing s with
  | zero =>
    have := (hs.inv hne howner).cursors_sum hfilled
    omega
  | succ fuel ih =>
    have hinv := hs.inv hne howner
    rw [fillLoop]
    split
    case isTrue hfull => exact ⟨_, hs.probe hfilled, hfull, rfl⟩
    case isFalse hfree =>
      refine ih (hs.probe hfilled) hfree ?_
      rw [step_cursors hinv.turn_lt, sum_set_succ (hinv.cursors_length ▸ hinv.turn_lt)]
      omega

theorem Visited.cursor_le (hne : reps ≠ []) (howner : ∀ r ∈ reps, r.owner ≠ free) (hs : Visited free reps s)
    (i : Nat) : s.cursors.getD i 0 ≤ tableSize := by
  cases hs with
  | start =>
    rw [Filling.start, getD_eq_getElem?_getD, getElem?_replicate]
    split <;> exact zero_le _
  | probe hs hfilled =>
    have hinv := hs.inv hne howner
    have hcursor := hinv.cursor_lt hfilled i
    by_contra! hgt
    rw [step_cursors hinv.turn_lt] at hgt
    rcases lt_of_lt_step hinv hgt with h | ⟨rfl, h⟩ <;> omega

theorem Inv.full (h : s.Inv free reps) (hfull : s.filled = tableSize) : ∀ x ∈ s.table, ∃ r ∈ reps, x = r.owner := by
  intro x hx
  have hall : s.table.countP (· ≠ free) = s.table.length := by rw [← h.filled_eq, hfull, h.table_length]
  have hne := of_decide_eq_true (countP_eq_length.1 hall x hx)
  exact (h.owners x hx).resolve_left hne

end Filling

end

/-! ## Shares of the replicas -/

section

variable {γ : Type} {free : γ} {reps : List (Replica γ)}

/-- The same replicas, each of which writes its own position. -/
def numbered (reps : List (Replica γ)) : List (Replica (Option Nat)) :=
  reps.mapIdx fun i r => { r with owner := some i }

/-- The owner of a slot that the replica at a position has taken. -/
def ownerOf (free : γ) (reps : List (Replica γ)) (taken : Option Nat) : γ :=
  ((taken.bind (reps[·]?)).map Replica.owner).getD free

theorem numbered_getElem? (i : Nat) : (numbered reps)[i]? = reps[i]?.map fun r => { r with owner := some i } :=
  getElem?_mapIdx

@[simp] theorem length_numbered (reps : List (Replica γ)) : (numbered reps).length = reps.length :=
  length_mapIdx

theorem numbered_ne_nil (hne : reps ≠ []) : numbered reps ≠ [] := fun h => hne (mapIdx_eq_nil_iff.1 h)

theorem owner_of_mem_numbered {r : Replica (Option Nat)} (hr : r ∈ numbered reps) : ∃ i < reps.length, r.owner = some i := by
  obtain ⟨i, hi, rfl⟩ := mem_mapIdx.1 hr
  exact ⟨i, hi, rfl⟩

theorem numbered_owner_ne : ∀ r ∈ numbered reps, r.owner ≠ none := by
  intro r hr
  obtain ⟨i, -, hi⟩ := owner_of_mem_numbered hr
  rw [hi]
  exact some_ne_none i

theorem ownerOf_some (free : γ) {i : Nat} {r : Replica γ} (hr : reps[i]? = some r) :
    ownerOf free reps (some i) = r.owner := by
  rw [ownerOf, bind_some, hr, map_some, getD_some]

namespace Filling

/-- The replicas before the turn have taken one slot more than those from the turn on. -/
def Shares (n : Nat) (s : Filling (Option Nat)) : Prop :=
  ∃ rounds, s.filled = rounds * n + s.turn ∧
    ∀ i < n, s.table.count (some i) = rounds + if i < s.turn then 1 else 0

theorem start_shares : (start none (numbered reps)).Shares reps.length :=
  ⟨0, by simp [start], fun i _ => by simp [start, count_replicate]⟩

theorem Shares.step {s : Filling (Option Nat)} (hinv : s.Inv none (numbered reps)) (h : s.Shares reps.length) :
    (s.step none (numbered reps)).Shares reps.length := by
  obtain ⟨rounds, hfilled, hcount⟩ := h
  have hturn : s.turn < reps.length := length_numbered reps ▸ hinv.turn_lt
  obtain ⟨r, hr, ⟨-, hstep⟩ | ⟨hfree, hstep⟩⟩ := step_cases none hinv.turn_lt
  · rw [hstep]
    exact ⟨rounds, hfilled, hcount⟩
  · have hslot : r.slot (s.cursors.getD s.turn 0) < s.table.length := hinv.table_length ▸ r.slot_lt _
    have howner : r.owner = some s.turn := by
      rw [numbered_getElem?, getElem?_eq_getElem hturn, map_some] at hr
      rw [← some.inj hr]
    rw [getD_eq_getElem _ _ hslot] at hfree
    have htaken : ∀ i < reps.length, (s.table.set (r.slot (s.cursors.getD s.turn 0)) r.owner).count (some i)
        = rounds + if i < s.turn + 1 then 1 else 0 := by
      intro i hi
      rw [count_set hslot, hfree, howner, hcount i hi]
      rcases lt_trichotomy i s.turn with hlt | rfl | hgt
      · simp [hlt, hlt.trans (lt_succ_self _), hlt.ne']
      · simp
      · simp [hgt.not_gt, hgt.ne, not_lt.2 (succ_le_of_lt hgt)]
    rw [hstep, length_numbered]
    rcases eq_or_ne (s.turn + 1) reps.length with hlast | hmore
    -- after the last replica's turn a round is complete
    · refine ⟨rounds + 1, ?_, fun i hi => ?_⟩
      · dsimp only
        rw [if_pos hlast, add_mul, hfilled]
        omega
      · rw [htaken i hi, if_pos hlast, if_pos (hlast ▸ hi)]
        simp
    · refine ⟨rounds, ?_, fun i hi => ?_⟩
      · dsimp only
        rw [if_neg hmore, hfilled]
        omega
      · rw [htaken i hi, if_neg hmore]

variable {s : Filling (Option Nat)}

theorem Visited.shares (hne : reps ≠ []) (hs : Visited none (numbered reps) s) : s.Shares reps.length := by
  induction hs with
  | start => exact start_shares
  | probe hs _ ih => exact ih.step (hs.inv (numbered_ne_nil hne) numbered_owner_ne)

/-- Every slot shows the owner of the replica that has taken it. -/
def relabel (free : γ) (reps : List (Replica γ)) (s : Filling (Option Nat)) : Filling γ :=
  { s with table := s.table.map (ownerOf free reps) }

theorem start_relabel : (start none (numbered reps)).relabel free reps = start free reps := by
  simp [start, relabel, ownerOf]

section

variable (howner : ∀ r ∈ reps, r.owner ≠ free) (hinv : s.Inv none (numbered reps))
include howner hinv

theorem relabel_free (c : Nat) : (s.relabel free reps).table.getD c free = free ↔ s.table.getD c none = none := by
  have hcell : (s.relabel free reps).table.getD c free = ownerOf free reps (s.table.getD c none) :=
    getD_map (s.table) none (ownerOf free reps)
  rw [hcell]
  constructor
  · intro h
    by_contra hsome
    have hc : c < s.table.length := by
      by_contra! hge
      exact hsome (getD_eq_default _ _ hge)
    rw [getD_eq_getElem _ _ hc] at h hsome
    obtain ⟨r, hr, heq⟩ := (hinv.owners _ (getElem_mem hc)).resolve_left hsome
    obtain ⟨i, hi, hi'⟩ := owner_of_mem_numbered hr
    rw [heq, hi', ownerOf_some free (getElem?_eq_getElem hi)] at h
    exact howner _ (getElem_mem hi) h
  · intro h
    rw [h]
    rfl

/-- Numbers or owners, the probes find the same slots taken. -/
theorem step_relabel [DecidableEq γ] :
    (s.relabel free reps).step free reps = (s.step none (numbered reps)).relabel free reps := by
  have hturn : s.turn < reps.length := length_numbered reps ▸ hinv.turn_lt
  have hr := getElem?_eq_getElem hturn
  have hcell := relabel_free howner hinv
  obtain ⟨r, hrr, hstep⟩ := step_cases none hinv.turn_lt
  obtain ⟨r', hrr', hstep'⟩ := step_cases free (s := s.relabel free reps) hturn
  cases hr.symm.trans hrr'
  rw [numbered_getElem?, hr, map_some] at hrr
  cases hrr
  rcases hstep with ⟨htaken, hstep⟩ | ⟨hfree, hstep⟩ <;> rcases hstep' with ⟨htaken', hstep'⟩ | ⟨hfree', hstep'⟩
  · rw [hstep, hstep']
    rfl
  · exact absurd ((hcell _).1 hfree') htaken
  · exact absurd ((hcell _).2 hfree) htaken'
  · rw [hstep, hstep', length_numbered]
    simp only [relabel, map_set, ownerOf_some free hr]
    rfl

theorem fillLoop_relabel [DecidableEq γ] (fuel : Nat) :
    fillLoop free reps fuel (s.relabel free reps)
      = (fillLoop none (numbered reps) fuel s).map (List.map (ownerOf free reps)) := by
  induction fuel generalizing s with
  | zero => rfl
  | succ fuel ih =>
    rw [fillLoop, fillLoop, step_relabel howner hinv, ih (hinv.step numbered_owner_ne)]
    change (if (s.step none (numbered reps)).filled = tableSize then _ else _) = Option.map _ (if _ then _ else _)
    split <;> rfl

end

theorem fill_numbered [DecidableEq γ] (hne : reps ≠ []) (howner : ∀ r ∈ reps, r.owner ≠ free) {fuel : Nat}
    (hfuel : reps.length * tableSize ≤ fuel) :
    ∃ s, Visited none (numbered reps) s ∧ s.filled = tableSize ∧
      fillLoop none (numbered reps) fuel (start none (numbered reps)) = some s.table ∧
      fillLoop free reps fuel (start free reps) = some (s.table.map (ownerOf free reps)) := by
  have hne' := numbered_ne_nil hne
  obtain ⟨s, hs, hfull, hfill⟩ := fillLoop_returns numbered_owner_ne hne' .start tableSize_prime.pos.ne
    (by rw [length_numbered]; exact hfuel.trans (le_add_right _ _))
  refine ⟨s, hs, hfull, hfill, ?_⟩
  rw [← start_relabel, fillLoop_relabel howner (start_inv hne'), hfill, map_some]

theorem Visited.taken (hne : reps ≠ []) (hs : Visited none (numbered reps) s) (hfull : s.filled = tableSize) :
    ∀ x ∈ s.table, ∃ i r, reps[i]? = some r ∧ x = some i := by
  intro x hx
  have hinv := hs.inv (numbered_ne_nil hne) numbered_owner_ne
  obtain ⟨r, hr, rfl⟩ := hinv.full hfull x hx
  obtain ⟨i, hi, hi'⟩ := owner_of_mem_numbered hr
  exact ⟨i, _, getElem?_eq_getElem hi, hi'⟩

end Filling

end

variable {eps : List WeightedEndpoint}

theorem owner_of_mem_buildReplicas {r : Replica Nat} (hr : r ∈ buildReplicas hash eps) : r.owner < eps.length := by
  obtain ⟨⟨ep, idx⟩, hmem, hr⟩ := mem_flatMap.1 hr
  obtain ⟨replica, -, rfl⟩ := mem_map.1 hr
  have hidx : idx < eps.length := by simpa using snd_lt_of_mem_zipIdx hmem
  exact (mod_le _ _).trans_lt hidx

theorem buildReplicas_ne_nil (hash : String → UInt64 → UInt64) (hne : eps ≠ []) : buildReplicas hash eps ≠ [] := by
  obtain ⟨ep, rest, rfl⟩ := exists_cons_of_ne_nil hne
  rw [buildReplicas, zipIdx_cons, flatMap_cons]
  refine append_ne_nil_of_left_ne_nil (fun h => ?_) _
  have := ep.weight_pos
  rw [map_eq_nil_iff, range_eq_nil] at h
  omega

theorem buildReplicas_owner_ne (hlength : eps.length < 2 ^ 32) : ∀ r ∈ buildReplicas hash eps, r.owner ≠ sentinel := by
  intro r hr
  have := owner_of_mem_buildReplicas hr
  unfold sentinel
  omega

/-- The loop ends with a full table, which holds the numbers of the replicas that took its slots. -/
theorem buildTable_numbered (hne : eps ≠ []) (hlength : eps.length < 2 ^ 32) {fuel : Nat}
    (hfuel : (buildReplicas hash eps).length * tableSize ≤ fuel) :
    let reps := buildReplicas hash eps
    ∃ s, Filling.Visited none (numbered reps) s ∧
      fillLoop none (numbered reps) fuel (Filling.start none (numbered reps)) = some s.table ∧
      buildTable hash eps fuel = some (s.table.map (ownerOf sentinel reps)) ∧
      ∀ owner ∈ s.table.map (ownerOf sentinel reps), owner < eps.length := by
  have hne' := buildReplicas_ne_nil hash hne
  obtain ⟨s, hs, hfull, htaken, htable⟩ := Filling.fill_numbered hne' (buildReplicas_owner_ne hlength) hfuel
  refine ⟨s, hs, htaken, (if_neg fun h => hne' (List.isEmpty_iff.1 h)).trans htable, fun owner hmem => ?_⟩
  obtain ⟨x, hx, rfl⟩ := List.mem_map.1 hmem
  obtain ⟨i, r, hr, rfl⟩ := hs.taken hne' hfull x hx
  rw [ownerOf_some sentinel hr]
  exact owner_of_mem_buildReplicas (List.mem_of_getElem? hr)

/-- The fill loop returns whatever the hashes are. Every slot has a valid endpoint, no cursor passes the size of the
table, and the slots taken by two replicas differ by at most one. -/
theorem buildTable_fair (hash : String → UInt64 → UInt64) (eps : List WeightedEndpoint) (hne : eps ≠ [])
    (hlength : eps.length < 2 ^ 32) :
    let reps := buildReplicas hash eps
    (∀ s, Filling.Visited sentinel reps s → ∀ i r, reps[i]? = some r →
      s.cursors.getD i 0 ≤ tableSize ∧ r.offset + s.cursors.getD i 0 * r.skip < 2 ^ 64) ∧
    ∀ fuel ≥ reps.length * tableSize, ∃ table taken,
      buildTable hash eps fuel = some table ∧
      fillLoop none (numbered reps) fuel (Filling.start none (numbered reps)) = some taken ∧
      table.length = tableSize ∧
      (∀ owner ∈ table, owner < eps.length) ∧
      table = taken.map (ownerOf sentinel reps) ∧
      ∀ i < reps.length, ∀ j < reps.length, taken.count (some i) ≤ taken.count (some j) + 1 := by
  intro reps
  have hne' : reps ≠ [] := buildReplicas_ne_nil hash hne
  have howner : ∀ r ∈ reps, r.owner ≠ sentinel := buildReplicas_owner_ne hlength
  refine ⟨fun s hs i r _ => ?_, fun fuel hfuel => ?_⟩
  · have hcursor := hs.cursor_le hne' howner i
    refine ⟨hcursor, ?_⟩
    calc r.offset + s.cursors.getD i 0 * r.skip ≤ tableSize + tableSize * tableSize :=
          Nat.add_le_add r.offset_lt.le (Nat.mul_le_mul hcursor r.skip_lt.le)
      _ < 2 ^ 64 := by decide
  · obtain ⟨s, hs, htaken, htable, hvalid⟩ := buildTable_numbered hne hlength hfuel
    have hinv := hs.inv (numbered_ne_nil hne') numbered_owner_ne
    refine ⟨_, s.table, htable, htaken, ?_, hvalid, rfl, fun i hi j hj => ?_⟩
    · rw [List.length_map, hinv.table_length]
    · obtain ⟨rounds, -, hcount⟩ := hs.shares hne'
      rw [hcount i hi, hcount j hj]
      split <;> split <;> omega

/-- Two endpoints with three replicas between them fill the table. -/
theorem buildTable_fair_pair : ∃ table, table.length = tableSize ∧
    buildTable fnv1aSeeded
      [{ address := "10.0.0.1:80", weight := 1 }, { address := "10.0.0.2:80", weight := 2 }] (3 * tableSize) = some table := by
  obtain ⟨-, hreturns⟩ := buildTable_fair fnv1aSeeded
    [{ address := "10.0.0.1:80", weight := 1 }, { address := "10.0.0.2:80", weight := 2 }] (cons_ne_nil _ _) (by decide)
  obtain ⟨table, -, htable, -, hsize, -⟩ := hreturns (3 * tableSize) le_rfl
  exact ⟨table, hsize, htable⟩

end Praxis.Balancing
