/-
The bounded probe of the hash strategies. It walks the slots of a ring clockwise and stops when it
has seen every endpoint, so that an outage does not cost a walk over the whole ring. It finds what
the whole walk would find.
-/
import Praxis.Balancing.Endpoint
import Praxis.Lib.Slots

namespace Praxis.Balancing

open WeightedEndpoint List Bool Praxis.Lib

section

variable (eps : List WeightedEndpoint) (accept : WeightedEndpoint → Bool)

/-- The walk over the endpoint positions in the slots. The set of visited endpoints is built on the first slot that
is rejected. -/
def probeWalk : List Nat → Option (List Bool) → Nat → Option String
  | [], _, _ => none
  | owner :: slots, visited, remaining =>
    -- the positions in a ring are those of its endpoints
    match eps[owner]? with
    | none => none
    | some ep =>
      if accept ep then some ep.address
      else
        let visited := visited.getD (replicate eps.length false)
        if visited.getD owner false then probeWalk slots (some visited) remaining
        else if remaining - 1 = 0 then none
        else probeWalk slots (some (visited.set owner true)) (remaining - 1)

/-- The slots of the ring from `start` on, and round. -/
def slotsFrom (ring : List Nat) (start : Nat) : List Nat :=
  (range ring.length).map fun offset => ring.getD ((start + offset) % ring.length) 0

def probe (ring : List Nat) (start : Nat) : Option String :=
  probeWalk eps accept (slotsFrom ring start) none eps.length

end

theorem slotsFrom_eq (ring : List Nat) (start : Nat) : slotsFrom ring start = ring.rotate start := by
  refine ext_getElem (by simp [slotsFrom]) fun i hi hi' => ?_
  have hlt : i < ring.length := by simpa [slotsFrom] using hi
  have hmod : (start + i) % ring.length < ring.length := Nat.mod_lt _ (Nat.zero_lt_of_lt hlt)
  rw [getElem_rotate]
  simp only [slotsFrom, getElem_map, getElem_range, getD_eq_getElem _ _ hmod, Nat.add_comm]

variable {eps : List WeightedEndpoint} {accept : WeightedEndpoint → Bool}

/-- What the walk knows: the endpoints it has visited are rejected, the others are counted by `remaining`. -/
structure Visited (eps : List WeightedEndpoint) (accept : WeightedEndpoint → Bool) (visited : List Bool)
    (remaining : Nat) : Prop where
  length_eq : visited.length = eps.length
  rejected : ∀ i ep, visited.getD i false = true → eps[i]? = some ep → accept ep = false
  remaining_eq : remaining = visited.count false

theorem Visited.none : Visited eps accept (replicate eps.length false) eps.length where
  length_eq := length_replicate
  rejected i ep h _ := by
    rw [getD_eq_getElem?_getD, getElem?_replicate] at h
    split at h <;> cases h
  remaining_eq := by rw [count_replicate_self]

variable {visited : List Bool} {remaining : Nat} {ep : WeightedEndpoint}

theorem Visited.visit {owner : Nat} (h : Visited eps accept visited remaining) (hep : eps[owner]? = some ep)
    (hrejected : accept ep = false) (hnew : visited.getD owner false = false) :
    Visited eps accept (visited.set owner true) (remaining - 1) := by
  have howner : owner < visited.length := h.length_eq ▸ (List.getElem?_eq_some_iff.1 hep).1
  refine ⟨List.length_set.trans h.length_eq, fun i ep' hi hep' => ?_, ?_⟩
  · rw [getD_set howner] at hi
    split at hi
    case isTrue heq =>
      subst heq
      cases hep.symm.trans hep'
      exact hrejected
    case isFalse => exact h.rejected i ep' hi hep'
  · rw [List.getD_eq_getElem _ _ howner] at hnew
    rw [List.count_set howner, hnew, h.remaining_eq]
    simp

/-- Once nothing remains, every endpoint is rejected. -/
theorem Visited.all_rejected (h : Visited eps accept visited 0) {i : Nat} (hep : eps[i]? = some ep) : accept ep = false := by
  refine h.rejected i ep ?_ hep
  have hi : i < visited.length := h.length_eq ▸ (List.getElem?_eq_some_iff.1 hep).1
  by_contra hne
  have hmem : false ∈ visited := by
    rw [List.getD_eq_getElem _ _ hi, Bool.not_eq_true] at hne
    exact hne ▸ List.getElem_mem hi
  exact absurd h.remaining_eq.symm (List.count_pos_iff.2 hmem).ne'

theorem probeWalk_eq {slots : List Nat} (hslots : ∀ owner ∈ slots, owner < eps.length) {visited : Option (List Bool)}
    (h : Visited eps accept (visited.getD (replicate eps.length false)) remaining) :
    probeWalk eps accept slots visited remaining
      = ((slots.filterMap (eps[·]?)).find? accept).map address := by
  induction slots generalizing visited remaining with
  | nil => rfl
  | cons owner slots ih =>
    obtain ⟨howner, hslots⟩ := forall_mem_cons.1 hslots
    have hep := getElem?_eq_getElem howner
    rw [probeWalk, hep, filterMap_cons_some hep]
    dsimp only
    rcases eq_false_or_eq_true (accept eps[owner]) with haccept | hreject
    · rw [if_pos haccept, find?_cons_of_pos haccept, Option.map_some]
    · rw [if_neg (not_eq_true _ ▸ hreject), find?_cons_of_neg (not_eq_true _ ▸ hreject)]
      split
      case isTrue => exact ih hslots h
      case isFalse hnew =>
        have hvisit := h.visit hep hreject (not_eq_true _ ▸ hnew)
        split
        case isTrue hzero =>
          rw [hzero] at hvisit
          have hnone : (slots.filterMap (eps[·]?)).find? accept = none := by
            refine find?_eq_none.2 fun ep hmem => ?_
            obtain ⟨i, -, hi⟩ := mem_filterMap.1 hmem
            rw [hvisit.all_rejected hi]
            exact false_ne_true
          rw [hnone, Option.map_none]
        case isFalse => exact ih hslots hvisit

theorem probe_eq {ring : List Nat} (hring : ∀ owner ∈ ring, owner < eps.length) (start : Nat) :
    probe eps accept ring start
      = (((ring.rotate start).filterMap (eps[·]?)).find? accept).map address := by
  rw [probe, slotsFrom_eq]
  exact probeWalk_eq (fun owner howner => hring owner (mem_rotate.1 howner)) .none

end Praxis.Balancing
