import Mathlib.Data.List.Nodup
import Mathlib.Logic.Relation
import StackFlow.Search

/-!
# What searches and work lists do

* `Search.mem_visited` says that a search visits exactly the nodes it may enter and can reach:
  `Leads next nodes start x` is a way from `start` to `x` that stays within `nodes`.
* `Worklist.run_induction` says that a run of a work list keeps what every visit keeps.
* `Worklist.run_drains` says that it goes on until no node waits, if it has fuel for as long as
  every visit makes some measure smaller.
-/

namespace StackFlow

namespace Search

open Relation

variable {α : Type} {next : α → List α}

/-- A way along `next` from one of `start` to `x` that stays within `nodes`. -/
def Leads (next : α → List α) (nodes start : List α) (x : α) : Prop :=
  ∃ s ∈ start, s ∈ nodes ∧ ReflTransGen (fun a b => b ∈ next a ∧ b ∈ nodes) s x

theorem Leads.tail {nodes start : List α} {x y : α} (h : Leads next nodes start x)
    (hy : y ∈ next x) (hmem : y ∈ nodes) : Leads next nodes start y := by
  obtain ⟨s, hs, hsn, hway⟩ := h
  exact ⟨s, hs, hsn, hway.tail ⟨hy, hmem⟩⟩

theorem Leads.mono {nodes nodes' start start' : List α} {x : α}
    (h : Leads next nodes start x) (hnodes : ∀ y ∈ nodes, y ∈ nodes')
    (hstart : ∀ y ∈ start, y ∈ nodes → Leads next nodes' start' y) :
    Leads next nodes' start' x := by
  obtain ⟨s, hs, hsn, hway⟩ := h
  induction hway with
  | refl => exact hstart s hs hsn
  | tail _ hstep ih => exact ih.tail hstep.1 (hnodes _ hstep.2)

variable [DecidableEq α]

/-- The nodes left over are among those the search could enter. -/
theorem mem_of_mem_search {fresh todo : List α} {x : α} (h : x ∈ search next fresh todo) :
    x ∈ fresh := by
  fun_induction search next fresh todo with
  | case1 => exact h
  | case2 fresh y rest hy ih => exact List.mem_of_mem_erase (ih h)
  | case3 fresh y rest hy ih => exact ih h

/-- Nothing is left over that the search has to visit, or that a visited node leads
to. -/
theorem closed_search (next : α → List α) (todo : List α) {fresh : List α}
    (hnodup : fresh.Nodup) :
    (∀ x ∈ todo, x ∉ search next fresh todo) ∧
      ∀ x ∈ fresh, x ∉ search next fresh todo → ∀ y ∈ next x, y ∉ search next fresh todo := by
  fun_induction search next fresh todo with
  | case1 fresh => exact ⟨by simp, fun x hx hnot => absurd hx hnot⟩
  | case2 fresh y rest hy ih =>
    obtain ⟨htodo, hclosed⟩ := ih (hnodup.erase y)
    have hyleft : y ∉ search next (fresh.erase y) (next y ++ rest) :=
      fun hmem => hnodup.not_mem_erase (mem_of_mem_search hmem)
    refine ⟨fun x hx => ?_, fun x hx hnot z hz => ?_⟩
    · rcases List.mem_cons.1 hx with rfl | hx
      · exact hyleft
      · exact htodo x (List.mem_append_right _ hx)
    · by_cases hxy : x = y
      · exact htodo z (List.mem_append_left _ (hxy ▸ hz))
      · exact hclosed x ((List.mem_erase_of_ne hxy).2 hx) hnot z hz
  | case3 fresh y rest hy ih =>
    obtain ⟨htodo, hclosed⟩ := ih hnodup
    refine ⟨fun x hx => ?_, hclosed⟩
    rcases List.mem_cons.1 hx with rfl | hx
    · exact fun hmem => hy (mem_of_mem_search hmem)
    · exact htodo x hx

/-- What is visited can be reached. -/
theorem leads_of_not_mem_search {fresh todo : List α} {x : α} (hx : x ∈ fresh)
    (hnot : x ∉ search next fresh todo) : Leads next fresh todo x := by
  fun_induction search next fresh todo with
  | case1 fresh => exact absurd hx hnot
  | case2 fresh y rest hy ih =>
    have hstart : Leads next fresh (y :: rest) y := ⟨y, List.mem_cons_self, hy, .refl⟩
    by_cases hxy : x = y
    · exact hxy ▸ hstart
    · refine (ih ((List.mem_erase_of_ne hxy).2 hx) hnot).mono
        (fun z hz => List.mem_of_mem_erase hz) fun z hz hzn => ?_
      rcases List.mem_append.1 hz with hz | hz
      · exact hstart.tail hz (List.mem_of_mem_erase hzn)
      · exact ⟨z, List.mem_cons_of_mem _ hz, List.mem_of_mem_erase hzn, .refl⟩
  | case3 fresh y rest hy ih =>
    refine (ih hx hnot).mono (fun _ hz => hz) fun z hz hzn => ?_
    exact ⟨z, List.mem_cons_of_mem _ hz, hzn, .refl⟩

/-- A search visits the nodes that can be reached within `nodes`. -/
theorem mem_visited {nodes start : List α} (hnodup : nodes.Nodup) {x : α} :
    x ∈ visited next nodes start ↔ Leads next nodes start x := by
  obtain ⟨hstart, hclosed⟩ := closed_search next start hnodup
  simp only [visited, List.mem_filter, Bool.not_eq_true', List.contains_eq_mem,
    decide_eq_false_iff_not]
  constructor
  · exact fun h => leads_of_not_mem_search h.1 h.2
  · rintro ⟨s, hs, hsn, hway⟩
    induction hway with
    | refl => exact ⟨hsn, hstart s hs⟩
    | tail _ hstep ih => exact ⟨hstep.2, hclosed _ ih.1 ih.2 _ hstep.1⟩

end Search

namespace Worklist

variable {σ : Type} {visit : σ × List Nat → Nat → σ × List Nat} {P : σ × List Nat → Prop}

/-- A run keeps what every visit keeps. -/
theorem run_induction {fuel : Nat} {s : σ × List Nat}
    (step : ∀ s n queue, P (s, n :: queue) → P (visit (s, queue) n)) (h : P s) :
    P (run visit fuel s) := by
  induction fuel generalizing s with
  | zero => exact h
  | succ fuel ih =>
    obtain ⟨s, queue⟩ := s
    cases queue with
    | nil => exact h
    | cons n queue => exact ih (step s n queue h)

/-- A run with enough fuel ends because no node waits. -/
theorem run_drains {fuel : Nat} {s : σ × List Nat} (measure : σ × List Nat → Nat)
    (step : ∀ s n queue, P (s, n :: queue) → P (visit (s, queue) n) ∧
      measure (visit (s, queue) n) < measure (s, n :: queue))
    (h : P s) (hfuel : measure s ≤ fuel) : (run visit fuel s).2 = [] := by
  induction fuel generalizing s with
  | zero =>
    obtain ⟨s, queue⟩ := s
    cases queue with
    | nil => rfl
    | cons n queue =>
      have hless := (step s n queue h).2
      omega
  | succ fuel ih =>
    obtain ⟨s, queue⟩ := s
    cases queue with
    | nil => rfl
    | cons n queue =>
      obtain ⟨hnext, hless⟩ := step s n queue h
      exact ih hnext (by omega)

end Worklist

end StackFlow
