import Mathlib
import StackFlow.Rounds

/-!
# Rounds until nothing changes

* `run_of_settled` says how a fixpoint ends when some round is known to change nothing: by
  itself with the state after that round, or at the limit of the options.
* `renew` is one visit of a round over an array with one cell per block.  `idle_sweep` and
  `sweep_of_stable` relate what a round reports to what it changes, and `sweep` is the
  step from one round to the next: what a visit gains from the other cells is gained for
  every cell that is visited.
* `Within` is what facts travel along: `Within base pass k i` says that fewer than `k` steps
  lead from `i` to where the fact holds.  `within_size` says that on `n` blocks `n` is enough.
-/

namespace StackFlow.Rounds

/-! ## Running rounds -/

section Run

variable {σ : Type} {what : String} {o : Options} {round : σ → σ × Bool} {fuel n k : Nat} {s : σ}

/-- The state after `k` rounds. -/
def after (round : σ → σ × Bool) (s : σ) (k : Nat) : σ := (fun s => (round s).1)^[k] s

theorem after_succ : after round s (k + 1) = after round (round s).1 k :=
  Function.iterate_succ_apply _ k s

theorem after_succ' : after round s (k + 1) = (round (after round s k)).1 :=
  Function.iterate_succ_apply' _ k s

theorem after_of_idle (h : (round s).1 = s) : after round s k = s :=
  Function.iterate_fixed h k

/-- A fixpoint is the outcome of a round that reports no change. -/
theorem exists_stable {s' : σ} (h : run what o round fuel n s = .ok (s', k)) :
    ∃ s₀, round s₀ = (s', false) := by
  induction fuel generalizing n s with
  | zero => cases h
  | succ fuel ih =>
    rw [run] at h
    split at h
    · cases h
    · simp only at h
      split at h
      · exact ih h
      · rename_i hchanged
        cases h
        exact ⟨s, Prod.ext rfl (Bool.eq_false_iff.2 hchanged)⟩

/-- A fixpoint that changes nothing after `k` rounds ends with the state it has then, unless
the options stop it. -/
theorem run_of_settled (what : String) (o : Options)
    (idle : ∀ s, (round s).2 = false → (round s).1 = s) (hk : k < fuel)
    (hsettled : (round (after round s k)).2 = false) :
    (∃ j ≤ k, run what o round fuel n s = .ok (after round s k, n + j)) ∨
      o.maxRounds ≠ 0 ∧ run what o round fuel n s =
        .error (.flow (.ofFault (.iterationLimit what o.maxRounds))) := by
  induction fuel generalizing n k s with
  | zero => omega
  | succ fuel ih =>
    rw [run]
    split
    · rename_i hlimit
      refine .inr ⟨fun hzero => ?_, rfl⟩
      simp [Options.canIterate, hzero] at hlimit
    · simp only
      split
      · rename_i hchanged
        cases k with
        | zero => exact absurd hchanged (Bool.eq_false_iff.1 hsettled)
        | succ k =>
          rw [after_succ] at hsettled ⊢
          refine (ih (n := n + 1) (by omega) hsettled).imp_left ?_
          rintro ⟨j, hj, hrun⟩
          exact ⟨j + 1, by omega, by rw [hrun]; congr 2; omega⟩
      · rename_i hchanged
        have hidle := idle s (Bool.eq_false_iff.2 hchanged)
        rw [hidle, after_of_idle hidle]
        exact .inl ⟨0, Nat.zero_le k, rfl⟩

end Run

/-! ## Rounds over arrays -/

section Sweep

variable {α : Type} {f : Array α → Nat → α} {d : α} {is : List Nat} {s s' : Array α} {c : Bool}

theorem getD_setIfInBounds {i j : Nat} {x : α} (hi : i < s.size) :
    (s.setIfInBounds i x).getD j d = if i = j then x else s.getD j d := by
  rw [Array.getD_eq_getD_getElem?, Array.getElem?_setIfInBounds, Array.getD_eq_getD_getElem?]
  split
  · rw [Option.getD_some]
  · rfl

theorem setIfInBounds_getD (s : Array α) (i : Nat) (d : α) :
    s.setIfInBounds i (s.getD i d) = s := by
  refine Array.ext_getElem? fun j => ?_
  rw [Array.getElem?_setIfInBounds]
  split
  · rename_i hij
    subst hij
    split
    · rename_i hi
      simp [hi]
    · rename_i hi
      simp [hi]
  · rfl

variable [DecidableEq α]

/-- Visits cell `i`: computes it anew and notes whether it changed. -/
def renew (f : Array α → Nat → α) (d : α) (s : Array α × Bool) (i : Nat) : Array α × Bool :=
  (s.1.setIfInBounds i (f s.1 i), s.2 || decide (f s.1 i ≠ s.1.getD i d))

/-- A sweep over cells that would stay as they are changes nothing. -/
theorem sweep_of_stable (h : ∀ i ∈ is, f s i = s.getD i d) :
    is.foldl (renew f d) (s, c) = (s, c) := by
  induction is with
  | nil => rfl
  | cons i is ih =>
    have hvisit : renew f d (s, c) i = (s, c) := by
      rw [renew, h i List.mem_cons_self, setIfInBounds_getD]
      simp
    rw [List.foldl_cons, hvisit]
    exact ih fun j hj => h j (List.mem_cons_of_mem _ hj)

/-- A sweep that reports no change has changed nothing. -/
theorem stable_of_sweep (h : is.foldl (renew f d) (s, c) = (s', false)) :
    c = false ∧ s' = s ∧ ∀ i ∈ is, f s i = s.getD i d := by
  induction is generalizing s c with
  | nil =>
    cases h
    exact ⟨rfl, rfl, by simp⟩
  | cons i is ih =>
    obtain ⟨hchanged, hs, hrest⟩ := ih h
    simp only [Bool.or_eq_false_iff, decide_eq_false_iff_not, ne_eq, not_not] at hchanged
    rw [hchanged.2, setIfInBounds_getD] at hs hrest
    refine ⟨hchanged.1, hs, fun j hj => ?_⟩
    rcases List.mem_cons.1 hj with rfl | hj
    · exact hchanged.2
    · exact hrest j hj

theorem idle_sweep (h : (is.foldl (renew f d) (s, c)).2 = false) :
    (is.foldl (renew f d) (s, c)).1 = s :=
  (stable_of_sweep (Prod.ext rfl h)).2.1

/-- A sweep takes every cell it visits from `P` to `Q`, if a visit makes `Q` out of `P`.
Cells that have been visited are `P` as well, so later visits see no difference. -/
theorem sweep {n : Nat} {P Q : Nat → α → Prop} (weaken : ∀ i x, Q i x → P i x)
    (visit : ∀ s : Array α, (∀ i < n, P i (s.getD i d)) → ∀ i ∈ is, Q i (f s i))
    (his : ∀ i ∈ is, i < n) (hsize : s.size = n) (h : ∀ i < n, P i (s.getD i d)) :
    (is.foldl (renew f d) (s, c)).1.size = n ∧
      ∀ i < n, P i ((is.foldl (renew f d) (s, c)).1.getD i d) ∧
        (i ∈ is ∨ Q i (s.getD i d) → Q i ((is.foldl (renew f d) (s, c)).1.getD i d)) := by
  induction is generalizing s c with
  | nil => exact ⟨hsize, fun i hi => ⟨h i hi, fun hQ => hQ.resolve_left List.not_mem_nil⟩⟩
  | cons i is ih =>
    have hi : i < s.size := hsize ▸ his i List.mem_cons_self
    have hnew : Q i (f s i) := visit s h i List.mem_cons_self
    obtain ⟨hsize', hcells⟩ := ih (s := s.setIfInBounds i (f s i))
      (c := c || decide (f s i ≠ s.getD i d))
      (fun s hs j hj => visit s hs j (List.mem_cons_of_mem _ hj))
      (fun j hj => his j (List.mem_cons_of_mem _ hj)) (by simpa using hsize) fun j hj => by
        rw [getD_setIfInBounds hi]
        split
        · rename_i hij
          exact hij ▸ weaken i _ hnew
        · exact h j hj
    refine ⟨hsize', fun j hj => ⟨(hcells j hj).1, fun hQ => (hcells j hj).2 ?_⟩⟩
    rw [getD_setIfInBounds hi]
    split
    · rename_i hij
      exact .inr (hij ▸ hnew)
    · rename_i hij
      exact hQ.imp_left fun hmem => (List.mem_cons.1 hmem).resolve_left (Ne.symm hij)

end Sweep

/-! ## How far facts travel -/

section Within

variable {base : Nat → Prop} {pass : Nat → Nat → Prop} {i j k m n : Nat}

/-- Fewer than `k` steps along `pass` lead from `i` to where `base` holds. -/
def Within (base : Nat → Prop) (pass : Nat → Nat → Prop) : Nat → Nat → Prop
  | 0, _ => False
  | k + 1, i => base i ∨ ∃ j, pass i j ∧ Within base pass k j

theorem Within.mono (h : Within base pass k i) (hkm : k ≤ m) : Within base pass m i := by
  induction k generalizing i m with
  | zero => exact h.elim
  | succ k ih =>
    obtain ⟨m, rfl⟩ := Nat.exists_eq_add_of_le' (Nat.lt_of_lt_of_le (Nat.succ_pos k) hkm)
    refine h.imp_right ?_
    rintro ⟨j, hpass, hj⟩
    exact ⟨j, hpass, ih hj (by omega)⟩

/-- Once a step more reaches nothing new, no number of steps does. -/
theorem within_succ_of_stable (h : ∀ i, Within base pass (k + 1) i → Within base pass k i) :
    ∀ i, Within base pass (k + 2) i → Within base pass (k + 1) i := by
  intro i hi
  refine hi.imp_right ?_
  rintro ⟨j, hpass, hj⟩
  exact ⟨j, hpass, h j hj⟩

/-- On `n` blocks, what can be reached at all can be reached in fewer than `n` steps. -/
theorem within_size (hbase : ∀ i, base i → i < n) (hpass : ∀ i j, pass i j → i < n)
    (h : Within base pass k i) : Within base pass n i := by
  classical
  have hlt : ∀ {k i}, Within base pass k i → i < n := by
    intro k i hi
    cases k with
    | zero => exact hi.elim
    | succ k =>
      rcases hi with hi | ⟨j, hij, _⟩
      · exact hbase i hi
      · exact hpass i j hij
  -- the blocks within `m` steps, which grow in number until nothing is new
  let reached : Nat → Finset Nat := fun m => (Finset.range n).filter (Within base pass m)
  have hmem : ∀ m i, i ∈ reached m ↔ Within base pass m i := fun m i => by
    simp only [reached, Finset.mem_filter, Finset.mem_range, and_iff_right_iff_imp]
    exact hlt
  have hsub : ∀ {m m'}, m ≤ m' → reached m ⊆ reached m' := fun hle i hi =>
    (hmem _ i).2 (((hmem _ i).1 hi).mono hle)
  have hstable : ∀ m, (reached m).card = (reached (m + 1)).card →
      (reached (m + 1)).card = (reached (m + 2)).card := by
    intro m hcard
    have heq := Finset.eq_of_subset_of_card_le (hsub (Nat.le_succ m)) hcard.ge
    refine congrArg Finset.card (Finset.Subset.antisymm (hsub (Nat.le_succ _)) fun i hi => ?_)
    refine (hmem _ i).2 (within_succ_of_stable (fun j hj => ?_) i ((hmem _ i).1 hi))
    exact (hmem m j).1 (heq ▸ (hmem _ j).2 hj)
  have hcard : (reached (n + k)).card = (reached n).card :=
    Nat.stabilises_of_monotone (fun _ _ hle => Finset.card_le_card (hsub hle))
      (fun m => (Finset.card_le_card (Finset.filter_subset _ _)).trans (Finset.card_range n).le)
      hstable (Nat.le_add_right n k)
  have heq := Finset.eq_of_subset_of_card_le (hsub (Nat.le_add_right n k)) hcard.le
  exact (hmem n i).1 (heq ▸ (hmem _ i).2 (h.mono (Nat.le_add_left k n)))

end Within

end StackFlow.Rounds
