import StackFlow.Elision.Markers
import StackFlow.Proofs.Build

/-!
# Walks through a graph

A walk is the control flow of a run without its data: the places that are executed one
after the other.

* `Walk.append` and `Walk.cut` put walks together and take them apart, and
  `Walk.visit` says that a walk within a block has been through the block up to there.
* `Graph.Built.exists_first_walk` finds a walk to every place of a graph that has been
  built, and one that gets there for the first time.
-/

namespace StackFlow

open Relation

/-- `Walk g a ps c`: control may go from `a` to `c` and execute the instructions at the
places `ps` on the way.  The index of a place may be the length of its block. -/
inductive Walk (g : Graph) : Place → List Place → Place → Prop where
  | refl (a : Place) : Walk g a [] a
  | step {a : Place} {ps : List Place} {b i : Nat} (walk : Walk g a ps ⟨b, i⟩)
      (inside : i < (g.block b).code.length) : Walk g a (ps ++ [⟨b, i⟩]) ⟨b, i + 1⟩
  | jump {a : Place} {ps : List Place} {b i s : Nat} (walk : Walk g a ps ⟨b, i⟩)
      (done : i = (g.block b).code.length) (way : s ∈ (g.block b).succ) : Walk g a ps ⟨s, 0⟩

/-- Where every run starts. -/
def Place.start : Place := ⟨0, 0⟩

/-- The instruction at a place. -/
def Graph.at? (g : Graph) (q : Place) : Option Instr := (g.block q.block).code[q.index]?

namespace Walk

variable {g : Graph} {a c : Place} {ps qs : List Place}

theorem append {d : Place} (hfirst : Walk g a ps c) (hsecond : Walk g c qs d) :
    Walk g a (ps ++ qs) d := by
  induction hsecond with
  | refl => rwa [List.append_nil]
  | step _ inside ih => exact List.append_assoc _ _ _ ▸ .step ih inside
  | jump _ done way ih => exact .jump ih done way

/-- A walk may be cut at any place it executes. -/
theorem cut (h : Walk g a ps c) {xs ys : List Place} {q : Place} (hps : ps = xs ++ q :: ys) :
    Walk g a xs q ∧ q.index < (g.block q.block).code.length ∧
      Walk g ⟨q.block, q.index + 1⟩ ys c := by
  induction h generalizing ys with
  | refl => simp at hps
  | step walk inside ih =>
    rename_i ps b i
    rcases List.eq_nil_or_concat ys with rfl | ⟨zs, z, rfl⟩
    · obtain ⟨rfl, hq⟩ := List.append_inj' hps rfl
      cases hq
      exact ⟨walk, inside, .refl _⟩
    · rw [List.concat_eq_append, ← List.cons_append, ← List.append_assoc] at hps
      rw [List.concat_eq_append]
      obtain ⟨hinit, hz⟩ := List.append_inj' hps rfl
      cases hz
      obtain ⟨hfirst, hq, hrest⟩ := ih hinit
      exact ⟨hfirst, hq, .step hrest inside⟩
  | jump walk done way ih =>
    obtain ⟨hfirst, hq, hrest⟩ := ih hps
    exact ⟨hfirst, hq, .jump hrest done way⟩

theorem cut_of_mem (h : Walk g a ps c) {q : Place} (hq : q ∈ ps) :
    ∃ xs ys, ps = xs ++ q :: ys ∧ Walk g a xs q ∧
      q.index < (g.block q.block).code.length ∧ Walk g ⟨q.block, q.index + 1⟩ ys c := by
  obtain ⟨xs, ys, hps⟩ := List.append_of_mem hq
  exact ⟨xs, ys, hps, h.cut hps⟩

/-- The places of block `b` before index `i`. -/
def visited (b i : Nat) : List Place := (List.range i).map (⟨b, ·⟩)

@[simp] theorem mem_visited {b i : Nat} {q : Place} :
    q ∈ visited b i ↔ q.block = b ∧ q.index < i := by
  simp only [visited, List.mem_map, List.mem_range]
  constructor
  · rintro ⟨j, hj, rfl⟩
    exact ⟨rfl, hj⟩
  · rintro ⟨rfl, hj⟩
    exact ⟨q.index, hj, rfl⟩

theorem visited_succ (b i : Nat) : visited b (i + 1) = visited b i ++ [⟨b, i⟩] := by
  simp [visited, List.range_succ]

/-- A walk that stands within a block has just been through the block up to there. -/
theorem visit (h : Walk g a ps c) (ha : a.index = 0) :
    ∃ xs, ps = xs ++ visited c.block c.index ∧ Walk g a xs ⟨c.block, 0⟩ := by
  induction h with
  | refl =>
    refine ⟨[], ?_, ?_⟩
    · rw [ha]
      rfl
    · rw [← ha]
      exact .refl a
  | step walk inside ih =>
    obtain ⟨xs, hxs, hwalk⟩ := ih
    refine ⟨xs, ?_, hwalk⟩
    rw [hxs, visited_succ, List.append_assoc]
  | jump walk done way ih => exact ⟨_, (List.append_nil _).symm, .jump walk done way⟩

/-- A walk through the rest of a block. -/
theorem through {b i j : Nat} (hij : i ≤ j) (hj : j ≤ (g.block b).code.length) :
    ∃ ps, Walk g ⟨b, i⟩ ps ⟨b, j⟩ := by
  induction j with
  | zero =>
    obtain rfl := Nat.le_zero.1 hij
    exact ⟨[], .refl _⟩
  | succ j ih =>
    rcases Nat.lt_or_eq_of_le hij with hlt | rfl
    · obtain ⟨ps, hwalk⟩ := ih (Nat.le_of_lt_succ hlt) (Nat.le_of_succ_le hj)
      exact ⟨_, .step hwalk hj⟩
    · exact ⟨[], .refl _⟩

/-- A walk that leaves a block takes one of its ways. -/
theorem succ_ne_nil (h : Walk g a ps c) (hne : c.block ≠ a.block) :
    (g.block a.block).succ ≠ [] := by
  induction h with
  | refl => exact absurd rfl hne
  | step _ _ ih => exact ih hne
  | jump walk done way ih =>
    rename_i b i s
    by_cases hb : b = a.block
    · rw [← hb]
      exact List.ne_nil_of_mem way
    · exact ih hb

/-- If a place can be got to, it can be got to for the first time. -/
theorem exists_first {q : Place} (h : Walk g a ps q) : ∃ qs, Walk g a qs q ∧ q ∉ qs := by
  induction hn : ps.length using Nat.strongRecOn generalizing ps with
  | ind n ih =>
    subst hn
    by_cases hq : q ∈ ps
    · obtain ⟨xs, ys, hps, hwalk, _⟩ := h.cut_of_mem hq
      exact ih xs.length (by simp [hps]) hwalk rfl
    · exact ⟨ps, h, hq⟩

end Walk

namespace Graph.Built

variable {o : Options} {code : List Instr} {g : Graph}

/-- Control can get to every place of a graph that has been built, and it can get there
for the first time. -/
theorem exists_first_walk (h : Built o code g) {q : Place} (hblock : q.block < g.size)
    (hindex : q.index ≤ (g.block q.block).code.length) :
    ∃ ps, Walk g .start ps q ∧ q ∉ ps := by
  have hreach := h.reachable hblock
  obtain ⟨ps, hps⟩ : ∃ ps, Walk g .start ps ⟨q.block, 0⟩ := by
    generalize q.block = b at hreach
    induction hreach with
    | refl => exact ⟨[], .refl _⟩
    | tail _ way ih =>
      rename_i b b' _
      obtain ⟨ps, hps⟩ := ih
      obtain ⟨qs, hqs⟩ := Walk.through (Nat.zero_le (g.block b).code.length) (Nat.le_refl _)
      exact ⟨_, .jump (hps.append hqs) rfl way⟩
  obtain ⟨qs, hqs⟩ := Walk.through (Nat.zero_le q.index) hindex
  exact (hps.append hqs).exists_first

end Graph.Built

end StackFlow
