import StackFlow.Proofs.Convergence
import StackFlow.Proofs.Paths

/-!
# Dominators and ways

* `Layout.Dominates` is dominance as it is meant: every way from the entry to a block passes
  through its dominator.  It is a partial order with the entry at its bottom (`dominates_entry`,
  `Dominates.trans`, `Dominates.antisymm`), and the dominators of one block form a chain
  (`Dominates.total`).
* `Dominates.of_succ` is what the fixpoint computes with: what dominates a block from outside
  dominates everything that leads to the block, and `Dominates.of_way` everything on a way.
* `Dominance.avoids_iff` carries what the fixpoint finds over to ways.
* `Graph.dominates_iff` is the main result: the sets of a graph that has been built hold exactly
  the dominators.
-/

namespace StackFlow

namespace Layout

/-! ## The order of the blocks -/

/-- Every way from the entry to block `n` passes through block `d`. -/
def Dominates (layout : Layout) (d n : Nat) : Prop :=
  ∀ bs, layout.Path bs n → d ∈ bs ++ [n]

/-- Block `d` is another block that dominates block `n`. -/
def StrictlyDominates (layout : Layout) (d n : Nat) : Prop := d ≠ n ∧ layout.Dominates d n

variable {layout : Layout} {bs : List Nat} {a b c d n : Nat}

theorem Dominates.refl (layout : Layout) (n : Nat) : layout.Dominates n n := by
  intro bs _
  simp

theorem dominates_entry (layout : Layout) (n : Nat) : layout.Dominates 0 n := by
  intro bs hpath
  induction hpath with
  | entry => simp
  | step _ _ ih => exact List.mem_append_left _ ih

theorem Dominates.eq_entry (h : layout.Dominates d 0) : d = 0 :=
  List.mem_singleton.1 (h [] .entry)

theorem Dominates.trans (hab : layout.Dominates a b) (hbc : layout.Dominates b c) :
    layout.Dominates a c := by
  intro bs hpath
  obtain ⟨as, hto, hsub⟩ := hpath.exists_path_to (hbc bs hpath)
  exact hsub (hab as hto)

/-- A dominator of a block is the block itself or dominates all that leads to it. -/
theorem Dominates.of_succ (h : layout.Dominates d b) (hb : b ∈ layout.succ a) :
    d = b ∨ layout.Dominates d a := by
  by_cases hdb : d = b
  · exact .inl hdb
  · right
    intro bs hpath
    have hmem := h (bs ++ [a]) (hpath.step hb)
    exact (List.mem_append.1 hmem).resolve_right (fun hlast => hdb (List.mem_singleton.1 hlast))

/-- What dominates the end of a way, and is not on it, dominates all of it. -/
theorem Dominates.of_way (h : layout.Dominates d b) (hway : layout.Way a bs b)
    (hnot : d ∉ bs ++ [b]) : ∀ c ∈ bs ++ [b], layout.Dominates d c := by
  induction hway with
  | refl =>
    intro c hc
    rw [List.nil_append, List.mem_singleton] at hc
    exact hc ▸ h
  | step way edge ih =>
    rename_i bs i j
    rw [List.mem_append, List.mem_singleton, not_or] at hnot
    intro c hc
    rcases List.mem_append.1 hc with hbefore | hlast
    · exact ih ((h.of_succ edge).resolve_left hnot.2) hnot.1 c hbefore
    · exact List.mem_singleton.1 hlast ▸ h

/-- On the way to one of two blocks that dominate each other, the first to be reached is both. -/
theorem Dominates.eq_of_mem_path (hab : layout.Dominates a b) (hba : layout.Dominates b a)
    (hpath : layout.Path bs n) (hmem : a ∈ bs ++ [n] ∨ b ∈ bs ++ [n]) : a = b := by
  induction hpath with
  | entry =>
    simp only [List.nil_append, List.mem_singleton] at hmem
    cases hmem with
    | inl ha =>
      subst ha
      exact hba.eq_entry.symm
    | inr hb =>
      subst hb
      exact hab.eq_entry
  | step path way ih =>
    rename_i bs i j
    by_cases hearly : a ∈ bs ++ [i] ∨ b ∈ bs ++ [i]
    · exact ih hearly
    · -- the way ends with one of the two, and the other one is not on it before
      rw [not_or] at hearly
      have hlast : ∀ {c}, c ∉ bs ++ [i] → c ∈ (bs ++ [i]) ++ [j] → c = j := fun hnot hc =>
        List.mem_singleton.1 ((List.mem_append.1 hc).resolve_left hnot)
      cases hmem with
      | inl ha =>
        obtain rfl := hlast hearly.1 ha
        exact (hlast hearly.2 (hba _ (path.step way))).symm
      | inr hb =>
        obtain rfl := hlast hearly.2 hb
        exact hlast hearly.1 (hab _ (path.step way))

theorem Dominates.antisymm (hwf : layout.WellFormed) (hb : b < layout.size)
    (hab : layout.Dominates a b) (hba : layout.Dominates b a) : a = b := by
  obtain ⟨bs, hpath⟩ := hwf.exists_path hb
  exact hab.eq_of_mem_path hba hpath (.inl (hab bs hpath))

/-- Of two dominators of a block, one dominates the other. -/
theorem Dominates.total (hwf : layout.WellFormed) (hn : n < layout.size)
    (ha : layout.Dominates a n) (hb : layout.Dominates b n) :
    layout.Dominates a b ∨ layout.Dominates b a := by
  obtain ⟨bs, hpath⟩ := hwf.exists_path hn
  clear hn
  induction hpath with
  | entry =>
    rw [ha.eq_entry]
    exact .inl (dominates_entry layout b)
  | step path way ih =>
    rcases ha.of_succ way with heq | ha'
    · subst heq
      exact .inr hb
    · rcases hb.of_succ way with heq | hb'
      · subst heq
        exact .inl ha
      · exact ih ha' hb'

theorem Dominates.lt (hwf : layout.WellFormed) (hn : n < layout.size)
    (h : layout.Dominates d n) : d < layout.size := by
  obtain ⟨bs, hpath⟩ := hwf.exists_path hn
  exact hwf.lt_of_mem_path (Nat.zero_lt_of_lt hn) hpath (h bs hpath)

end Layout

/-! ## The sets -/

namespace Dominance

variable {layout : Layout} {sets : Array BlockSet} {d n : Nat}

/-- The fixpoint finds that a block is avoided exactly if some way does not pass through it. -/
theorem avoids_iff (hwf : layout.WellFormed) :
    Avoids layout d n ↔ ∃ bs, layout.Path bs n ∧ d ∉ bs ++ [n] := by
  constructor
  · intro havoids
    obtain ⟨k, hk⟩ := havoids
    induction k generalizing n with
    | zero => exact hk.elim
    | succ k ih =>
      rcases hk with ⟨hzero, hne⟩ | ⟨p, ⟨hne, hp⟩, hk⟩
      · subst hzero
        exact ⟨[], .entry, by simpa using Ne.symm hne⟩
      · obtain ⟨bs, hpath, hnot⟩ := ih hk
        refine ⟨bs ++ [p], hpath.step ((hwf.mem_succ_iff_mem_pred p n).2 hp), ?_⟩
        rw [List.mem_append, List.mem_singleton]
        exact not_or_intro hnot (Ne.symm hne)
  · intro hway
    obtain ⟨bs, hpath, hnot⟩ := hway
    induction hpath with
    | entry => exact ⟨1, .inl ⟨rfl, Ne.symm (by simpa using hnot)⟩⟩
    | step path way ih =>
      rename_i bs i j
      rw [List.mem_append, List.mem_singleton, not_or] at hnot
      obtain ⟨k, hk⟩ := ih hnot.1
      exact ⟨k + 1, .inr ⟨i, ⟨Ne.symm hnot.2, (hwf.mem_succ_iff_mem_pred i j).1 way⟩, hk⟩⟩

/-- Exact sets hold the dominators of their blocks. -/
theorem Exact.contains_iff (h : Exact layout sets) (hwf : layout.WellFormed)
    (hn : n < layout.size) :
    (sets.getD n default).contains d = true ↔ layout.Dominates d n := by
  rw [h.mem_sets n hn, avoids_iff hwf]
  constructor
  · intro hset bs hpath
    by_contra hnot
    exact hset.2 ⟨bs, hpath, hnot⟩
  · intro hdom
    refine ⟨hdom.lt hwf hn, fun hway => ?_⟩
    obtain ⟨bs, hpath, hnot⟩ := hway
    exact hnot (hdom bs hpath)

end Dominance

namespace Graph

variable {o : Options} {code : List Instr} {g : Graph} {n : Nat}

/-- The sets of a graph that has been built are exact, and the tree and the frontiers are read
off them. -/
theorem Built.dominance_spec (h : Built o code g) :
    Dominance.Exact g.layout g.dominance.sets ∧
      g.dominance = Dominance.ofSets g.layout g.dominance.sets := by
  have hcompute := h.dominance
  rw [Dominance.compute] at hcompute
  rcases Dominance.fixpoint_spec h.wellFormed o with
    ⟨sets, rounds, hsets, _, hexact⟩ | ⟨_, hlimit⟩
  · rw [hsets] at hcompute
    have hdominance : Dominance.ofSets g.layout sets = g.dominance := Except.ok.inj hcompute
    rw [← hdominance]
    exact ⟨hexact, rfl⟩
  · rw [hlimit] at hcompute
    cases hcompute

/-- A block dominates another exactly if every way from the entry to the other passes through
it. -/
theorem dominates_iff (h : build o code = .ok g) (hn : n < g.size) (d : Nat) :
    g.dominates d n = true ↔ ∀ bs, g.layout.Path bs n → d ∈ bs ++ [n] := by
  have hbuilt := built_of_build h
  exact hbuilt.dominance_spec.1.contains_iff hbuilt.wellFormed hn

/-- A loop of two blocks that the entry leads into at both of them. -/
def twoWayLoop : List Instr :=
  [.number 1, .branch 1 true, .target 2, .number 2, .ofOpcode .drop, .target 1, .number 3,
    .branch 2 true, .ret .void]

/-- The loop consists of the blocks 2 and 3. -/
theorem exists_twoWayLoop :
    ∃ g, build (Defaults.options {}) twoWayLoop = .ok g ∧ g.size = 5 ∧
      (g.dominates 3 4 = true ∧ g.dominates 2 3 = false ∧ g.dominates 2 4 = false) ∧
      g.dominance.parent = #[none, some 0, some 0, some 0, some 3] ∧
      g.dominance.frontier = #[[], [2], [3], [2], []] := by
  obtain ⟨g, hbuild, hfacts⟩ := exists_ok_of_any
    (x := build (Defaults.options {}) twoWayLoop)
    (P := fun g => decide (g.size = 5) && ((g.dominates 3 4 && (!g.dominates 2 3 &&
      !g.dominates 2 4)) && (decide (g.dominance.parent = #[none, some 0, some 0, some 0, some 3])
        && decide (g.dominance.frontier = #[[], [2], [3], [2], []])))) (by cbv)
  simp only [Bool.and_eq_true, decide_eq_true_eq, Bool.not_eq_true'] at hfacts
  exact ⟨g, hbuild, hfacts⟩

/-- Neither block of the loop dominates the other, but the only way out goes through the
second. -/
theorem dominates_iff_twoWayLoop :
    ∃ g, build (Defaults.options {}) twoWayLoop = .ok g ∧ 3 < g.size ∧ 4 < g.size ∧
      (∀ bs, g.layout.Path bs 4 → 3 ∈ bs ++ [4]) ∧
      (¬ ∀ bs, g.layout.Path bs 3 → 2 ∈ bs ++ [3]) ∧
      ¬ ∀ bs, g.layout.Path bs 4 → 2 ∈ bs ++ [4] := by
  obtain ⟨g, hbuild, hsize, ⟨hout, hside, hother⟩, _⟩ := exists_twoWayLoop
  have hthree : 3 < g.size := by omega
  have hfour : 4 < g.size := by omega
  refine ⟨g, hbuild, hthree, hfour, (dominates_iff hbuild hfour 3).1 hout, ?_, ?_⟩
  · rw [← dominates_iff hbuild hthree 2, hside]
    exact Bool.false_ne_true
  · rw [← dominates_iff hbuild hfour 2, hother]
    exact Bool.false_ne_true

end Graph

end StackFlow
