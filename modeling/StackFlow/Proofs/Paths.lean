import StackFlow.Proofs.Wiring

/-!
# Ways through the blocks

* `Layout.Path` is a way from the entry through the blocks of a routine, and `Layout.Way` one from
  some block.
* `Path.exists_path_to` says that each block on a way ends a way of its own, which goes nowhere
  else.
* `WellFormed.exists_path` finds a way to every block, and `WellFormed.lt_of_mem_path` says that
  ways go through blocks only.
-/

namespace StackFlow.Layout

/-- Control may go from the entry through the blocks `bs` to the block `b`, which is not one
of them unless control has been there before. -/
inductive Path (layout : Layout) : List Nat → Nat → Prop where
  | entry : Path layout [] 0
  | step {bs : List Nat} {i j : Nat} (path : Path layout bs i) (way : j ∈ layout.succ i) :
      Path layout (bs ++ [i]) j

/-- Control may go from block `a` through the blocks `bs`, of which `a` is the first, to the
block `b`.  If there are none then the two are the same. -/
inductive Way (layout : Layout) (a : Nat) : List Nat → Nat → Prop where
  | refl : Way layout a [] a
  | step {bs : List Nat} {i j : Nat} (way : Way layout a bs i) (edge : j ∈ layout.succ i) :
      Way layout a (bs ++ [i]) j

variable {layout : Layout} {as bs : List Nat} {a b c : Nat}

theorem Way.append (hfirst : layout.Way a as b) (hway : layout.Way b bs c) :
    layout.Way a (as ++ bs) c := by
  induction hway with
  | refl => rwa [List.append_nil]
  | step _ edge ih =>
    rw [← List.append_assoc]
    exact ih.step edge

theorem Way.cons (edge : b ∈ layout.succ a) (hway : layout.Way b bs c) :
    layout.Way a (a :: bs) c :=
  Way.append (.step .refl edge) hway

theorem Way.start_mem (hway : layout.Way a bs b) : a ∈ bs ++ [b] := by
  induction hway with
  | refl => exact List.mem_singleton_self a
  | step _ _ ih => exact List.mem_append_left _ ih

/-- A way through a block begins with a way to it. -/
theorem Path.exists_path_to (hpath : layout.Path bs b) (ha : a ∈ bs ++ [b]) :
    ∃ as, layout.Path as a ∧ as ++ [a] ⊆ bs ++ [b] := by
  induction hpath with
  | entry =>
    rw [List.nil_append, List.mem_singleton] at ha
    subst ha
    exact ⟨[], .entry, List.Subset.refl _⟩
  | step path way ih =>
    rename_i bs i j
    rcases List.mem_append.1 ha with hbefore | hlast
    · obtain ⟨as, hpath, hsub⟩ := ih hbefore
      exact ⟨as, hpath, List.Subset.trans hsub (List.subset_append_left _ _)⟩
    · rw [List.mem_singleton] at hlast
      subst hlast
      exact ⟨bs ++ [i], path.step way, List.Subset.refl _⟩

theorem WellFormed.lt_of_path (h : layout.WellFormed) (hsize : 0 < layout.size)
    (hpath : layout.Path bs b) : b < layout.size := by
  cases hpath with
  | entry => exact hsize
  | step path way => exact h.succ_lt _ _ way

theorem WellFormed.lt_of_mem_path (h : layout.WellFormed) (hsize : 0 < layout.size)
    (hpath : layout.Path bs b) (ha : a ∈ bs ++ [b]) : a < layout.size := by
  obtain ⟨as, hto, _⟩ := hpath.exists_path_to ha
  exact h.lt_of_path hsize hto

theorem WellFormed.lt_of_way (h : layout.WellFormed) (hway : layout.Way a bs b)
    (hb : b < layout.size) : a < layout.size := by
  induction hway with
  | refl => exact hb
  | step _ edge ih => exact ih (h.lt_of_mem_succ edge)

theorem WellFormed.exists_path (h : layout.WellFormed) (hb : b < layout.size) :
    ∃ bs, layout.Path bs b := by
  have hreach := h.reachable b hb
  clear hb
  induction hreach with
  | refl => exact ⟨[], .entry⟩
  | tail _ way ih =>
    obtain ⟨bs, hpath⟩ := ih
    exact ⟨_, hpath.step way⟩

end StackFlow.Layout
