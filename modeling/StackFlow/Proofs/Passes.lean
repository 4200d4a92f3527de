import StackFlow.Proofs.Coverage
import StackFlow.Proofs.Markers

/-!
# The passes with any variants

* `Elision.Ends` says how a pass comes to an end, with a value or at a misuse; it opens by
  the steps of the pass like `Elision.Yields`.
* `StoreSite` and `AllocationSite` are the places where the passes may exchange an
  instruction.  The first are roots of a forest, the second feed one, so that no place is
  both.
* `Variants.Swaps v g g'`: the graphs are the same but for instructions that `v` exchanges.
  `ends_passes` says that the passes keep this, and `Misfit` what they may run into.
-/

namespace StackFlow

open Forest

/-! ## How passes come to an end -/

namespace Elision

variable {α β : Type} {s : Progress} {R : α → Progress → Prop} {Q : Misuse → Prop}

/-- `Ends x s R Q`: from the state `s`, the pass `x` ends with a value and in a state for
which `R` holds, or it stops at a misuse for which `Q` holds. -/
def Ends (x : Elision α) (s : Progress) (R : α → Progress → Prop) (Q : Misuse → Prop) : Prop :=
  match x.run s with
  | (.ok a, s') => R a s'
  | (.error m, _) => Q m

theorem ends_pure {a : α} : Ends (pure a) s R Q ↔ R a s := Iff.rfl

theorem ends_throw {m : Misuse} : Ends (throw m) s R Q ↔ Q m := Iff.rfl

theorem ends_bind {x : Elision β} {f : β → Elision α} :
    Ends (x >>= f) s R Q ↔ Ends x s (fun b s₁ => Ends (f b) s₁ R Q) Q := by
  unfold Ends
  rw [run_bind]
  rcases x.run s with ⟨_ | _, s₁⟩ <;> exact Iff.rfl

theorem ends_get_bind {f : Progress → Elision α} :
    Ends (get >>= f) s R Q ↔ Ends (f s) s R Q := Iff.rfl

theorem ends_discard {x : Elision β} {R : Unit → Progress → Prop} :
    Ends (discard x) s R Q ↔ Ends x s (fun _ => R ()) Q := by
  unfold Ends
  rw [run_discard]
  rcases x.run s with ⟨_ | _, s₁⟩ <;> exact Iff.rfl

theorem Ends.mono {R' : α → Progress → Prop} {Q' : Misuse → Prop} {x : Elision α}
    (h : Ends x s R Q) (hR : ∀ a s', R a s' → R' a s') (hQ : ∀ m, Q m → Q' m) :
    Ends x s R' Q' := by
  unfold Ends at h ⊢
  split
  · rename_i a s' hrun
    rw [hrun] at h
    exact hR a s' h
  · rename_i m s' hrun
    rw [hrun] at h
    exact hQ m h

theorem Ends.of_yields {x : Elision α} {a : α} {s' : Progress} (h : Ends x s R Q)
    (hyields : Yields x s a s') : R a s' := by
  unfold Ends at h
  rw [hyields] at h
  exact h

theorem Ends.exists_yields {x : Elision α} (h : Ends x s R Q) (hQ : ∀ m, ¬ Q m) :
    ∃ a s', Yields x s a s' := by
  unfold Ends at h
  unfold Yields
  split at h
  · rename_i a s' hrun
    exact ⟨a, s', hrun⟩
  · rename_i m _ _
    exact absurd h (hQ m)

theorem Ends.imp {R' : α → Progress → Prop} {x : Elision α} (h : Ends x s R Q)
    (hR : ∀ a s', R a s' → R' a s') : Ends x s R' Q :=
  h.mono hR fun _ hm => hm

theorem Ends.when {on : Bool} {x : Elision Unit} {P : Progress → Prop}
    (h : Ends x s (fun _ => P) Q) (hs : P s) : Ends (Elision.when on x) s (fun _ => P) Q := by
  unfold Elision.when
  split
  · exact h
  · exact ends_pure.2 hs

/-- A loop that carries a value ends as its rounds do. -/
theorem ends_foldlM {xs : List β} {f : α → β → Elision α} {a : α} (hs : R a s)
    (hstep : ∀ x ∈ xs, ∀ a s, R a s → Ends (f a x) s R Q) : Ends (xs.foldlM f a) s R Q := by
  induction xs generalizing a s with
  | nil => exact hs
  | cons x xs ih =>
    rw [List.foldlM_cons, ends_bind]
    refine (hstep x List.mem_cons_self a s hs).imp fun a' s' hs' => ih hs' ?_
    exact fun y hy => hstep y (List.mem_cons_of_mem _ hy)

/-- A loop ends as its rounds do. -/
theorem ends_forM {xs : List β} {f : β → Elision Unit} {P : Progress → Prop} (hs : P s)
    (hstep : ∀ x ∈ xs, ∀ s, P s → Ends (f x) s (fun _ => P) Q) :
    Ends (xs.forM f) s (fun _ => P) Q := by
  induction xs generalizing s with
  | nil => exact hs
  | cons x xs ih =>
    rw [List.forM, ends_bind]
    refine (hstep x List.mem_cons_self s hs).imp fun _ s' hs' => ih hs' ?_
    exact fun y hy => hstep y (List.mem_cons_of_mem _ hy)

end Elision

/-! ## Places in a forest -/

/-- Whether the instruction has operands that can be paired, and leaves one value. -/
def Instr.Pushes (p : Instr) : Prop := p.isMeta = false ∧ p.isComplex = false ∧ p.outputs = 1

/-- Whether the instruction has operands that can be paired, and is a root since it leaves
no value or several. -/
def Instr.Rooted (p : Instr) : Prop := p.isMeta = false ∧ p.isComplex = false ∧ p.outputs ≠ 1

namespace Forest

variable {code : List Instr} {r : Root} {t : Tree} {q : Nat}

/-- A tree on the stack is that of an instruction that leaves one value. -/
theorem pushes_of_mem_stack {i : Nat} (hi : i ≤ code.length) (ht : t ∈ (grown code i).stack) :
    ∃ p, code[t.index]? = some p ∧ p.Pushes := by
  induction i with
  | zero => simp at ht
  | succ i ih =>
    have hp := List.getElem?_eq_getElem hi
    have hgrows := grows_grown hp
    generalize grown code (i + 1) = s' at hgrows ht
    cases hgrows with
    | skip => exact ih (Nat.le_of_succ_le hi) ht
    | complex => cases ht
    | push spoken paired outputs =>
      rcases List.mem_cons.1 ht with rfl | ht
      · exact ⟨_, hp, spoken, paired, outputs⟩
      · exact ih (Nat.le_of_succ_le hi) (List.mem_of_mem_drop ht)
    | root => exact ih (Nat.le_of_succ_le hi) (List.mem_of_mem_drop ht)
    | spill => cases ht

theorem Feeds.pushes {l c : Nat} (h : Feeds code l c q) :
    ∃ p, code[l]? = some p ∧ p.Pushes := by
  obtain ⟨p, t, hp, _, _, _, ht, rfl⟩ := h
  have hc := Nat.le_of_lt (List.getElem?_eq_some_iff.1 hp).1
  exact pushes_of_mem_stack hc (List.mem_of_getElem? ht)

/-- What is an operand of a root is an instruction that leaves one value. -/
theorem pushes_of_operand (hr : r ∈ (ofCode code).roots) (ht : r.tree.operand? q = some t) :
    ∃ p, code[t.index]? = some p ∧ p.Pushes :=
  ((grown_of_mem_roots hr).operand ht).1.pushes

/-- A root with an operand is an instruction that takes operands, and that does not leave
one value. -/
theorem rooted_of_operand (hr : r ∈ (ofCode code).roots) (ht : r.tree.operand? q = some t) :
    ∃ p, code[r.tree.index]? = some p ∧ p.Rooted ∧ 0 < p.arity := by
  obtain ⟨p, _, hp, hmeta, hcomplex, hq, _⟩ := ((grown_of_mem_roots hr).operand ht).1
  refine ⟨p, hp, ⟨hmeta, hcomplex, fun hone => ?_⟩, Nat.zero_lt_of_lt hq⟩
  -- an instruction that leaves one value adds no root
  rw [ofCode_eq] at hr
  obtain ⟨pre, post, hsplit⟩ := List.append_of_mem hr
  obtain ⟨_, _, hroot⟩ := roots_split (Nat.le_refl _) hsplit
  have hgrows := grows_grown hp
  generalize grown code (r.tree.index + 1) = s' at hgrows hroot
  cases hgrows with
  | skip silent => simp [hmeta] at silent
  | complex _ complex => simp [hcomplex] at complex
  | push => exact absurd hroot.symm (List.cons_ne_self _ _)
  | root _ _ outputs => simp [hone] at outputs
  | spill _ _ _ several => exact several hone

end Forest

/-! ## Exchanges of any variants -/

/-- Whether the graph lets `q` take the place of `p`. -/
def Instr.fits (p q : Instr) : Bool := p.sameShape q && p.collects = q.collects

theorem Instr.fits_refl (p : Instr) : p.fits p = true := by
  simp [fits, sameShape]

/-- `v.Swapped p p'`: the passes may put `p'` in the place of `p`. -/
inductive Variants.Swapped (v : Variants) (p : Instr) : Instr → Prop where
  | same : Swapped v p p
  | store (checked : v.isCheckedStore p = true) (rooted : p.Rooted)
      (fits : p.fits v.uncheckedStore = true) : Swapped v p v.uncheckedStore
  | allocation (clears : v.isAllocate p = true) (pushes : p.Pushes)
      (fits : p.fits v.allocateOnly = true) : Swapped v p v.allocateOnly

/-- `v.Swaps g g'`: the graphs are the same but for instructions that `v` exchanges. -/
structure Variants.Swaps (v : Variants) (g g' : Graph) : Prop where
  graph : g' = { g with layout := g'.layout }
  size : g'.size = g.size
  frame : ∀ b, g'.block b = { g.block b with code := (g'.block b).code }
  code : ∀ b, List.Forall₂ v.Swapped (g.block b).code (g'.block b).code

/-- A place with a store that the passes may take the barrier from. -/
def StoreSite (v : Variants) (g : Graph) (b i : Nat) : Prop :=
  ∃ p, (g.block b).code[i]? = some p ∧ v.isCheckedStore p = true ∧ p.Rooted

/-- A place with an allocation that the passes may keep from clearing memory. -/
def AllocationSite (v : Variants) (g : Graph) (b i : Nat) : Prop :=
  ∃ p, (g.block b).code[i]? = some p ∧ v.isAllocate p = true ∧ p.Pushes

/-- What the passes may run into in the graph `g`. -/
inductive Misfit (v : Variants) (g : Graph) : Misuse → Prop where
  /-- The operands of an instruction cannot be laid out. -/
  | layout {b : Nat} {p : Instr} (hp : p ∈ (g.block b).code)
      (h : Forest.canLayOut p = false) : Misfit v g .outOfRange
  /-- A store looks like the one with a barrier, but the one without does not fit. -/
  | store {b i : Nat} {p : Instr} (hp : (g.block b).code[i]? = some p)
      (checked : v.isCheckedStore p = true) (misfit : p.fits v.uncheckedStore = false) :
      Misfit v g (.replacement p v.uncheckedStore ⟨b, i⟩)
  /-- An allocation looks like the one that clears memory, but the other does not fit. -/
  | allocation {b i : Nat} {p : Instr} (hp : (g.block b).code[i]? = some p)
      (clears : v.isAllocate p = true) (misfit : p.fits v.allocateOnly = false) :
      Misfit v g (.replacement p v.allocateOnly ⟨b, i⟩)
  /-- A field is stored into with a type that has no size. -/
  | field {b : Nat} {p p' : Instr} (hp : p ∈ (g.block b).code)
      (same : p' = p ∨ v.isCheckedStore p = true ∧ p' = v.uncheckedStore)
      (stores : v.isFieldStore p' = true) (unsized : p'.ty.size? g.pointerSize = none) :
      Misfit v g (.sizeOfType p'.ty)

theorem Graph.instr?_eq (g : Graph) (b i : Nat) : g.instr? b i = (g.block b).code[i]? := by
  unfold Graph.instr? Graph.block Layout.block
  cases h : g.layout[b]? with
  | none => simp [h, default, instInhabitedBlock.default]
  | some k => simp [h]

namespace Elision

variable {s : Progress} {R : Unit → Progress → Prop} {Q : Misuse → Prop}

/-- An exchange is done if the new instruction fits. -/
theorem ends_replace {reason : Reason} {b i : Nat} {p old : Instr}
    (hold : (s.graph.block b).code[i]? = some old)
    (hfits : old.fits p = true → ∀ s', s'.graph = s.graph.setInstr b i p → R () s')
    (hmisfit : old.fits p = false → Q (.replacement old p ⟨b, i⟩)) :
    Ends (Elision.replace reason b i p) s R Q := by
  unfold Elision.replace
  rw [ends_get_bind]
  unfold Graph.replace
  rw [Graph.instr?_eq, hold]
  cases h : old.fits p with
  | true =>
    have hok := h
    rw [Instr.fits] at hok
    simp only [hok, if_true]
    exact hfits h _ rfl
  | false =>
    have hok := h
    rw [Instr.fits] at hok
    simp only [hok, Bool.false_eq_true, if_false]
    exact hmisfit h

end Elision

namespace Variants

variable {v : Variants} {g g' : Graph} {b i : Nat} {p p' : Instr}

theorem Swaps.refl (v : Variants) (g : Graph) : v.Swaps g g :=
  ⟨rfl, rfl, fun _ => rfl, fun _ => List.forall₂_same.2 fun _ _ => .same⟩

theorem Swaps.options (h : v.Swaps g g') : g'.options = g.options := by
  rw [h.graph]

theorem Swaps.of_new (h : v.Swaps g g') (hp : (g'.block b).code[i]? = some p') :
    ∃ p, (g.block b).code[i]? = some p ∧ v.Swapped p p' := by
  obtain ⟨hlt, rfl⟩ := List.getElem?_eq_some_iff.1 hp
  have hlt' : i < (g.block b).code.length := (h.code b).length_eq ▸ hlt
  exact ⟨_, List.getElem?_eq_getElem hlt', (h.code b).get hlt' hlt⟩

theorem Swaps.of_old (h : v.Swaps g g') (hp : (g.block b).code[i]? = some p) :
    ∃ p', (g'.block b).code[i]? = some p' ∧ v.Swapped p p' := by
  obtain ⟨hlt, rfl⟩ := List.getElem?_eq_some_iff.1 hp
  have hlt' : i < (g'.block b).code.length := (h.code b).length_eq ▸ hlt
  exact ⟨_, List.getElem?_eq_getElem hlt', (h.code b).get hlt hlt'⟩

theorem Swaps.setInstr (h : v.Swaps g g') (hp : (g.block b).code[i]? = some p)
    (hswapped : v.Swapped p p') : v.Swaps g (g'.setInstr b i p') where
  graph := by
    unfold Graph.setInstr
    conv_lhs => rw [h.graph]
  size := by
    rw [← h.size]
    simp [Graph.setInstr, Graph.size]
  frame b' := by
    rw [Graph.block_setInstr]
    split
    · conv_lhs => rw [h.frame b']
    · exact h.frame b'
  code b' := by
    rw [Graph.block_setInstr]
    split
    · rename_i hb
      subst hb
      refine List.forall₂_iff_get.2 ⟨by simpa using (h.code b).length_eq, fun j hj hj' => ?_⟩
      simp only [List.get_eq_getElem, List.getElem_set]
      split
      · rename_i hij
        subst hij
        obtain ⟨_, rfl⟩ := List.getElem?_eq_some_iff.1 hp
        exact hswapped
      · exact (h.code b).get hj (by simpa using hj')
    · exact h.code b'

/-- An instruction that leaves one value is not exchanged for a store. -/
theorem Swapped.eq_of_pushes (h : v.Swapped p p') (hp : p.Pushes) :
    p' = p ∨ v.isAllocate p = true ∧ p.fits v.allocateOnly = true ∧ p' = v.allocateOnly := by
  cases h with
  | same => exact .inl rfl
  | store _ rooted => exact absurd hp.2.2 rooted.2.2
  | allocation clears _ fits => exact .inr ⟨clears, fits, rfl⟩

/-- An instruction that does not leave one value is not exchanged for an allocation. -/
theorem Swapped.eq_of_rooted (h : v.Swapped p p') (hp : p.Rooted) :
    p' = p ∨ v.isCheckedStore p = true ∧ p.fits v.uncheckedStore = true ∧
      p' = v.uncheckedStore := by
  cases h with
  | same => exact .inl rfl
  | store checked _ fits => exact .inr ⟨checked, fits, rfl⟩
  | allocation _ pushes => exact absurd pushes.2.2 hp.2.2

end Variants

/-! ## The three passes -/

section Passes

open Elision

variable {v : Variants} {g : Graph} {b i : Nat} {r : Root} {t : Tree} {s : Progress} {q : Nat}
  {p : Instr}

/-- A root that looks like a store with a barrier was one before. -/
theorem storeSite_of_root (hswaps : v.Swaps g s.graph)
    (hr : r ∈ ((g.contextFor v).forest b).roots) (ht : r.tree.operand? q = some t)
    (hp : (s.graph.block b).code[r.tree.index]? = some p) (hchecked : v.isCheckedStore p = true) :
    StoreSite v g b r.tree.index := by
  rw [Graph.forest_contextFor] at hr
  obtain ⟨p₀, hp₀, hrooted, _⟩ := Forest.rooted_of_operand hr ht
  obtain ⟨p₁, hp₁, hswapped⟩ := hswaps.of_new hp
  rw [hp₀, Option.some_inj] at hp₁
  subst hp₁
  rcases hswapped.eq_of_rooted hrooted with rfl | ⟨hold, _⟩
  · exact ⟨p, hp₀, hchecked, hrooted⟩
  · exact ⟨p₀, hp₀, hold, hrooted⟩

/-- An operand of a root that looks like an allocation that clears memory was one before. -/
theorem allocationSite_of_operand (hswaps : v.Swaps g s.graph)
    (hr : r ∈ ((g.contextFor v).forest b).roots) (ht : r.tree.operand? q = some t)
    (hclears : ((s.graph.block b).code[t.index]?).any v.isAllocate = true) :
    AllocationSite v g b t.index := by
  rw [Graph.forest_contextFor] at hr
  obtain ⟨p₀, hp₀, hpushes⟩ := Forest.pushes_of_operand hr ht
  obtain ⟨p, hp, hclears⟩ := (Option.any_eq_true _ _).1 hclears
  obtain ⟨p₁, hp₁, hswapped⟩ := hswaps.of_new hp
  rw [hp₀, Option.some_inj] at hp₁
  subst hp₁
  rcases hswapped.eq_of_pushes hpushes with rfl | ⟨hold, _⟩
  · exact ⟨p, hp₀, hclears, hpushes⟩
  · exact ⟨p₀, hp₀, hold, hpushes⟩

theorem ends_replace_store {reason : Reason} (hswaps : v.Swaps g s.graph)
    (hsite : StoreSite v g b i) : Ends (Elision.replace reason b i v.uncheckedStore) s
      (fun _ s' => v.Swaps g s'.graph) (Misfit v g) := by
  obtain ⟨p, hp, hchecked, hrooted⟩ := hsite
  obtain ⟨p', hp', hswapped⟩ := hswaps.of_old hp
  refine ends_replace hp' (fun hfits s' hs' => ?_) fun hmisfit => ?_
  · rw [hs']
    refine hswaps.setInstr hp (.store hchecked hrooted ?_)
    rcases hswapped.eq_of_rooted hrooted with rfl | ⟨_, hold, _⟩
    · exact hfits
    · exact hold
  · -- a store that has lost its barrier fits itself
    rcases hswapped.eq_of_rooted hrooted with rfl | ⟨_, _, rfl⟩
    · exact .store hp hchecked hmisfit
    · rw [Instr.fits_refl] at hmisfit
      cases hmisfit

theorem ends_replace_allocation {reason : Reason} (hswaps : v.Swaps g s.graph)
    (hsite : AllocationSite v g b i) : Ends (Elision.replace reason b i v.allocateOnly) s
      (fun _ s' => v.Swaps g s'.graph) (Misfit v g) := by
  obtain ⟨p, hp, hclears, hpushes⟩ := hsite
  obtain ⟨p', hp', hswapped⟩ := hswaps.of_old hp
  refine ends_replace hp' (fun hfits s' hs' => ?_) fun hmisfit => ?_
  · rw [hs']
    refine hswaps.setInstr hp (.allocation hclears hpushes ?_)
    rcases hswapped.eq_of_pushes hpushes with rfl | ⟨_, hold, _⟩
    · exact hfits
    · exact hold
  · rcases hswapped.eq_of_pushes hpushes with rfl | ⟨_, _, rfl⟩
    · exact .allocation hp hclears hmisfit
    · rw [Instr.fits_refl] at hmisfit
      cases hmisfit

theorem ends_elideBarriers (hswaps : v.Swaps g s.graph) :
    Ends (g.contextFor v).elideBarriers s (fun _ s' => v.Swaps g s'.graph) (Misfit v g) := by
  unfold Context.elideBarriers
  rw [ends_get_bind]
  refine ends_forM hswaps fun b _ s hswaps => ?_
  rw [ends_discard]
  unfold Context.elideBlock
  refine ends_foldlM (R := fun _ s' => v.Swaps g s'.graph) hswaps fun r hr fresh s hswaps => ?_
  simp only
  rw [ends_get_bind]
  split
  · rename_i reason hverdict
    obtain ⟨p, hp, hchecked, hwhy⟩ := verdict_eq_elide hverdict
    have hoperand : ∃ q t, r.tree.operand? q = some t := by
      rcases hwhy with ⟨_, hnull⟩ | ⟨_, _, k, hk, _⟩
      · cases ht : r.tree.operand? 0 with
        | none =>
          rw [ht] at hnull
          cases hnull
        | some t => exact ⟨0, t, ht⟩
      · obtain ⟨t, _, ht, _⟩ := Context.loadedClass?_eq_some hk
        exact ⟨1, t, ht⟩
    obtain ⟨q, t, ht⟩ := hoperand
    rw [ends_bind]
    exact ends_replace_store hswaps (storeSite_of_root hswaps hr ht hp hchecked)
  · exact hswaps

/-- What the marker pass has noted are allocations. -/
theorem allocationSite_markers (hswaps : v.Swaps g s.graph) :
    ∀ e ∈ ((g.contextFor v).markers s.graph).allocations,
      AllocationSite v g e.2.block e.2.index := by
  refine Context.markers_induct
    (P := fun m => ∀ e ∈ m.allocations, AllocationSite v g e.2.block e.2.index) (by simp) ?_
  intro b r hr m hm e he
  unfold Context.noteMarker at he
  split at he
  · exact hm e he
  · split at he
    · split at he <;> exact hm e he
    · split at he
      · rename_i k t hk ht
        split at he
        · rename_i hclears
          rcases List.mem_cons.1 he with rfl | he
          · exact allocationSite_of_operand hswaps hr ht hclears
          · exact hm e he
        · exact hm e he
      · exact hm e he

theorem ends_fuseMarkers (hswaps : v.Swaps g s.graph) :
    Ends (g.contextFor v).fuseMarkers s (fun _ s' => v.Swaps g s'.graph) (Misfit v g) := by
  unfold Context.fuseMarkers
  rw [ends_get_bind]
  have hsites := allocationSite_markers hswaps
  simp only
  generalize (g.contextFor v).markers s.graph = m at hsites
  refine ends_forM hswaps fun k _ s hswaps => ?_
  unfold Context.fuseMarker
  split
  · rename_i i a hi ha
    rw [ends_get_bind]
    split
    · exact ends_replace_allocation hswaps (hsites _ (mem_of_lookup ha))
    · exact hswaps
  · exact hswaps

/-- What the passes may run into if pointers have a size. -/
def Sized (v : Variants) (g : Graph) (m : Misuse) : Prop := g.pointerSize ≠ 0 → Misfit v g m

/-- The allocations that are followed are allocations that clear memory. -/
def FollowsSites (v : Variants) (g : Graph) (b : Nat) (f : Context.Followed) : Prop :=
  ∀ e ∈ f, AllocationSite v g b e.2.index

variable {f : Context.Followed} {k : Int64} {a : Context.Pending}

theorem ends_settle (hswaps : v.Swaps g s.graph) (hf : FollowsSites v g b f)
    (hsite : AllocationSite v g b a.index) : Ends ((g.contextFor v).settle b k a f) s
      (fun f' s' => v.Swaps g s'.graph ∧ FollowsSites v g b f') (Sized v g) := by
  have hdrop : FollowsSites v g b (f.drop k) := fun e he => hf e (List.mem_filter.1 he).1
  unfold Context.settle
  split
  · rw [ends_bind]
    exact (ends_replace_allocation hswaps hsite).mono (fun _ s' hswaps => ⟨hswaps, hdrop⟩)
      fun _ hmisfit _ => hmisfit
  · refine ⟨hswaps, fun e he => ?_⟩
    rcases List.mem_cons.1 he with rfl | he
    · exact hsite
    · exact hdrop e he

theorem wordsOf_ne_error {ptr size : Int64} {m : Misuse} (hptr : ptr ≠ 0) :
    wordsOf ptr size ≠ .error m := by
  simp [wordsOf, hptr]

/-- Which type a store's words are asked of. -/
theorem writtenBits_eq_error {ptr offset : Int64} {ty : Ty} {m : Misuse} (hptr : ptr ≠ 0)
    (h : writtenBits ptr offset ty = .error m) : m = .sizeOfType ty ∧ ty.size? ptr = none := by
  unfold writtenBits at h
  rw [if_neg hptr] at h
  split at h
  · cases h
  · split at h
    · rename_i hsize
      cases h
      exact ⟨rfl, hsize⟩
    · split at h <;> cases h

theorem ends_cover (hswaps : v.Swaps g s.graph)
    (hf : FollowsSites v g b f) (hr : r ∈ ((g.contextFor v).forest b).roots)
    (hp : (s.graph.block b).code[r.tree.index]? = some p) (hstores : v.isFieldStore p = true) :
    Ends ((g.contextFor v).cover b (s.graph.block b).code r p f) s
      (fun f' s' => v.Swaps g s'.graph ∧ FollowsSites v g b f') (Sized v g) := by
  have hpointer : s.graph.pointerSize = g.pointerSize := by
    rw [Graph.pointerSize, hswaps.options, Graph.pointerSize]
  unfold Context.cover
  split
  · exact ⟨hswaps, hf⟩
  · rename_i k hk
    split
    · rename_i a offset ha _
      rw [ends_get_bind, hpointer]
      split
      · rename_i m hbits
        rw [ends_throw]
        intro hptr
        obtain ⟨rfl, hsize⟩ := writtenBits_eq_error hptr hbits
        obtain ⟨t, _, ht, _⟩ := Context.loadedClass?_eq_some hk
        rw [Graph.forest_contextFor] at hr
        obtain ⟨p₀, hp₀, hrooted, _⟩ := Forest.rooted_of_operand hr ht
        obtain ⟨p₁, hp₁, hswapped⟩ := hswaps.of_new hp
        rw [hp₀, Option.some_inj] at hp₁
        subst hp₁
        refine .field (List.mem_of_getElem? hp₀) ?_ hstores hsize
        exact (hswapped.eq_of_rooted hrooted).imp id fun h => ⟨h.1, h.2.2⟩
      · exact ⟨hswaps, hf⟩
      · refine ends_settle hswaps hf ?_
        obtain ⟨xs, ys, hsplit, _⟩ := List.lookup_eq_some_iff.1 ha
        exact hf (k, a) (by simp [hsplit])
    · exact ⟨hswaps, hf⟩

theorem ends_follow (hswaps : v.Swaps g s.graph)
    (hf : FollowsSites v g b f) (hr : r ∈ ((g.contextFor v).forest b).roots) :
    Ends ((g.contextFor v).follow b (s.graph.block b).code r f) s
      (fun f' s' => v.Swaps g s'.graph ∧ FollowsSites v g b f') (Sized v g) := by
  have hpointer : s.graph.pointerSize = g.pointerSize := by
    rw [Graph.pointerSize, hswaps.options, Graph.pointerSize]
  unfold Context.follow
  split
  · rename_i k t _ ht
    split
    · exact ⟨hswaps, hf⟩
    · rename_i hclears
      rw [Bool.not_eq_true, Bool.not_eq_false'] at hclears
      split
      · exact ⟨hswaps, hf⟩
      · rw [ends_get_bind, hpointer]
        split
        · rename_i hwords
          exact fun hptr => absurd hwords (wordsOf_ne_error hptr)
        · exact ⟨hswaps, hf⟩
        · exact ends_settle hswaps hf (allocationSite_of_operand hswaps hr ht hclears)
  · exact ⟨hswaps, hf⟩

theorem ends_coverRoot (hswaps : v.Swaps g s.graph) (hf : FollowsSites v g b f)
    (hr : r ∈ ((g.contextFor v).forest b).roots) : Ends ((g.contextFor v).coverRoot b f r) s
      (fun f' s' => v.Swaps g s'.graph ∧ FollowsSites v g b f') (Sized v g) := by
  rw [coverRoot_eq, ends_get_bind]
  simp only
  generalize hrest : (g.contextFor v).survivors (s.graph.block b).code r f = rest
  have hkept : FollowsSites v g b rest := by
    intro e he
    rw [← hrest] at he
    unfold Context.survivors at he
    split at he
    · cases he
    · exact hf e (mem_dropEscapes he).1
  split
  · exact ⟨hswaps, hkept⟩
  · rename_i p hp
    split
    · rename_i hstores
      exact ends_cover hswaps hkept hr hp hstores
    · exact ends_follow hswaps hkept hr

theorem ends_coverAllocations (hswaps : v.Swaps g s.graph) :
    Ends (g.contextFor v).coverAllocations s (fun _ s' => v.Swaps g s'.graph) (Sized v g) := by
  unfold Context.coverAllocations
  rw [ends_get_bind]
  refine ends_forM hswaps fun b _ s hswaps => ?_
  rw [ends_discard]
  refine (ends_foldlM (R := fun f s' => v.Swaps g s'.graph ∧ FollowsSites v g b f)
    ⟨hswaps, fun e he => absurd he List.not_mem_nil⟩ ?_).imp fun _ _ h => h.1
  exact fun r hr f s ⟨hswaps, hf⟩ => ends_coverRoot hswaps hf hr

theorem ofGraph_eq (v : Variants) (g : Graph) :
    Context.ofGraph v g = .ok (g.contextFor v) ∧ (∀ b, ∀ p ∈ (g.block b).code,
      Forest.canLayOut p = true) ∨
    Context.ofGraph v g = .error .outOfRange ∧ ∃ b, ∃ p ∈ (g.block b).code,
      Forest.canLayOut p = false := by
  unfold Context.ofGraph Forest.ofGraph
  split
  · exact .inl ⟨rfl, Forest.canLayOut_iff.1 ‹_›⟩
  · rename_i hall
    refine .inr ⟨rfl, ?_⟩
    rw [Forest.canLayOut_iff] at hall
    push Not at hall
    obtain ⟨b, p, hp, hlayout⟩ := hall
    exact ⟨b, p, hp, Bool.eq_false_iff.2 hlayout⟩

/-- The passes only exchange what the variants say, and stop only at what does not fit. -/
theorem ends_passes (v : Variants) (g : Graph) (on : Passes) :
    Ends (Elision.passes v on) { graph := g } (fun _ s' => v.Swaps g s'.graph) (Sized v g) := by
  unfold Elision.passes
  rw [ends_get_bind, ends_bind]
  rcases ofGraph_eq v g with ⟨hcontext, _⟩ | ⟨hcontext, b, p, hp, hlayout⟩
  · simp only [hcontext]
    change Ends (do
      Elision.when on.writeBarriers (g.contextFor v).elideBarriers
      Elision.when on.initMarkers (g.contextFor v).fuseMarkers
      Elision.when on.fixedInit (g.contextFor v).coverAllocations) _ _ _
    have hstart : v.Swaps g ({ graph := g } : Progress).graph := .refl v g
    rw [ends_bind]
    refine ((ends_elideBarriers hstart).when hstart).mono (fun _ s₁ h₁ => ?_) fun _ h _ => h
    rw [ends_bind]
    refine ((ends_fuseMarkers h₁).when h₁).mono (fun _ s₂ h₂ => ?_) fun _ h _ => h
    exact (ends_coverAllocations h₂).when h₂
  · simp only [hcontext]
    exact fun _ => .layout hp hlayout

end Passes

/-! ## What the optimizer runs into -/

namespace Graph

variable {o : Options} {code : List Instr} {g : Graph}

/-- The optimizer only exchanges what the variants say. -/
theorem swaps_optimize {v : Variants} {on : Passes} {rep : Report} {g' : Graph}
    (h : g.optimize v on = (.ok rep, g')) : v.Swaps g g' := by
  have hends := ends_passes v g on
  unfold Elision.Ends at hends
  unfold Graph.optimize at h
  split at h
  · cases h
    exact .refl v g
  · split at h
    · rename_i s hrun
      rw [hrun] at hends
      cases h
      exact hends
    · cases h

/-- The optimizer yields a report, or runs into an instruction that does not fit. -/
theorem optimize_ok_or_misfit (hbuild : build o code = .ok g)
    (hptr : isPointerSize o.platform.pointerSize = true) (v : Variants) (on : Passes) :
    (∃ rep g', g.optimize v on = (.ok rep, g')) ∨
      ∃ m g', g.optimize v on = (.error m, g') ∧ Misfit v g m := by
  have hpointer : g.pointerSize ≠ 0 := by
    rw [Graph.pointerSize, (built_of_build hbuild).options]
    intro hzero
    rw [hzero] at hptr
    cases hptr
  have hends := ends_passes v g on
  unfold Elision.Ends at hends
  unfold Graph.optimize
  split
  · exact .inl ⟨_, _, rfl⟩
  · split
    · exact .inl ⟨_, _, rfl⟩
    · rename_i m s hrun
      rw [hrun] at hends
      exact .inr ⟨m, _, rfl, hends hpointer⟩

/-- A routine with an instruction that looks like an allocation of `fetchVariants`. -/
def fetchRoutine : List Instr :=
  [.fetch 4, .tstore .reference 0, .tload .reference 0, .ofOpcode .fullyInitialized, .ret .void]

/-- Variants that fit together, but not with every instruction of their opcodes. -/
def fetchVariants : Variants :=
  { Variants.standard with allocate := .ofOpcode .fetch, allocateOnly := .ofOpcode .fetch }

/-- The optimizer runs into its first instruction. -/
theorem optimize_fetchRoutine : isPointerSize (Defaults.options {}).platform.pointerSize = true ∧
    fetchVariants.validate = .ok () ∧ ∃ g, build (Defaults.options {}) fetchRoutine = .ok g ∧
      ∃ m g', g.optimize fetchVariants ⟨true, true, true⟩ = (.error m, g') ∧
        Misfit fetchVariants g m := by
  have hfails : (build (Defaults.options {}) fetchRoutine).toOption.any (fun g =>
      !(g.optimize fetchVariants ⟨true, true, true⟩).1.isOk) = true := by cbv
  obtain ⟨g, hbuild, hresult⟩ := exists_ok_of_any hfails
  refine ⟨rfl, rfl, g, hbuild, ?_⟩
  rcases optimize_ok_or_misfit hbuild rfl fetchVariants ⟨true, true, true⟩ with
    ⟨rep, g', hok⟩ | hmisfit
  · rw [hok] at hresult
    cases hresult
  · exact hmisfit

end Graph

end StackFlow
