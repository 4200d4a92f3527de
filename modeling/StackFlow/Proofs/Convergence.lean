import StackFlow.Proofs.BlockSets
import StackFlow.Proofs.Liveness
import StackFlow.Proofs.Wiring

/-!
# The fixpoints of a graph settle

The facts of both fixpoints travel along ways through the graph, at least one block
further in each round.

* `Live.Grown k i x` says how far the sets `x` of block `i` are after `k` rounds.
  `Live.grown_grow` is one visit and `Live.grown_after` all rounds.
* `Live.compute_spec` says that the live sets settle in time, and that they hold exactly
  what some way reads (`Live.Reads`).
* `Dominance.Narrowed`, `Dominance.narrowed_narrow`, `Dominance.narrowed_after` and
  `Dominance.compute_spec` do the same for the dominators, which are all blocks but those
  that some way from the entry avoids (`Dominance.Avoids`).
-/

namespace StackFlow

namespace Layout

variable {layout : Layout}

/-- The only block of a routine has no successor, since that would be the entry. -/
theorem WellFormed.succ_eq_nil (h : layout.WellFormed) (hsize : layout.size = 1) (i : Nat) :
    layout.succ i = [] := by
  refine List.eq_nil_iff_forall_not_mem.2 fun j hj => ?_
  have hlt := h.succ_lt i j hj
  have hne := h.ne_entry_of_mem_succ hj
  omega

end Layout

/-! ## Live temporaries -/

namespace Live

variable {layout : Layout} {k i : Nat} {t : Int64} {x : Live} {live : Array Live}

/-- Some way of at most `k` blocks, starting with block `i`, loads `t` before storing it. -/
def ReadsWithin (layout : Layout) (t : Int64) : Nat → Nat → Prop :=
  Rounds.Within (fun i => Block.Needs t (layout.block i).code) fun i j =>
    (∀ p ∈ (layout.block i).code, p.stores t = false) ∧ j ∈ layout.succ i

/-- Some way from the start of block `i` loads `t` before storing it. -/
def Reads (layout : Layout) (t : Int64) (i : Nat) : Prop := ∃ k, ReadsWithin layout t k i

theorem reads_of_needs (h : Block.Needs t (layout.block i).code) : Reads layout t i :=
  ⟨1, .inl h⟩

theorem reads_of_succ {j : Nat} (hstores : ∀ p ∈ (layout.block i).code, p.stores t = false)
    (hj : j ∈ layout.succ i) (h : Reads layout t j) : Reads layout t i := by
  obtain ⟨k, hk⟩ := h
  exact ⟨k + 1, .inr ⟨j, ⟨hstores, hj⟩, hk⟩⟩

theorem lt_of_needs (h : Block.Needs t (layout.block i).code) : i < layout.size := by
  cases hcode : (layout.block i).code with
  | nil =>
    rw [hcode] at h
    exact h.elim
  | cons p code => exact Layout.lt_of_mem_code (hcode ▸ List.mem_cons_self)

theorem readsWithin_size (hwf : layout.WellFormed) (h : Reads layout t i) :
    ReadsWithin layout t layout.size i := by
  obtain ⟨k, hk⟩ := h
  exact Rounds.within_size (fun _ => lt_of_needs) (fun _ _ hj => hwf.lt_of_mem_succ hj.2) hk

/-- What the sets `x` of block `i` hold after `k` rounds: all that is read within `k`
blocks, and nothing that is never read. -/
structure Grown (layout : Layout) (k i : Nat) (x : Live) : Prop where
  into : ∀ t, ReadsWithin layout t k i → t ∈ x.liveIn
  out : ∀ t, ∀ j ∈ layout.succ i, ReadsWithin layout t (k - 1) j → t ∈ x.liveOut
  reads_of_into : ∀ t, t ∈ x.liveIn → Reads layout t i
  reads_of_out : ∀ t, t ∈ x.liveOut → ∃ j ∈ layout.succ i, Reads layout t j

theorem Grown.weaken (h : Grown layout (k + 1) i x) : Grown layout k i x where
  into t ht := h.into t (ht.mono (Nat.le_succ k))
  out t j hj ht := h.out t j hj (ht.mono (by omega))
  reads_of_into := h.reads_of_into
  reads_of_out := h.reads_of_out

/-- A visit to a block takes it one round further. -/
theorem grown_grow (hwf : layout.WellFormed) (hi : i < layout.size)
    (hfacts : (layout.block i).facts = Block.factsOf (layout.block i).code)
    (h : ∀ j < layout.size, Grown layout k j (live.getD j .none)) :
    Grown layout (k + 1) i (grow layout live i) := by
  have hsucc : ∀ j ∈ layout.succ i, Grown layout k j (live.getD j .none) :=
    fun j hj => h j (hwf.succ_lt i j hj)
  have hout : ∀ t, ∀ j ∈ layout.succ i, ReadsWithin layout t k j →
      t ∈ (grow layout live i).liveOut :=
    fun t j hj ht => mem_liveOut_grow.2 (.inr ⟨j, hj, (hsucc j hj).into t ht⟩)
  have hreads : ∀ t, t ∈ (grow layout live i).liveOut →
      ∃ j ∈ layout.succ i, Reads layout t j := by
    intro t ht
    rcases mem_liveOut_grow.1 ht with hold | ⟨j, hj, hin⟩
    · exact (h i hi).reads_of_out t hold
    · exact ⟨j, hj, (hsucc j hj).reads_of_into t hin⟩
  refine ⟨fun t ht => (mem_liveIn_grow hfacts).2 (.inr ?_), hout, fun t ht => ?_, hreads⟩
  · rcases ht with hneeds | ⟨j, ⟨hstores, hj⟩, ht⟩
    · exact .inl hneeds
    · exact .inr ⟨hout t j hj ht, hstores⟩
  · rcases (mem_liveIn_grow hfacts).1 ht with hold | hneeds | ⟨hlive, hstores⟩
    · exact (h i hi).reads_of_into t hold
    · exact reads_of_needs hneeds
    · obtain ⟨j, hj, ht⟩ := hreads t hlive
      exact reads_of_succ hstores hj ht

theorem grown_none : Grown layout 0 i .none where
  into _ ht := ht.elim
  out _ _ _ ht := ht.elim
  reads_of_into _ ht := absurd ht TempSet.not_mem_empty
  reads_of_out _ ht := absurd ht TempSet.not_mem_empty

/-- Every round takes every block one round further. -/
theorem grown_after (hwf : layout.WellFormed)
    (hfacts : ∀ i < layout.size, (layout.block i).facts = Block.factsOf (layout.block i).code)
    (k : Nat) :
    (Rounds.after (round layout) (Array.replicate layout.size .none) k).size = layout.size ∧
      ∀ i < layout.size, Grown layout k i
        ((Rounds.after (round layout) (Array.replicate layout.size .none) k).getD i .none) := by
  induction k with
  | zero =>
    refine ⟨Array.size_replicate, fun i hi => ?_⟩
    have hcell : (Array.replicate layout.size Live.none).getD i .none = .none := by simp [hi]
    show Grown layout 0 i ((Array.replicate layout.size Live.none).getD i .none)
    rw [hcell]
    exact grown_none
  | succ k ih =>
    rw [Rounds.after_succ']
    have hmem : ∀ i, i ∈ layout.indices.reverse ↔ i < layout.size := fun i => by
      rw [List.mem_reverse, Layout.indices, List.mem_range]
    obtain ⟨hsize, hcells⟩ := Rounds.sweep (c := false) (P := Grown layout k)
      (Q := Grown layout (k + 1)) (fun _ _ => Grown.weaken)
      (fun s hs i hi => grown_grow hwf ((hmem i).1 hi) (hfacts i ((hmem i).1 hi)) hs)
      (fun i hi => (hmem i).1 hi) ih.1 ih.2
    exact ⟨hsize, fun i hi => (hcells i hi).2 (.inl ((hmem i).2 hi))⟩

/-! ### The outcome -/

/-- The live sets of a graph hold exactly what some way reads. -/
structure Exact (layout : Layout) (live : Array Live) : Prop where
  size_eq : live.size = layout.size
  mem_liveIn : ∀ i < layout.size, ∀ t, t ∈ (live.getD i .none).liveIn ↔ Reads layout t i
  mem_liveOut : ∀ i < layout.size, ∀ t,
    t ∈ (live.getD i .none).liveOut ↔ ∃ j ∈ layout.succ i, Reads layout t j

/-- Sets that have grown long enough are what they should be.  A graph of one block has no
ways, so that its second round has nothing to add. -/
theorem Grown.exact (hwf : layout.WellFormed) (hk : layout.size * layout.size ≤ k)
    (hi : i < layout.size) (h : Grown layout k i x) :
    (∀ t, t ∈ x.liveIn ↔ Reads layout t i) ∧
      ∀ t, t ∈ x.liveOut ↔ ∃ j ∈ layout.succ i, Reads layout t j := by
  have hsquare : layout.size ≤ layout.size * layout.size := Nat.le_mul_self _
  refine ⟨fun t => ⟨h.reads_of_into t, fun ht => ?_⟩, fun t => ⟨h.reads_of_out t, ?_⟩⟩
  · exact h.into t ((readsWithin_size hwf ht).mono (by omega))
  · rintro ⟨j, hj, ht⟩
    rcases Nat.lt_or_ge layout.size 2 with hone | htwo
    · rw [hwf.succ_eq_nil (by omega) i] at hj
      exact absurd hj List.not_mem_nil
    · have hmore : 2 * layout.size ≤ layout.size * layout.size := Nat.mul_le_mul_right _ htwo
      exact h.out t j hj ((readsWithin_size hwf ht).mono (by omega))

/-- The live sets settle within the rounds that a graph of its size is allowed. -/
theorem compute_spec (hwf : layout.WellFormed)
    (hfacts : ∀ i < layout.size, (layout.block i).facts = Block.factsOf (layout.block i).code)
    (o : Options) :
    (∃ live rounds, compute o layout = .ok (live, rounds) ∧
        rounds ≤ layout.size * layout.size + 1 ∧ Exact layout live) ∨
      o.maxRounds ≠ 0 ∧ compute o layout =
        .error (.flow (.ofFault (.iterationLimit "liveness" o.maxRounds))) := by
  obtain ⟨hsize, hgrown⟩ := grown_after hwf hfacts (layout.size * layout.size)
  have hidle : ∀ s, (round layout s).2 = false → (round layout s).1 = s :=
    fun s hs => Rounds.idle_sweep (f := grow layout) (d := .none) hs
  have hexact := fun i (hi : i < layout.size) => (hgrown i hi).exact hwf (Nat.le_refl _) hi
  have hsettled : (round layout (Rounds.after (round layout)
      (Array.replicate layout.size .none) (layout.size * layout.size))).2 = false := by
    refine congrArg Prod.snd (Rounds.sweep_of_stable (f := grow layout) (d := .none)
      fun i hi => ?_)
    have hi : i < layout.size := List.mem_range.1 (List.mem_reverse.1 hi)
    -- another visit would leave the sets of the block what they should be
    have hnew := (grown_grow hwf hi (hfacts i hi) hgrown).exact hwf (Nat.le_succ _) hi
    have hin := TempSet.ext_mem fun t => (hnew.1 t).trans ((hexact i hi).1 t).symm
    have hout := TempSet.ext_mem fun t => (hnew.2 t).trans ((hexact i hi).2 t).symm
    exact congr (congrArg Live.mk hin) hout
  rcases Rounds.run_of_settled "liveness" o (n := 1) hidle (Nat.lt_succ_self _) hsettled with
    ⟨j, hj, hrun⟩ | hlimit
  · exact .inl ⟨_, _, hrun, by omega, hsize, fun i hi => (hexact i hi).1,
      fun i hi => (hexact i hi).2⟩
  · exact .inr hlimit

end Live

/-! ## Dominators -/

namespace Dominance

variable {layout : Layout} {k i d : Nat} {x : BlockSet} {sets : Array BlockSet}

/-- Some way of at most `k` blocks from the entry to block `i` avoids block `d`. -/
def AvoidsWithin (layout : Layout) (d : Nat) : Nat → Nat → Prop :=
  Rounds.Within (fun i => i = 0 ∧ i ≠ d) fun i p => i ≠ d ∧ p ∈ layout.pred i

/-- Some way from the entry to block `i` avoids block `d`. -/
def Avoids (layout : Layout) (d i : Nat) : Prop := ∃ k, AvoidsWithin layout d k i

theorem avoidsWithin_size (hwf : layout.WellFormed) (hsize : 0 < layout.size)
    (h : Avoids layout d i) : AvoidsWithin layout d layout.size i := by
  obtain ⟨k, hk⟩ := h
  refine Rounds.within_size (fun i hi => ?_) (fun i p hp => ?_) hk
  · rw [hi.1]
    exact hsize
  · exact hwf.succ_lt p i ((hwf.mem_succ_iff_mem_pred p i).2 hp.2)

/-- What the set `x` of block `i` holds after `k` rounds: no block that is avoided within
`k + 1` blocks, and all blocks that are never avoided. -/
structure Narrowed (layout : Layout) (k i : Nat) (x : BlockSet) : Prop where
  sized : x.Sized layout.size
  lt_of_mem : ∀ d, x.contains d = true → d < layout.size
  not_mem : ∀ d, AvoidsWithin layout d (k + 1) i → x.contains d = false
  avoids : ∀ d < layout.size, x.contains d = false → Avoids layout d i

theorem Narrowed.weaken (h : Narrowed layout (k + 1) i x) : Narrowed layout k i x where
  sized := h.sized
  lt_of_mem := h.lt_of_mem
  not_mem d hd := h.not_mem d (hd.mono (Nat.le_succ _))
  avoids := h.avoids

/-- No way leads back to the entry, so it needs no visits. -/
theorem Narrowed.entry (hwf : layout.WellFormed) (h : Narrowed layout k 0 x) :
    Narrowed layout (k + 1) 0 x where
  sized := h.sized
  lt_of_mem := h.lt_of_mem
  not_mem d hd := by
    rcases hd with hbase | ⟨p, ⟨_, hp⟩, _⟩
    · exact h.not_mem d (.inl hbase)
    · rw [hwf.pred_entry] at hp
      exact absurd hp List.not_mem_nil
  avoids := h.avoids

theorem sized_narrow (h : ∀ p ∈ layout.pred i, (sets.getD p default).Sized layout.size) :
    (narrow layout sets i).Sized layout.size :=
  ((BlockSet.sized_full layout.size).foldl_inter h).insert i

theorem contains_narrow (h : ∀ p ∈ layout.pred i, (sets.getD p default).Sized layout.size)
    (hi : i < layout.size) : (narrow layout sets i).contains d = true ↔
      (d < layout.size ∧ ∀ p ∈ layout.pred i, (sets.getD p default).contains d = true) ∨
        i = d := by
  rw [narrow, ((BlockSet.sized_full layout.size).foldl_inter h).contains_insert hi,
    BlockSet.contains_foldl_inter, BlockSet.contains_full]

/-- A visit to a block takes it one round further. -/
theorem narrowed_narrow (hwf : layout.WellFormed) (hpos : 0 < i) (hi : i < layout.size)
    (h : ∀ j < layout.size, Narrowed layout k j (sets.getD j default)) :
    Narrowed layout (k + 1) i (narrow layout sets i) := by
  have hpred : ∀ p ∈ layout.pred i, Narrowed layout k p (sets.getD p default) :=
    fun p hp => h p (hwf.pred_lt i p hp)
  have hsized := fun p hp => (hpred p hp).sized
  refine ⟨sized_narrow hsized, fun d hd => ?_, fun d hd => ?_, fun d hd hnot => ?_⟩
  · rcases (contains_narrow hsized hi).1 hd with ⟨hlt, _⟩ | rfl
    · exact hlt
    · exact hi
  · rcases hd with ⟨hzero, _⟩ | ⟨p, ⟨hne, hp⟩, hd⟩
    · omega
    · refine Bool.eq_false_iff.2 fun hmem => ?_
      rcases (contains_narrow hsized hi).1 hmem with ⟨_, hall⟩ | heq
      · exact Bool.eq_false_iff.1 ((hpred p hp).not_mem d hd) (hall p hp)
      · exact hne heq
  · rw [Bool.eq_false_iff, ne_eq, contains_narrow hsized hi, not_or, not_and] at hnot
    obtain ⟨hmissing, hne⟩ := hnot
    obtain ⟨p, hp, hout⟩ : ∃ p ∈ layout.pred i, (sets.getD p default).contains d = false := by
      simpa using hmissing hd
    obtain ⟨m, hm⟩ := (hpred p hp).avoids d hd hout
    exact ⟨m + 1, .inr ⟨p, ⟨hne, hp⟩, hm⟩⟩

theorem narrowed_start (hi : i < layout.size) :
    Narrowed layout 0 i ((start layout.size).getD i default) := by
  have hcell : (start layout.size).getD i default =
      if i = 0 then (BlockSet.empty layout.size).insert 0 else BlockSet.full layout.size := by
    simp [start, hi]
  rw [hcell]
  split
  · rename_i hzero
    subst hzero
    have hsized := BlockSet.sized_empty layout.size
    have hmem : ∀ d, ((BlockSet.empty layout.size).insert 0).contains d = true ↔ 0 = d := by
      intro d
      rw [hsized.contains_insert hi]
      simp
    refine ⟨hsized.insert 0, fun d hd => ?_, fun d hd => ?_, fun d _ hnot => ?_⟩
    · rw [← (hmem d).1 hd]
      exact hi
    · rcases hd with ⟨_, hne⟩ | ⟨_, _, hfalse⟩
      · exact Bool.eq_false_iff.2 fun hd => hne ((hmem d).1 hd)
      · exact hfalse.elim
    · exact ⟨1, .inl ⟨rfl, fun hd => Bool.eq_false_iff.1 hnot ((hmem d).2 hd)⟩⟩
  · rename_i hne
    refine ⟨BlockSet.sized_full _, fun d hd => BlockSet.contains_full.1 hd, fun d hd => ?_,
      fun d hd hnot => absurd (BlockSet.contains_full.2 hd) (Bool.eq_false_iff.1 hnot)⟩
    rcases hd with ⟨hzero, _⟩ | ⟨_, _, hfalse⟩
    · exact absurd hzero hne
    · exact hfalse.elim

/-- Every round takes every block one round further. -/
theorem narrowed_after (hwf : layout.WellFormed) (k : Nat) :
    (Rounds.after (round layout) (start layout.size) k).size = layout.size ∧
      ∀ i < layout.size, Narrowed layout k i
        ((Rounds.after (round layout) (start layout.size) k).getD i default) := by
  induction k with
  | zero => exact ⟨Array.size_ofFn, fun i hi => narrowed_start hi⟩
  | succ k ih =>
    rw [Rounds.after_succ']
    obtain ⟨hsize, hcells⟩ := Rounds.sweep (c := false) (P := Narrowed layout k)
      (Q := Narrowed layout (k + 1)) (fun _ _ => Narrowed.weaken)
      (fun s hs i hi => narrowed_narrow hwf (Layout.mem_drop_indices.1 hi).1
        (Layout.mem_drop_indices.1 hi).2 hs)
      (fun i hi => (Layout.mem_drop_indices.1 hi).2) ih.1 ih.2
    refine ⟨hsize, fun i hi => (hcells i hi).2 ?_⟩
    rcases Nat.eq_zero_or_pos i with rfl | hpos
    · exact .inr ((ih.2 0 hi).entry hwf)
    · exact .inl (Layout.mem_drop_indices.2 ⟨hpos, hi⟩)

/-! ### The outcome -/

/-- The dominators of a block are the blocks that no way from the entry to it avoids. -/
structure Exact (layout : Layout) (sets : Array BlockSet) : Prop where
  size_eq : sets.size = layout.size
  sized : ∀ i < layout.size, (sets.getD i default).Sized layout.size
  mem_sets : ∀ i < layout.size, ∀ d,
    (sets.getD i default).contains d = true ↔ d < layout.size ∧ ¬ Avoids layout d i

/-- A set that has been narrowed long enough is what it should be. -/
theorem Narrowed.exact (hwf : layout.WellFormed) (hk : layout.size ≤ k + 1)
    (hi : i < layout.size) (h : Narrowed layout k i x) :
    x.contains d = true ↔ d < layout.size ∧ ¬ Avoids layout d i := by
  constructor
  · intro hmem
    refine ⟨h.lt_of_mem d hmem, fun havoids => ?_⟩
    have hwithin := avoidsWithin_size hwf (Nat.lt_of_le_of_lt (Nat.zero_le i) hi) havoids
    rw [h.not_mem d (hwithin.mono hk)] at hmem
    cases hmem
  · rintro ⟨hlt, hnot⟩
    by_contra hout
    exact hnot (h.avoids d hlt (Bool.eq_false_iff.2 hout))

/-- The dominators settle within the rounds that a graph of its size is allowed. -/
theorem fixpoint_spec (hwf : layout.WellFormed) (o : Options) :
    (∃ sets rounds, Rounds.fixpoint "dominators" o layout.size (round layout)
          (start layout.size) = .ok (sets, rounds) ∧
        rounds ≤ layout.size * layout.size + 1 ∧ Exact layout sets) ∨
      o.maxRounds ≠ 0 ∧ Rounds.fixpoint "dominators" o layout.size (round layout)
          (start layout.size) =
        .error (.flow (.ofFault (.iterationLimit "dominators" o.maxRounds))) := by
  have hsquare : layout.size ≤ layout.size * layout.size := Nat.le_mul_self _
  obtain ⟨hsize, hnarrowed⟩ := narrowed_after hwf (layout.size * layout.size)
  have hidle : ∀ s, (round layout s).2 = false → (round layout s).1 = s :=
    fun s hs => Rounds.idle_sweep (f := narrow layout) (d := default) hs
  have hexact := fun i (hi : i < layout.size) d =>
    (hnarrowed i hi).exact (d := d) hwf (by omega) hi
  have hsettled : (round layout (Rounds.after (round layout) (start layout.size)
      (layout.size * layout.size))).2 = false := by
    refine congrArg Prod.snd (Rounds.sweep_of_stable (f := narrow layout) (d := default)
      fun i hvisited => ?_)
    obtain ⟨hpos, hi⟩ := Layout.mem_drop_indices.1 hvisited
    -- another visit would leave the set of the block what it should be
    have hnew := narrowed_narrow hwf hpos hi hnarrowed
    exact hnew.sized.ext (hnarrowed i hi).sized fun d =>
      (hnew.exact hwf (by omega) hi).trans (hexact i hi d).symm
  rcases Rounds.run_of_settled "dominators" o (n := 1) hidle (Nat.lt_succ_self _) hsettled with
    ⟨j, hj, hrun⟩ | hlimit
  · exact .inl ⟨_, _, hrun, by omega, hsize, fun i hi => (hnarrowed i hi).sized, hexact⟩
  · exact .inr hlimit

theorem compute_spec (hwf : layout.WellFormed) (o : Options) :
    (∃ d, compute o layout = .ok d ∧ Exact layout d.sets) ∨
      o.maxRounds ≠ 0 ∧ compute o layout =
        .error (.flow (.ofFault (.iterationLimit "dominators" o.maxRounds))) := by
  unfold compute
  rcases fixpoint_spec hwf o with ⟨sets, rounds, hsets, _, hexact⟩ | ⟨hzero, hlimit⟩
  · rw [hsets]
    exact .inl ⟨ofSets layout sets, rfl, hexact⟩
  · rw [hlimit]
    exact .inr ⟨hzero, rfl⟩

end Dominance

end StackFlow
