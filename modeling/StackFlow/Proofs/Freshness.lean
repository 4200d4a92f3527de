import StackFlow.Proofs.Exchanges
import StackFlow.Proofs.Wiring
import StackFlow.Proofs.Search

/-!
# Fresh classes

* `mem_afterRoot` says what a root does to the fresh classes: a collection takes all of
  them, and what the root makes fresh is added (`Freshens`).
* `Settling` is the invariant of the work list.  `settling_visit` says that a visit keeps it and
  makes `Settling.measure` smaller, and `settling_settleFreshness` that no block waits in the end.
* `getD_freshAtEntry` and `freshEnds_spec` say that the sets at the starts and at the ends of blocks
  fit together then, and `mem_freshEnds_of_fits` that they are the largest ones that do.
* `Graph.freshAt` is what is fresh within a block.  `freshAt_jump` carries it from one
  block to the next, and `freshened_of_walk` says that a class is fresh only where every
  way has made it so.
-/

namespace StackFlow

open Forest

/-! ## Sizes of sets -/

namespace TempSet

variable {s t : TempSet}

theorem length_le (h : ∀ u ∈ s, u ∈ t) : s.toList.length ≤ t.toList.length :=
  (s.nodup.subperm h).length_le

theorem length_lt (h : ∀ u ∈ s, u ∈ t) (hne : s ≠ t) : s.toList.length < t.toList.length := by
  refine Nat.lt_of_le_of_ne (length_le h) fun heq => hne (ext_mem fun u => ?_)
  exact ((s.nodup.subperm h).perm_of_length_le (Nat.le_of_eq heq.symm)).mem_iff

end TempSet

/-! ## One root -/

/-- `Freshens c code r k`: the root stores into an object of class `k` with a barrier, or
allocates one. -/
def Freshens (c : Context) (code : List Instr) (r : Root) (k : Int64) : Prop :=
  (∃ p, code[r.tree.index]? = some p ∧ c.variants.isCheckedStore p = true ∧
    Context.isNull code (r.tree.operand? 0) = false ∧
    c.loadedClass? code (r.tree.operand? 1) = some k) ∨
  c.allocatedClass? code r.tree = some k

namespace Context

variable {c : Context} {code : List Instr} {fresh fresh' : TempSet} {r : Root} {k : Int64}

theorem mem_beforeRoot : k ∈ beforeRoot fresh r ↔ r.collects = false ∧ k ∈ fresh := by
  unfold beforeRoot
  split
  · rename_i hcollects
    simp [hcollects]
  · rename_i hcollects
    simp [Bool.not_eq_true _ ▸ hcollects]

theorem mem_withAllocated : k ∈ c.withAllocated code fresh r ↔
    k ∈ fresh ∨ c.allocatedClass? code r.tree = some k := by
  unfold withAllocated
  split
  · rename_i k' hk'
    rw [TempSet.mem_insert, hk', Option.some_inj, or_comm, eq_comm]
  · rename_i hnone
    simp [hnone]

theorem mem_apply_verdict : k ∈ (c.verdict code fresh r).apply fresh ↔
    k ∈ fresh ∨ ∃ p, code[r.tree.index]? = some p ∧ c.variants.isCheckedStore p = true ∧
      isNull code (r.tree.operand? 0) = false ∧
      c.loadedClass? code (r.tree.operand? 1) = some k := by
  unfold verdict
  split
  · rename_i hnone
    simp [Verdict.apply, hnone]
  · rename_i p hp
    simp only [hp, Option.some_inj, exists_eq_left']
    split
    · rename_i hchecked
      simp [Verdict.apply, Bool.not_eq_true' _ ▸ hchecked]
    · rename_i hchecked
      rw [Bool.not_eq_true, Bool.not_eq_false'] at hchecked
      split
      · rename_i hnull
        simp [Verdict.apply, hnull]
      · rename_i hnull
        rw [Bool.not_eq_true] at hnull
        simp only [hchecked, hnull, true_and]
        split
        · rename_i hclass
          simp [Verdict.apply, hclass]
        · rename_i k' hclass
          rw [hclass, Option.some_inj]
          split
          · rename_i hfresh
            rw [TempSet.contains_iff] at hfresh
            refine ⟨.inl, fun h => h.elim id fun heq => heq ▸ hfresh⟩
          · rw [Verdict.apply, TempSet.mem_insert, or_comm, eq_comm]

/-- What is fresh after a root was fresh before it and has not been collected, or is made
fresh by it. -/
theorem mem_afterRoot : k ∈ c.afterRoot code fresh r ↔
    (r.collects = false ∧ k ∈ fresh) ∨ Freshens c code r k := by
  unfold afterRoot Freshens
  rw [mem_withAllocated, mem_apply_verdict, mem_beforeRoot, or_assoc]

theorem foldl_afterRoot_mono {rs : List Root} (h : ∀ u ∈ fresh, u ∈ fresh') :
    ∀ u ∈ rs.foldl (c.afterRoot code) fresh, u ∈ rs.foldl (c.afterRoot code) fresh' := by
  induction rs generalizing fresh fresh' with
  | nil => exact h
  | cons r rs ih =>
    refine ih fun u hu => ?_
    rw [mem_afterRoot] at hu ⊢
    exact hu.imp (fun hold => ⟨hold.1, h u hold.2⟩) id

end Context

theorem Aliases.mem_classes {a : Aliases} {t k : Int64} (h : a.class? t = some k) :
    k ∈ a.classes :=
  TempSet.mem_ofList.2 (List.mem_map.2 ⟨_, Aliases.mem_of_class? h, rfl⟩)

theorem Freshens.mem_classes {c : Context} {code : List Instr} {r : Root} {k : Int64}
    (h : Freshens c code r k) : k ∈ c.aliases.classes := by
  cases h with
  | inl hstore =>
    obtain ⟨_, _, _, _, hloaded⟩ := hstore
    obtain ⟨_, _, _, _, _, _, hclass⟩ := Context.loadedClass?_eq_some hloaded
    exact Aliases.mem_classes hclass
  | inr hallocated =>
    unfold Context.allocatedClass? at hallocated
    split at hallocated
    · split at hallocated
      · exact Aliases.mem_classes hallocated
      · cases hallocated
    · cases hallocated

/-! ## The ends of blocks -/

/-- Ways lead to blocks, and the blocks at both ends of a way know of it. -/
structure Layout.Linked (layout : Layout) : Prop where
  succ_lt : ∀ b s, s ∈ layout.succ b → s < layout.size
  mem_succ_iff_mem_pred : ∀ b s, s ∈ layout.succ b ↔ b ∈ layout.pred s

theorem Layout.WellFormed.linked {layout : Layout} (h : layout.WellFormed) : layout.Linked :=
  ⟨h.succ_lt, h.mem_succ_iff_mem_pred⟩

namespace Context

variable {c : Context} {g : Graph} {ends : Array TempSet} {b : Nat} {k : Int64}

theorem freshAfter_subset {fresh : TempSet} (h : ∀ u ∈ fresh, u ∈ c.aliases.classes) :
    ∀ u ∈ c.freshAfter g b fresh, u ∈ c.aliases.classes := by
  have hroots : ∀ {rs : List Root} {fresh : TempSet}, (∀ u ∈ fresh, u ∈ c.aliases.classes) →
      ∀ u ∈ rs.foldl (c.afterRoot (g.block b).code) fresh, u ∈ c.aliases.classes := by
    intro rs
    induction rs with
    | nil => exact fun h => h
    | cons r rs ih =>
      intro fresh h
      refine ih fun u hu => ?_
      exact (mem_afterRoot.1 hu).elim (fun hold => h u hold.2) Freshens.mem_classes
  intro u hu
  unfold freshAfter at hu
  simp only at hu
  split at hu
  · exact absurd hu TempSet.not_mem_empty
  · exact hroots h u hu

theorem freshAfter_mono {fresh fresh' : TempSet} (h : ∀ u ∈ fresh, u ∈ fresh') :
    ∀ u ∈ c.freshAfter g b fresh, u ∈ c.freshAfter g b fresh' := by
  intro u hu
  unfold freshAfter at hu ⊢
  simp only at hu ⊢
  split
  · rename_i htail
    rwa [if_pos htail] at hu
  · rename_i htail
    rw [if_neg htail] at hu
    exact foldl_afterRoot_mono h u hu

theorem transfer_mono {fresh fresh' : TempSet} (h : ∀ u ∈ fresh, u ∈ fresh') :
    ∀ u ∈ c.transfer g b fresh, u ∈ c.transfer g b fresh' := by
  unfold transfer
  split
  · exact fun u hu => hu
  · exact freshAfter_mono h

theorem mem_meet {all : TempSet} : k ∈ meet g all ends b ↔
    k ∈ all ∧ ∀ p ∈ g.layout.pred b, k ∈ ends.getD p ∅ := by
  unfold meet
  induction g.layout.pred b generalizing all with
  | nil => simp
  | cons p ps ih =>
    rw [List.foldl_cons, ih, TempSet.mem_inter, List.forall_mem_cons, and_assoc]

theorem meet_congr {ends' : Array TempSet} {all : TempSet}
    (h : ∀ p ∈ g.layout.pred b, ends.getD p ∅ = ends'.getD p ∅) :
    meet g all ends b = meet g all ends' b := by
  refine TempSet.ext_mem fun u => ?_
  rw [mem_meet, mem_meet]
  exact and_congr_right fun _ => forall_congr' fun p => forall_congr' fun hp => by rw [h p hp]

theorem transfer_subset {fresh : TempSet} (h : ∀ u ∈ fresh, u ∈ c.aliases.classes) :
    ∀ u ∈ c.transfer g b fresh, u ∈ c.aliases.classes := by
  refine freshAfter_subset fun u hu => ?_
  split at hu
  · exact absurd hu TempSet.not_mem_empty
  · exact h u hu

/-- The number of classes at the ends of all blocks. -/
def weight (ends : Array TempSet) : Nat := (ends.toList.map (·.toList.length)).sum

theorem weight_set (new : TempSet) (hb : b < ends.size) :
    weight (ends.setIfInBounds b new) + (ends.getD b ∅).toList.length =
      weight ends + new.toList.length := by
  obtain ⟨xs, rfl⟩ : ∃ xs : List TempSet, ends = xs.toArray := ⟨ends.toList, by simp⟩
  simp only [List.size_toArray] at hb
  simp only [weight, List.setIfInBounds_toArray, Array.getD_eq_getD_getElem?,
    List.getElem?_toArray]
  induction xs generalizing b with
  | nil => simp at hb
  | cons x xs ih =>
    cases b with
    | zero =>
      simp
      omega
    | succ b =>
      have := ih (Nat.lt_of_succ_lt_succ hb)
      simp at this ⊢
      omega

/-! ## The work list -/

theorem mem_requeue {queue : List Nat} {x : Nat} :
    x ∈ requeue queue b ↔ x ∈ queue ∨ (x = b ∧ x ≠ 0) := by
  unfold requeue
  split
  · rename_i hskip
    rw [Bool.or_eq_true, decide_eq_true_eq, List.contains_iff_mem] at hskip
    constructor
    · exact .inl
    · intro h
      rcases h with hold | ⟨rfl, hne⟩
      · exact hold
      · exact hskip.resolve_left hne
  · rename_i hput
    rw [Bool.or_eq_true, decide_eq_true_eq, not_or] at hput
    rw [List.mem_append, List.mem_singleton]
    exact or_congr_right ⟨fun heq => ⟨heq, heq ▸ hput.1⟩, And.left⟩

theorem nodup_requeue {queue : List Nat} (h : queue.Nodup) : (requeue queue b).Nodup := by
  unfold requeue
  split
  · exact h
  · rename_i hput
    rw [Bool.or_eq_true, List.contains_iff_mem, not_or] at hput
    exact List.nodup_append.2 ⟨h, List.nodup_singleton b, fun x hx y hy heq =>
      hput.2 (List.mem_singleton.1 hy ▸ heq ▸ hx)⟩

theorem mem_foldl_requeue {queue bs : List Nat} {x : Nat} :
    x ∈ bs.foldl requeue queue ↔ x ∈ queue ∨ (x ∈ bs ∧ x ≠ 0) := by
  induction bs generalizing queue with
  | nil => simp
  | cons b bs ih =>
    rw [List.foldl_cons, ih, mem_requeue, or_assoc, List.mem_cons, or_and_right]

theorem nodup_foldl_requeue {queue bs : List Nat} (h : queue.Nodup) :
    (bs.foldl requeue queue).Nodup :=
  List.foldlRecOn _ _ h fun _ hqueue _ _ => nodup_requeue hqueue

/-- What holds of the sets at the starts and the ends of the blocks, and of the blocks that wait,
between two visits. -/
structure Settling (c : Context) (g : Graph) (s : Freshness × List Nat) : Prop where
  size_starts : s.1.starts.size = g.size
  size_ends : s.1.ends.size = g.size
  start_entry : s.1.starts.getD 0 ∅ = ∅
  end_entry : s.1.ends.getD 0 ∅ = c.freshAfter g 0 ∅
  /-- A visit only takes classes out. -/
  shrinks : ∀ b, 0 < b → b < g.size →
    ∀ u ∈ c.transfer g b (meet g c.aliases.classes s.1.ends b), u ∈ s.1.ends.getD b ∅
  /-- Another visit to a block that does not wait changes nothing. -/
  settled : ∀ b, 0 < b → b < g.size → b ∉ s.2 →
    s.1.starts.getD b ∅ = meet g c.aliases.classes s.1.ends b ∧
      s.1.ends.getD b ∅ = c.transfer g b (meet g c.aliases.classes s.1.ends b)
  nodup : s.2.Nodup
  waiting : ∀ b ∈ s.2, 0 < b ∧ b < g.size

/-- The number of visits that may still be needed: no more than one for each block, and again
for each class that is taken out. -/
def Settling.measure (g : Graph) (s : Freshness × List Nat) : Nat :=
  weight s.1.ends * (g.size + 1) + s.2.length

section Visit

variable {s : Freshness} {queue : List Nat}

theorem Settling.length_le (h : Settling c g (s, queue)) : queue.length ≤ g.size := by
  have hsub : queue ⊆ List.range g.size := fun b hb => List.mem_range.2 (h.waiting b hb).2
  have hle := (List.subperm_of_subset h.nodup hsub).length_le
  rwa [List.length_range] at hle

/-- A visit that finds nothing new at the end of its block. -/
theorem Settling.keep (h : Settling c g (s, b :: queue))
    (hsame : c.transfer g b (meet g c.aliases.classes s.ends b) = s.ends.getD b ∅) :
    Settling c g
      (⟨s.starts.setIfInBounds b (meet g c.aliases.classes s.ends b), s.ends⟩, queue) := by
  obtain ⟨hpos, hb⟩ := h.waiting b List.mem_cons_self
  have hsize : b < s.starts.size := h.size_starts ▸ hb
  refine { h with
    size_starts := by rw [Array.size_setIfInBounds, h.size_starts]
    start_entry := ?_
    settled := fun b' hpos' hb' hnot => ?_
    nodup := (List.nodup_cons.1 h.nodup).2
    waiting := fun b' hb' => h.waiting b' (List.mem_cons_of_mem b hb') }
  · change (s.starts.setIfInBounds b _).getD 0 ∅ = ∅
    rw [Rounds.getD_setIfInBounds hsize, if_neg (Nat.ne_of_gt hpos)]
    exact h.start_entry
  · change (s.starts.setIfInBounds b _).getD b' ∅ = _ ∧ _
    rw [Rounds.getD_setIfInBounds hsize]
    split
    · rename_i hbb
      subst hbb
      exact ⟨rfl, hsame.symm⟩
    · rename_i hbb
      exact h.settled b' hpos' hb' (List.not_mem_cons_of_ne_of_not_mem (Ne.symm hbb) hnot)

/-- A visit that takes classes out of the end of its block. -/
theorem Settling.take (h : Settling c g (s, b :: queue)) (hlinked : g.layout.Linked) :
    Settling c g (⟨s.starts.setIfInBounds b (meet g c.aliases.classes s.ends b),
      s.ends.setIfInBounds b (c.transfer g b (meet g c.aliases.classes s.ends b))⟩,
      (g.layout.succ b).foldl requeue queue) := by
  obtain ⟨hpos, hb⟩ := h.waiting b List.mem_cons_self
  have hstarts : b < s.starts.size := h.size_starts ▸ hb
  have hends : b < s.ends.size := h.size_ends ▸ hb
  generalize hnew : c.transfer g b (meet g c.aliases.classes s.ends b) = new
  -- the sets got smaller, and so do the meets
  have hmeet : ∀ b', ∀ v ∈ meet g c.aliases.classes (s.ends.setIfInBounds b new) b',
      v ∈ meet g c.aliases.classes s.ends b' := by
    intro b' v hv
    rw [mem_meet] at hv ⊢
    refine ⟨hv.1, fun p hp => ?_⟩
    have hv' := hv.2 p hp
    rw [Rounds.getD_setIfInBounds hends] at hv'
    split at hv'
    · rename_i hbp
      subst hbp
      exact h.shrinks b hpos hb v (hnew ▸ hv')
    · exact hv'
  -- where the block is not before another one, the meet stays as it is
  have hsame : ∀ b', b' ∉ g.layout.succ b →
      meet g c.aliases.classes (s.ends.setIfInBounds b new) b' =
        meet g c.aliases.classes s.ends b' := by
    intro b' hnot
    refine meet_congr fun p hp => ?_
    rw [Rounds.getD_setIfInBounds hends, if_neg]
    intro hbp
    exact hnot ((hlinked.mem_succ_iff_mem_pred b b').2 (hbp ▸ hp))
  constructor
  · rw [Array.size_setIfInBounds]
    exact h.size_starts
  · rw [Array.size_setIfInBounds]
    exact h.size_ends
  · rw [Rounds.getD_setIfInBounds hstarts, if_neg (Nat.ne_of_gt hpos)]
    exact h.start_entry
  · rw [Rounds.getD_setIfInBounds hends, if_neg (Nat.ne_of_gt hpos)]
    exact h.end_entry
  · intro b' hpos' hb' u hu
    have hold := transfer_mono (hmeet b') u hu
    rw [Rounds.getD_setIfInBounds hends]
    split
    · rename_i hbb
      subst hbb
      exact hnew ▸ hold
    · exact h.shrinks b' hpos' hb' u hold
  · intro b' hpos' hb' hnot
    rw [mem_foldl_requeue, not_or, not_and'] at hnot
    rw [hsame b' (hnot.2 (Nat.ne_of_gt hpos')), Rounds.getD_setIfInBounds hstarts,
      Rounds.getD_setIfInBounds hends]
    split
    · rename_i hbb
      subst hbb
      exact ⟨rfl, hnew.symm⟩
    · rename_i hbb
      exact h.settled b' hpos' hb' (List.not_mem_cons_of_ne_of_not_mem (Ne.symm hbb) hnot.1)
  · exact nodup_foldl_requeue (List.nodup_cons.1 h.nodup).2
  · intro b' hb'
    rcases mem_foldl_requeue.1 hb' with hold | ⟨hsucc, hne⟩
    · exact h.waiting b' (List.mem_cons_of_mem b hold)
    · exact ⟨Nat.pos_of_ne_zero hne, hlinked.succ_lt b b' hsucc⟩

/-- A visit finds nothing new at the end of its block, or takes classes out of it. -/
theorem visitFresh_cases (c : Context) (g : Graph) (all : TempSet) (s : Freshness)
    (queue : List Nat) (b : Nat) :
    (c.transfer g b (meet g all s.ends b) = s.ends.getD b ∅ ∧
      c.visitFresh g all (s, queue) b =
        (⟨s.starts.setIfInBounds b (meet g all s.ends b), s.ends⟩, queue)) ∨
    (c.transfer g b (meet g all s.ends b) ≠ s.ends.getD b ∅ ∧
      c.visitFresh g all (s, queue) b =
        (⟨s.starts.setIfInBounds b (meet g all s.ends b),
          s.ends.setIfInBounds b (c.transfer g b (meet g all s.ends b))⟩,
          (g.layout.succ b).foldl requeue queue)) := by
  by_cases hsame : c.transfer g b (meet g all s.ends b) = s.ends.getD b ∅
  · exact .inl ⟨hsame, if_pos hsame⟩
  · exact .inr ⟨hsame, if_neg hsame⟩

/-- A visit keeps the invariant.  It takes a class out, or a block less waits. -/
theorem settling_visit (hlinked : g.layout.Linked) (h : Settling c g (s, b :: queue)) :
    Settling c g (c.visitFresh g c.aliases.classes (s, queue) b) ∧
      Settling.measure g (c.visitFresh g c.aliases.classes (s, queue) b) <
        Settling.measure g (s, b :: queue) := by
  obtain ⟨hpos, hb⟩ := h.waiting b List.mem_cons_self
  rcases visitFresh_cases c g c.aliases.classes s queue b with ⟨hsame, heq⟩ | ⟨hless, heq⟩
  · rw [heq]
    refine ⟨h.keep hsame, ?_⟩
    simp only [Settling.measure, List.length_cons]
    omega
  · rw [heq]
    have hnext := h.take hlinked
    refine ⟨hnext, ?_⟩
    -- a class less pays for all blocks that wait now
    have hlength := hnext.length_le
    have hweight := weight_set (c.transfer g b (meet g c.aliases.classes s.ends b))
      (show b < s.ends.size from h.size_ends ▸ hb)
    have hfewer : (c.transfer g b (meet g c.aliases.classes s.ends b)).toList.length <
        (s.ends.getD b ∅).toList.length := TempSet.length_lt (h.shrinks b hpos hb) hless
    have hpays := Nat.mul_le_mul_right (g.size + 1) (show weight (s.ends.setIfInBounds b
      (c.transfer g b (meet g c.aliases.classes s.ends b))) + 1 ≤ weight s.ends by omega)
    rw [Nat.add_mul, Nat.one_mul] at hpays
    simp only [Settling.measure, List.length_cons]
    omega

end Visit

theorem size_freshAtEntry (c : Context) (g : Graph) : (c.freshAtEntry g).size = g.size := by
  refine Worklist.run_induction (P := fun s : Freshness × List Nat => s.1.starts.size = g.size) ?_
    (by simp [initialFreshness])
  intro s b queue h
  rcases visitFresh_cases c g c.aliases.classes s queue b with ⟨_, heq⟩ | ⟨_, heq⟩
  · rw [heq]
    exact Array.size_setIfInBounds.trans h
  · rw [heq]
    exact Array.size_setIfInBounds.trans h

theorem settling_initial (hsize : 0 < g.size) : Settling c g
    (c.initialFreshness g c.aliases.classes, g.layout.indices.drop 1) := by
  constructor
  · simp [initialFreshness]
  · simp [initialFreshness]
  · simp [initialFreshness, hsize]
  · rw [initialFreshness, Rounds.getD_setIfInBounds (by simpa using hsize), if_pos rfl]
  · intro b hpos hb u hu
    rw [initialFreshness, Rounds.getD_setIfInBounds (by simpa using hsize),
      if_neg (Nat.ne_of_lt hpos), Array.getD_eq_getD_getElem?, Array.getElem?_replicate, if_pos hb,
      Option.getD_some]
    exact transfer_subset (fun v hv => (mem_meet.1 hv).1) u hu
  · intro b hpos hb hnot
    exact absurd (Layout.mem_drop_indices.2 ⟨hpos, hb⟩) hnot
  · exact List.nodup_range.sublist (List.drop_sublist 1 _)
  · exact fun b hb => Layout.mem_drop_indices.1 hb

theorem weight_initial (hsize : 0 < g.size) :
    weight (c.initialFreshness g c.aliases.classes).ends ≤
      g.size * c.aliases.classes.toList.length := by
  have hweight := weight_set (c.freshAfter g 0 ∅)
    (show 0 < (Array.replicate g.size c.aliases.classes).size by simpa using hsize)
  have hlen := TempSet.length_le (freshAfter_subset (c := c) (g := g) (b := 0)
    fun u hu => absurd hu TempSet.not_mem_empty)
  have hall : weight (Array.replicate g.size c.aliases.classes) =
      g.size * c.aliases.classes.toList.length := by simp [weight]
  have hzero : ((Array.replicate g.size c.aliases.classes).getD 0 ∅).toList.length =
      c.aliases.classes.toList.length := by simp [hsize]
  simp only [initialFreshness]
  omega

/-- The work list ends: no block waits any more. -/
theorem settling_settleFreshness (hlinked : g.layout.Linked) (hsize : 0 < g.size) :
    Settling c g (c.settleFreshness g c.aliases.classes) ∧
      (c.settleFreshness g c.aliases.classes).2 = [] := by
  have hstart := settling_initial (c := c) hsize
  have hfuel : Settling.measure g
      (c.initialFreshness g c.aliases.classes, g.layout.indices.drop 1) ≤
        (g.size * c.aliases.classes.toList.length + 1) * (g.size + 1) := by
    have hweight := Nat.mul_le_mul_right (g.size + 1) (weight_initial (c := c) hsize)
    have hlength := hstart.length_le
    rw [Settling.measure, Nat.add_mul, Nat.one_mul]
    exact Nat.add_le_add hweight (Nat.le_succ_of_le hlength)
  constructor
  · exact Worklist.run_induction (fun s n queue h => (settling_visit hlinked h).1) hstart
  · exact Worklist.run_drains (Settling.measure g)
      (fun s n queue h => settling_visit hlinked h) hstart hfuel

/-- The classes that are fresh at the ends of the blocks. -/
def freshEnds (c : Context) (g : Graph) : Array TempSet :=
  (c.settleFreshness g c.aliases.classes).1.ends

theorem getD_freshAtEntry (hlinked : g.layout.Linked) (hb : b < g.size) :
    (c.freshAtEntry g).getD b ∅ =
      if b = 0 then ∅ else meet g c.aliases.classes (c.freshEnds g) b := by
  obtain ⟨hsettling, hdone⟩ := settling_settleFreshness (c := c) hlinked (Nat.zero_lt_of_lt hb)
  by_cases hzero : b = 0
  · subst hzero
    exact hsettling.start_entry
  · rw [if_neg hzero]
    refine (hsettling.settled b (Nat.pos_of_ne_zero hzero) hb ?_).1
    rw [hdone]
    exact List.not_mem_nil

/-- Only classes are fresh at the ends of blocks, and those at the end of the entry come
from it alone. -/
theorem freshEnds_spec (hlinked : g.layout.Linked) (hsize : 0 < g.size) :
    (c.freshEnds g).getD 0 ∅ = c.freshAfter g 0 ∅ ∧
      (∀ b, 0 < b → b < g.size → c.transfer g b
        (meet g c.aliases.classes (c.freshEnds g) b) = (c.freshEnds g).getD b ∅) ∧
      ∀ b < g.size, ∀ u ∈ (c.freshEnds g).getD b ∅, u ∈ c.aliases.classes := by
  obtain ⟨hsettling, hdone⟩ := settling_settleFreshness (c := c) hlinked hsize
  have hfix : ∀ b, 0 < b → b < g.size → c.transfer g b
      (meet g c.aliases.classes (c.freshEnds g) b) = (c.freshEnds g).getD b ∅ := by
    intro b hpos hb
    refine (hsettling.settled b hpos hb ?_).2.symm
    rw [hdone]
    exact List.not_mem_nil
  refine ⟨hsettling.end_entry, hfix, fun b hb u hu => ?_⟩
  rcases Nat.eq_zero_or_pos b with rfl | hpos
  · rw [freshEnds, hsettling.end_entry] at hu
    exact freshAfter_subset (fun v hv => absurd hv TempSet.not_mem_empty) u hu
  · rw [← hfix b hpos hb] at hu
    exact transfer_subset (fun v hv => (mem_meet.1 hv).1) u hu

/-- What is fresh at the start of a block is fresh at the ends of those before it. -/
theorem mem_freshAfter_of_succ {s : Nat} (hlinked : g.layout.Linked) (hs : s ∈ g.layout.succ b)
    (hk : k ∈ (c.freshAtEntry g).getD s ∅) :
    k ∈ c.freshAfter g b ((c.freshAtEntry g).getD b ∅) := by
  have hb : b < g.size := Graph.Built.lt_of_mem_succ hs
  obtain ⟨hzero, hfix, _⟩ := freshEnds_spec (c := c) hlinked (Nat.zero_lt_of_lt hb)
  rw [getD_freshAtEntry hlinked (hlinked.succ_lt b s hs)] at hk
  split at hk
  · exact absurd hk TempSet.not_mem_empty
  · have hend := (mem_meet.1 hk).2 b ((hlinked.mem_succ_iff_mem_pred b s).1 hs)
    rw [getD_freshAtEntry hlinked hb]
    split
    · rename_i hentry
      subst hentry
      rw [hzero] at hend
      exact hend
    · rename_i hne
      rw [← hfix b (Nat.pos_of_ne_zero hne) hb] at hend
      refine freshAfter_mono (fun u hu => ?_) k hend
      split at hu
      · exact absurd hu TempSet.not_mem_empty
      · exact hu

/-- The sets at the ends of the blocks are above all sets `E` that fit together: a class that `E`
has at the end of a block is there whenever what `E` has before the block is at its start. -/
theorem mem_freshEnds_of_fits {E : Nat → Int64 → Prop} (hlinked : g.layout.Linked)
    (hclasses : ∀ b < g.size, ∀ u, E b u → u ∈ c.aliases.classes)
    (hentry : ∀ u, E 0 u → u ∈ c.freshAfter g 0 ∅)
    (hfits : ∀ b, 0 < b → b < g.size → ∀ u, E b u → ∀ fresh : TempSet,
      (∀ v ∈ c.aliases.classes, (∀ p ∈ g.layout.pred b, E p v) → v ∈ fresh) →
        u ∈ c.transfer g b fresh) (hb : b < g.size) (hk : E b k) :
    k ∈ (c.freshEnds g).getD b ∅ := by
  have hsize : 0 < g.size := Nat.zero_lt_of_lt hb
  have hkept : Settling c g (c.settleFreshness g c.aliases.classes) ∧
      ∀ b < g.size, ∀ u, E b u → u ∈ (c.freshEnds g).getD b ∅ := by
    refine Worklist.run_induction (P := fun s => Settling c g s ∧
      ∀ b < g.size, ∀ u, E b u → u ∈ s.1.ends.getD b ∅) ?_ ⟨settling_initial hsize, ?_⟩
    · intro s n queue h
      obtain ⟨hsettling, habove⟩ := h
      refine ⟨(settling_visit hlinked hsettling).1, ?_⟩
      obtain ⟨hpos, hn⟩ := hsettling.waiting n List.mem_cons_self
      rcases visitFresh_cases c g c.aliases.classes s queue n with ⟨_, heq⟩ | ⟨_, heq⟩
      · rw [heq]
        exact habove
      · rw [heq]
        intro b' hb' u hu
        rw [Rounds.getD_setIfInBounds (hsettling.size_ends ▸ hn)]
        split
        · rename_i hnb
          subst hnb
          refine hfits n hpos hn u hu _ fun v hv hpred => mem_meet.2 ⟨hv, fun p hp => ?_⟩
          have hway := (hlinked.mem_succ_iff_mem_pred p n).2 hp
          exact habove p (Graph.Built.lt_of_mem_succ hway) v (hpred p hp)
        · exact habove b' hb' u hu
    · intro b' hb' u hu
      rw [initialFreshness, Rounds.getD_setIfInBounds (by simpa using hsize)]
      split
      · rename_i hzero
        subst hzero
        exact hentry u hu
      · rw [Array.getD_eq_getD_getElem?, Array.getElem?_replicate, if_pos hb', Option.getD_some]
        exact hclasses b' hb' u hu
  exact hkept.2 b hb k hk

end Context

/-! ## Fresh in a graph -/

section Graphs

variable {o : Options} {code : List Instr} {g : Graph} {b s : Nat} {k : Int64}

/-- The classes that are fresh at the start of block `b`. -/
def Graph.freshInto (g : Graph) (b : Nat) : TempSet := (g.context.freshAtEntry g).getD b ∅

theorem Graph.Built.linked (h : Graph.Built o code g) : g.layout.Linked := h.wellFormed.linked

/-- What is fresh at the start of a block is fresh at the ends of those before it. -/
theorem Graph.Built.mem_freshAfter (h : Graph.Built o code g) (hs : s ∈ (g.block b).succ)
    (hk : k ∈ g.freshInto s) : k ∈ g.context.freshAfter g b (g.freshInto b) :=
  Context.mem_freshAfter_of_succ h.linked hs hk

/-- The classes that are fresh before index `i` of block `b`, unless something has been
collected since the last root. -/
def Graph.freshAt (g : Graph) (b i : Nat) : TempSet :=
  (grown (g.block b).code i).roots.reverse.foldl (g.context.afterRoot (g.block b).code)
    (g.freshInto b)

@[simp] theorem freshAt_zero : g.freshAt b 0 = g.freshInto b := by
  simp [Graph.freshAt]

theorem freshAt_start (h : Graph.Built o code g) : g.freshAt 0 0 = ∅ := by
  rw [freshAt_zero, Graph.freshInto, Context.getD_freshAtEntry h.linked h.size_pos, if_pos rfl]

/-- `RootAt g b r`: the instruction of `r` adds this root to the forest of block `b`. -/
def RootAt (g : Graph) (b : Nat) (r : Root) : Prop :=
  (grown (g.block b).code (r.tree.index + 1)).roots =
    r :: (grown (g.block b).code r.tree.index).roots

theorem RootAt.freshAt_succ {r : Root} (h : RootAt g b r) :
    g.freshAt b (r.tree.index + 1) =
      g.context.afterRoot (g.block b).code (g.freshAt b r.tree.index) r := by
  unfold Graph.freshAt
  rw [h, List.reverse_cons, List.foldl_append, List.foldl_cons, List.foldl_nil]

/-- What is fresh after an instruction was fresh before, or has been made fresh by its
root. -/
theorem mem_freshAt_succ {i : Nat} {p : Instr} (hp : (g.block b).code[i]? = some p)
    (hk : k ∈ g.freshAt b (i + 1)) :
    (k ∈ g.freshAt b i ∧ ((grown (g.block b).code (i + 1)).collects = false →
      (grown (g.block b).code i).collects = false ∧ p.collects = false)) ∨
    ∃ r, RootAt g b r ∧ r.tree.index = i ∧ Freshens g.context (g.block b).code r k ∧
      ¬ (r.collects = false ∧ k ∈ g.freshAt b i) := by
  rcases (grows_grown hp).roots with ⟨hroots, hcollects⟩ | ⟨r, hroots, rfl, hcollects, _⟩
  · refine .inl ⟨?_, fun hquiet => ?_⟩
    · unfold Graph.freshAt at hk ⊢
      rwa [hroots] at hk
    · rw [hcollects] at hquiet
      exact Bool.or_eq_false_iff.1 hquiet
  · have hroot : RootAt g b r := hroots
    rw [hroot.freshAt_succ, Context.mem_afterRoot] at hk
    by_cases hold : r.collects = false ∧ k ∈ g.freshAt b r.tree.index
    · refine .inl ⟨hold.2, fun _ => ?_⟩
      rw [hcollects] at hold
      exact Bool.or_eq_false_iff.1 hold.1
    · exact .inr ⟨r, hroot, rfl, hk.resolve_left hold, hold⟩

/-- What is fresh at the start of a block is fresh at the ends of those before it. -/
theorem freshAt_jump (h : Graph.Built o code g) (hs : s ∈ (g.block b).succ)
    (hk : k ∈ g.freshAt s 0) : k ∈ g.freshAt b (g.block b).code.length ∧
      (grown (g.block b).code (g.block b).code.length).collects = false := by
  rw [freshAt_zero] at hk
  have hafter := h.mem_freshAfter hs hk
  unfold Context.freshAfter at hafter
  simp only [Graph.forest_context, ofCode_eq] at hafter
  split at hafter
  · exact absurd hafter TempSet.not_mem_empty
  · rename_i htail
    exact ⟨hafter, Bool.eq_false_iff.2 htail⟩

/-- A class is fresh only where every way has made it fresh. -/
theorem freshened_of_walk (h : Graph.Built o code g) {ps : List Place} {q : Place}
    (hwalk : Walk g .start ps q) (hk : k ∈ g.freshAt q.block q.index) :
    ∃ b' r, (⟨b', r.tree.index⟩ : Place) ∈ ps ∧ RootAt g b' r ∧
      Freshens g.context (g.block b').code r k := by
  induction hwalk with
  | refl =>
    change k ∈ g.freshAt 0 0 at hk
    rw [freshAt_start h] at hk
    exact absurd hk TempSet.not_mem_empty
  | step walk inside ih =>
    rename_i ps b i
    rcases mem_freshAt_succ (List.getElem?_eq_getElem inside) hk with
      hold | ⟨r, hroot, rfl, hmade, _⟩
    · obtain ⟨b', r, hmem, hrest⟩ := ih hold.1
      exact ⟨b', r, List.mem_append_left _ hmem, hrest⟩
    · exact ⟨b, r, by simp, hroot, hmade⟩
  | jump walk done way ih =>
    subst done
    exact ih (freshAt_jump h way hk).1

end Graphs

end StackFlow
