import StackFlow.Proofs.Freshness
import StackFlow.Proofs.Paths

/-!
# Fresh on every way

The classes that are fresh at the start of a block are those that are fresh there on every way
from the entry, of which there are infinitely many once there is a loop.

* `Context.mem_freshAfter_iff` says what a block does to one class: it makes the class fresh
  whatever was fresh before, or leaves it as it is unless something is collected.
* `transfer_contextFor` says that the short cut for blocks that may collect makes no difference.
* `Context.freshOver` is what is fresh after the blocks of a way, one after the other, and
  `Built.mem_freshOver` that a block starts with no more than every way there brings.
* `Graph.mem_freshAtEntry_iff` is the main result: the work list ends, and then a block starts
  with exactly what every way there brings.
-/

namespace StackFlow

open Forest

/-! ## One block and one class -/

/-- No root of the forest may collect, nor what comes after the last one. -/
def Forest.Quiet (f : Forest) : Prop := f.tail = false ∧ ∀ r ∈ f.roots, r.collects = false

/-- The forest of code that may collect is not quiet. -/
theorem Forest.Quiet.any_collects {code : List Instr} (h : (ofCode code).Quiet) :
    code.any (·.collects) = false := by
  rw [ofCode_eq] at h
  obtain ⟨htail, hroots⟩ := h
  rw [List.any_eq_false]
  intro p hp hcollects
  obtain ⟨i, hi⟩ := List.mem_iff_getElem?.1 hp
  obtain ⟨hlt, _⟩ := List.getElem?_eq_some_iff.1 hi
  rcases (inv_grown (Nat.le_refl code.length)).noticed hlt hi hcollects with
    ⟨hlast, _⟩ | ⟨r, hr, _, hbefore, _⟩
  · change (grown code code.length).collects = false at htail
    rw [hlast] at htail
    cases htail
  · rw [hroots r (List.mem_reverse.2 hr)] at hbefore
    cases hbefore

namespace Context

variable {c : Context} {g : Graph} {code : List Instr} {fresh : TempSet} {b : Nat} {k : Int64}

theorem mem_foldl_afterRoot_iff {rs : List Root} : k ∈ rs.foldl (c.afterRoot code) fresh ↔
    k ∈ rs.foldl (c.afterRoot code) ∅ ∨ (k ∈ fresh ∧ ∀ r ∈ rs, r.collects = false) := by
  induction rs generalizing fresh with
  | nil => simp
  | cons r rs ih =>
    rw [List.foldl_cons, List.foldl_cons, ih, @ih (c.afterRoot code ∅ r), mem_afterRoot,
      mem_afterRoot, List.forall_mem_cons]
    have hnot : ¬ k ∈ (∅ : TempSet) := TempSet.not_mem_empty
    tauto

/-- A block makes a class fresh, or leaves it as it is if nothing is collected. -/
theorem mem_freshAfter_iff : k ∈ c.freshAfter g b fresh ↔
    k ∈ c.freshAfter g b ∅ ∨ (k ∈ fresh ∧ (c.forest b).Quiet) := by
  unfold freshAfter Forest.Quiet
  cases htail : (c.forest b).tail with
  | true => simp [htail]
  | false =>
    simp only [htail, Bool.false_eq_true, if_false, true_and]
    exact mem_foldl_afterRoot_iff

/-- The classes that are fresh after the blocks `bs`, one after the other, if nothing is fresh
before. -/
def freshOver (c : Context) (g : Graph) (bs : List Nat) : TempSet :=
  bs.foldl (fun fresh b => c.freshAfter g b fresh) ∅

theorem freshOver_concat {bs : List Nat} :
    c.freshOver g (bs ++ [b]) = c.freshAfter g b (c.freshOver g bs) := by
  rw [freshOver, List.foldl_append]
  rfl

theorem freshOver_subset (c : Context) (g : Graph) (bs : List Nat) :
    ∀ u ∈ c.freshOver g bs, u ∈ c.aliases.classes :=
  List.foldlRecOn (motive := fun fresh : TempSet => ∀ u ∈ fresh, u ∈ c.aliases.classes) _ _
    (fun _ hu => absurd hu TempSet.not_mem_empty) fun _ h _ _ => freshAfter_subset h

end Context

namespace Graph

variable {o : Options} {code : List Instr} {g : Graph} {c : Context} {b n : Nat} {k : Int64}
  {bs : List Nat}

/-- What comes into a block that may collect does not show at its end. -/
theorem Built.transfer_contextFor (h : Built o code g) (v : Variants) (hb : b < g.size)
    (fresh : TempSet) :
    (g.contextFor v).transfer g b fresh = (g.contextFor v).freshAfter g b fresh := by
  unfold Context.transfer
  split
  · rename_i hcollects
    have hnot : ¬ ((g.contextFor v).forest b).Quiet := by
      intro hquiet
      rw [forest_contextFor] at hquiet
      rw [h.facts_eq hb, Block.factsOf, hquiet.any_collects] at hcollects
      cases hcollects
    refine TempSet.ext_mem fun u => ?_
    have hafter : u ∈ (g.contextFor v).freshAfter g b fresh ↔
        u ∈ (g.contextFor v).freshAfter g b ∅ ∨ (u ∈ fresh ∧ ((g.contextFor v).forest b).Quiet) :=
      Context.mem_freshAfter_iff
    rw [hafter]
    simp only [hnot, and_false, or_false]
  · rfl

/-! ## All ways -/

/-- What is fresh at the start of a block is fresh after the blocks of every way there. -/
theorem Built.mem_freshOver (h : Built o code g) (hpath : g.layout.Path bs n)
    (hk : k ∈ (c.freshAtEntry g).getD n ∅) : k ∈ c.freshOver g bs := by
  induction hpath generalizing k with
  | entry =>
    rw [Context.getD_freshAtEntry h.linked h.size_pos, if_pos rfl] at hk
    exact absurd hk TempSet.not_mem_empty
  | step path way ih =>
    rw [Context.freshOver_concat]
    have hend := Context.mem_freshAfter_of_succ h.linked way hk
    exact Context.freshAfter_mono (fun u hu => ih hu) k hend

/-- What is fresh after the blocks of every way through a block is fresh at its end. -/
theorem Built.mem_freshEnds (h : Built o code g) (v : Variants) (hb : b < g.size)
    (hk : ∀ bs, g.layout.Path bs b → k ∈ (g.contextFor v).freshOver g (bs ++ [b])) :
    k ∈ ((g.contextFor v).freshEnds g).getD b ∅ := by
  refine Context.mem_freshEnds_of_fits h.linked
    (E := fun b u => ∀ bs, g.layout.Path bs b → u ∈ (g.contextFor v).freshOver g (bs ++ [b]))
    (fun b hb u hu => ?_) (fun u hu => hu [] .entry) (fun b _ hb u hu fresh hfresh => ?_) hb hk
  · obtain ⟨bs, hpath⟩ := h.wellFormed.exists_path hb
    exact Context.freshOver_subset _ g _ u (hu bs hpath)
  · rw [h.transfer_contextFor v hb, Context.mem_freshAfter_iff]
    by_cases hmade : u ∈ (g.contextFor v).freshAfter g b ∅
    · exact .inl hmade
    · -- the block does not make the class fresh, so every way to the block has done so
      have hbefore : ∀ bs, g.layout.Path bs b → u ∈ (g.contextFor v).freshOver g bs ∧
          ((g.contextFor v).forest b).Quiet := by
        intro bs hpath
        have hafter := hu bs hpath
        rw [Context.freshOver_concat, Context.mem_freshAfter_iff] at hafter
        exact hafter.resolve_left hmade
      obtain ⟨bs, hpath⟩ := h.wellFormed.exists_path hb
      refine .inr ⟨hfresh u ?_ fun p hp as hto => ?_, (hbefore bs hpath).2⟩
      · exact Context.freshOver_subset _ g bs u (hbefore bs hpath).1
      · have way := (h.linked.mem_succ_iff_mem_pred p b).2 hp
        exact (hbefore (as ++ [p]) (hto.step way)).1

/-- For every choice of variants, the visits end because no block waits any more.  Then a class is
fresh at the start of a block exactly if the block is not the entry and the class is fresh after
the blocks of every way there. -/
theorem mem_freshAtEntry_iff (h : build o code = .ok g) {v : Variants}
    (hc : Context.ofGraph v g = .ok c) (hn : n < g.size) (k : Int64) :
    (c.settleFreshness g c.aliases.classes).2 = [] ∧
      (k ∈ (c.freshAtEntry g).getD n ∅ ↔
        n ≠ 0 ∧ ∀ bs, g.layout.Path bs n → k ∈ c.freshOver g bs) := by
  have hbuilt := built_of_build h
  obtain rfl := Context.eq_contextFor_of_ofGraph hc
  refine ⟨(Context.settling_settleFreshness hbuilt.linked hbuilt.size_pos).2, ?_⟩
  constructor
  · intro hk
    refine ⟨fun hzero => ?_, fun bs hpath => hbuilt.mem_freshOver hpath hk⟩
    rw [Context.getD_freshAtEntry hbuilt.linked hn, if_pos hzero] at hk
    exact absurd hk TempSet.not_mem_empty
  · intro hways
    obtain ⟨hne, hfresh⟩ := hways
    obtain ⟨bs, hpath⟩ := hbuilt.wellFormed.exists_path hn
    rw [Context.getD_freshAtEntry hbuilt.linked hn, if_neg hne, Context.mem_meet]
    refine ⟨Context.freshOver_subset _ g bs k (hfresh bs hpath), fun p hp => ?_⟩
    have way := (hbuilt.linked.mem_succ_iff_mem_pred p n).2 hp
    exact hbuilt.mem_freshEnds v (Graph.Built.lt_of_mem_succ way) fun as hto =>
      hfresh (as ++ [p]) (hto.step way)

/-- A new object that is stored into a loop, and a loop that collects after it. -/
def storingLoops : List Instr :=
  [.number 8, .ofOpcode .gcMalloc, .tstore .reference 0, .target 1, .number 5,
    .tload .reference 0, .number 0, .typed .rstore .reference, .number 1, .branch 1 true,
    .target 2, .ofOpcode .gcSafe, .number 1, .branch 2 true, .ret .void]

/-- The object is fresh at the start of the first loop however often control has been there.  It
is not at the start of the second one, since control may have been there before. -/
theorem mem_freshAtEntry_iff_storingLoops :
    ∃ g c, build (Defaults.options {}) storingLoops = .ok g ∧
      Context.ofGraph .standard g = .ok c ∧ 1 < g.size ∧ 3 < g.size ∧
      (c.settleFreshness g c.aliases.classes).2 = [] ∧
      (∀ bs, g.layout.Path bs 1 → 0 ∈ c.freshOver g bs) ∧
      ¬ ∀ bs, g.layout.Path bs 3 → 0 ∈ c.freshOver g bs := by
  obtain ⟨g, hbuild, hfacts⟩ := exists_ok_of_any
    (x := build (Defaults.options {}) storingLoops)
    (P := fun g => decide (3 < g.size) && (Context.ofGraph .standard g).toOption.any fun c =>
      ((c.freshAtEntry g).getD 1 ∅).contains 0 && !((c.freshAtEntry g).getD 3 ∅).contains 0)
    (by cbv)
  rw [Bool.and_eq_true, decide_eq_true_eq] at hfacts
  obtain ⟨hsize, hcontext⟩ := hfacts
  obtain ⟨c, hc, hfresh⟩ := exists_ok_of_any hcontext
  rw [Bool.and_eq_true, Bool.not_eq_true', Bool.eq_false_iff, ne_eq, TempSet.contains_iff,
    TempSet.contains_iff] at hfresh
  have hone : 1 < g.size := by omega
  obtain ⟨hdone, hfirst⟩ := mem_freshAtEntry_iff hbuild hc hone 0
  obtain ⟨_, hsecond⟩ := mem_freshAtEntry_iff hbuild hc hsize 0
  refine ⟨g, c, hbuild, hc, hone, hsize, hdone, (hfirst.1 hfresh.1).2, fun hways => ?_⟩
  exact hfresh.2 (hsecond.2 ⟨by decide, hways⟩)

end Graph

end StackFlow
