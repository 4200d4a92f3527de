import StackFlow.Graph.Loops
import StackFlow.Proofs.Dominators
import StackFlow.Proofs.Search

/-!
# Natural loops

* `Layout.BackEdge` is an edge to a dominator of its source, and `Layout.loopOf h` the loop that the
  edges back to `h` close: `h` and what reaches the source of such an edge without passing
  through `h`.
* `loopOf_ssubset` and `mem_loopOf_or_mem_loopOf` say that loops are nested: a loop whose header
  lies in another loop is a proper part of it, and of two loops that have a block in common one has
  the header of the other.  The second comes down to `mem_loopOf_of_dominates`, which is about a
  block between a header and a block of its loop.
* `exists_way_of_leads` and `leads_of_way` are about the search backward from the source of an edge,
  and `Built.fits_of_loopAt?` and `Built.exists_loopAt?` about the loops that are found.
-/

namespace StackFlow

open Relation

namespace Layout

/-- An edge leads from block `t` back to block `h`, which dominates it. -/
def BackEdge (layout : Layout) (t h : Nat) : Prop := h ∈ layout.succ t ∧ layout.Dominates h t

/-- Some edge leads back to block `h`. -/
def LoopHeader (layout : Layout) (h : Nat) : Prop := ∃ t, layout.BackEdge t h

/-- The loop of block `h`: the block, and all blocks that reach the source of an edge back to it
without passing through it. -/
def loopOf (layout : Layout) (h : Nat) : Set Nat :=
  {b | b = h ∨ ∃ t bs, layout.BackEdge t h ∧ layout.Way b bs t ∧ h ∉ bs ++ [t]}

variable {layout : Layout} {bs : List Nat} {b c h k n t : Nat}

theorem mem_loopOf_self (layout : Layout) (h : Nat) : h ∈ layout.loopOf h := .inl rfl

/-- A header dominates its loop. -/
theorem dominates_of_mem_loopOf (hb : b ∈ layout.loopOf h) : layout.Dominates h b := by
  rcases hb with heq | ⟨t, bs, hback, hway, hnot⟩
  · exact heq ▸ .refl layout h
  · exact hback.2.of_way hway hnot b hway.start_mem

theorem BackEdge.lt (hwf : layout.WellFormed) (h : layout.BackEdge t n) :
    t < layout.size ∧ n < layout.size :=
  ⟨hwf.lt_of_mem_succ h.1, hwf.succ_lt t n h.1⟩

theorem lt_of_mem_loopOf (hwf : layout.WellFormed) (hh : h < layout.size)
    (hb : b ∈ layout.loopOf h) : b < layout.size := by
  rcases hb with heq | ⟨t, bs, hback, hway, _⟩
  · exact heq ▸ hh
  · exact hwf.lt_of_way hway (hback.lt hwf).1

/-- The entry is in no loop. -/
theorem entry_not_mem_loopOf (hwf : layout.WellFormed) (hh : layout.LoopHeader h) :
    0 ∉ layout.loopOf h := by
  intro hmem
  obtain ⟨t, hback, _⟩ := hh
  exact hwf.ne_entry_of_mem_succ hback (dominates_of_mem_loopOf hmem).eq_entry

/-- Between two blocks of which the first dominates the second, some way stays clear of what
strictly dominates the first. -/
theorem exists_way_clear (hwf : layout.WellFormed) (hk : k < layout.size)
    (hhk : layout.StrictlyDominates h k) (hpath : layout.Path bs c) (hkc : layout.Dominates k c) :
    ∃ as, layout.Way k as c ∧ h ∉ as ++ [c] := by
  -- a block that both dominates `h` and is dominated by it cannot be `k`
  have hclear : ∀ {c}, layout.Dominates k c → h ≠ c := by
    intro c hkc heq
    exact hhk.1 (hhk.2.antisymm hwf hk (heq ▸ hkc))
  induction hpath with
  | entry =>
    have hk0 : k = 0 := hkc.eq_entry
    subst hk0
    exact ⟨[], .refl, by simpa using hclear hkc⟩
  | step path way ih =>
    rename_i bs i j
    rcases hkc.of_succ way with heq | hki
    · subst heq
      exact ⟨[], .refl, by simpa using hclear hkc⟩
    · obtain ⟨as, hway, hnot⟩ := ih hki
      refine ⟨as ++ [i], hway.step way, ?_⟩
      rw [List.mem_append, List.mem_singleton]
      exact not_or_intro hnot (hclear hkc)

/-- A block between a header and a block of its loop is in the loop. -/
theorem mem_loopOf_of_dominates (hwf : layout.WellFormed) (hk : k < layout.size)
    (hc : c ∈ layout.loopOf h) (hclt : c < layout.size) (hhk : layout.Dominates h k)
    (hkc : layout.Dominates k c) : k ∈ layout.loopOf h := by
  by_cases heq : h = k
  · exact .inl heq.symm
  · obtain ⟨as, hpath⟩ := hwf.exists_path hclt
    obtain ⟨bs, hway, hnot⟩ := exists_way_clear hwf hk ⟨heq, hhk⟩ hpath hkc
    rcases hc with hch | ⟨t, cs, hback, hrest, hnot'⟩
    · exact absurd (by simp [hch]) hnot
    · refine .inr ⟨t, bs ++ cs, hback, hway.append hrest, fun hmem => ?_⟩
      rw [List.append_assoc] at hmem
      rcases List.mem_append.1 hmem with hearly | hlate
      · exact hnot (List.mem_append_left _ hearly)
      · exact hnot' hlate

/-- Of two headers only one lies in the loop of the other. -/
theorem not_dominates_of_mem_loopOf (hwf : layout.WellFormed) (hk : k < layout.size)
    (hmem : k ∈ layout.loopOf h) (hne : k ≠ h) : ¬ layout.Dominates k h := by
  have hhk := dominates_of_mem_loopOf hmem
  exact fun hkh => hne (hkh.antisymm hwf (hhk.lt hwf hk) hhk)

/-- A loop whose header lies in another loop is a proper part of it. -/
theorem loopOf_ssubset (hwf : layout.WellFormed) (hk : k < layout.size)
    (hmem : k ∈ layout.loopOf h) (hne : k ≠ h) : layout.loopOf k ⊂ layout.loopOf h := by
  have hnot := not_dominates_of_mem_loopOf hwf hk hmem hne
  refine Set.ssubset_iff_subset_ne.2 ⟨fun b hb => ?_, fun heq => ?_⟩
  · rcases hb with heq | ⟨s, as, hback, hway, havoids⟩
    · exact heq ▸ hmem
    · -- on from the edge back to `k` goes a way round the outer loop
      rcases hmem with heq | ⟨t, bs, houter, hround, hclear⟩
      · exact absurd heq hne
      · refine .inr ⟨t, (as ++ [s]) ++ bs, houter, (hway.step hback.1).append hround, ?_⟩
        rw [List.append_assoc, List.mem_append, not_or]
        exact ⟨fun hearly => hnot (hback.2.of_way hway havoids h hearly), hclear⟩
  · exact hnot (dominates_of_mem_loopOf (heq ▸ mem_loopOf_self layout h))

/-- Of two loops that have a block in common one has the header of the other. -/
theorem mem_loopOf_or_mem_loopOf (hwf : layout.WellFormed) (hh : h < layout.size)
    (hk : k < layout.size) (hb : b ∈ layout.loopOf h) (hb' : b ∈ layout.loopOf k) :
    k ∈ layout.loopOf h ∨ h ∈ layout.loopOf k := by
  have hlt := lt_of_mem_loopOf hwf hh hb
  have hhb := dominates_of_mem_loopOf hb
  have hkb := dominates_of_mem_loopOf hb'
  rcases hhb.total hwf hlt hkb with hhk | hkh
  · exact .inl (mem_loopOf_of_dominates hwf hk hb hlt hhk hkb)
  · exact .inr (mem_loopOf_of_dominates hwf hh hb' hlt hkh hhb)

/-! ## The search for one loop -/

section Search

variable {nodes : List Nat}

/-- What the search backward from a block finds reaches the block. -/
theorem exists_way_of_leads (hwf : layout.WellFormed) (hclear : h ∉ nodes)
    (hleads : Search.Leads layout.pred nodes [t] b) :
    ∃ bs, layout.Way b bs t ∧ h ∉ bs ++ [t] := by
  obtain ⟨s, hs, hsin, hway⟩ := hleads
  obtain rfl := List.mem_singleton.1 hs
  induction hway with
  | refl => exact ⟨[], .refl, by simpa using (ne_of_mem_of_not_mem hsin hclear).symm⟩
  | tail _ hstep ih =>
    obtain ⟨bs, hway, hnot⟩ := ih
    have hedge := (hwf.mem_succ_iff_mem_pred _ _).2 hstep.1
    refine ⟨_, hway.cons hedge, List.not_mem_cons_of_ne_of_not_mem ?_ hnot⟩
    exact (ne_of_mem_of_not_mem hstep.2 hclear).symm

/-- The search finds what reaches the block clear of a dominator, since all of that is dominated. -/
theorem leads_of_way (hwf : layout.WellFormed)
    (hnodes : ∀ n < layout.size, n ≠ h → layout.Dominates h n → n ∈ nodes)
    (hlt : t < layout.size) (hdom : layout.Dominates h t) (hway : layout.Way b bs t)
    (hnot : h ∉ bs ++ [t]) : Search.Leads layout.pred nodes [t] b := by
  induction hway with
  | refl =>
    have hne : h ≠ b := by simpa using hnot
    exact ⟨b, List.mem_singleton_self b, hnodes b hlt hne.symm hdom, .refl⟩
  | step way edge ih =>
    rename_i bs i j
    rw [List.mem_append, List.mem_singleton, not_or] at hnot
    have hpred := (hwf.mem_succ_iff_mem_pred i j).1 edge
    have hdom' := (hdom.of_succ edge).resolve_left hnot.2
    refine (ih (hwf.pred_lt j i hpred) hdom' hnot.1).mono (fun _ hy => hy) fun y hy hin => ?_
    obtain rfl := List.mem_singleton.1 hy
    have hj := hnodes j hlt (Ne.symm hnot.2) hdom
    exact ⟨j, List.mem_singleton_self j, hj, .single ⟨hpred, hin⟩⟩

end Search

end Layout

/-- The loop is one of those that the edges back close. -/
structure Loop.Fits (layout : Layout) (l : Loop) : Prop where
  header : layout.LoopHeader l.header
  sorted : l.body.Pairwise (· < ·)
  mem_body : ∀ b, b ∈ l.body ↔ b ≠ l.header ∧ b ∈ layout.loopOf l.header

namespace Graph

variable {o : Options} {code : List Instr} {g : Graph} {b h t : Nat} {l : Loop}

theorem Built.dominates_eq_true (hbuilt : Built o code g) (hb : b < g.size) :
    g.dominates h b = true ↔ g.layout.Dominates h b :=
  hbuilt.dominance_spec.1.contains_iff hbuilt.wellFormed hb

theorem Built.mem_loopBlocks (hbuilt : Built o code g) (hback : g.layout.BackEdge t h) :
    b ∈ g.loopBlocks h t ↔ ∃ bs, g.layout.Way b bs t ∧ h ∉ bs ++ [t] := by
  have hwf := hbuilt.wellFormed
  have hnodup : (g.layout.indices.filter fun n => n ≠ h && g.dominates h n).Nodup :=
    List.nodup_range.filter _
  rw [loopBlocks, Search.mem_visited hnodup]
  constructor
  · exact Layout.exists_way_of_leads hwf (by simp)
  · intro hway
    obtain ⟨bs, hway, hnot⟩ := hway
    refine Layout.leads_of_way hwf (fun n hn hne hdom => ?_) (hback.lt hwf).1 hback.2 hway hnot
    rw [List.mem_filter, Bool.and_eq_true, decide_eq_true_eq, hbuilt.dominates_eq_true hn]
    exact ⟨List.mem_range.2 hn, hne, hdom⟩

theorem Built.mem_tails (hbuilt : Built o code g) :
    t ∈ (g.layout.pred h).filter (fun t => g.dominates h t) ↔ g.layout.BackEdge t h := by
  have hwf := hbuilt.wellFormed
  rw [List.mem_filter, ← hwf.mem_succ_iff_mem_pred]
  exact and_congr_right fun hedge => hbuilt.dominates_eq_true (hwf.lt_of_mem_succ hedge)

theorem Built.exists_loopAt? (hbuilt : Built o code g) (hh : g.layout.LoopHeader h) :
    ∃ l, g.loopAt? h = some l := by
  obtain ⟨t, hback⟩ := hh
  have hsome := List.ne_nil_of_mem (hbuilt.mem_tails.2 hback)
  rw [loopAt?, if_neg (mt List.isEmpty_iff.1 hsome)]
  exact ⟨_, rfl⟩

theorem Built.fits_of_loopAt? (hbuilt : Built o code g) (hl : g.loopAt? h = some l) :
    l.header = h ∧ l.Fits g.layout := by
  have hwf := hbuilt.wellFormed
  rw [loopAt?] at hl
  split at hl
  · cases hl
  · rename_i hsome
    obtain rfl := Option.some.inj hl
    have hheader : g.layout.LoopHeader h := by
      obtain ⟨t, ht⟩ := List.exists_mem_of_ne_nil _ (mt List.isEmpty_iff.2 hsome)
      exact ⟨t, hbuilt.mem_tails.1 ht⟩
    refine ⟨rfl, hheader, List.pairwise_lt_range.filter _, fun b => ?_⟩
    simp only [List.mem_filter, Layout.indices, List.mem_range, List.any_map, List.any_eq_true,
      Function.comp_apply, List.contains_iff_mem]
    constructor
    · intro hb
      obtain ⟨_, t, ht, hmem⟩ := hb
      have hback := hbuilt.mem_tails.1 (List.mem_filter.2 ht)
      obtain ⟨bs, hway, hnot⟩ := (hbuilt.mem_loopBlocks hback).1 hmem
      exact ⟨fun heq => hnot (heq ▸ hway.start_mem), .inr ⟨t, bs, hback, hway, hnot⟩⟩
    · intro hb
      obtain ⟨hne, hloop⟩ := hb
      obtain ⟨t, bs, hback, hway, hnot⟩ := hloop.resolve_left hne
      refine ⟨Layout.lt_of_mem_loopOf hwf (hback.lt hwf).2 hloop, t, ?_, ?_⟩
      · exact List.mem_filter.1 (hbuilt.mem_tails.2 hback)
      · exact (hbuilt.mem_loopBlocks hback).2 ⟨bs, hway, hnot⟩

/-! ## All loops -/

theorem Built.mem_loops (hbuilt : Built o code g) :
    l ∈ g.loops ↔ g.loopAt? l.header = some l := by
  rw [loops, List.mem_mergeSort, List.mem_filterMap]
  constructor
  · intro hl
    obtain ⟨h, _, hfound⟩ := hl
    rwa [(hbuilt.fits_of_loopAt? hfound).1]
  · intro hfound
    obtain ⟨t, hback⟩ := (hbuilt.fits_of_loopAt? hfound).2.header
    exact ⟨l.header, List.mem_range.2 (hback.lt hbuilt.wellFormed).2, hfound⟩

theorem Built.fits_of_mem_loops (hbuilt : Built o code g) (hl : l ∈ g.loops) : l.Fits g.layout :=
  (hbuilt.fits_of_loopAt? (hbuilt.mem_loops.1 hl)).2

/-- Every header has one loop. -/
theorem Built.nodup_headers_loops (hbuilt : Built o code g) :
    (g.loops.map Loop.header).Nodup := by
  have hnodup : g.loops.Nodup := by
    rw [loops, (List.mergeSort_perm _ _).nodup_iff]
    refine List.Nodup.filterMap (fun h h' l hl hl' => ?_) List.nodup_range
    rw [← (hbuilt.fits_of_loopAt? hl).1, ← (hbuilt.fits_of_loopAt? hl').1]
  rw [List.nodup_map_iff_inj_on hnodup]
  intro l hl m hm heq
  have hfound := hbuilt.mem_loops.1 hl
  rw [heq, hbuilt.mem_loops.1 hm] at hfound
  exact (Option.some.inj hfound).symm

theorem Built.mem_headers_loops (hbuilt : Built o code g) :
    h ∈ g.loops.map Loop.header ↔ g.layout.LoopHeader h := by
  rw [List.mem_map]
  constructor
  · intro hl
    obtain ⟨l, hl, rfl⟩ := hl
    exact (hbuilt.fits_of_mem_loops hl).header
  · intro hh
    obtain ⟨l, hfound⟩ := hbuilt.exists_loopAt? hh
    have hheader := (hbuilt.fits_of_loopAt? hfound).1
    exact ⟨l, hbuilt.mem_loops.2 (hheader.symm ▸ hfound), hheader⟩

/-- Smaller loops come first. -/
theorem pairwise_loops (g : Graph) :
    g.loops.Pairwise fun l m => l.body.length ≤ m.body.length := by
  refine (List.pairwise_mergeSort (fun a b c hab hbc => ?_) (fun a b => ?_) _).imp fun h => ?_
  · simp only [Bool.or_eq_true, Bool.and_eq_true, decide_eq_true_eq] at hab hbc ⊢
    omega
  · simp only [Bool.or_eq_true, Bool.and_eq_true, decide_eq_true_eq]
    omega
  · simp only [Bool.or_eq_true, Bool.and_eq_true, decide_eq_true_eq] at h
    omega

end Graph

end StackFlow
