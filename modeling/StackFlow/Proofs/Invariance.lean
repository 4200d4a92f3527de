import StackFlow.Proofs.Classes
import StackFlow.Proofs.Passes

/-!
# What the passes leave as it is

* `Variants.Swaps.context_eq`: forests and aliases are the same after the passes.
* `freshInto_of_swaps`: no more classes are fresh after the passes than before, since what is
  fresh after them fits together before as well.
* `Elides.of_swaps`: a barrier that is not needed after the passes was not needed before.
-/

namespace StackFlow

open Forest Elision

/-! ## What the passes know does not change -/

section Contexts

variable {g g' : Graph} {p p' : Instr} {code code' : List Instr}

theorem Variants.Swapped.exchanged (h : Variants.standard.Swapped p p') : Exchanged p p' := by
  cases h with
  | same => exact .inl rfl
  | store checked =>
    obtain ⟨hop, hty⟩ := checkedStore_iff.1 checked
    exact .inr (.inl ⟨hop, hty, rfl⟩)
  | allocation clears => exact .inr (.inr ⟨of_decide_eq_true clears, rfl⟩)

/-- An exchange leaves alone what forests are grown from. -/
theorem Variants.Swapped.traits_eq (h : Variants.standard.Swapped p p') :
    p'.isMeta = p.isMeta ∧ p'.isComplex = p.isComplex ∧ p'.inputs = p.inputs ∧
      p'.outputs = p.outputs ∧ p'.collects = p.collects := by
  cases h with
  | same => exact ⟨rfl, rfl, rfl, rfl, rfl⟩
  | store _ rooted fits =>
    rw [Instr.fits, Bool.and_eq_true, decide_eq_true_eq] at fits
    simp only [Instr.sameShape, Bool.and_eq_true, decide_eq_true_eq] at fits
    exact ⟨rooted.1.symm, rooted.2.1.symm, fits.1.1.1.symm, fits.1.1.2.symm, fits.2.symm⟩
  | allocation _ pushes fits =>
    rw [Instr.fits, Bool.and_eq_true, decide_eq_true_eq] at fits
    simp only [Instr.sameShape, Bool.and_eq_true, decide_eq_true_eq] at fits
    exact ⟨pushes.1.symm, pushes.2.1.symm, fits.1.1.1.symm, fits.1.1.2.symm, fits.2.symm⟩

theorem Variants.Swapped.step_eq (h : Variants.standard.Swapped p p') (s : Growing) (i : Nat) :
    step s i p' = step s i p := by
  obtain ⟨hmeta, hcomplex, hinputs, houtputs, hcollects⟩ := h.traits_eq
  unfold step
  rw [hmeta, hcomplex, hinputs, houtputs, hcollects]

theorem Variants.Swapped.canLayOut_eq (h : Variants.standard.Swapped p p') :
    canLayOut p' = canLayOut p := by
  obtain ⟨hmeta, hcomplex, hinputs, _⟩ := h.traits_eq
  unfold canLayOut
  rw [hmeta, hcomplex, hinputs]

theorem foldl_step_eq_of_swapped (h : List.Forall₂ Variants.standard.Swapped code code') (n : Nat)
    (s : Growing) : (code'.zipIdx n).foldl (fun s (p, i) => step s i p) s =
      (code.zipIdx n).foldl (fun s (p, i) => step s i p) s := by
  induction h generalizing n s with
  | nil => rfl
  | cons hp _ ih => simp only [List.zipIdx_cons, List.foldl_cons, ih, hp.step_eq]

theorem ofCode_eq_of_swapped (h : List.Forall₂ Variants.standard.Swapped code code') :
    ofCode code' = ofCode code := by
  unfold ofCode
  rw [foldl_step_eq_of_swapped h]

theorem grown_eq_of_swapped (h : List.Forall₂ Variants.standard.Swapped code code') (i : Nat) :
    grown code' i = grown code i := by
  unfold grown
  rw [foldl_step_eq_of_swapped (List.forall₂_take i h)]

theorem exchanges_of_swapped (h : List.Forall₂ Variants.standard.Swapped code code') :
    Exchanges code code' := by
  induction h with
  | nil => exact .refl []
  | cons hp _ ih =>
    intro i
    cases i with
    | zero => exact .inr ⟨_, _, rfl, rfl, hp.exchanged⟩
    | succ i => exact ih i

/-- What is exchanged does not access a temporary. -/
theorem Exchanged.eq_or_not_accesses (h : Exchanged p p') : p' = p ∨
    p.op ≠ .tstore ∧ p.op ≠ .tload ∧ p'.op ≠ .tstore ∧ p'.op ≠ .tload := by
  rcases h with rfl | ⟨hop, _, rfl⟩ | ⟨hop, rfl⟩
  · exact .inl rfl
  · exact .inr (by simp [hop, Instr.typed, Instr.ofOpcode])
  · exact .inr (by simp [hop, Instr.ofOpcode])

/-- The same copies are found. -/
theorem source?_eq_of_exchanges (h : Exchanges code code') (singles : TempSet) (r : Root)
    (p : Instr) : Aliases.Site.source? ⟨code', r⟩ singles p =
      Aliases.Site.source? ⟨code, r⟩ singles p := by
  simp only [Aliases.Site.source?]
  cases r.tree.operand? 0 with
  | none => rfl
  | some t =>
    simp only [Option.bind_some]
    rcases h t.index with ⟨hold, hnew⟩ | ⟨q, q', hold, hnew, hexchanged⟩
    · rw [hold, hnew]
    · rw [hold, hnew]
      rcases hexchanged.eq_or_not_accesses with rfl | ⟨_, hload, _, hload'⟩
      · rfl
      · simp [Option.filter, hload, hload']

/-- The same stores are found, and the same copies. -/
theorem found?_eq_of_exchanges (h : Exchanges code code') (singles : TempSet) (r : Root) :
    Aliases.Site.found? ⟨code', r⟩ singles = Aliases.Site.found? ⟨code, r⟩ singles := by
  simp only [Aliases.Site.found?, source?_eq_of_exchanges h]
  rcases h r.tree.index with ⟨hold, hnew⟩ | ⟨p, p', hold, hnew, hexchanged⟩
  · rw [hold, hnew]
  · rw [hold, hnew]
    rcases hexchanged.eq_or_not_accesses with rfl | ⟨hstore, _, hstore', _⟩
    · rfl
    · simp [Option.filter, hstore, hstore']

theorem storedTemps_eq_of_exchanged (h : List.Forall₂ Exchanged code code') :
    storedTemps code' = storedTemps code := by
  induction h with
  | nil => rfl
  | cons hp _ ih =>
    unfold storedTemps at ih ⊢
    rcases hp.eq_or_not_accesses with rfl | ⟨hstore, _, hstore', _⟩
    · simp only [List.filter_cons]
      split
      · rw [List.map_cons, List.map_cons, ih]
      · exact ih
    · simp [hstore, hstore', ih]

/-- Blocks that are the same but for exchanges. -/
theorem Variants.Swaps.forall₂_layout (h : Variants.standard.Swaps g g') :
    List.Forall₂ (fun k k' : Block => List.Forall₂ Variants.standard.Swapped k.code k'.code)
      g.layout.toList g'.layout.toList := by
  have hsize : g.layout.size = g'.layout.size := h.size.symm
  refine List.forall₂_iff_get.2 ⟨by simpa using hsize, fun b hb hb' => ?_⟩
  have hcode := h.code b
  simp only [Array.length_toList] at hb hb'
  simp only [Graph.block, Layout.block, Array.getD_eq_getD_getElem?, Array.getElem?_eq_getElem hb,
    Array.getElem?_eq_getElem hb', Option.getD_some] at hcode
  simpa using hcode

theorem Variants.Swaps.resembles (h : Variants.standard.Swaps g g') : Resembles g g' where
  options := h.options
  size := h.size
  succ b := by rw [h.frame b]
  facts b := by rw [h.frame b]
  code b := exchanges_of_swapped (h.code b)

/-- The passes find out the same of a graph that they have been over. -/
theorem Variants.Swaps.context_eq (h : Variants.standard.Swaps g g') : g'.context = g.context := by
  have hlayout := h.forall₂_layout
  have hforests : g'.forests = g.forests := by
    unfold Graph.forests
    rw [← Array.toList_inj, Array.toList_map, Array.toList_map]
    generalize g.layout.toList = ks, g'.layout.toList = ks' at hlayout
    induction hlayout with
    | nil => rfl
    | cons hk _ ih => rw [List.map_cons, List.map_cons, ofCode_eq_of_swapped hk, ih]
  have hsingles : Aliases.singleStores g' = Aliases.singleStores g := by
    refine TempSet.ext_mem fun t => ?_
    rw [mem_singleStores, mem_singleStores]
    suffices hstored : (g'.layout.toList.flatMap fun b => storedTemps b.code) =
        g.layout.toList.flatMap fun b => storedTemps b.code by rw [hstored]
    generalize g.layout.toList = ks, g'.layout.toList = ks' at hlayout
    induction hlayout with
    | nil => rfl
    | cons hk _ ih =>
      rw [List.flatMap_cons, List.flatMap_cons, ih,
        storedTemps_eq_of_exchanged (hk.imp fun _ _ hp => hp.exchanged)]
  have hfound : List.Forall₂ (fun x y : Aliases.Site =>
      y.found? (Aliases.singleStores g) = x.found? (Aliases.singleStores g))
      (Aliases.sites g g.forests) (Aliases.sites g' g'.forests) := by
    rw [Aliases.sites_forests, Aliases.sites_forests]
    generalize g.layout.toList = ks, g'.layout.toList = ks' at hlayout
    induction hlayout with
    | nil => exact .nil
    | cons hk _ ih =>
      rw [List.flatMap_cons, List.flatMap_cons, ofCode_eq_of_swapped hk]
      refine List.rel_append ?_ ih
      rw [List.forall₂_map_left_iff, List.forall₂_map_right_iff, List.forall₂_same]
      exact fun r _ => found?_eq_of_exchanges (exchanges_of_swapped hk) _ r
  have haliases : g'.aliases = g.aliases := by
    rw [Graph.aliases, Graph.aliases, Aliases.compute, Aliases.compute, hsingles]
    exact Aliases.ofSites_eq_of_found hfound
  unfold Graph.context
  rw [hforests, haliases]

end Contexts

/-! ## Fresh classes after the passes -/

section Fresh

variable {o : Options} {code : List Instr} {g g' : Graph} {b i : Nat} {k : Int64}

theorem Graph.Built.pred_lt (h : Graph.Built o code g) {p : Nat} (hp : p ∈ g.layout.pred b) :
    p < g.size := h.wellFormed.pred_lt b p hp

theorem foldl_afterRoot_of_exchanges {code code' : List Instr} (h : Exchanges code code')
    {rs : List Root} {fresh fresh' : TempSet} (hfresh : ∀ u ∈ fresh', u ∈ fresh) :
    ∀ u ∈ rs.foldl (g.context.afterRoot code') fresh',
      u ∈ rs.foldl (g.context.afterRoot code) fresh := by
  induction rs generalizing fresh fresh' with
  | nil => exact hfresh
  | cons r rs ih =>
    refine ih fun u hu => ?_
    rw [Context.mem_afterRoot] at hu ⊢
    rcases hu with ⟨hquiet, hold⟩ | hmade
    · exact .inl ⟨hquiet, hfresh u hold⟩
    · exact .inr (Freshens.of_exchanges h hmade)

/-- An exchange takes out what makes a class fresh, and puts nothing in. -/
theorem freshAfter_of_swaps (h : Variants.standard.Swaps g g') {fresh : TempSet} :
    ∀ u ∈ g.context.freshAfter g' b fresh, u ∈ g.context.freshAfter g b fresh := by
  intro u hu
  unfold Context.freshAfter at hu ⊢
  simp only at hu ⊢
  split
  · rename_i htail
    rwa [if_pos htail] at hu
  · rename_i htail
    rw [if_neg htail] at hu
    exact foldl_afterRoot_of_exchanges (h.resembles.code b) (fun _ hv => hv) u hu

theorem transfer_of_swaps (h : Variants.standard.Swaps g g') {fresh : TempSet} :
    ∀ u ∈ g.context.transfer g' b fresh, u ∈ g.context.transfer g b fresh := by
  unfold Context.transfer
  rw [h.resembles.facts]
  exact freshAfter_of_swaps h

variable {all : TempSet} {ends : Array TempSet}

theorem Variants.Swaps.pred_eq (h : Variants.standard.Swaps g g') (b : Nat) :
    g'.layout.pred b = g.layout.pred b := by
  change (g'.block b).pred = (g.block b).pred
  rw [h.frame b]

theorem Variants.Swaps.linked (h : Variants.standard.Swaps g g') (hlinked : g.layout.Linked) :
    g'.layout.Linked := by
  have hsucc : ∀ b, g'.layout.succ b = g.layout.succ b := by
    intro b
    change (g'.block b).succ = (g.block b).succ
    rw [h.frame b]
  constructor
  · intro b s hs
    rw [hsucc] at hs
    exact Nat.lt_of_lt_of_eq (hlinked.succ_lt b s hs) h.size.symm
  · intro b s
    rw [hsucc, h.pred_eq]
    exact hlinked.mem_succ_iff_mem_pred b s

theorem meet_of_swaps (h : Variants.standard.Swaps g g') :
    Context.meet g' all ends b = Context.meet g all ends b := by
  unfold Context.meet
  rw [h.pred_eq]

/-- A graph that the passes have gone over has no more fresh classes than before. -/
theorem freshInto_of_swaps (hbuilt : Graph.Built o code g) (h : Variants.standard.Swaps g g')
    (hb : b < g.size) : ∀ u ∈ g'.freshInto b, u ∈ g.freshInto b := by
  have hlinked := h.linked hbuilt.linked
  obtain ⟨hzero, hfix, hclasses⟩ := Context.freshEnds_spec (c := g.context) hlinked
    (h.size.symm ▸ hbuilt.size_pos)
  rw [h.size] at hfix hclasses
  -- what is fresh at the ends of blocks afterwards was fresh there before
  have habove : ∀ p < g.size, ∀ u ∈ (g.context.freshEnds g').getD p ∅,
      u ∈ (g.context.freshEnds g).getD p ∅ := by
    intro p hp u hu
    refine Context.mem_freshEnds_of_fits (E := fun b u => u ∈ (g.context.freshEnds g').getD b ∅)
      hbuilt.linked hclasses (fun v hv => ?_) (fun b hpos hb v hv fresh hfresh => ?_) hp hu
    · rw [hzero] at hv
      exact freshAfter_of_swaps h v hv
    · rw [← hfix b hpos hb, meet_of_swaps h] at hv
      refine Context.transfer_mono (fun w hw => ?_) v (transfer_of_swaps h v hv)
      obtain ⟨hclass, hpred⟩ := Context.mem_meet.1 hw
      exact hfresh w hclass hpred
  intro u hu
  rw [Graph.freshInto, h.context_eq, Context.getD_freshAtEntry hlinked (h.size.symm ▸ hb)] at hu
  rw [Graph.freshInto, Context.getD_freshAtEntry hbuilt.linked hb]
  split
  · rename_i hentry
    rwa [if_pos hentry] at hu
  · rename_i hentry
    rw [if_neg hentry, meet_of_swaps h, Context.mem_meet] at hu
    exact Context.mem_meet.2 ⟨hu.1, fun p hp => habove p (hbuilt.pred_lt hp) u (hu.2 p hp)⟩

theorem freshAt_of_swaps (hbuilt : Graph.Built o code g) (h : Variants.standard.Swaps g g')
    (hb : b < g.size) : ∀ u ∈ g'.freshAt b i, u ∈ g.freshAt b i := by
  unfold Graph.freshAt
  rw [grown_eq_of_swapped (h.code b), h.context_eq]
  exact foldl_afterRoot_of_exchanges (h.resembles.code b) (freshInto_of_swaps hbuilt h hb)

theorem rootAt_of_swaps (h : Variants.standard.Swaps g g') {r : Root} :
    RootAt g' b r ↔ RootAt g b r := by
  unfold RootAt
  rw [grown_eq_of_swapped (h.code b), grown_eq_of_swapped (h.code b)]

/-- A barrier that is not needed after the passes was not needed before. -/
theorem Elides.of_swaps (hbuilt : Graph.Built o code g) (h : Variants.standard.Swaps g g')
    {reason : Reason} (helides : Elides g' reason b i) :
    Elides g reason b i ∧ ∃ p, (g'.block b).code[i]? = some p ∧
      Variants.standard.isCheckedStore p = true := by
  obtain ⟨r, p, hroot, rfl, hp, hchecked, hwhy⟩ := helides
  have hexchanges := h.resembles.code b
  have hp₀ := hexchanges.checkedStore hp hchecked
  refine ⟨⟨r, p, (rootAt_of_swaps h).1 hroot, rfl, hp₀, hchecked, ?_⟩, p, hp, hchecked⟩
  rw [hexchanges.isNull_eq, hexchanges.loadedClass?_eq, h.context_eq] at hwhy
  refine hwhy.imp id fun ⟨hreason, hnull, k, hk, hquiet, hmem⟩ => ?_
  have hb := Graph.Built.lt_of_mem_code (List.mem_of_getElem? hp₀)
  exact ⟨hreason, hnull, k, hk, hquiet, freshAt_of_swaps hbuilt h hb k hmem⟩

end Fresh

end StackFlow
