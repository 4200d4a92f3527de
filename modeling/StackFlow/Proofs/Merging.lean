import StackFlow.Proofs.Wiring

/-!
# Blocks are maximal

Drafts are merged in one sweep that goes forward only, although each merge changes what leads
to what.

* `Sweep` is the sweep on its way and `Sweep.Step` what it does next: it joins its draft with
  the one that follows, or turns the pair down and passes on.  `Sweep.exists_done` runs it to
  the end, which is what `mergeChains` returns.
* A merge takes away the one way to the draft that disappears, and no other.  So it changes
  nothing for another pair (`isChain_join`), every pair that was passed stays as it is
  (`Sweep.Settled`, `Sweep.Passed`), and at the end no chain is left.
* `Graph.blocks_maximal` says what this means for the blocks of a routine.
-/

namespace StackFlow

open Relation

namespace Draft

variable {pre post ds : List Draft} {x y y' d e : Draft}

/-! ## One merge -/

/-- A merge leaves the ways to every other draft. -/
theorem ways_join (hsucc : d.succ = [e.start]) {σ : Start} (hσ : σ ≠ e.start) :
    ways (pre ++ d.join e :: post) σ = ways (pre ++ d :: e :: post) σ := by
  have hd : d.succ.contains σ = false := by
    rw [hsucc, Bool.eq_false_iff, Ne, List.contains_iff_mem, List.mem_singleton]
    exact hσ
  have hjoin : (d.join e).succ = e.succ := rfl
  simp only [ways, List.countP_append, List.countP_cons, hd, hjoin]
  simp

/-- A merge makes no chain of a pair of which it joins none, and no chain of a pair whose second
draft it makes longer. -/
theorem isChain_join (hsucc : d.succ = [e.start]) (hy : y'.start = y.start)
    (hne : y.start ≠ e.start) : isChain (pre ++ d.join e :: post) x y' =
      isChain (pre ++ d :: e :: post) x y := by
  rw [isChain, isChain, hy, ways_join hsucc hne]

/-! ## The sweep -/

/-- The sweep over the drafts of a routine, which has got as far as `draft`. -/
structure Sweep where
  /-- The drafts before, the last one first. -/
  done : List Draft
  draft : Draft
  rest : List Draft

namespace Sweep

variable {s t u : Sweep}

/-- All drafts, in layout order. -/
def drafts (s : Sweep) : List Draft := s.done.reverse ++ s.draft :: s.rest

/-- The draft of the sweep and the draft `e` that follows it are not joined. -/
def TurnsDown (s : Sweep) (e : Draft) : Prop :=
  s.rest.head? = some e ∧ isChain s.drafts s.draft e = false

/-- What the sweep does next. -/
inductive Step : Sweep → Sweep → Prop where
  | join {done rest : List Draft} {d e : Draft}
      (chain : isChain (done.reverse ++ d :: e :: rest) d e = true) :
      Step ⟨done, d, e :: rest⟩ ⟨done, d.join e, rest⟩
  | pass {done rest : List Draft} {d e : Draft}
      (apart : isChain (done.reverse ++ d :: e :: rest) d e = false) :
      Step ⟨done, d, e :: rest⟩ ⟨d :: done, e, rest⟩

/-- What the sweep does from one point on. -/
abbrev Reaches : Sweep → Sweep → Prop := ReflTransGen Step

/-- The sweep goes on to the last draft, and leaves the drafts that `mergeAfter` returns. -/
theorem exists_done (s : Sweep) :
    ∃ t, Reaches s t ∧ t.rest = [] ∧ t.drafts = mergeAfter s.done s.draft s.rest := by
  obtain ⟨done, d, rest⟩ := s
  fun_induction mergeAfter done d rest with
  | case1 done d => exact ⟨⟨done, d, []⟩, .refl, rfl, rfl⟩
  | case2 done d e rest hchain ih =>
    obtain ⟨t, ht, hend⟩ := ih
    exact ⟨t, .head (.join hchain) ht, hend⟩
  | case3 done d e rest hchain ih =>
    obtain ⟨t, ht, hend⟩ := ih
    exact ⟨t, .head (.pass (Bool.eq_false_iff.2 hchain)) ht, hend⟩

theorem Step.coherent (hstep : Step s t) (h : Coherent s.drafts) : Coherent t.drafts := by
  cases hstep with
  | join chain => exact coherent_join h chain
  | pass =>
    simpa only [drafts, List.reverse_cons, List.append_assoc, List.singleton_append] using h

/-- No pair that the sweep has passed is a chain.  The list goes backward, as `done` does. -/
def Settled (s : Sweep) : Prop :=
  (s.draft :: s.done).IsChain fun y x => isChain s.drafts x y = false

theorem Step.settled (hstep : Step s t) (hc : Coherent s.drafts) (h : Settled s) : Settled t := by
  cases hstep with
  | pass apart =>
    simp only [Settled, drafts, List.reverse_cons, List.append_assoc, List.singleton_append] at h ⊢
    exact List.isChain_cons_cons.2 ⟨apart, h⟩
  | @join done rest d e chain =>
    have hsucc := (isChain_iff.1 chain).1
    have hd : d.start ≠ e.start := start_ne hc (by simp)
    have hdone : ∀ y ∈ done, y.start ≠ e.start := fun y hy => start_ne hc (by simp [hy])
    simp only [Settled, drafts] at h ⊢
    cases done with
    | nil => exact List.isChain_singleton _
    | cons x done =>
      obtain ⟨hdx, hx⟩ := List.isChain_cons_cons.1 h
      refine List.isChain_cons_cons.2 ⟨(isChain_join hsucc rfl hd).trans hdx, ?_⟩
      refine hx.imp_of_mem_imp fun y z hy _ hyz => ?_
      exact (isChain_join hsucc rfl (hdone y hy)).trans hyz

theorem invariant_of_reaches (h : Reaches s t) (hc : Coherent s.drafts) (hs : Settled s) :
    Coherent t.drafts ∧ Settled t := by
  induction h with
  | refl => exact ⟨hc, hs⟩
  | tail _ hstep ih => exact ⟨hstep.coherent ih.1, hstep.settled ih.1 ih.2⟩

/-- The sweep has passed the draft `x`, which it found after `before`, and the draft after it
is called `σ`. -/
def Passed (s : Sweep) (before : List Draft) (x : Draft) (σ : Start) : Prop :=
  ∃ later y, s.draft :: s.done = later ++ y :: x :: before ∧ y.start = σ

section Passed

variable {before : List Draft} {σ : Start}

/-- What was passed is not touched again, except that the draft after it may grow. -/
theorem Step.passed (hstep : Step s t) (h : Passed s before x σ) : Passed t before x σ := by
  obtain ⟨later, y, hlist, hy⟩ := h
  cases hstep with
  | pass => exact ⟨_ :: later, y, by rw [hlist, List.cons_append], hy⟩
  | @join done rest d e chain =>
    cases later with
    | nil =>
      obtain ⟨rfl, hdone⟩ := List.cons.inj hlist
      exact ⟨[], d.join e, by rw [hdone]; rfl, hy⟩
    | cons z later => exact ⟨d.join e :: later, y, by rw [(List.cons.inj hlist).2]; rfl, hy⟩

theorem passed_of_reaches (h : Reaches s t) (hs : Passed s before x σ) :
    Passed t before x σ := by
  induction h with
  | refl => exact hs
  | tail _ hstep ih => exact hstep.passed ih

/-- The draft `x` is followed by a draft called `σ`, and the two are not to be joined. -/
def Apart (s : Sweep) (x : Draft) (σ : Start) : Prop :=
  ∃ before y after, s.drafts = before ++ x :: y :: after ∧ y.start = σ ∧
    isChain s.drafts x y = false

theorem Passed.apart (h : Passed s before x σ) (hs : Settled s) : Apart s x σ := by
  obtain ⟨later, y, hlist, hy⟩ := h
  refine ⟨before.reverse, y, later.reverse ++ s.rest, ?_, hy, ?_⟩
  · have hdrafts : s.drafts = (s.draft :: s.done).reverse ++ s.rest := by simp [drafts]
    rw [hdrafts, hlist]
    simp
  · rw [Settled, hlist] at hs
    exact (List.isChain_cons_cons.1 hs.right_of_append).1

end Passed

/-- A pair that the sweep has turned down stays as it is, whatever is merged later. -/
theorem TurnsDown.apart (h : TurnsDown s e) (hreaches : Reaches s t) (hc : Coherent s.drafts)
    (hs : Settled s) : Apart t s.draft e.start := by
  obtain ⟨hrest, hchain⟩ := h
  rcases hreaches.cases_head with rfl | ⟨u, hstep, hreaches⟩
  · obtain ⟨after, hafter⟩ := List.head?_eq_some_iff.1 hrest
    exact ⟨s.done.reverse, e, after, by rw [drafts, hafter], rfl, hchain⟩
  · have hsettled := (invariant_of_reaches hreaches (hstep.coherent hc) (hstep.settled hc hs)).2
    cases hstep with
    | join chain =>
      cases hrest
      exact absurd chain (Bool.eq_false_iff.1 hchain)
    | @pass done rest d _ =>
      cases hrest
      have hpassed : Passed ⟨d :: done, e, rest⟩ done d e.start := ⟨[], e, rfl, rfl⟩
      exact (passed_of_reaches hreaches hpassed).apart hsettled

/-- At the end of the sweep no two drafts in a row form a chain. -/
theorem Settled.isChain_drafts (h : Settled s) (hrest : s.rest = []) :
    s.drafts.IsChain fun x y => isChain s.drafts x y = false := by
  have hdrafts : s.drafts = (s.draft :: s.done).reverse := by simp [drafts, hrest]
  rw [hdrafts, List.isChain_reverse, ← hdrafts]
  exact h

end Sweep

/-- Where there is no chain a sweep changes nothing. -/
theorem mergeAfter_eq {done rest : List Draft}
    (h : (d :: rest).IsChain fun x y => isChain (done.reverse ++ d :: rest) x y = false) :
    mergeAfter done d rest = done.reverse ++ d :: rest := by
  fun_induction mergeAfter done d rest with
  | case1 => rfl
  | case2 done d e rest hchain _ =>
    exact absurd hchain (Bool.eq_false_iff.1 (List.isChain_cons_cons.1 h).1)
  | case3 done d e rest hchain ih =>
    simp only [List.reverse_cons, List.append_assoc, List.singleton_append] at ih
    exact ih (List.isChain_cons_cons.1 h).2

theorem mergeChains_eq (h : ds.IsChain fun x y => isChain ds x y = false) :
    mergeChains ds = ds := by
  cases ds with
  | nil => rfl
  | cons d ds => exact mergeAfter_eq h

/-! ## The predecessors of a block -/

theorem countP_range (p : Draft → Bool) (ds : List Draft) :
    (List.range ds.length).countP (fun i => ds[i]?.any p) = ds.countP p := by
  induction ds with
  | nil => rfl
  | cons d ds ih =>
    rw [List.length_cons, List.range_succ_eq_map, List.countP_cons, List.countP_map,
      List.countP_cons, ← ih]
    simp [Function.comp_def]

theorem length_predecessors {j : Nat} (h : ds[j]? = some d) :
    (predecessors ds.toArray j).length = ways ds d.start := by
  simp only [predecessors, List.getElem?_toArray, h, ← List.countP_eq_length_filter,
    List.size_toArray]
  exact countP_range _ ds

/-- A draft whose only way leads to the next one names no other. -/
theorem succ_eq_singleton (h : Wired ds) {i j : Nat} (hd : ds[i]? = some d)
    (he : ds[j]? = some e) (hsucc : successors ds.toArray i = [j]) : d.succ = [e.start] := by
  have hmem := List.mem_of_getElem? hd
  have hnodup := (h.ends d hmem).nodup
  refine List.perm_singleton.1 <| (List.perm_ext_iff_of_nodup hnodup (List.nodup_singleton _)).2 ?_
  intro τ
  rw [List.mem_singleton]
  constructor
  · intro hτ
    obtain ⟨f, hf, rfl⟩ := h.there d hmem τ hτ
    obtain ⟨k, hk⟩ := List.mem_iff_getElem?.1 hf
    have hkmem : k ∈ successors ds.toArray i := mem_successors.2 ⟨d, f, hd, hk, hτ⟩
    rw [hsucc, List.mem_singleton] at hkmem
    rw [hkmem, he, Option.some_inj] at hk
    rw [hk]
  · rintro rfl
    have hjmem : j ∈ successors ds.toArray i := hsucc ▸ List.mem_singleton_self j
    obtain ⟨d', e', hd', he', hτ⟩ := mem_successors.1 hjmem
    rw [hd, Option.some_inj] at hd'
    rw [he, Option.some_inj] at he'
    rwa [hd', he']

end Draft

/-! ## The blocks -/

/-- Where no two drafts in a row form a chain there is another way to each block that the block
before it leads to and nowhere else, unless it branches there. -/
theorem Layout.two_le_length_pred {ds : List Draft} (hw : Draft.Wired ds)
    (h : ds.IsChain fun x y => Draft.isChain ds x y = false) {i : Nat}
    (hbranch : ((ofDrafts ds.toArray).block i).code.getLast?.any (·.op = .branch) = false)
    (hsucc : (ofDrafts ds.toArray).succ i = [i + 1]) :
    2 ≤ ((ofDrafts ds.toArray).pred (i + 1)).length := by
  have hnext : i + 1 ∈ (ofDrafts ds.toArray).succ i := hsucc ▸ List.mem_singleton_self _
  obtain ⟨d, e, hd, he, hde⟩ := mem_succ_ofDrafts.1 hnext
  rw [block_ofDrafts hd] at hbranch
  rw [succ, block_ofDrafts hd] at hsucc
  rw [pred, block_ofDrafts he, Draft.length_predecessors he]
  have hway : 0 < Draft.ways ds e.start :=
    List.countP_pos_iff.2 ⟨d, List.mem_of_getElem? hd, List.contains_iff_mem.2 hde⟩
  obtain ⟨hi, rfl⟩ := List.getElem?_eq_some_iff.1 hd
  obtain ⟨hj, rfl⟩ := List.getElem?_eq_some_iff.1 he
  have hapart := List.isChain_iff_getElem.1 h i hj
  rw [← Bool.not_eq_true, Draft.isChain_iff] at hapart
  have hother : Draft.ways ds ds[i + 1].start ≠ 1 := fun hone =>
    hapart ⟨Draft.succ_eq_singleton hw hd he hsucc, hbranch, hone⟩
  omega

namespace Graph

open Draft

variable {o : Options} {code : List Instr} {g : Graph}

/-- Blocks are maximal: a block that leads to the next one and nowhere else, and does not branch
to it, is not the only one that leads there.  One sweep of merges is enough for that.  It runs to
its end, where a second one changes nothing, and a pair that it has once turned down is not to be
joined at any later point. -/
theorem blocks_maximal (h : build o code = .ok g) :
    (∀ i, (g.block i).code.getLast?.any (·.op = .branch) = false → g.layout.succ i = [i + 1] →
      2 ≤ (g.layout.pred (i + 1)).length) ∧
    ∃ s : Sweep, s.done = [] ∧
      s.drafts = elideHops (dropUnreached (cut (Threading.thread code))) ∧
      (∃ t, Sweep.Reaches s t ∧ t.rest = [] ∧ g.layout = .ofDrafts t.drafts.toArray ∧
        mergeChains t.drafts = t.drafts) ∧
      ∀ t u, Sweep.Reaches s t → Sweep.Reaches t u → ∀ e, t.TurnsDown e →
        u.Apart t.draft e.start := by
  have hbuilt := built_of_build h
  have hcoherent := (wired_elideHops hbuilt.labelled).1
  have hwired := wired_ofCode hbuilt.labelled
  have hlayout : g.layout = .ofDrafts (ofCode (Threading.thread code)).toArray :=
    hbuilt.layout.trans (Layout.ofCode_eq hbuilt.labelled)
  have hofCode : ofCode (Threading.thread code) =
      mergeChains (elideHops (dropUnreached (cut (Threading.thread code)))) := rfl
  cases hds : elideHops (dropUnreached (cut (Threading.thread code))) with
  | nil =>
    rw [hds] at hcoherent
    exact absurd hcoherent.entry (by simp)
  | cons d ds =>
    rw [hds] at hcoherent hofCode
    have hstart : Sweep.Settled ⟨[], d, ds⟩ := List.isChain_singleton _
    obtain ⟨t, ht, hrest, hdrafts⟩ := Sweep.exists_done ⟨[], d, ds⟩
    have hnone := (Sweep.invariant_of_reaches ht hcoherent hstart).2.isChain_drafts hrest
    have hmerged : t.drafts = ofCode (Threading.thread code) := hdrafts.trans hofCode.symm
    refine ⟨fun i hbranch hsucc => ?_, ⟨[], d, ds⟩, rfl, rfl,
      ⟨t, ht, hrest, hmerged ▸ hlayout, mergeChains_eq hnone⟩, fun u v hu hv e hdown => ?_⟩
    · rw [hmerged] at hnone
      rw [block, hlayout] at hbranch
      rw [hlayout] at hsucc ⊢
      exact Layout.two_le_length_pred hwired hnone hbranch hsucc
    · obtain ⟨hc, hs⟩ := Sweep.invariant_of_reaches hu hcoherent hstart
      exact hdown.apart hv hc hs

/-- A hop to the target that follows it disappears, and the loop after it is a block of its own,
since control also comes back to it. -/
theorem blocks_maximal_loop : ∃ g, build (Defaults.options {}) [.hop 1, .target 1, .target 0,
      .number 2, .branch 0 false] = .ok g ∧
    g.layout.succ 0 = [1] ∧ 2 ≤ (g.layout.pred 1).length := by
  have hok : ((build (Defaults.options {}) [.hop 1, .target 1, .target 0, .number 2,
      .branch 0 false]).toOption.any fun g => g.layout.succ 0 = [1] &&
        !(g.block 0).code.getLast?.any (·.op = .branch)) = true := by cbv
  cases h : build (Defaults.options {}) [.hop 1, .target 1, .target 0, .number 2,
      .branch 0 false] with
  | ok g =>
    rw [h] at hok
    simp only [Except.toOption, Option.any_some, Bool.and_eq_true, decide_eq_true_eq,
      Bool.not_eq_true'] at hok
    exact ⟨g, rfl, hok.1, (blocks_maximal h).1 0 hok.2 hok.1⟩
  | error e =>
    rw [h] at hok
    cases hok

end Graph

end StackFlow
