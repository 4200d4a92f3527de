import StackFlow.Proofs.Rewiring
import StackFlow.Proofs.Search
import StackFlow.Proofs.Splitting

/-!
# Cleaning up drafts keeps the traces

Dropping what is never reached, dropping hops to the next draft and merging chains are
each a rewiring of the chart of the drafts.

* `Keeps ds ds'` is what every step does: the drafts stay coherent, show the same
  traces, stay reached if they were, and have no instruction that was not there.
* `keeps_dropUnreached`, `keeps_elideHops` and `keeps_mergeChains` say it of the steps.
  The last two replace two drafts in a row by one again and again, so what they have in
  common is said of one replacement (`section Contraction`).
* `keeps_ofCode` and `reached_ofCode` put the steps together.
-/

namespace StackFlow.Draft

open Flowchart Relation

/-- Every draft can be reached from the entry. -/
def Reached (ds : List Draft) : Prop :=
  ∀ d ∈ ds, ReflTransGen (ofDrafts ds).next .entry d.start

/-- The drafts `ds'` do what the drafts `ds` do. -/
structure Keeps (ds ds' : List Draft) : Prop where
  coherent : Coherent ds'
  traces : ∀ t s, (ofDrafts ds').HasTrace t s ↔ (ofDrafts ds).HasTrace t s
  reached : Reached ds → Reached ds'
  instrs : ∀ d ∈ ds', ∀ p ∈ d.code, ∃ e ∈ ds, p ∈ e.code

theorem Keeps.refl {ds : List Draft} (h : Coherent ds) : Keeps ds ds :=
  ⟨h, fun _ _ => Iff.rfl, id, fun d hd _ hp => ⟨d, hd, hp⟩⟩

theorem Keeps.trans {ds ds' ds'' : List Draft} (h : Keeps ds ds') (h' : Keeps ds' ds'') :
    Keeps ds ds'' where
  coherent := h'.coherent
  traces t s := (h'.traces t s).trans (h.traces t s)
  reached hreached := h'.reached (h.reached hreached)
  instrs d hd p hp := by
    obtain ⟨e, he, hpe⟩ := h'.instrs d hd p hp
    exact h.instrs e he p hpe

/-! ## Dropping what is never reached -/

section DropUnreached

variable {ds : List Draft}

theorem mem_successors {i j : Nat} : j ∈ successors ds.toArray i ↔
    ∃ d e, ds[i]? = some d ∧ ds[j]? = some e ∧ e.start ∈ d.succ := by
  unfold successors
  split
  · rename_i hnone
    simp_all
  · rename_i d hd
    simp only [List.getElem?_toArray] at hd
    simp only [List.size_toArray, List.mem_filter, List.mem_range, List.getElem?_toArray,
      Option.any_eq_true, List.contains_iff_mem]
    constructor
    · rintro ⟨_, e, he, hmem⟩
      exact ⟨d, e, hd, he, hmem⟩
    · rintro ⟨d', e, hd', he, hmem⟩
      rw [hd, Option.some_inj] at hd'
      subst hd'
      exact ⟨(List.getElem?_eq_some_iff.1 he).1, e, he, hmem⟩

/-- The positions of the drafts that are kept. -/
def reachedAt (ds : List Draft) : List Nat :=
  Search.visited (successors ds.toArray) (List.range ds.length) [0]

theorem dropUnreached_eq (ds : List Draft) :
    dropUnreached ds = (reachedAt ds).filterMap (ds[·]?) := by
  simp [dropUnreached, reachedAt]

theorem mem_dropUnreached {d : Draft} :
    d ∈ dropUnreached ds ↔ ∃ i ∈ reachedAt ds, ds[i]? = some d := by
  rw [dropUnreached_eq, List.mem_filterMap]

theorem filterMap_range (ds : List Draft) :
    (List.range ds.length).filterMap (ds[·]?) = ds := by
  induction ds with
  | nil => rfl
  | cons d ds ih =>
    rw [List.length_cons, List.range_succ_eq_map, List.filterMap_cons, List.filterMap_map]
    exact congrArg (d :: ·) ih

theorem sublist_dropUnreached (ds : List Draft) : (dropUnreached ds).Sublist ds := by
  rw [dropUnreached_eq]
  conv_rhs => rw [← filterMap_range ds]
  exact List.Sublist.filterMap _ List.filter_sublist

theorem zero_mem_reachedAt (h : 0 < ds.length) : 0 ∈ reachedAt ds := by
  rw [reachedAt, Search.mem_visited List.nodup_range]
  exact ⟨0, List.mem_singleton_self 0, List.mem_range.2 h, .refl⟩

/-- What a kept draft leads to is kept. -/
theorem mem_dropUnreached_of_succ {d e : Draft} (hd : d ∈ dropUnreached ds) (he : e ∈ ds)
    (hsucc : e.start ∈ d.succ) : e ∈ dropUnreached ds := by
  obtain ⟨i, hi, hdi⟩ := mem_dropUnreached.1 hd
  obtain ⟨j, hj⟩ := List.mem_iff_getElem?.1 he
  refine mem_dropUnreached.2 ⟨j, ?_, hj⟩
  rw [reachedAt, Search.mem_visited List.nodup_range] at hi ⊢
  exact hi.tail (mem_successors.2 ⟨d, e, hdi, hj, hsucc⟩)
    (List.mem_range.2 (List.getElem?_eq_some_iff.1 hj).1)

theorem coherent_dropUnreached (h : Coherent ds) : Coherent (dropUnreached ds) where
  nodup := h.nodup.sublist ((sublist_dropUnreached ds).map _)
  entry := by
    obtain ⟨d, rest, rfl⟩ : ∃ d rest, ds = d :: rest := by
      cases ds with
      | nil => exact absurd h.entry (by simp)
      | cons d rest => exact ⟨d, rest, rfl⟩
    have hzero : 0 ∈ reachedAt (d :: rest) := zero_mem_reachedAt (by simp)
    rw [dropUnreached_eq]
    simp only [reachedAt, Search.visited, List.length_cons, List.range_succ_eq_map] at hzero ⊢
    rw [List.filter_cons, if_pos (List.mem_filter.1 hzero).2]
    simpa using h.entry
  exit d hd := h.exit d ((sublist_dropUnreached ds).subset hd)

theorem restricts_dropUnreached (h : Coherent ds) :
    Restricts (ofDrafts (dropUnreached ds)) (ofDrafts ds)
      fun σ => ∃ d ∈ dropUnreached ds, d.start = σ := by
  have h' := coherent_dropUnreached h
  have hsub : ∀ d ∈ dropUnreached ds, d ∈ ds := fun d hd => (sublist_dropUnreached ds).subset hd
  refine ⟨rfl, ?_, ?_, ?_, ?_, ?_⟩
  · have hentry := h'.entry
    rw [Option.map_eq_some_iff] at hentry
    obtain ⟨d, hd, hstart⟩ := hentry
    exact ⟨d, List.mem_of_head? hd, hstart⟩
  · rintro _ ⟨d, hd, rfl⟩
    rw [h'.code_eq hd, h.code_eq (hsub d hd)]
  · rintro _ τ ⟨d, hd, rfl⟩
    rw [h'.next_iff hd, h.next_iff (hsub d hd)]
    refine and_congr_right fun hτ => ⟨fun ⟨e, he, hstart⟩ => ⟨e, hsub e he, hstart⟩, ?_⟩
    rintro ⟨e, he, rfl⟩
    exact ⟨e, mem_dropUnreached_of_succ hd he hτ, rfl⟩
  · rintro _ ⟨d, hd, rfl⟩
    rw [h'.exit_iff hd, h.exit_iff (hsub d hd)]
  · rintro _ τ ⟨d, hd, rfl⟩ way
    obtain ⟨hτ, e, he, rfl⟩ := (h.next_iff (hsub d hd)).1 way
    exact ⟨e, mem_dropUnreached_of_succ hd he hτ, rfl⟩

theorem reached_dropUnreached (h : Coherent ds) : Reached (dropUnreached ds) := by
  intro d hd
  obtain ⟨i, hi, hdi⟩ := mem_dropUnreached.1 hd
  rw [reachedAt, Search.mem_visited List.nodup_range] at hi
  obtain ⟨j, hj, hmem, hway⟩ := hi
  have hleads : Search.Leads (successors ds.toArray) (List.range ds.length) [0] j :=
    ⟨j, hj, hmem, .refl⟩
  rw [List.mem_singleton] at hj
  subst hj
  -- along the way, every position holds a draft that is kept and reached
  suffices hall : ∀ i, ReflTransGen _ 0 i → ∀ d, ds[i]? = some d → d ∈ dropUnreached ds ∧
      ReflTransGen (ofDrafts (dropUnreached ds)).next .entry d.start from (hall i hway d hdi).2
  intro i hway
  induction hway with
  | refl =>
    intro d hd
    have hkept : d ∈ dropUnreached ds :=
      mem_dropUnreached.2 ⟨0, (Search.mem_visited List.nodup_range).2 hleads, hd⟩
    have hentry := h.entry
    rw [List.head?_eq_getElem?, hd, Option.map_some, Option.some_inj] at hentry
    rw [hentry]
    exact ⟨hkept, .refl⟩
  | tail _ hstep ih =>
    intro e he
    obtain ⟨d, e', hd, he', hsucc⟩ := mem_successors.1 hstep.1
    rw [he, Option.some_inj] at he'
    subst he'
    obtain ⟨hkept, hreached⟩ := ih d hd
    have hekept := mem_dropUnreached_of_succ hkept (List.mem_of_getElem? he) hsucc
    exact ⟨hekept, hreached.tail ⟨d, hkept, rfl, hsucc, e, hekept, rfl⟩⟩

theorem keeps_dropUnreached (h : Coherent ds) : Keeps ds (dropUnreached ds) where
  coherent := coherent_dropUnreached h
  traces _ _ := (restricts_dropUnreached h).hasTrace
  reached _ := reached_dropUnreached h
  instrs d hd _ hp := ⟨d, (sublist_dropUnreached ds).subset hd, hp⟩

end DropUnreached

/-! ## Replacing two drafts in a row by one -/

section Contraction

variable {pre post : List Draft} {x y x' : Draft}

/-- No other draft has the name of the draft that goes. -/
theorem start_ne (h : Coherent (pre ++ x :: y :: post)) {d : Draft}
    (hd : d ∈ pre ++ x :: post) : d.start ≠ y.start := by
  have hnodup := h.nodup
  rw [List.append_cons, List.map_append, List.map_cons, List.nodup_middle,
    ← List.map_append, List.nodup_cons] at hnodup
  refine fun hstart => hnodup.1 (hstart ▸ List.mem_map_of_mem ?_)
  rwa [List.append_assoc, List.singleton_append]

/-- The drafts that are left have the names they had. -/
theorem exists_start_iff (h : Coherent (pre ++ x :: y :: post)) (hx : x'.start = x.start)
    {σ : Start} : (∃ e ∈ pre ++ x' :: post, e.start = σ) ↔
      σ ≠ y.start ∧ ∃ e ∈ pre ++ x :: y :: post, e.start = σ := by
  constructor
  · rintro ⟨e, he, rfl⟩
    rcases List.mem_append.1 he with he | he
    · exact ⟨start_ne h (List.mem_append_left _ he), e, List.mem_append_left _ he, rfl⟩
    · rcases List.mem_cons.1 he with rfl | he
      · rw [hx]
        exact ⟨start_ne h (by simp), x, by simp, rfl⟩
      · exact ⟨start_ne h (by simp [he]), e, by simp [he], rfl⟩
  · rintro ⟨hne, e, he, rfl⟩
    simp only [List.mem_append, List.mem_cons] at he
    rcases he with he | rfl | rfl | he
    · exact ⟨e, by simp [he], rfl⟩
    · exact ⟨x', by simp, hx⟩
    · exact absurd rfl hne
    · exact ⟨e, by simp [he], rfl⟩

theorem coherent_contract (h : Coherent (pre ++ x :: y :: post)) (hx : x'.start = x.start)
    (hexit : x'.exit = true → x'.succ = []) : Coherent (pre ++ x' :: post) where
  nodup := by
    have hnodup := h.nodup
    have hstarts : (pre ++ x' :: post).map (·.start) = (pre ++ x :: post).map (·.start) := by
      simp [hx]
    rw [hstarts]
    refine hnodup.sublist (List.Sublist.map _ ?_)
    exact (List.Sublist.refl pre).append ((List.sublist_cons_self y post).cons_cons x)
  entry := by
    have hentry := h.entry
    cases pre with
    | nil => simpa [hx] using hentry
    | cons d pre => simpa using hentry
  exit d hd := by
    rcases List.mem_append.1 hd with hd | hd
    · exact h.exit d (by simp [hd])
    · rcases List.mem_cons.1 hd with rfl | hd
      · exact hexit
      · exact h.exit d (by simp [hd])

theorem entry_ne_start (h : Coherent (pre ++ x :: y :: post)) : Start.entry ≠ y.start := by
  have hentry := h.entry
  cases pre with
  | nil =>
    rw [List.nil_append, List.head?_cons, Option.map_some, Option.some_inj] at hentry
    exact hentry ▸ start_ne h (by simp)
  | cons d pre =>
    rw [List.cons_append, List.head?_cons, Option.map_some, Option.some_inj] at hentry
    exact hentry ▸ start_ne h (by simp)

/-- The drafts before and after are as they were. -/
theorem mem_contract_iff (hx : x'.start = x.start) {d : Draft} (hdx : d.start ≠ x.start)
    (hdy : d.start ≠ y.start) : d ∈ pre ++ x' :: post ↔ d ∈ pre ++ x :: y :: post := by
  have hne : d ≠ x' ∧ d ≠ x ∧ d ≠ y := by
    refine ⟨?_, ?_, ?_⟩
    · rintro rfl
      exact hdx hx
    · rintro rfl
      exact hdx rfl
    · rintro rfl
      exact hdy rfl
  simp [hne]

section Chart

variable {σ τ : Start}

theorem code_contract (hx : x'.start = x.start) (hσx : σ ≠ x.start) (hσy : σ ≠ y.start) :
    (ofDrafts (pre ++ x' :: post)).code σ = (ofDrafts (pre ++ x :: y :: post)).code σ := by
  simp [ofDrafts, List.find?_append, List.find?_cons, hx, hσx.symm, hσy.symm]

theorem exit_contract (hx : x'.start = x.start) (hσx : σ ≠ x.start) (hσy : σ ≠ y.start) :
    (ofDrafts (pre ++ x' :: post)).exit σ ↔ (ofDrafts (pre ++ x :: y :: post)).exit σ := by
  constructor
  · rintro ⟨d, hd, rfl, hexit⟩
    exact ⟨d, (mem_contract_iff hx hσx hσy).1 hd, rfl, hexit⟩
  · rintro ⟨d, hd, rfl, hexit⟩
    exact ⟨d, (mem_contract_iff hx hσx hσy).2 hd, rfl, hexit⟩

theorem next_contract (h : Coherent (pre ++ x :: y :: post)) (hx : x'.start = x.start)
    (hσx : σ ≠ x.start) (hσy : σ ≠ y.start) :
    (ofDrafts (pre ++ x' :: post)).next σ τ ↔
      τ ≠ y.start ∧ (ofDrafts (pre ++ x :: y :: post)).next σ τ := by
  constructor
  · rintro ⟨d, hd, rfl, hτ, hthere⟩
    obtain ⟨hne, hthere⟩ := (exists_start_iff h hx).1 hthere
    exact ⟨hne, d, (mem_contract_iff hx hσx hσy).1 hd, rfl, hτ, hthere⟩
  · rintro ⟨hne, d, hd, rfl, hτ, hthere⟩
    exact ⟨d, (mem_contract_iff hx hσx hσy).2 hd, rfl, hτ,
      (exists_start_iff h hx).2 ⟨hne, hthere⟩⟩

end Chart

/-- The only draft that leads to `σ`. -/
theorem eq_of_ways {ds : List Draft} {σ : Start} {d e : Draft} (hways : ways ds σ = 1)
    (hd : d ∈ ds) (hdσ : σ ∈ d.succ) (he : e ∈ ds) (heσ : σ ∈ e.succ) : e = d := by
  rw [ways, List.countP_eq_length_filter, List.length_eq_one_iff] at hways
  obtain ⟨z, hz⟩ := hways
  have hmem : ∀ f ∈ ds, σ ∈ f.succ → f = z := by
    intro f hf hfσ
    have hfilter : f ∈ ds.filter (·.succ.contains σ) :=
      List.mem_filter.2 ⟨hf, List.contains_iff_mem.2 hfσ⟩
    rwa [hz, List.mem_singleton] at hfilter
  rw [hmem d hd hdσ, hmem e he heσ]

end Contraction

/-! ## Hops to the next draft -/

section ElideHops

variable {pre post : List Draft} {prev d next : Draft}

/-- A draft that only hops shows nothing. -/
theorem silent_of_isHopOnly (h : isHopOnly d = true) : shownAll d.code = [] := by
  unfold isHopOnly at h
  split at h
  · cases h
  · rename_i p rest hcode
    rw [Bool.and_eq_true, decide_eq_true_eq, List.all_eq_true] at h
    refine List.flatMap_eq_nil_iff.2 fun q hq => ?_
    rw [← List.mem_reverse, hcode] at hq
    rcases List.mem_cons.1 hq with rfl | hq
    · simp [Instr.shown, h.1]
    · simp [Instr.shown, h.2 q hq]

theorem mem_succ_reroute {old new τ : Start} (hτ : τ ≠ old) :
    τ ∈ (prev.reroute old new).succ ↔ τ ∈ prev.succ ∨ τ = new := by
  have herase : τ ∈ prev.succ.erase old ↔ τ ∈ prev.succ := List.mem_erase_of_ne hτ
  simp only [reroute]
  split
  · rename_i hnew
    rw [herase]
    refine ⟨.inl, fun h => h.elim id ?_⟩
    rintro rfl
    exact herase.1 (List.contains_iff_mem.1 hnew)
  · rw [List.mem_append, herase, List.mem_singleton]

/-- What it takes for `d` to be a detour between `prev` and `next`. -/
theorem isDetour_iff {ds : List Draft} : isDetour ds prev d next = true ↔
    isHopOnly d = true ∧ ways ds d.start = 1 ∧ d.start ∈ prev.succ ∧
      prev.fall = some d.start ∧ d.succ = [next.start] := by
  simp [isDetour, and_assoc]

theorem coherent_reroute (h : Coherent (pre ++ prev :: d :: next :: post))
    (hdetour : isDetour (pre ++ prev :: d :: next :: post) prev d next = true) :
    Coherent (pre ++ prev.reroute d.start next.start :: next :: post) := by
  obtain ⟨-, -, hprev, -, -⟩ := isDetour_iff.1 hdetour
  refine coherent_contract h rfl fun hexit => ?_
  rw [h.exit prev (by simp) hexit] at hprev
  cases hprev

theorem bypasses_reroute (h : Coherent (pre ++ prev :: d :: next :: post))
    (hdetour : isDetour (pre ++ prev :: d :: next :: post) prev d next = true) :
    Bypasses (ofDrafts (pre ++ prev.reroute d.start next.start :: next :: post))
      (ofDrafts (pre ++ prev :: d :: next :: post)) prev.start d.start next.start := by
  obtain ⟨hhop, hways, hprev, -, hsucc⟩ := isDetour_iff.1 hdetour
  have hx : (prev.reroute d.start next.start).start = prev.start := rfl
  have hmemp : prev ∈ pre ++ prev :: d :: next :: post := by simp
  have hmemd : d ∈ pre ++ prev :: d :: next :: post := by simp
  have hmemn : next ∈ pre ++ prev :: d :: next :: post := by simp
  have h' := coherent_reroute h hdetour
  refine ⟨rfl, entry_ne_start h, ?_, ?_, ?_, ?_, ?_, ?_, ?_⟩
  · rw [h.code_eq hmemd]
    exact silent_of_isHopOnly hhop
  · rw [h.exit_iff hmemd]
    intro hexit
    rw [h.exit d hmemd hexit] at hsucc
    cases hsucc
  · intro σ
    constructor
    · rintro ⟨e, he, rfl, hτ, -⟩
      rw [eq_of_ways hways hmemp hprev he hτ]
    · rintro rfl
      exact ⟨prev, hmemp, rfl, hprev, d, hmemd, rfl⟩
  · intro σ
    rw [h.next_iff hmemd, hsucc, List.mem_singleton]
    refine ⟨And.left, fun hσ => ⟨hσ, next, hmemn, hσ.symm⟩⟩
  · intro σ hσ
    by_cases hσp : σ = prev.start
    · rw [hσp, h.code_eq hmemp]
      exact h'.code_eq (d := prev.reroute d.start next.start) (by simp)
    · exact code_contract hx hσp hσ
  · intro σ hσ
    by_cases hσp : σ = prev.start
    · rw [hσp, h.exit_iff hmemp]
      exact h'.exit_iff (d := prev.reroute d.start next.start) (by simp)
    · exact exit_contract hx hσp hσ
  · intro σ τ hσ
    by_cases hσp : σ = prev.start
    · have hiff := h'.next_iff (d := prev.reroute d.start next.start) (by simp) (τ := τ)
      rw [hσp, h.next_iff hmemp]
      rw [hx, exists_start_iff h hx] at hiff
      rw [hiff]
      constructor
      · rintro ⟨hτ, hne, hthere⟩
        exact ⟨hne, ((mem_succ_reroute hne).1 hτ).imp (⟨·, hthere⟩) (⟨rfl, ·⟩)⟩
      · rintro ⟨hne, ⟨hτ, hthere⟩ | ⟨-, rfl⟩⟩
        · exact ⟨(mem_succ_reroute hne).2 (.inl hτ), hne, hthere⟩
        · exact ⟨(mem_succ_reroute hne).2 (.inr rfl), hne, next, hmemn, rfl⟩
    · rw [next_contract h hx hσp hσ]
      simp [hσp]

theorem keeps_reroute (h : Coherent (pre ++ prev :: d :: next :: post))
    (hdetour : isDetour (pre ++ prev :: d :: next :: post) prev d next = true) :
    Keeps (pre ++ prev :: d :: next :: post)
      (pre ++ prev.reroute d.start next.start :: next :: post) := by
  have hnd : next.start ≠ d.start := start_ne h (by simp)
  have hbypass := bypasses_reroute h hdetour
  refine ⟨coherent_reroute h hdetour, fun _ _ => hbypass.hasTrace hnd, fun hreached e he => ?_,
    fun e he p hp => ?_⟩
  · have hx : (prev.reroute d.start next.start).start = prev.start := rfl
    obtain ⟨hne, e', he', hstart⟩ := (exists_start_iff h hx).1 ⟨e, he, rfl⟩
    exact (hbypass.reachable hnd (hstart ▸ hreached e' he')).1 hne
  · rcases List.mem_append.1 he with he | he
    · exact ⟨e, by simp [he], hp⟩
    · rcases List.mem_cons.1 he with rfl | he
      · exact ⟨prev, by simp, hp⟩
      · exact ⟨e, List.mem_append_right _ (.tail _ (.tail _ he)), hp⟩

theorem keeps_elideAfter {rest : List Draft} (done : List Draft)
    (h : Coherent (done.reverse ++ prev :: rest)) :
    Keeps (done.reverse ++ prev :: rest) (elideAfter done prev rest) := by
  fun_induction elideAfter done prev rest with
  | case1 done prev d next rest hdetour ih =>
    have hkeeps := keeps_reroute h hdetour
    exact hkeeps.trans (ih hkeeps.coherent)
  | case2 done prev d next rest hdetour ih =>
    rw [List.reverse_cons, List.append_assoc, List.singleton_append] at ih
    exact ih h
  | case3 => exact .refl h

theorem keeps_elideHops {ds : List Draft} (h : Coherent ds) : Keeps ds (elideHops ds) := by
  cases ds with
  | nil => exact .refl h
  | cons d ds => exact keeps_elideAfter [] h

end ElideHops

/-! ## Merging -/

section MergeChains

variable {pre post : List Draft} {d e : Draft}

theorem shownAll_joinCode (xs ys : List Instr) :
    shownAll (joinCode xs ys) = shownAll (xs ++ ys) := by
  unfold joinCode
  split
  · rename_i p q rest hlast
    split
    · rename_i hhop
      simp only [Bool.and_eq_true, decide_eq_true_eq] at hhop
      obtain ⟨init, rfl⟩ := List.getLast?_eq_some_iff.1 hlast
      simp [Flowchart.shownAll_append, Instr.shown, hhop.1.1, hhop.1.2]
    · rfl
  · rfl

theorem mem_joinCode {xs ys : List Instr} {p : Instr} (h : p ∈ joinCode xs ys) :
    p ∈ xs ∨ p ∈ ys := by
  unfold joinCode at h
  split at h
  · split at h
    · exact (List.mem_append.1 h).imp (List.dropLast_subset _ ·) (List.mem_cons_of_mem _)
    · exact List.mem_append.1 h
  · exact List.mem_append.1 h

theorem isChain_iff {ds : List Draft} : isChain ds d e = true ↔
    d.succ = [e.start] ∧ d.code.getLast?.any (·.op = .branch) = false ∧
      ways ds e.start = 1 := by
  simp [isChain, and_assoc]

/-- A draft that goes on with the next one does not fall off the end. -/
theorem exit_of_isChain (h : Coherent (pre ++ d :: e :: post))
    (hchain : isChain (pre ++ d :: e :: post) d e = true) : d.exit = false := by
  refine Bool.eq_false_iff.2 fun hexit => ?_
  have hsucc := (isChain_iff.1 hchain).1
  rw [h.exit d (by simp) hexit] at hsucc
  cases hsucc

theorem coherent_join (h : Coherent (pre ++ d :: e :: post))
    (hchain : isChain (pre ++ d :: e :: post) d e = true) :
    Coherent (pre ++ d.join e :: post) := by
  refine coherent_contract h rfl fun hexit => h.exit e (by simp) ?_
  simpa [join, exit_of_isChain h hchain] using hexit

theorem joins_join (h : Coherent (pre ++ d :: e :: post))
    (hchain : isChain (pre ++ d :: e :: post) d e = true) :
    Joins (ofDrafts (pre ++ d.join e :: post)) (ofDrafts (pre ++ d :: e :: post))
      d.start e.start := by
  obtain ⟨hsucc, -, hways⟩ := isChain_iff.1 hchain
  have hx : (d.join e).start = d.start := rfl
  have hmemd : d ∈ pre ++ d :: e :: post := by simp
  have hmeme : e ∈ pre ++ d :: e :: post := by simp
  have hmemj : d.join e ∈ pre ++ d.join e :: post := by simp
  have hde : d.start ≠ e.start := start_ne h (by simp)
  have hnoexit := exit_of_isChain h hchain
  have h' := coherent_join h hchain
  have hinto : ∀ {f}, f ∈ pre ++ d :: e :: post → e.start ∈ f.succ → f = d := by
    intro f hf hfe
    exact eq_of_ways hways hmemd (by rw [hsucc]; simp) hf hfe
  refine ⟨rfl, entry_ne_start h, hde, ?_, ?_, ?_, ?_, ?_, ?_, ?_, ?_, ?_⟩
  · rw [h.exit_iff hmemd, hnoexit]
    exact Bool.false_ne_true
  · intro σ
    constructor
    · rintro ⟨f, hf, rfl, hτ, -⟩
      rw [hinto hf hτ]
    · rintro rfl
      exact ⟨d, hmemd, rfl, by rw [hsucc]; simp, e, hmeme, rfl⟩
  · intro σ
    rw [h.next_iff hmemd, hsucc, List.mem_singleton]
    exact ⟨And.left, fun hσ => ⟨hσ, e, hmeme, hσ.symm⟩⟩
  · have hcode := h'.code_eq hmemj
    rw [hx] at hcode
    rw [hcode, h.code_eq hmemd, h.code_eq hmeme]
    exact shownAll_joinCode _ _
  · exact fun hσd hσe => code_contract hx hσd hσe
  · have hexit := h'.exit_iff hmemj
    rw [hx] at hexit
    rw [hexit, h.exit_iff hmeme]
    simp [join, hnoexit]
  · exact fun hσd hσe => exit_contract hx hσd hσe
  · intro σ
    have hnext := h'.next_iff hmemj (τ := σ)
    rw [hx] at hnext
    rw [hnext, h.next_iff hmeme, exists_start_iff h hx]
    refine and_congr_right fun hσ => ⟨And.right, fun hthere => ⟨?_, hthere⟩⟩
    rintro rfl
    exact hde (congrArg Draft.start (hinto hmeme hσ)).symm
  · intro σ τ hσd hσe
    rw [next_contract h hx hσd hσe]
    refine ⟨And.right, fun way => ⟨?_, way⟩⟩
    rintro rfl
    obtain ⟨f, hf, hstart, hτ, -⟩ := way
    rw [hinto hf hτ] at hstart
    exact hσd hstart.symm

theorem keeps_join (h : Coherent (pre ++ d :: e :: post))
    (hchain : isChain (pre ++ d :: e :: post) d e = true) :
    Keeps (pre ++ d :: e :: post) (pre ++ d.join e :: post) := by
  have hjoins := joins_join h hchain
  refine ⟨coherent_join h hchain, fun _ _ => hjoins.hasTrace, fun hreached f hf => ?_,
    fun f hf p hp => ?_⟩
  · have hx : (d.join e).start = d.start := rfl
    obtain ⟨hne, f', hf', hstart⟩ := (exists_start_iff h hx).1 ⟨f, hf, rfl⟩
    exact (hjoins.reachable (hstart ▸ hreached f' hf')).1 hne
  · rcases List.mem_append.1 hf with hf | hf
    · exact ⟨f, by simp [hf], hp⟩
    · rcases List.mem_cons.1 hf with rfl | hf
      · rcases mem_joinCode hp with hp | hp
        · exact ⟨d, by simp, hp⟩
        · exact ⟨e, by simp, hp⟩
      · exact ⟨f, by simp [hf], hp⟩

theorem keeps_mergeAfter {rest : List Draft} (done : List Draft)
    (h : Coherent (done.reverse ++ d :: rest)) :
    Keeps (done.reverse ++ d :: rest) (mergeAfter done d rest) := by
  fun_induction mergeAfter done d rest with
  | case1 => exact .refl h
  | case2 done d e rest hchain ih =>
    have hkeeps := keeps_join h hchain
    exact hkeeps.trans (ih hkeeps.coherent)
  | case3 done d e rest hchain ih =>
    rw [List.reverse_cons, List.append_assoc, List.singleton_append] at ih
    exact ih h

theorem keeps_mergeChains {ds : List Draft} (h : Coherent ds) : Keeps ds (mergeChains ds) := by
  cases ds with
  | nil => exact .refl h
  | cons d ds => exact keeps_mergeAfter [] h

end MergeChains

/-! ## All steps -/

section OfCode

variable {code : List Instr}

theorem keeps_ofCode (h : Labelled code) : Keeps (cut code) (ofCode code) := by
  have hdrop := keeps_dropUnreached (coherent_cut h)
  have helide := keeps_elideHops hdrop.coherent
  exact hdrop.trans (helide.trans (keeps_mergeChains helide.coherent))

theorem reached_ofCode (h : Labelled code) : Reached (ofCode code) := by
  have hdrop := keeps_dropUnreached (coherent_cut h)
  have helide := keeps_elideHops hdrop.coherent
  have hmerge := keeps_mergeChains helide.coherent
  exact hmerge.reached (helide.reached (reached_dropUnreached (coherent_cut h)))

end OfCode

end StackFlow.Draft
