import StackFlow.Proofs.Initialization
import StackFlow.Proofs.Invariance

/-!
# What the passes leave to be done

Each pass exchanges all that it can find out of the graph it starts from.

* `elided_of_elideBarriers`: the barrier pass removes every barrier that is not needed.
* `fused_of_fuseMarkers`: the marker pass exchanges every allocation that always reaches
  the marker of its class.  A class has one allocation (`AllocatesAt.unique`).
* `covered_of_coverAllocations`: the coverage pass exchanges every allocation that stores
  cover.  `Tracked` is what it keeps in mind of such an allocation up to the last store.
-/

namespace StackFlow

open Forest Elision

/-! ## Single exchanges -/

namespace Graph

variable {g : Graph} {b i b' i' : Nat} {p old : Instr}

theorem getElem?_setInstr_self (hold : (g.block b).code[i]? = some old) :
    ((g.setInstr b i p).block b).code[i]? = some p := by
  rw [block_setInstr, if_pos rfl]
  exact List.getElem?_set_self (List.getElem?_eq_some_iff.1 hold).1

theorem getElem?_setInstr_ne (h : b ≠ b' ∨ i ≠ i') :
    ((g.setInstr b i p).block b').code[i']? = (g.block b').code[i']? := by
  rw [block_setInstr]
  split
  · rename_i hb
    exact List.getElem?_set_ne (h.resolve_left (not_not.2 hb))
  · rfl

theorem block_setInstr_ne (h : b ≠ b') : (g.setInstr b i p).block b' = g.block b' := by
  rw [block_setInstr, if_neg h]

end Graph

/-! ## Barriers -/

section Barriers

variable {o : Options} {code : List Instr} {g g' : Graph} {b i : Nat} {r : Root}
  {s s' : Progress} {reason : Reason}

theorem verdict_of_exchanges {c : Context} {code code' : List Instr} (h : Exchanges code code')
    (hroot : code'[r.tree.index]? = code[r.tree.index]?) (fresh : TempSet) :
    c.verdict code' fresh r = c.verdict code fresh r := by
  unfold Context.verdict
  rw [hroot, h.isNull_eq, h.loadedClass?_eq]

/-- What the pass does with a barrier that is not needed. -/
theorem Elides.verdict (helides : Elides g reason b r.tree.index) (hroot : RootAt g b r) :
    g.context.verdict (g.block b).code
      (Context.beforeRoot (g.freshAt b r.tree.index) r) r = .elide reason := by
  obtain ⟨r', p, hroot', hindex, hp, hchecked, hwhy⟩ := helides
  obtain rfl := hroot'.unique hroot hindex
  have hchecked' : g.context.variants.isCheckedStore p = true := hchecked
  unfold Context.verdict
  rw [hp]
  simp only [hchecked', Bool.not_true, Bool.false_eq_true, if_false]
  rcases hwhy with ⟨rfl, hnull⟩ | ⟨rfl, hnull, k, hk, hquiet, hmem⟩
  · rw [if_pos hnull]
  · have hfresh : k ∈ Context.beforeRoot (g.freshAt b r'.tree.index) r' :=
      Context.mem_beforeRoot.2 ⟨hquiet, hmem⟩
    simp only [hnull, Bool.false_eq_true, if_false, hk, TempSet.contains_iff.2 hfresh, if_true]

/-- What is fresh before a root of the forest. -/
theorem freshAt_of_forest {pre post : List Root}
    (h : (g.context.forest b).roots = pre ++ r :: post) :
    RootAt g b r ∧ pre.foldl (g.context.afterRoot (g.block b).code) (g.freshInto b) =
      g.freshAt b r.tree.index ∧ ∀ r' ∈ pre, r'.tree.index < r.tree.index := by
  obtain ⟨hroot, hpre⟩ := rootAt_of_forest h
  refine ⟨hroot, by rw [Graph.freshAt, hpre], fun r' hr' => ?_⟩
  rw [Graph.forest_context, ofCode_eq] at h
  obtain ⟨_, hlt, _⟩ := roots_split (Nat.le_refl _) h
  rw [hpre, List.mem_reverse] at hr'
  exact (inv_grown (Nat.le_of_lt hlt)).roots_lt r' hr'

/-- What the barrier pass has done after some roots of block `b`. -/
structure Elided (g : Graph) (b : Nat) (s₀ : Progress) (pre : List Root) (fresh : TempSet)
    (s : Progress) : Prop where
  fresh : fresh = pre.foldl (g.context.afterRoot (g.block b).code) (g.freshInto b)
  exchanges : Exchanges (g.block b).code (s.graph.block b).code
  /-- The roots still to come are as they were. -/
  untouched : ∀ i, (∀ r ∈ pre, r.tree.index ≠ i) →
    (s.graph.block b).code[i]? = (g.block b).code[i]?
  done : ∀ r ∈ pre, ∀ reason, Elides g reason b r.tree.index →
    (s.graph.block b).code[r.tree.index]? = some Variants.standard.uncheckedStore
  others : ∀ b', b' ≠ b → s.graph.block b' = s₀.graph.block b'

section Step

variable {s₀ : Progress} {pre : List Root} {fresh fresh' : TempSet} {p : Instr}

/-- What is fresh after a root is the same for all exchanged code. -/
theorem withAllocated_of_exchanges {code' : List Instr} (h : Exchanges (g.block b).code code')
    (hfresh : pre.foldl (g.context.afterRoot (g.block b).code) (g.freshInto b) =
      g.freshAt b r.tree.index) :
    g.context.withAllocated code' ((g.context.verdict (g.block b).code
        (Context.beforeRoot (g.freshAt b r.tree.index) r) r).apply
        (Context.beforeRoot (g.freshAt b r.tree.index) r)) r =
      (pre ++ [r]).foldl (g.context.afterRoot (g.block b).code) (g.freshInto b) := by
  rw [List.foldl_append, hfresh, List.foldl_cons, List.foldl_nil]
  unfold Context.withAllocated Context.afterRoot Context.withAllocated
  rw [h.allocatedClass?_eq rfl]

/-- A root whose barrier is needed, or that has none. -/
theorem Elided.keep (h : Elided g b s₀ pre fresh s) (hroot : RootAt g b r)
    (hverdict : ∀ reason, g.context.verdict (g.block b).code
      (Context.beforeRoot (g.freshAt b r.tree.index) r) r ≠ .elide reason)
    (hfresh : fresh' = (pre ++ [r]).foldl (g.context.afterRoot (g.block b).code) (g.freshInto b)) :
    Elided g b s₀ (pre ++ [r]) fresh' s where
  fresh := hfresh
  exchanges := h.exchanges
  untouched i hi := h.untouched i fun r' hr' => hi r' (List.mem_append_left _ hr')
  done r' hr' reason' helides := by
    rcases List.mem_append.1 hr' with hr' | hr'
    · exact h.done r' hr' reason' helides
    · rw [List.mem_singleton.1 hr'] at helides
      exact absurd (helides.verdict hroot) (hverdict reason')
  others := h.others

/-- A root whose barrier is removed. -/
theorem Elided.replace (h : Elided g b s₀ pre fresh s)
    (hlast : ∀ r' ∈ pre, r'.tree.index < r.tree.index)
    (hp : (g.block b).code[r.tree.index]? = some p)
    (hchecked : Variants.standard.isCheckedStore p = true)
    (hreplace : Yields (Elision.replace reason b r.tree.index Variants.standard.uncheckedStore)
      s () s') :
    Elided g b s₀ (pre ++ [r])
      ((pre ++ [r]).foldl (g.context.afterRoot (g.block b).code) (g.freshInto b)) s' := by
  obtain ⟨old, hold, hgraph, _⟩ := yields_replace hreplace
  rw [Graph.instr?_eq] at hold
  obtain ⟨hop, hty⟩ := checkedStore_iff.1 hchecked
  refine ⟨rfl, ?_, fun i hi => ?_, fun r' hr' reason' helides => ?_, fun b' hb' => ?_⟩
  · rw [hgraph, Graph.block_setInstr, if_pos rfl]
    exact h.exchanges.set hp (.inr (.inl ⟨hop, hty, rfl⟩))
  · rw [hgraph, Graph.getElem?_setInstr_ne (.inr (hi r (by simp)))]
    exact h.untouched i fun r' hr' => hi r' (List.mem_append_left _ hr')
  · rw [hgraph]
    rcases List.mem_append.1 hr' with hr' | hr'
    · rw [Graph.getElem?_setInstr_ne (.inr (Nat.ne_of_gt (hlast r' hr')))]
      exact h.done r' hr' reason' helides
    · rw [List.mem_singleton.1 hr']
      exact Graph.getElem?_setInstr_self hold
  · rw [hgraph, Graph.block_setInstr_ne hb'.symm]
    exact h.others b' hb'

end Step

/-- The pass over a block removes every barrier that is not needed. -/
theorem elided_of_elideBlock {fresh : TempSet} (hstart : s.graph.block b = g.block b)
    (hyields : Yields (g.context.elideBlock b (g.freshInto b)) s fresh s') :
    (∀ reason i, Elides g reason b i →
      (s'.graph.block b).code[i]? = some Variants.standard.uncheckedStore) ∧
      ∀ b', b' ≠ b → s'.graph.block b' = s.graph.block b' := by
  unfold Context.elideBlock at hyields
  have helided := Elision.foldlM_induct (P := Elided g b s)
    ⟨rfl, by rw [hstart]; exact .refl _, fun _ _ => by rw [hstart], by simp, fun _ _ => rfl⟩
    ?_ hyields
  · refine ⟨fun reason i helides => ?_, helided.others⟩
    obtain ⟨r, p, hroot, rfl, hp, _⟩ := id helides
    have hmem : r ∈ (g.context.forest b).roots := by
      rw [Graph.forest_context, ofCode_eq]
      exact List.mem_reverse.2
        (mem_of_rootAt hroot (List.getElem?_eq_some_iff.1 hp).1 (Nat.le_refl _))
    exact helided.done r hmem reason helides
  · intro pre r post fresh fresh' s₁ s₂ hroots helided hyields
    obtain ⟨hroot, hfresh, hlast⟩ := freshAt_of_forest hroots
    have hat := helided.untouched r.tree.index fun r' hr' => Nat.ne_of_lt (hlast r' hr')
    simp only at hyields
    rw [Elision.yields_get_bind, verdict_of_exchanges helided.exchanges hat, helided.fresh,
      hfresh] at hyields
    split at hyields
    · rename_i reason hverdict
      rw [Elision.yields_bind] at hyields
      obtain ⟨_, s₃, hreplace, hyields⟩ := hyields
      rw [Elision.yields_get_bind, Elision.yields_pure] at hyields
      obtain ⟨rfl, rfl⟩ := hyields
      obtain ⟨p, hp, hchecked, _⟩ := verdict_eq_elide hverdict
      have hreplaced := helided.replace hlast hp hchecked hreplace
      exact { hreplaced with fresh := withAllocated_of_exchanges hreplaced.exchanges hfresh }
    · rename_i hverdict
      rw [Elision.yields_get_bind, Elision.yields_pure] at hyields
      obtain ⟨rfl, rfl⟩ := hyields
      exact helided.keep hroot hverdict (withAllocated_of_exchanges helided.exchanges hfresh)

/-- The pass removes every barrier that is not needed. -/
theorem elided_of_elideBarriers (hstart : s.graph = g)
    (hyields : Yields g.context.elideBarriers s () s') (helides : Elides g reason b i) :
    (s'.graph.block b).code[i]? = some Variants.standard.uncheckedStore := by
  unfold Context.elideBarriers at hyields
  rw [Elision.yields_get_bind] at hyields
  simp only [hstart, Context.size_freshAtEntry] at hyields
  have hall := Elision.forM_induct (P := fun bs s =>
    (∀ b ∈ bs, ∀ reason i, Elides g reason b i →
      (s.graph.block b).code[i]? = some Variants.standard.uncheckedStore) ∧
    ∀ b, b ∉ bs → s.graph.block b = g.block b)
    ⟨by simp, fun b _ => by rw [hstart]⟩ ?_ hyields
  · obtain ⟨_, p, _, _, hp, _⟩ := id helides
    exact hall.1 b (List.mem_range.2 (Graph.Built.lt_of_mem_code (List.mem_of_getElem? hp)))
      reason i helides
  · intro pre b post s₁ s₂ hrange ⟨hdone, hothers⟩ hyields
    obtain ⟨fresh, hyields⟩ := Elision.yields_discard.1 hyields
    have hnew : b ∉ pre := by
      have hnodup := List.nodup_range (n := g.size)
      rw [hrange, List.nodup_append] at hnodup
      exact fun hb => hnodup.2.2 b hb b List.mem_cons_self rfl
    obtain ⟨hblock, hrest⟩ := elided_of_elideBlock (hothers b hnew) hyields
    refine ⟨fun b' hb' reason i helides => ?_, fun b' hb' => ?_⟩
    · by_cases hbb : b' = b
      · rw [hbb] at helides ⊢
        exact hblock reason i helides
      · rw [hrest b' hbb]
        refine hdone b' ?_ reason i helides
        simpa [hbb] using hb'
    · rw [List.mem_append, List.mem_singleton, not_or] at hb'
      rw [hrest b' hb'.2]
      exact hothers b' hb'.1

end Barriers

/-! ## Allocations -/

/-- The allocation at the place does not clear memory. -/
def Graph.AllocatesOnly (g : Graph) (b i : Nat) : Prop :=
  (g.block b).code[i]? = some Variants.standard.allocateOnly

section Allocations

variable {g : Graph} {b b' i i' : Nat} {r r' : Root} {k : Int64} {q q' : Place} {s s' : Progress}
  {reason : Reason}

theorem allocatesOnly_of_replace
    (h : Yields (Elision.replace reason b i Variants.standard.allocateOnly) s () s') :
    s'.graph.AllocatesOnly b i := by
  obtain ⟨old, hold, hgraph, _⟩ := yields_replace h
  rw [Graph.instr?_eq] at hold
  rw [Graph.AllocatesOnly, hgraph]
  exact Graph.getElem?_setInstr_self hold

theorem Graph.AllocatesOnly.replace (hplace : s.graph.AllocatesOnly b i)
    (h : Yields (Elision.replace reason b' i' Variants.standard.allocateOnly) s () s') :
    s'.graph.AllocatesOnly b i := by
  by_cases hsame : b' = b ∧ i' = i
  · rw [← hsame.1, ← hsame.2]
    exact allocatesOnly_of_replace h
  · obtain ⟨_, _, hgraph, _⟩ := yields_replace h
    rw [Graph.AllocatesOnly, hgraph, Graph.getElem?_setInstr_ne (by omega)]
    exact hplace

/-- The roots that store new objects into one class are one root. -/
theorem allocatedClass?_unique (hr : r ∈ (g.context.forest b).roots)
    (hr' : r' ∈ (g.context.forest b').roots)
    (h : g.context.allocatedClass? (g.block b).code r.tree = some k)
    (h' : g.context.allocatedClass? (g.block b').code r'.tree = some k) :
    b = b' ∧ r.tree.index = r'.tree.index := by
  rw [Graph.forest_context] at hr hr'
  obtain ⟨p, t, v, hp, hstores, ht, hv, hallocates, hclass⟩ :=
    Context.allocatedClass?_eq_some rfl h
  obtain ⟨p', t', v', hp', hstores', ht', hv', hallocates', hclass'⟩ :=
    Context.allocatedClass?_eq_some rfl h'
  -- what is stored new copies nothing, and a class has one origin
  have horigin := origin_self_of_allocates hp hstores ((grown_of_mem_roots hr).operand ht).1 hv
    hallocates
  have horigin' := origin_self_of_allocates hp' hstores' ((grown_of_mem_roots hr').operand ht').1
    hv' hallocates'
  have htemp : p'.temp = p.temp := horigin'.unique
    ((origin_congr (Aliases.eqvGen_of_class? hclass hclass')).1 horigin)
  have hplace : (⟨b, r.tree.index⟩ : Place) = ⟨b', r'.tree.index⟩ :=
    place_unique (Aliases.single_of_class? hclass) ⟨p, hp, hstores⟩ ⟨p', hp', htemp ▸ hstores'⟩
  exact Place.mk.injEq .. ▸ hplace

theorem AllocatesAt.unique (h : AllocatesAt g k q) (h' : AllocatesAt g k q') : q = q' := by
  obtain ⟨r, hr, t, _, _, hclass, ht, hindex, _⟩ := h
  obtain ⟨r', hr', t', _, _, hclass', ht', hindex', _⟩ := h'
  obtain ⟨hblock, hroot⟩ := allocatedClass?_unique hr hr' hclass hclass'
  rw [Graph.forest_context] at hr hr'
  have hfeeds := ((grown_of_mem_roots hr).operand ht).1
  have hfeeds' := ((grown_of_mem_roots hr').operand ht').1
  rw [← hblock, ← hroot] at hfeeds'
  have hsource := Feeds.source_unique hfeeds hfeeds'
  cases q
  cases q'
  simp only at hblock hindex hindex'
  rw [hblock, ← hindex, hsource, hindex']

end Allocations

/-! ## Markers -/

section Markers

variable {g g' : Graph} {b i : Nat} {r : Root} {k : Int64} {q : Place} {s s' : Progress}

/-- What one step of a fold brings about, and no step undoes, holds in the end. -/
theorem foldl_of_mem {α β : Type} {P : β → Prop} {f : β → α → β} {xs : List α} {x : α} {y : β}
    (hx : x ∈ xs) (hmake : ∀ y, P (f y x)) (hkeep : ∀ y x, P y → P (f y x)) :
    P (xs.foldl f y) := by
  obtain ⟨pre, post, rfl⟩ := List.append_of_mem hx
  rw [List.foldl_append, List.foldl_cons]
  exact List.foldlRecOn post f (hmake _) fun y hy x _ => hkeep y x hy

theorem mem_allocations_noteMarker {c : Context} {code : List Instr} {m : Context.Markers}
    {e : Int64 × Place} (h : e ∈ m.allocations) :
    e ∈ (c.noteMarker b code m r).allocations := by
  unfold Context.noteMarker
  split
  · exact h
  · split
    · split <;> exact h
    · split
      · split
        · exact List.mem_cons_of_mem _ h
        · exact h
      · exact h

/-- The allocations that clear memory are noted. -/
theorem AllocatesAt.mem_markers (h : AllocatesAt g k q) :
    (k, q) ∈ (g.context.markers g).allocations := by
  obtain ⟨r, hr, t, p, hp, hclass, ht, hindex, hop⟩ := h
  have hb : q.block ∈ g.layout.indices :=
    List.mem_range.2 (Graph.Built.lt_of_mem_code (List.mem_of_getElem? hp))
  let noted := fun m : Context.Markers => (k, q) ∈ m.allocations
  unfold Context.markers
  refine foldl_of_mem (P := noted) hb
    (fun m => foldl_of_mem (P := noted) hr (fun m => ?_) fun m r hm => ?_) fun m b hm => ?_
  · obtain ⟨ps, _, _, hps, hstores, _⟩ := Context.allocatedClass?_eq_some rfl hclass
    have hstore : ps.op ≠ .fullyInitialized := by
      rw [Instr.stores_iff] at hstores
      simp [hstores.1]
    have hclears : (some p).any g.context.variants.isAllocate = true := decide_eq_true hop
    unfold Context.noteMarker
    rw [hps]
    simp only [hstore, if_false, hclass, ht, hindex, hp, hclears, if_true]
    exact List.mem_cons_self
  · exact mem_allocations_noteMarker hm
  · exact List.foldlRecOn _ _ hm fun m hm r _ => mem_allocations_noteMarker hm

/-- A class is looked up at its allocation. -/
theorem AllocatesAt.lookup (h : AllocatesAt g k q) :
    (g.context.markers g).allocations.lookup k = some q := by
  have hmem := h.mem_markers
  cases hlookup : (g.context.markers g).allocations.lookup k with
  | none =>
    have hnone := List.lookup_eq_none_iff.1 hlookup _ hmem
    simp at hnone
  | some q' =>
    have hnoted := (noted_markers (.refl g)).allocations _ (mem_of_lookup hlookup)
    rw [Option.some_inj]
    exact hnoted.unique h

/-- The pass exchanges every allocation that always reaches the marker of its class. -/
theorem fused_of_fuseMarkers (hstart : s.graph = g)
    (hyields : Yields g.context.fuseMarkers s () s')
    (hmark : (g.context.markers g).marks.lookup k = some q)
    (hallocates : AllocatesAt g k ⟨b, i⟩) (hreaches : g.reachesUncollected ⟨b, i⟩ q = true) :
    s'.graph.AllocatesOnly b i := by
  unfold Context.fuseMarkers at hyields
  rw [yields_get_bind] at hyields
  have hswaps : Variants.standard.Swaps g s.graph := hstart ▸ .refl .standard g
  have hsites := allocationSite_markers hswaps
  have hlookup := hallocates.lookup
  simp only [hstart] at hyields hsites
  change ∀ e ∈ (g.context.markers g).allocations, _ at hsites
  generalize g.context.markers g = m at hyields hmark hlookup hsites
  have hdone := Elision.forM_induct (P := fun ks s => Variants.standard.Swaps g s.graph ∧
    (k ∈ ks → s.graph.AllocatesOnly b i)) ⟨hswaps, by simp⟩ ?_ hyields
  · refine hdone.2 (TempSet.mem_ofList.2 ?_)
    exact List.mem_map_of_mem (mem_of_lookup hmark)
  · intro pre k' post s₁ s₂ _ ⟨hswaps, hdone⟩ hyields
    unfold Context.fuseMarker at hyields
    split at hyields
    · rename_i q' a hq' ha
      rw [yields_get_bind] at hyields
      split at hyields
      · have hsite := hsites _ (mem_of_lookup ha)
        refine ⟨(ends_replace_allocation hswaps hsite).of_yields hyields, fun hk => ?_⟩
        rcases List.mem_append.1 hk with hk | hk
        · exact (hdone hk).replace hyields
        · obtain rfl := List.mem_singleton.1 hk
          rw [hlookup, Option.some_inj] at ha
          subst ha
          exact allocatesOnly_of_replace hyields
      · rename_i hnot
        rw [(yields_pure.1 hyields).2]
        refine ⟨hswaps, fun hk => ?_⟩
        rcases List.mem_append.1 hk with hk | hk
        · exact hdone hk
        · obtain rfl := List.mem_singleton.1 hk
          rw [hlookup, Option.some_inj] at ha
          rw [hmark, Option.some_inj] at hq'
          subst ha hq'
          exact absurd ((hswaps.resembles.reachesUncollected_eq _ _).trans hreaches) hnot
    · rename_i hnone
      rw [(yields_pure.1 hyields).2]
      refine ⟨hswaps, fun hk => ?_⟩
      rcases List.mem_append.1 hk with hk | hk
      · exact hdone hk
      · obtain rfl := List.mem_singleton.1 hk
        exact absurd hlookup (hnone _ _ hmark)

end Markers

/-! ## Coverage -/

section Coverage

variable {g : Graph} {b b' i m : Nat} {r r₀ : Root} {rs : List Root} {k k' words : Int64}
  {a : Context.Pending} {f f' : Context.Followed} {s s' : Progress}

theorem lookup_drop (h : k ≠ k') : (Context.Followed.drop f k').lookup k = f.lookup k := by
  unfold Context.Followed.drop
  induction f with
  | nil => rfl
  | cons e f ih =>
    obtain ⟨j, a⟩ := e
    by_cases hj : j = k'
    · have hne : (k == j) = false := beq_false_of_ne (hj ▸ h)
      rw [List.filter_cons_of_neg (by simpa using hj), ih, List.lookup_cons, hne]
    · rw [List.filter_cons_of_pos (by simpa using hj), List.lookup_cons, List.lookup_cons, ih]

theorem lookup_put_self : (Context.Followed.put f k a).lookup k = some a := by
  unfold Context.Followed.put
  rw [List.lookup_cons, beq_self_eq_true]

theorem lookup_put (h : k ≠ k') : (Context.Followed.put f k' a).lookup k = f.lookup k := by
  unfold Context.Followed.put
  rw [List.lookup_cons, beq_false_of_ne h]
  exact lookup_drop h

/-- A calm root leaves what is followed in the class. -/
theorem lookup_survivors {code : List Instr} (hcalm : Calm g b k r)
    (hexchanges : Exchanges (g.block b).code code) :
    (g.context.survivors code r f).lookup k = f.lookup k := by
  unfold Context.survivors
  rw [if_neg (by simp [hcalm.1])]
  unfold Context.dropEscapes
  simp only [hexchanges.permitted?_eq, hexchanges.loadedClass?_eq]
  refine List.foldlRecOn (motive := fun f' : Context.Followed => f'.lookup k = f.lookup k) _ _ rfl
    fun f' hf' l hl => ?_
  split
  · exact hf'
  · rename_i hskip
    split
    · rename_i k' hk'
      have hne : k ≠ k' := fun heq => hskip (hcalm.2 l hl (heq ▸ hk'))
      rw [lookup_drop hne, hf']
    · exact hf'

/-! ### What an exchange leaves -/

namespace Graph.AllocatesOnly

variable {c : Context}

theorem settle (hplace : s.graph.AllocatesOnly b' i) (hc : c.variants = .standard)
    (h : Yields (c.settle b k a f) s f' s') : s'.graph.AllocatesOnly b' i := by
  rcases yields_settle h with ⟨_, hreplace, _⟩ | ⟨_, rfl, _⟩
  · rw [hc] at hreplace
    exact hplace.replace hreplace
  · exact hplace

theorem coverRoot (hplace : s.graph.AllocatesOnly b' i) (hc : c.variants = .standard)
    (h : Yields (c.coverRoot b f r) s f' s') : s'.graph.AllocatesOnly b' i := by
  rw [coverRoot_eq, yields_get_bind] at h
  simp only at h
  split at h
  · rwa [(yields_pure.1 h).2]
  · split at h
    · rcases yields_cover h with ⟨_, _, _, _, _, _, _, _, hsettle⟩ | ⟨_, rfl, _⟩
      · exact hplace.settle hc hsettle
      · exact hplace
    · rcases yields_follow h with ⟨_, _, _, _, _, _, _, _, _, hsettle⟩ | ⟨_, rfl, _⟩
      · exact hplace.settle hc hsettle
      · exact hplace

theorem coverRoots (hplace : s.graph.AllocatesOnly b' i) (hc : c.variants = .standard)
    (h : Yields (rs.foldlM (c.coverRoot b) f) s f' s') : s'.graph.AllocatesOnly b' i :=
  Elision.foldlM_induct (P := fun _ _ s => s.graph.AllocatesOnly b' i) hplace
    (fun _ _ _ _ _ _ _ _ hplace h => hplace.coverRoot hc h) h

end Graph.AllocatesOnly

/-! ### From the allocation to the last store -/

/-- The root `r₀` stores a new object into class `k`, whose allocation at index `m` clears
memory and is of constant size. -/
structure Starts (g : Graph) (b : Nat) (r₀ : Root) (k : Int64) (m : Nat) (words : Int64) :
    Prop where
  root : r₀ ∈ (g.context.forest b).roots
  class_eq : g.context.allocatedClass? (g.block b).code r₀.tree = some k
  allocation : ∃ t p size, r₀.tree.operand? 0 = some t ∧ t.index = m ∧
    (g.block b).code[m]? = some p ∧ p.op = .gcMalloc ∧
    Context.offset? (g.block b).code (t.operand? 0) = some size ∧
    wordsOf g.pointerSize size = .ok (some words)

/-- The allocation that `r₀` stores is followed, and what is still to be written has not
been written by any root of `rs`. -/
def Tracked (g : Graph) (b : Nat) (r₀ : Root) (k : Int64) (m : Nat) (words : Int64)
    (rs : List Root) (f : Context.Followed) : Prop :=
  ∃ a, f.lookup k = some a ∧ a.index = m ∧ a.bits ≠ 0 ∧ ∀ w, HasWord a.bits w →
    HasWord (lowBits words) w ∧
      ∀ r ∈ rs, r₀.tree.index < r.tree.index → ¬ WritesWord g b k w r

/-- Settling either exchanges the allocation or goes on to follow it. -/
theorem settled_or_followed (h : Yields (g.context.settle b k a f) s f' s') :
    s'.graph.AllocatesOnly b a.index ∨ a.bits ≠ 0 ∧ f'.lookup k = some a := by
  rcases yields_settle h with ⟨_, hreplace, _⟩ | ⟨hbits, _, rfl⟩
  · exact .inl (allocatesOnly_of_replace hreplace)
  · exact .inr ⟨hbits, lookup_put_self⟩

theorem lookup_settle (hne : k ≠ k') (h : Yields (g.context.settle b k' a f) s f' s') :
    f'.lookup k = f.lookup k := by
  rcases yields_settle h with ⟨_, _, rfl⟩ | ⟨_, _, rfl⟩
  · exact lookup_drop hne
  · exact lookup_put hne

/-- A root that writes a word does so after exchanges. -/
theorem WritesWord.of_resembles {w : Nat} {p : Instr} (h : WritesWord g b k w r)
    (hresembles : Resembles g s.graph) (hp : (s.graph.block b).code[r.tree.index]? = some p) :
    Variants.standard.isFieldStore p = true ∧ ∃ offset bits,
      g.context.loadedClass? (s.graph.block b).code (r.tree.operand? 1) = some k ∧
      Context.offset? (s.graph.block b).code (r.tree.operand? 2) = some offset ∧
      writtenBits s.graph.pointerSize offset p.ty = .ok bits ∧ HasWord bits w := by
  obtain ⟨p₀, offset, bits, hp₀, hstores, hk, hoffset, hbits, hw⟩ := h
  have hexchanges := hresembles.code b
  obtain ⟨p', hp', hexchanged⟩ := hexchanges.of_old hp₀
  rw [hp, Option.some_inj] at hp'
  subst hp'
  have hstores' : Variants.standard.isFieldStore p = true := by
    rw [hexchanged.isFieldStore_eq, isFieldStore_standard]
    exact hstores
  refine ⟨hstores', offset, bits, ?_, ?_, ?_, hw⟩
  · rw [hexchanges.loadedClass?_eq]
    exact hk
  · rw [hexchanges.offset?_eq]
    exact hoffset
  · rw [hresembles.pointerSize_eq, hexchanged.ty_eq_of_store hstores']
    exact hbits

/-- A root that writes no word that is left keeps what is tracked. -/
theorem Tracked.append (hlookup : f'.lookup k = some a) (hindex : a.index = m)
    (hbits : a.bits ≠ 0) (hleft : ∀ w, HasWord a.bits w → HasWord (lowBits words) w ∧
      ∀ r ∈ rs, r₀.tree.index < r.tree.index → ¬ WritesWord g b k w r)
    (hwrites : ∀ w, HasWord a.bits w → ¬ WritesWord g b k w r) :
    Tracked g b r₀ k m words (rs ++ [r]) f' := by
  refine ⟨a, hlookup, hindex, hbits, fun w hw => ⟨(hleft w hw).1, fun r' hr' hlt => ?_⟩⟩
  rcases List.mem_append.1 hr' with hr' | hr'
  · exact (hleft w hw).2 r' hr' hlt
  · rw [List.mem_singleton.1 hr']
    exact hwrites w hw

/-- A calm root after the one that stores the new object. -/
theorem tracked_coverRoot (hstarts : Starts g b r₀ k m words) (hresembles : Resembles g s.graph)
    (hr : r ∈ (g.context.forest b).roots) (hlt : r₀.tree.index < r.tree.index)
    (hcalm : Calm g b k r) (htracked : Tracked g b r₀ k m words rs f)
    (h : Yields (g.context.coverRoot b f r) s f' s') :
    s'.graph.AllocatesOnly b m ∨ Tracked g b r₀ k m words (rs ++ [r]) f' := by
  obtain ⟨a, ha, hindex, hbits, hleft⟩ := htracked
  have hexchanges := hresembles.code b
  rw [coverRoot_eq, yields_get_bind] at h
  simp only at h
  rw [← lookup_survivors hcalm hexchanges] at ha
  generalize g.context.survivors (s.graph.block b).code r f = rest at ha h
  split at h
  · rename_i hnone
    rw [(yields_pure.1 h).1]
    refine .inr (.append ha hindex hbits hleft fun w _ hwrites => ?_)
    obtain ⟨p, _, _, hp, _⟩ := hwrites
    obtain ⟨p', hp', _⟩ := hexchanges.of_old hp
    rw [hnone] at hp'
    cases hp'
  · rename_i p hp
    split at h
    · rcases yields_cover h with ⟨k', a', offset, bits, hk', ha', hoffset, hwritten, hsettle⟩ |
        ⟨rfl, rfl, hzero⟩
      · by_cases hk : k = k'
        · -- the words that the store writes are written from here on
          subst hk
          rw [ha, Option.some_inj] at ha'
          subst ha'
          rcases settled_or_followed hsettle with hplace | ⟨hbits', hlookup⟩
          · exact .inl (hindex ▸ hplace)
          · refine .inr (.append hlookup hindex hbits' (fun w hw => hleft w hw.of_clear.1) ?_)
            intro w hw hwrites
            obtain ⟨_, offset', bits', _, hoffset', hwritten', hnew⟩ :=
              hwrites.of_resembles hresembles hp
            rw [hoffset, Option.some_inj] at hoffset'
            rw [← hoffset', hwritten] at hwritten'
            exact hw.of_clear.2 (Except.ok.inj hwritten' ▸ hnew)
        · refine .inr (.append ((lookup_settle hk hsettle).trans ha) hindex hbits hleft ?_)
          intro w _ hwrites
          obtain ⟨_, _, _, hloaded, _⟩ := hwrites.of_resembles hresembles hp
          rw [hk', Option.some_inj] at hloaded
          exact hk hloaded.symm
      · refine .inr (.append ha hindex hbits hleft fun w _ hwrites => ?_)
        obtain ⟨_, offset, bits, hloaded, hoffset, hwritten, hw⟩ :=
          hwrites.of_resembles hresembles hp
        rw [hzero k a offset bits hloaded ha hoffset hwritten] at hw
        exact HasWord.not_zero hw
    · rename_i hstores
      have hwrites : ∀ w, HasWord a.bits w → ¬ WritesWord g b k w r :=
        fun w _ hwrites => hstores (hwrites.of_resembles hresembles hp).1
      rcases yields_follow h with ⟨k', _, _, _, hk', _, _, _, _, hsettle⟩ | ⟨rfl, _, _⟩
      · -- no other root allocates in the class
        have hk : k ≠ k' := by
          intro hk
          rw [hexchanges.allocatedClass?_eq rfl, ← hk] at hk'
          have hsame := (allocatedClass?_unique hstarts.root hr hstarts.class_eq hk').2
          omega
        exact .inr (.append ((lookup_settle hk hsettle).trans ha) hindex hbits hleft hwrites)
      · exact .inr (.append ha hindex hbits hleft hwrites)

/-- The root that stores the new object. -/
theorem tracked_of_starts (hstarts : Starts g b r₀ k m words) (hswaps :
    Variants.standard.Swaps g s.graph) (hlast : ∀ r ∈ rs, r.tree.index < r₀.tree.index)
    (h : Yields (g.context.coverRoot b f r₀) s f' s') :
    s'.graph.AllocatesOnly b m ∨ Tracked g b r₀ k m words (rs ++ [r₀]) f' := by
  have hresembles := hswaps.resembles
  have hexchanges := hresembles.code b
  obtain ⟨t, p, size, ht, hindex, hp, hop, hsize, hwords⟩ := hstarts.allocation
  obtain ⟨ps, _, _, hps, hstores, _⟩ := Context.allocatedClass?_eq_some rfl hstarts.class_eq
  rw [Instr.stores_iff] at hstores
  obtain ⟨ps', hps', hexchanged⟩ := hexchanges.of_old hps
  obtain rfl := hexchanged.eq_of_op' (by simp [hstores.1]) (by simp [hstores.1])
  obtain ⟨p', hp', hexchanged'⟩ := hexchanges.of_old hp
  by_cases hclears : p'.op = .gcMalloc
  · have hnot : Variants.standard.isFieldStore ps' = false := by
      simp [isFieldStore_standard, Instr.storesField, hstores.1]
    rw [coverRoot_eq, yields_get_bind] at h
    simp only [hps'] at h
    change Yields (if Variants.standard.isFieldStore ps' = true then _ else _) _ _ _ at h
    rw [if_neg (by simp [hnot])] at h
    have hk := hexchanges.allocatedClass?_eq (c := g.context) rfl r₀.tree
    rw [hstarts.class_eq] at hk
    have hsize' := hexchanges.offset?_eq (t.operand? 0)
    rw [hsize] at hsize'
    rw [← hresembles.pointerSize_eq] at hwords
    have hany : ((s.graph.block b).code[t.index]?).any g.context.variants.isAllocate = true := by
      rw [hindex, hp']
      exact decide_eq_true hclears
    rcases yields_follow h with ⟨k', t', size', words', hk', ht', _, hsize'', hwords', hsettle⟩ |
      ⟨_, _, hnone⟩
    · rw [hk, Option.some_inj] at hk'
      rw [ht, Option.some_inj] at ht'
      subst hk' ht'
      rw [hsize', Option.some_inj] at hsize''
      rw [← hsize'', hwords] at hwords'
      obtain rfl := Option.some_inj.1 (Except.ok.inj hwords')
      rcases settled_or_followed hsettle with hplace | ⟨hbits, hlookup⟩
      · exact .inl (hindex ▸ hplace)
      · refine .inr ⟨_, hlookup, hindex, hbits, fun w hw => ⟨hw, fun r hr hlt => ?_⟩⟩
        rcases List.mem_append.1 hr with hr | hr
        · have hbefore := hlast r hr
          omega
        · rw [List.mem_singleton.1 hr] at hlt
          omega
    · exact absurd hwords (hnone k t size words hk ht hany hsize')
  · -- the allocation has been exchanged before
    left
    refine Graph.AllocatesOnly.coverRoot ?_ rfl h
    rcases hexchanged' with rfl | ⟨hop', _⟩ | ⟨_, rfl⟩
    · exact absurd hop hclears
    · rw [hop] at hop'
      cases hop'
    · exact hp'

/-- The pass over a block exchanges every allocation that stores cover. -/
theorem covered_of_block (hswaps : Variants.standard.Swaps g s.graph) (hcovers : Covers g b m)
    (h : Yields ((g.context.forest b).roots.foldlM (g.context.coverRoot b) []) s f s') :
    s'.graph.AllocatesOnly b m := by
  obtain ⟨n, hn, k, r₀, t, p, size, words, hr₀, hclass, ht, hindex, hp, hop, hsize, hwords, hcalm,
    hwritten⟩ := hcovers
  change t.index = m at hindex
  rw [hindex] at hp
  obtain ⟨later, hroots⟩ : ∃ later, (g.context.forest b).roots =
      (grown (g.block b).code n).roots.reverse ++ later := by
    obtain ⟨more, hmore⟩ := roots_suffix hn (Nat.le_refl _)
    refine ⟨more.reverse, ?_⟩
    rw [Graph.forest_context, ofCode_eq, ← hmore, List.reverse_append]
  generalize hrs : (grown (g.block b).code n).roots.reverse = rs at *
  have hroot : ∀ r ∈ rs, r ∈ (g.context.forest b).roots := by
    intro r hr
    rw [hroots]
    exact List.mem_append_left _ hr
  have hstarts : Starts g b r₀ k m words :=
    ⟨hroot r₀ hr₀, hclass, t, p, size, ht, hindex, hp, hop, hsize, hwords⟩
  rw [hroots, List.foldlM_append, yields_bind] at h
  obtain ⟨f₁, s₁, h, hlater⟩ := h
  refine Graph.AllocatesOnly.coverRoots ?_ rfl hlater
  have htracked := Elision.foldlM_induct (P := fun pre f s =>
    (Variants.standard.Swaps g s.graph ∧ FollowsSites .standard g b f) ∧
      (r₀ ∈ pre → s.graph.AllocatesOnly b m ∨ Tracked g b r₀ k m words pre f))
    ⟨⟨hswaps, fun e he => absurd he List.not_mem_nil⟩, by simp⟩ ?_ h
  · rcases htracked.2 hr₀ with hplace | ⟨a, _, _, hbits, hleft⟩
    · exact hplace
    · obtain ⟨w, hw⟩ := HasWord.exists_of_ne_zero hbits
      obtain ⟨hword, hnot⟩ := hleft w hw
      obtain ⟨r, hr, hlt, hwrites⟩ := hwritten w hword HasWord.not_zero
      exact absurd hwrites (hnot r hr hlt)
  · intro pre r post f f' s s' hsplit ⟨⟨hswaps, hsites⟩, htracked⟩ h
    have hr : r ∈ rs := hsplit ▸ List.mem_append_right _ List.mem_cons_self
    have hlast : ∀ r' ∈ pre, r'.tree.index < r.tree.index := by
      rw [← hrs] at hsplit
      obtain ⟨hpre, hlt, _⟩ := roots_split hn hsplit
      intro r' hr'
      rw [hpre, List.mem_reverse] at hr'
      exact (inv_grown (by omega)).roots_lt r' hr'
    refine ⟨(ends_coverRoot hswaps hsites (hroot r hr)).of_yields h, fun hmem => ?_⟩
    by_cases hpre : r₀ ∈ pre
    · rcases htracked hpre with hplace | htracked
      · exact .inl (hplace.coverRoot rfl h)
      · have hlt := hlast r₀ hpre
        exact tracked_coverRoot hstarts hswaps.resembles (hroot r hr) hlt (hcalm r hr hlt) htracked
          h
    · obtain rfl : r₀ = r := by
        rcases List.mem_append.1 hmem with hmem | hmem
        · exact absurd hmem hpre
        · exact List.mem_singleton.1 hmem
      exact tracked_of_starts hstarts hswaps hlast h

/-- The pass exchanges every allocation that stores cover. -/
theorem covered_of_coverAllocations (hswaps : Variants.standard.Swaps g s.graph)
    (h : Yields g.context.coverAllocations s () s') (hcovers : Covers g b m) :
    s'.graph.AllocatesOnly b m := by
  have hb : b < g.size := by
    obtain ⟨_, _, _, _, _, _, _, _, _, _, _, _, hp, _⟩ := hcovers
    exact Graph.Built.lt_of_mem_code (List.mem_of_getElem? hp)
  unfold Context.coverAllocations at h
  rw [yields_get_bind] at h
  simp only [hswaps.size] at h
  have hdone := Elision.forM_induct (P := fun bs s => Variants.standard.Swaps g s.graph ∧
    (b ∈ bs → s.graph.AllocatesOnly b m)) ⟨hswaps, by simp⟩ ?_ h
  · exact hdone.2 (List.mem_range.2 hb)
  · intro pre b' post s s' _ ⟨hswaps, hdone⟩ h
    obtain ⟨f, h⟩ := yields_discard.1 h
    have hends := ends_foldlM (Q := Sized .standard g)
      (R := fun f s' => Variants.standard.Swaps g s'.graph ∧ FollowsSites .standard g b' f)
      ⟨hswaps, fun e he => absurd he List.not_mem_nil⟩
      fun r hr f s ⟨hswaps, hf⟩ => ends_coverRoot hswaps hf hr
    refine ⟨(hends.of_yields h).1, fun hmem => ?_⟩
    rcases List.mem_append.1 hmem with hmem | hmem
    · exact (hdone hmem).coverRoots rfl h
    · obtain rfl := List.mem_singleton.1 hmem
      exact covered_of_block hswaps hcovers h

end Coverage

end StackFlow
