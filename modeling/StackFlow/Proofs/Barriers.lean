import StackFlow.Proofs.Freshness

/-!
# Write barriers

* `Elides g reason b i` is what the barrier pass has found out of a store whose barrier it
  removes; `accounts_elideBarriers` says that it exchanges no other.
* `Fresh g' h v`: after the events `h`, the object `v` has been stored into a temporary
  right from its allocation, or has passed a barrier that is left in `g'`, and nothing has
  been collected since.
* `Run.fresh` carries this through a run for all classes that are fresh, and
  `Elides.fresh` reads it off where a barrier is removed.
* `Elides.guarded_iff` says what this means for an object: it is guarded unless something
  was collected between its allocation and its store into a temporary.
-/

namespace StackFlow

open Forest

/-! ## What the barrier pass finds out -/

/-- What the barrier pass has found out of a store whose barrier it removes. -/
def Elides (g : Graph) (reason : Reason) (b i : Nat) : Prop :=
  ∃ r p, RootAt g b r ∧ r.tree.index = i ∧ (g.block b).code[i]? = some p ∧
    Variants.standard.isCheckedStore p = true ∧
    ((reason = .nullBarrier ∧ Context.isNull (g.block b).code (r.tree.operand? 0) = true) ∨
      (reason = .freshBarrier ∧ Context.isNull (g.block b).code (r.tree.operand? 0) = false ∧
        ∃ k, g.context.loadedClass? (g.block b).code (r.tree.operand? 1) = some k ∧
          r.collects = false ∧ k ∈ g.freshAt b i))

section Pass

variable {g : Graph} {b : Nat} {r : Root}

theorem verdict_eq_elide {c : Context} {code : List Instr} {fresh : TempSet} {reason : Reason}
    (h : c.verdict code fresh r = .elide reason) :
    ∃ p, code[r.tree.index]? = some p ∧ c.variants.isCheckedStore p = true ∧
      ((reason = .nullBarrier ∧ Context.isNull code (r.tree.operand? 0) = true) ∨
        (reason = .freshBarrier ∧ Context.isNull code (r.tree.operand? 0) = false ∧
          ∃ k, c.loadedClass? code (r.tree.operand? 1) = some k ∧ k ∈ fresh)) := by
  unfold Context.verdict at h
  split at h
  · cases h
  · rename_i p hp
    split at h
    · cases h
    · rename_i hchecked
      rw [Bool.not_eq_true, Bool.not_eq_false'] at hchecked
      refine ⟨p, hp, hchecked, ?_⟩
      split at h
      · rename_i hnull
        cases h
        exact .inl ⟨rfl, hnull⟩
      · rename_i hnull
        rw [Bool.not_eq_true] at hnull
        split at h
        · cases h
        · rename_i k hk
          split at h
          · rename_i hfresh
            cases h
            exact .inr ⟨rfl, hnull, k, hk, TempSet.contains_iff.1 hfresh⟩
          · cases h

theorem checkedStore_iff {p : Instr} :
    Variants.standard.isCheckedStore p = true ↔ p.op = .rstore ∧ p.ty = .reference := by
  rw [Variants.isCheckedStore, Bool.and_eq_true, decide_eq_true_eq, decide_eq_true_eq]
  rfl

/-- A store that still has its barrier has not been exchanged. -/
theorem Exchanges.checkedStore {code code' : List Instr} (h : Exchanges code code') {i : Nat}
    {p : Instr} (hp : code'[i]? = some p) (hchecked : Variants.standard.isCheckedStore p = true) :
    code[i]? = some p := by
  obtain ⟨p', hp', hexchanged⟩ := h.of_new hp
  have hop := (checkedStore_iff.1 hchecked).1
  rw [hp', hexchanged.eq_of_op (by simp [hop]) (by simp [hop])]

/-- A root makes fresh after exchanges only what it makes fresh before them. -/
theorem Freshens.of_exchanges {code code' : List Instr} (h : Exchanges code code') {k : Int64}
    (hmade : Freshens g.context code' r k) : Freshens g.context code r k := by
  rcases hmade with ⟨p, hp, hchecked, hnull, hloaded⟩ | hallocated
  · rw [h.isNull_eq] at hnull
    rw [h.loadedClass?_eq] at hloaded
    exact .inl ⟨p, h.checkedStore hp hchecked, hchecked, hnull, hloaded⟩
  · rw [h.allocatedClass?_eq rfl] at hallocated
    exact .inr hallocated

/-- The roots of a forest, each with those before it. -/
theorem rootAt_of_forest {pre post : List Root}
    (h : (g.context.forest b).roots = pre ++ r :: post) :
    RootAt g b r ∧ pre = (grown (g.block b).code r.tree.index).roots.reverse := by
  rw [Graph.forest_context, ofCode_eq] at h
  obtain ⟨hpre, _, hroot⟩ := roots_split (Nat.le_refl _) h
  exact ⟨hroot, hpre⟩

theorem accounts_elideBlock {J : Reason → Nat → Nat → Prop} {s s' : Progress}
    {fresh : TempSet} (hJ : ∀ reason b i, Elides g reason b i → J reason b i)
    (haccounts : s.Accounts g J)
    (hyields : Elision.Yields (g.context.elideBlock b (g.freshInto b)) s fresh s') :
    s'.Accounts g J := by
  unfold Context.elideBlock at hyields
  refine (Elision.foldlM_induct (P := fun pre fresh s => s.Accounts g J ∧
    ∀ k ∈ fresh, k ∈ pre.foldl (g.context.afterRoot (g.block b).code) (g.freshInto b))
    ⟨haccounts, fun k hk => hk⟩ ?_ hyields).1
  intro pre r post fresh fresh' s s' hroots ⟨haccounts, hfresh⟩ hyields
  obtain ⟨hroot, hpre⟩ := rootAt_of_forest hroots
  simp only at hyields
  rw [Elision.yields_get_bind] at hyields
  have hexchanges := haccounts.resembles.code b
  -- whatever has been exchanged, no class is fresh that was not fresh in `g`
  have hafter : ∀ code', Exchanges (g.block b).code code' → ∀ k ∈ g.context.withAllocated code'
      ((g.context.verdict (s.graph.block b).code (Context.beforeRoot fresh r) r).apply
        (Context.beforeRoot fresh r)) r,
      k ∈ (pre ++ [r]).foldl (g.context.afterRoot (g.block b).code) (g.freshInto b) := by
    intro code' hcode' k hk
    rw [List.foldl_append, List.foldl_cons, List.foldl_nil, Context.mem_afterRoot]
    rw [Context.mem_withAllocated, Context.mem_apply_verdict, Context.mem_beforeRoot] at hk
    rcases hk with (hold | hstore) | hallocated
    · exact .inl ⟨hold.1, hfresh k hold.2⟩
    · exact .inr (Freshens.of_exchanges hexchanges (.inl hstore))
    · exact .inr (Freshens.of_exchanges hcode' (.inr hallocated))
  split at hyields
  · rename_i reason hverdict
    rw [Elision.yields_bind] at hyields
    obtain ⟨_, s₁, hreplace, hyields⟩ := hyields
    rw [Elision.yields_get_bind, Elision.yields_pure] at hyields
    obtain ⟨rfl, rfl⟩ := hyields
    obtain ⟨p, hp, hchecked, hwhy⟩ := verdict_eq_elide hverdict
    have hp := hexchanges.checkedStore hp hchecked
    have helides : Elides g reason b r.tree.index := by
      refine ⟨r, p, hroot, rfl, hp, hchecked, ?_⟩
      rw [hexchanges.isNull_eq, hexchanges.loadedClass?_eq] at hwhy
      refine hwhy.imp id fun ⟨hreason, hnull, k, hk, hmem⟩ => ⟨hreason, hnull, k, hk, ?_⟩
      obtain ⟨hquiet, hmem⟩ := Context.mem_beforeRoot.1 hmem
      refine ⟨hquiet, ?_⟩
      rw [Graph.freshAt, ← hpre]
      exact hfresh k hmem
    obtain ⟨hop, hty⟩ := checkedStore_iff.1 hchecked
    have haccounts' := (haccounts.replace hreplace hp (.inr (.inl ⟨hop, hty, rfl⟩))
      (hJ reason b _ helides)).1
    exact ⟨haccounts', hafter _ (haccounts'.resembles.code b)⟩
  · rw [Elision.yields_get_bind, Elision.yields_pure] at hyields
    obtain ⟨rfl, rfl⟩ := hyields
    exact ⟨haccounts, hafter _ hexchanges⟩

/-- The barrier pass exchanges only stores that need no barrier. -/
theorem accounts_elideBarriers {J : Reason → Nat → Nat → Prop} {s s' : Progress}
    (hJ : ∀ reason b i, Elides g reason b i → J reason b i) (haccounts : s.Accounts g J)
    (hgraph : s.graph = g) (hyields : Elision.Yields g.context.elideBarriers s () s') :
    s'.Accounts g J := by
  unfold Context.elideBarriers at hyields
  rw [Elision.yields_get_bind, hgraph] at hyields
  refine Elision.forM_induct (P := fun _ s => s.Accounts g J) haccounts ?_ hyields
  intro _ b _ s s' _ haccounts hyields
  obtain ⟨fresh, hyields⟩ := Elision.yields_discard.1 hyields
  exact accounts_elideBlock hJ haccounts hyields

end Pass

/-! ## Fresh objects in a run -/

/-- Whether the event stores into the object `v` with a barrier that is left in `g'`. -/
def Event.ChecksInto (g' : Graph) (e : Event) (v : Value) : Prop :=
  (∃ p, g'.at? e.place = some p ∧ p.op = .rstore ∧ p.ty = .reference) ∧ e.operands[1]? = some v

/-- Whether nothing is collected in the events `h` after time `j`. -/
def Quiet (h : List Event) (j : Nat) : Prop :=
  ∀ n e, j < n → h[n]? = some e → e.instr.collects = false

/-- Whether the event at time `j` of `h` stores the new object `v` into a temporary. -/
def Settles (h : List Event) (j : Nat) (v : Value) : Prop :=
  ∃ k e ek, v = .object k ∧ k < j ∧ h[k]? = some ek ∧ ek.instr.allocates = true ∧
    h[j]? = some e ∧ e.instr.op = .tstore ∧ e.operands = [v]

/-- `Fresh g' h v`: the object `v` has been stored into a temporary, or has passed a
barrier that is left in `g'`, and nothing has been collected since. -/
def Fresh (g' : Graph) (h : List Event) (v : Value) : Prop :=
  ∃ j, Quiet h j ∧ (Settles h j v ∨ ∃ e, h[j]? = some e ∧ e.ChecksInto g' v)

/-- The object that the temporaries of class `k` hold is fresh. -/
def FreshClass (g g' : Graph) (h : List Event) (k : Int64) : Prop :=
  ∃ t r q v, g.aliases.class? t = some k ∧ Origin g t r ∧ LastStore h r q v ∧ Fresh g' h v

section Append

variable {g g' : Graph} {h : List Event} {e : Event} {v : Value} {j : Nat}

theorem Quiet.append (hquiet : Quiet h j) (he : e.instr.collects = false) :
    Quiet (h ++ [e]) j := by
  intro n e' hn he'
  rcases Nat.lt_or_ge n h.length with hlt | hge
  · exact hquiet n e' hn (by rwa [List.getElem?_append_left hlt] at he')
  · rw [List.getElem?_append_right hge, List.getElem?_singleton] at he'
    split at he'
    · cases he'
      exact he
    · cases he'

theorem quiet_length : Quiet (h ++ [e]) h.length := by
  intro n e' hn he'
  have := (List.getElem?_eq_some_iff.1 he').1
  rw [List.length_append, List.length_singleton] at this
  omega

theorem getElem?_append_of_some {n : Nat} {e' : Event} (he' : h[n]? = some e') :
    (h ++ [e])[n]? = some e' := by
  rwa [List.getElem?_append_left (List.getElem?_eq_some_iff.1 he').1]

theorem Fresh.append (hfresh : Fresh g' h v) (he : e.instr.collects = false) :
    Fresh g' (h ++ [e]) v := by
  obtain ⟨j, hquiet, hwhy⟩ := hfresh
  refine ⟨j, hquiet.append he, ?_⟩
  rcases hwhy with ⟨k, ej, ek, hv, hkj, hek, halloc, hej, hrest⟩ | ⟨ej, hej, hchecks⟩
  · exact .inl ⟨k, ej, ek, hv, hkj, getElem?_append_of_some hek, halloc,
      getElem?_append_of_some hej, hrest⟩
  · exact .inr ⟨ej, getElem?_append_of_some hej, hchecks⟩

end Append

section Runs

variable {o : Options} {code : List Instr} {g g' : Graph} {h : List Event} {b i : Nat}
  {m : Machine} {k : Int64} {r : Root}

/-- The root of an instruction of a graph. -/
theorem RootAt.grown (hroot : RootAt g b r) (hlt : r.tree.index < (g.block b).code.length) :
    r.tree.Grown (g.block b).code := by
  refine ((inv_grown hlt).roots_grown r ?_ _ List.mem_cons_self).1
  rw [hroot]
  exact List.mem_cons_self

/-- What a class is made fresh by is executed after the origin of the class is stored. -/
theorem Freshens.origin_stored (hbuilt : Graph.Built o code g) (hroot : RootAt g b r)
    (hmade : Freshens g.context (g.block b).code r k) {ps : List Place} {q : Place}
    (hwalk : Walk g .start ps q) (hps : (⟨b, r.tree.index⟩ : Place) ∈ ps) :
    ∃ t u, g.aliases.class? t = some k ∧ Origin g t u ∧ ∃ q' ∈ ps, g.StoresAt q' u := by
  obtain ⟨xs, ys, hsplit, hbefore, hlt, _⟩ := hwalk.cut_of_mem hps
  have hgrown := hroot.grown hlt
  rcases hmade with ⟨p, hp, _, _, hloaded⟩ | hallocated
  · obtain ⟨t, pl, ht, hpl, hload, _, hclass⟩ := Context.loadedClass?_eq_some hloaded
    have hfeeds := (hgrown.operand ht).1
    -- the operand is loaded in the same visit to the block
    obtain ⟨zs, hxs, _⟩ := hbefore.visit rfl
    have hmem : (⟨b, t.index⟩ : Place) ∈ xs := by
      rw [hxs]
      exact List.mem_append_right _ (Walk.mem_visited.2 ⟨rfl, hfeeds.lt⟩)
    obtain ⟨xs', ys', hxs', hbefore', _⟩ := hbefore.cut_of_mem hmem
    obtain ⟨u, horigin, q', hq', hstored⟩ :=
      StackFlow.origin_stored hbuilt hbefore' hpl hload (Aliases.single_of_class? hclass)
    refine ⟨pl.temp, u, hclass, horigin, q', ?_, hstored⟩
    rw [hsplit, hxs']
    simp [hq']
  · obtain ⟨p, t, v, hp, hstores, ht, hv, halloc, hclass⟩ :=
      Context.allocatedClass?_eq_some rfl hallocated
    have horigin := origin_self_of_allocates hp hstores (hgrown.operand ht).1 hv halloc
    exact ⟨p.temp, p.temp, hclass, horigin, _, hps, p, hp, hstores⟩

/-- A class is not fresh where its origin is stored. -/
theorem not_fresh_at_origin (hbuilt : Graph.Built o code g) {t u : Int64}
    (hclass : g.aliases.class? t = some k) (horigin : Origin g t u)
    (hstored : g.StoresAt ⟨b, i⟩ u) : k ∉ g.freshAt b i := by
  intro hk
  have hindex : i ≤ (g.block b).code.length := by
    obtain ⟨_, hp, _⟩ := hstored
    exact Nat.le_of_lt (List.getElem?_eq_some_iff.1 hp).1
  -- the first time control gets there, the origin has not been stored
  obtain ⟨ps, hwalk, hfirst⟩ := hbuilt.exists_first_walk (q := ⟨b, i⟩) hstored.lt_size hindex
  obtain ⟨b', r, hmem, hroot, hmade⟩ := freshened_of_walk hbuilt hwalk hk
  obtain ⟨t', u', hclass', horigin', q', hq', hstored'⟩ :=
    hmade.origin_stored hbuilt hroot hwalk hmem
  rw [horigin'.unique ((origin_congr (Aliases.eqvGen_of_class? hclass hclass')).1 horigin)]
    at hstored'
  have hsingle := horigin.single (Aliases.single_of_class? hclass)
  obtain rfl := place_unique hsingle hstored hstored'
  exact hfirst hq'

/-- Whether the barriers that the pass does not remove are left in `g'`. -/
def KeepsBarriers (g g' : Graph) : Prop :=
  ∀ b i p, g.at? ⟨b, i⟩ = some p → p.op = .rstore → (∀ reason, ¬ Elides g reason b i) →
    g'.at? ⟨b, i⟩ = some p

theorem RootAt.unique {r' : Root} (hroot : RootAt g b r) (hroot' : RootAt g b r')
    (hindex : r.tree.index = r'.tree.index) : r = r' := by
  unfold RootAt at hroot hroot'
  rw [hindex, hroot', List.cons.injEq] at hroot
  exact hroot.1.symm

/-- An operand that a root loads from a class is what the origin of the class holds. -/
theorem Run.class_operand (hbuilt : Graph.Built o code g) (hmade : ∀ p ∈ code, p.Constructed)
    {e : Event} (hrun : Run g (h ++ [e]) b (r.tree.index + 1) m)
    (hroot : RootAt g b r) (hlt : r.tree.index < (g.block b).code.length) {q : Nat}
    (hloaded : g.context.loadedClass? (g.block b).code (r.tree.operand? q) = some k) :
    ∃ t u n v, g.aliases.class? t = some k ∧ Origin g t u ∧ LastStore (h ++ [e]) u n v ∧
      e.operands[q]? = some v := by
  obtain ⟨t, pl, ht, hpl, hload, _, hclass⟩ := Context.loadedClass?_eq_some hloaded
  have hfeeds := ((hroot.grown hlt).operand ht).1
  have hsingle := Aliases.single_of_class? hclass
  obtain ⟨xs, hwalk, _⟩ := hbuilt.exists_first_walk (q := ⟨b, t.index⟩)
    (Graph.Built.lt_of_mem_code (List.mem_of_getElem? hpl))
    (Nat.le_of_lt (List.getElem?_eq_some_iff.1 hpl).1)
  obtain ⟨u, horigin, _⟩ := origin_stored hbuilt hwalk hpl hload hsingle
  obtain ⟨n, v, hlast, hoperand⟩ :=
    hrun.loaded_operand hbuilt hmade hfeeds hpl hload hsingle horigin
  exact ⟨pl.temp, u, n, v, hclass, horigin, hlast, hoperand⟩

/-- A store makes its object fresh only if its barrier is left. -/
theorem Run.fresh_of_store (hbuilt : Graph.Built o code g) (hmade : ∀ p ∈ code, p.Constructed)
    (hkept : KeepsBarriers g g') {e : Event} {p : Instr}
    (hrun : Run g (h ++ [e]) b (r.tree.index + 1) m) (hplace : e.place = ⟨b, r.tree.index⟩)
    (hroot : RootAt g b r) (hp : (g.block b).code[r.tree.index]? = some p)
    (hchecked : Variants.standard.isCheckedStore p = true)
    (hnull : Context.isNull (g.block b).code (r.tree.operand? 0) = false)
    (hloaded : g.context.loadedClass? (g.block b).code (r.tree.operand? 1) = some k)
    (hnew : ¬ (r.collects = false ∧ k ∈ g.freshAt b r.tree.index)) :
    FreshClass g g' (h ++ [e]) k := by
  obtain ⟨hop, hty⟩ := checkedStore_iff.1 hchecked
  have hleft : g'.at? ⟨b, r.tree.index⟩ = some p := by
    refine hkept b _ p hp hop fun reason helides => ?_
    obtain ⟨r', _, hroot', hindex, _, _, hwhy⟩ := helides
    obtain rfl := hroot'.unique hroot hindex
    rcases hwhy with ⟨_, hnull'⟩ | ⟨_, _, k', hk', hold⟩
    · rw [hnull] at hnull'
      cases hnull'
    · rw [hloaded, Option.some_inj] at hk'
      subst hk'
      exact hnew hold
  obtain ⟨t, u, n, v, hclass, horigin, hlast, hoperand⟩ :=
    hrun.class_operand hbuilt hmade hroot (List.getElem?_eq_some_iff.1 hp).1 hloaded
  refine ⟨t, u, n, v, hclass, horigin, hlast, h.length, quiet_length, .inr ⟨e, by simp, ?_⟩⟩
  exact ⟨⟨p, hplace ▸ hleft, hop, hty⟩, hoperand⟩

/-- An object is fresh when it is stored into a temporary. -/
theorem Run.fresh_of_allocation (hbuilt : Graph.Built o code g)
    (hmade : ∀ p ∈ code, p.Constructed) {e : Event}
    (hrun : Run g (h ++ [e]) b (r.tree.index + 1) m) (hroot : RootAt g b r)
    (hallocated : g.context.allocatedClass? (g.block b).code r.tree = some k) :
    FreshClass g g' (h ++ [e]) k := by
  obtain ⟨p, t, w, hp, hstores, ht, hw, halloc, hclass⟩ :=
    Context.allocatedClass?_eq_some rfl hallocated
  have hfeeds := ((hroot.grown (List.getElem?_eq_some_iff.1 hp).1).operand ht).1
  have hlt := hfeeds.lt
  have horigin := origin_self_of_allocates hp hstores hfeeds hw halloc
  have hlast := hrun.holds_allocated hbuilt hmade (Nat.lt_succ_self _) hfeeds hw halloc
    ⟨p, hp, hstores⟩ (Aliases.single_of_class? hclass)
  obtain ⟨e', he', hstores', hoperands⟩ := hlast.1
  obtain ⟨hle, _, hplaces⟩ := hrun.visit
  obtain ⟨ea, hea, _⟩ := hplaces t.index (Nat.lt_succ_of_lt hlt)
  have hinstr := hrun.instr_at (Nat.lt_succ_of_lt hlt) hea hw
  have hop : e'.instr.op = .tstore := (Instr.stores_iff.1 hstores').1
  refine ⟨p.temp, p.temp, _, _, hclass, horigin, hlast, _, fun n => ?_, .inl
    ⟨_, e', ea, rfl, by omega, hea, hinstr.symm ▸ halloc, he', hop, hoperands⟩⟩
  rw [List.length_append, List.length_singleton] at hle ⊢
  rw [show h.length + 1 - (r.tree.index + 1) + r.tree.index = h.length by omega]
  exact quiet_length n

/-- Throughout a run, the objects of fresh classes are fresh. -/
theorem Run.fresh (hbuilt : Graph.Built o code g) (hmade : ∀ p ∈ code, p.Constructed)
    (hkept : KeepsBarriers g g') (hrun : Run g h b i m) (hk : k ∈ g.freshAt b i)
    (hquiet : (Forest.grown (g.block b).code i).collects = false) : FreshClass g g' h k := by
  induction hrun generalizing k with
  | start =>
    rw [freshAt_start hbuilt] at hk
    exact absurd hk TempSet.not_mem_empty
  | exec run at_ step ih =>
    rename_i h b i m m' p operands results
    have hrun := Run.exec run at_ step
    rcases mem_freshAt_succ at_ hk with ⟨hold, hbefore⟩ | ⟨r, hroot, rfl, hmake, hnew⟩
    · obtain ⟨hquiet, hcollects⟩ := hbefore hquiet
      obtain ⟨t, u, q, v, hclass, horigin, hlast, hfresh⟩ := ih hold hquiet
      refine ⟨t, u, q, v, hclass, horigin, hlast.append (Bool.eq_false_iff.2 fun hstores => ?_),
        hfresh.append hcollects⟩
      exact not_fresh_at_origin hbuilt hclass horigin ⟨p, at_, hstores⟩ hold
    · rcases hmake with ⟨p', hp', hchecked, hnull, hloaded⟩ | hallocated
      · exact hrun.fresh_of_store hbuilt hmade hkept rfl hroot hp' hchecked hnull hloaded hnew
      · exact hrun.fresh_of_allocation hbuilt hmade hroot hallocated
  | jump run done way ih =>
    subst done
    obtain ⟨hk, hquiet⟩ := freshAt_jump hbuilt way hk
    exact ih hk hquiet

/-- Where a barrier is removed since the object is fresh, it is. -/
theorem Elides.fresh (hbuilt : Graph.Built o code g) (hmade : ∀ p ∈ code, p.Constructed)
    (hkept : KeepsBarriers g g') {b' i' n : Nat} (helides : Elides g .freshBarrier b' i')
    (hrun : Run g h b i m) {e : Event} (he : h[n]? = some e) (hplace : e.place = ⟨b', i'⟩)
    {v : Value} (hv : e.operands[1]? = some v) : Fresh g' (h.take n) v := by
  obtain ⟨r, p, hroot, rfl, hp, hchecked, hwhy⟩ := helides
  rcases hwhy with ⟨hreason, _⟩ | ⟨_, _, k, hloaded, hquiet, hk⟩
  · cases hreason
  · obtain ⟨m₀, m₁, hbefore, hat, _, hafter⟩ := hrun.before he
    rw [hplace] at hbefore hat hafter
    rw [List.take_add_one, he, Option.toList_some] at hafter
    have hlt := (List.getElem?_eq_some_iff.1 hp).1
    have hcollects : (Forest.grown (g.block b').code r.tree.index).collects = false := by
      rcases (grows_grown hp).roots with ⟨hroots, _⟩ | ⟨r', hroots, _, hcollects, _⟩
      · rw [hroot] at hroots
        exact absurd hroots (List.cons_ne_self _ _)
      · rw [hroot, List.cons.injEq] at hroots
        rw [← hroots.1, hquiet] at hcollects
        exact (Bool.or_eq_false_iff.1 hcollects.symm).1
    obtain ⟨t, u, q, v', hclass, horigin, hlast, hfresh⟩ :=
      hbefore.fresh hbuilt hmade hkept hk hcollects
    obtain ⟨t', u', q', v'', hclass', horigin', hlast', hoperand⟩ :=
      hafter.class_operand hbuilt hmade hroot hlt hloaded
    -- the store goes into the object that the class holds
    have hstores : e.instr.stores u = false := by
      rw [Graph.at?, hp, Option.some_inj] at hat
      rw [← hat, Instr.stores, (checkedStore_iff.1 hchecked).1]
      rfl
    rw [horigin'.unique ((origin_congr (Aliases.eqvGen_of_class? hclass hclass')).1 horigin)]
      at hlast'
    rw [hv, Option.some_inj] at hoperand
    rw [hoperand, ← ((hlast.append hstores).unique hlast').2]
    exact hfresh

end Runs

/-! ## Guarded objects -/

/-- Before time `n`, the object `v` has been allocated, or stored into with a barrier that
is left in `g'`, and nothing has been collected since. -/
def Guarded (g' : Graph) (h : List Event) (n : Nat) (v : Value) : Prop :=
  ∃ j e, j < n ∧ h[j]? = some e ∧
    ((v = .object j ∧ e.instr.allocates = true) ∨ e.ChecksInto g' v) ∧
    ∀ l e', j < l → l < n → h[l]? = some e' → e'.instr.collects = false

/-- Before time `n`, something has been collected after `v` was allocated and before it was
stored into a temporary, and there was no store into it with a barrier that is left in `g'`
from the collection on.  This never happens to a reference that the run has not allocated, but
got from a load or a call. -/
def Delayed (g' : Graph) (h : List Event) (n : Nat) (v : Value) : Prop :=
  ∃ k j l e e', v = .object k ∧ k < j ∧ j < l ∧ l < n ∧ h[j]? = some e ∧
    e.instr.collects = true ∧ h[l]? = some e' ∧ e'.instr.op = .tstore ∧ e'.operands = [v] ∧
    ∀ l' e', j < l' → l' < n → h[l']? = some e' → ¬ e'.ChecksInto g' v

section Guarded

variable {o : Options} {code : List Instr} {g g' : Graph} {h : List Event} {b i n : Nat}
  {m : Machine} {v : Value}

/-- A delayed object is not guarded. -/
theorem Delayed.not_guarded (hresembles : Resembles g g') (hrun : Run g h b i m)
    (hdelayed : Delayed g' h n v) : ¬ Guarded g' h n v := by
  rintro ⟨j', ej', _, hej', hwhy, hquiet⟩
  obtain ⟨k, j, l, e, _, rfl, hkj, hjl, hln, he, hcollects, _, _, _, hnone⟩ := hdelayed
  have hnot : ¬ j' < j := by
    intro hlt
    rw [hquiet j e hlt (by omega) he] at hcollects
    cases hcollects
  rcases hwhy with ⟨hobject, _⟩ | hchecks
  · cases hobject
    exact hnot hkj
  · have hne : j' ≠ j := by
      -- a store does not collect
      rintro rfl
      rw [hej', Option.some_inj] at he
      subst he
      obtain ⟨⟨p', hp', hop, _⟩, _⟩ := hchecks
      obtain ⟨p, hp, hexchanged⟩ := (hresembles.code _).of_new hp'
      have hinstr := hrun.at_place hej'
      rw [Graph.at?, hp, Option.some_inj] at hinstr
      rw [← hinstr, ← hexchanged.collects_eq] at hcollects
      simp [Instr.collects, hop, Opcode.row] at hcollects
    exact hnone j' ej' (by omega) (by omega) hej' hchecks

/-- The last collection before time `n` and after time `k`, if there is one. -/
theorem exists_last_collection (h : List Event) (n k : Nat) :
    (∀ l e, k < l → l < n → h[l]? = some e → e.instr.collects = false) ∨
      ∃ j e, k < j ∧ j < n ∧ h[j]? = some e ∧ e.instr.collects = true ∧
        ∀ l e, j < l → l < n → h[l]? = some e → e.instr.collects = false := by
  induction n with
  | zero => exact .inl fun l e _ hl => absurd hl (Nat.not_lt_zero l)
  | succ n ih =>
    by_cases hlast : ∃ e, k < n ∧ h[n]? = some e ∧ e.instr.collects = true
    · obtain ⟨e, hkn, he, hcollects⟩ := hlast
      exact .inr ⟨n, e, hkn, Nat.lt_succ_self n, he, hcollects, fun l e' hl hl' => by omega⟩
    · -- the last event does not collect
      have hstep : ∀ {j : Nat}, k ≤ j →
          (∀ l e, j < l → l < n → h[l]? = some e → e.instr.collects = false) →
          ∀ l e, j < l → l < n + 1 → h[l]? = some e → e.instr.collects = false := by
        intro j hkj hquiet l e hjl hln he
        rcases Nat.lt_succ_iff_lt_or_eq.1 hln with hln | rfl
        · exact hquiet l e hjl hln he
        · exact Bool.eq_false_iff.2 fun hcollects => hlast ⟨e, by omega, he, hcollects⟩
      rcases ih with hquiet | ⟨j, e, hkj, hjn, he, hcollects, hquiet⟩
      · exact .inl (hstep (Nat.le_refl k) hquiet)
      · exact .inr ⟨j, e, hkj, Nat.lt_succ_of_lt hjn, he, hcollects,
          hstep (Nat.le_of_lt hkj) hquiet⟩

/-- A fresh object is guarded unless it is delayed. -/
theorem Fresh.guarded (hfresh : Fresh g' (h.take n) v) (hdelayed : ¬ Delayed g' h n v) :
    Guarded g' h n v := by
  obtain ⟨l, hquiet, hwhy⟩ := hfresh
  have hquiet : ∀ l' e, l < l' → l' < n → h[l']? = some e → e.instr.collects = false :=
    fun l' e hl hl' he => hquiet l' e hl (by rw [List.getElem?_take, if_pos hl', he])
  rcases hwhy with ⟨k, e, ek, rfl, hkl, hek, halloc, he, hop, hoperands⟩ | ⟨e, he, hchecks⟩
  · obtain ⟨hln, he⟩ := getElem?_of_take he
    obtain ⟨_, hek⟩ := getElem?_of_take hek
    rcases exists_last_collection h n k with hnone | ⟨j, ej, hkj, hjn, hej, hcollects, hlast⟩
    · exact ⟨k, ek, by omega, hek, .inl ⟨rfl, halloc⟩, hnone⟩
    · -- the collection lies before the store into the temporary
      have hjl : j < l := by
        refine Nat.lt_of_le_of_ne (Nat.le_of_not_lt fun hlj => ?_) ?_
        · rw [hquiet j ej hlj hjn hej] at hcollects
          cases hcollects
        · rintro rfl
          rw [hej, Option.some_inj] at he
          subst he
          simp [Instr.collects, hop, Opcode.row] at hcollects
      by_contra hguarded
      refine hdelayed ⟨k, j, l, ej, e, rfl, hkj, hjl, hln, hej, hcollects, he, hop, hoperands, ?_⟩
      intro l' e' hjl' hln' he' hchecks
      exact hguarded ⟨l', e', hln', he', .inr hchecks,
        fun l'' e'' hl'' => hlast l'' e'' (Nat.lt_trans hjl' hl'')⟩
  · obtain ⟨hln, he⟩ := getElem?_of_take he
    exact ⟨l, e, hln, he, .inr hchecks, hquiet⟩

/-- Where a barrier is removed since the object is fresh, the object is guarded unless it
is delayed. -/
theorem Elides.guarded_iff (hbuilt : Graph.Built o code g) (hmade : ∀ p ∈ code, p.Constructed)
    (hresembles : Resembles g g') (hkept : KeepsBarriers g g') {b' i' : Nat}
    (helides : Elides g .freshBarrier b' i') (hrun : Run g h b i m) {e : Event}
    (he : h[n]? = some e) (hplace : e.place = ⟨b', i'⟩)
    (hv : e.operands[1]? = some v) : Guarded g' h n v ↔ ¬ Delayed g' h n v :=
  ⟨fun hguarded hdelayed => hdelayed.not_guarded hresembles hrun hguarded,
    (helides.fresh hbuilt hmade hkept hrun he hplace hv).guarded⟩

end Guarded

end StackFlow
