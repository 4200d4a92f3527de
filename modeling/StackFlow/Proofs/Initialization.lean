import StackFlow.Proofs.Confinement

/-!
# Initialization by stores

* `Site` is an allocation of constant size with the store of the new object, and
  `Site.Followed` what the coverage pass knows of it.
* `Site.written_of_root` says that the stores which the pass counts write the object, and
  `Site.confined` that references to the object stay known while the pass follows it.
* `Site.Covered` says that the object is written in time: before anything is collected,
  and before it is used.  `Site.Gap` gives the three ways in which the stores may come too
  late, and `Site.covered_iff` says that there is no other.
-/

namespace StackFlow

open Forest

/-! ## Allocations that are followed -/

/-- An allocation of constant size at index `a` of block `b`, whose object is stored into
a temporary. -/
structure Site (g : Graph) (b a : Nat) where
  size : Int64
  /-- Where the new object is stored. -/
  store : Nat
  /-- The temporary that the new object is stored into. -/
  temp : Int64
  /-- The class of that temporary. -/
  kind : Int64
  allocates : ∃ p, (g.block b).code[a]? = some p ∧ p.op = .gcMalloc
  constant : ∃ l p, Feeds (g.block b).code l a 0 ∧ (g.block b).code[l]? = some p ∧
    p.op = .number ∧ p.value = size
  nonneg : 0 ≤ size.toInt
  feedsStore : Feeds (g.block b).code a store 0
  stores : g.StoresAt ⟨b, store⟩ temp
  class_eq : g.aliases.class? temp = some kind

/-- The coverage pass has followed the object of the site to before index `limit`. -/
structure Site.Followed {g : Graph} {b a : Nat} (s : Site g b a) (limit : Nat) : Prop where
  limit_le : limit ≤ (g.block b).code.length
  calm : ∀ r, RootAt g b r → s.store < r.tree.index → r.tree.index < limit → Calm g b s.kind r
  written : ∃ words, wordsOf g.pointerSize s.size = .ok (some words) ∧
    ∀ w, HasWord (lowBits words) w → ∃ r, RootAt g b r ∧ s.store < r.tree.index ∧
      r.tree.index < limit ∧ WritesWord g b s.kind w r

section Roots

variable {g : Graph} {b n : Nat} {r : Root}

theorem rootAt_of_mem (hn : n ≤ (g.block b).code.length)
    (hr : r ∈ (grown (g.block b).code n).roots) : RootAt g b r ∧ r.tree.index < n := by
  obtain ⟨pre, post, hsplit⟩ := List.append_of_mem (List.mem_reverse.2 hr)
  obtain ⟨_, hlt, hroot⟩ := roots_split hn hsplit
  exact ⟨hroot, hlt⟩

theorem mem_of_rootAt (hroot : RootAt g b r) (hlt : r.tree.index < n)
    (hn : n ≤ (g.block b).code.length) : r ∈ (grown (g.block b).code n).roots := by
  have hmem : r ∈ (grown (g.block b).code (r.tree.index + 1)).roots := by
    rw [hroot]
    exact List.mem_cons_self
  exact mem_roots_of_le hmem hlt hn

theorem offset?_eq_some {code : List Instr} {t : Option Tree} {n : Int64}
    (h : Context.offset? code t = some n) :
    ∃ u p, t = some u ∧ code[u.index]? = some p ∧ p.op = .number ∧ p.value = n ∧
      0 ≤ n.toInt := by
  unfold Context.offset? at h
  split at h
  · rename_i p hp
    obtain ⟨u, hu, hp⟩ := Option.bind_eq_some_iff.1 hp
    split at h
    · rename_i hnumber
      simp only [Bool.and_eq_true, decide_eq_true_eq] at hnumber
      cases h
      exact ⟨u, p, hu, hp, hnumber.1, rfl, Int64.le_iff_toInt_le.1 hnumber.2⟩
    · cases h
  · cases h

end Roots

/-- An allocation that the coverage pass exchanges has been followed. -/
theorem Covers.followed {g : Graph} {b a : Nat} (h : Covers g b a) :
    ∃ (s : Site g b a) (limit : Nat), s.Followed limit := by
  obtain ⟨n, hn, k, r₀, t, p, size, words, hr₀, halloc, ht, hindex, hp, hop, hsize, hwords, hcalm,
    hwritten⟩ := h
  obtain ⟨ps, t', v, hps, hstores, ht', _, _, hclass⟩ :=
    Context.allocatedClass?_eq_some rfl halloc
  rw [ht, Option.some_inj] at ht'
  subst ht'
  have hroots : ∀ {r}, r ∈ (grown (g.block b).code n).roots.reverse →
      RootAt g b r ∧ r.tree.index < n := fun hr => rootAt_of_mem hn (List.mem_reverse.1 hr)
  have hgrown := (hroots hr₀).1.grown (Nat.lt_of_lt_of_le (hroots hr₀).2 hn)
  obtain ⟨hfeeds, hgrown⟩ := hgrown.operand ht
  obtain ⟨u, pu, hu, hpu, hnumber, hvalue, hnonneg⟩ := offset?_eq_some hsize
  have hconstant := (hgrown.operand hu).1
  simp only at hindex
  rw [hindex] at hfeeds hp hconstant
  refine ⟨{
    size := size
    store := r₀.tree.index
    temp := ps.temp
    kind := k
    allocates := ⟨p, hp, hop⟩
    constant := ⟨u.index, pu, hconstant, hpu, hnumber, hvalue⟩
    nonneg := hnonneg
    feedsStore := hfeeds
    stores := ⟨ps, hps, hstores⟩
    class_eq := hclass }, n, hn, fun r hroot hlt hlimit => ?_, words, hwords, fun w hw => ?_⟩
  · exact hcalm r (List.mem_reverse.2 (mem_of_rootAt hroot hlimit hn)) hlt
  · obtain ⟨r, hr, hlt, hwrites⟩ := hwritten w hw HasWord.not_zero
    exact ⟨r, (hroots hr).1, hlt, (hroots hr).2, hwrites⟩

/-! ## What the object goes through -/

/-- Whether the event writes all of word `w` of the object `k`, at a constant offset. -/
def Event.Writes (g : Graph) (e : Event) (k w : Nat) : Prop :=
  e.instr.storesField = true ∧ e.operands[1]? = some (.object k) ∧
    ∃ l p size, Feeds (g.block e.place.block).code l e.place.index 2 ∧
      (g.block e.place.block).code[l]? = some p ∧ p.op = .number ∧
      e.operands[2]? = some (.number p.value) ∧ e.instr.ty.size? g.pointerSize = some size ∧
      p.value.toInt ≤ w * g.pointerSize.toInt ∧
      (w + 1) * g.pointerSize.toInt ≤ p.value.toInt + size.toInt

/-- A constant leaves its number. -/
theorem Exec.of_number {h : List Event} {p : Instr} {m m' : Machine}
    {operands results : List Value} (hstep : Exec h p m operands results m')
    (hop : p.op = .number) : results = [.number p.value] := by
  cases hstep with
  | skip silent => simp [Instr.isMeta, hop, Opcode.row] at silent
  | load op => simp [hop] at op
  | store op => simp [hop] at op
  | complex complex => simp [Instr.isComplex, hop, Opcode.row] at complex
  | plain _ _ _ _ _ leaves => simpa [Leaves, hop] using leaves

/-- Stores leave nothing on the stack. -/
theorem Instr.Shaped.outputs_eq_zero {p : Instr} (hshape : p.Shaped)
    (h : p.op = .tstore ∨ p.storesField = true) : p.outputs = 0 := by
  simp only [Instr.storesField, Bool.or_eq_true, decide_eq_true_eq] at h
  rcases h with hop | hop | hop <;>
  · rw [(hshape (by simp [hop]) (by simp [hop])).2, hop]
    rfl

theorem Instr.Shaped.isMeta_eq_false {p : Instr} (hshape : p.Shaped) (h : p.outputs ≠ 0) :
    p.isMeta = false := by
  refine Bool.eq_false_iff.2 fun hmeta => h ?_
  have hop : p.op ≠ .ret ∧ p.op ≠ .operator := by
    constructor <;> intro hop <;> simp [Instr.isMeta, hop, Opcode.row] at hmeta
  rw [(hshape hop.1 hop.2).2]
  unfold Instr.isMeta at hmeta
  cases hrow : p.op <;> simp_all [Opcode.row]

/-- An instruction that the forest cannot follow is a root that takes the whole stack. -/
theorem exists_clearing_root {g : Graph} {b i : Nat} {p : Instr}
    (hp : (g.block b).code[i]? = some p) (hmeta : p.isMeta = false)
    (hclears : p.isComplex = true ∨ (p.outputs ≠ 0 ∧ p.outputs ≠ 1)) :
    ∃ r, RootAt g b r ∧ r.tree.index = i ∧ (grown (g.block b).code (i + 1)).stack = [] ∧
      ∀ t ∈ (grown (g.block b).code i).stack, ∀ c ∈ t.indices,
        c ∈ r.tree.indices ++ r.dropped.flatMap (·.indices) := by
  have hgrows := grows_grown hp
  generalize hs : grown (g.block b).code (i + 1) = s' at hgrows
  cases hgrows with
  | skip silent => simp [hmeta] at silent
  | push _ paired outputs => simp [paired, outputs] at hclears
  | root _ paired outputs => simp [paired, outputs] at hclears
  | complex =>
    refine ⟨⟨.node i [], _, (grown (g.block b).code i).stack.reverse⟩, congrArg Growing.roots hs,
      rfl, rfl, fun t ht c hc => ?_⟩
    exact List.mem_append_right _ (List.mem_flatMap.2 ⟨t, List.mem_reverse.2 ht, hc⟩)
  | spill =>
    refine ⟨⟨.node i (takeOperands p.arity (grown (g.block b).code i).stack), _,
      ((grown (g.block b).code i).stack.drop p.arity).reverse⟩, congrArg Growing.roots hs,
      rfl, rfl, fun t ht c hc => ?_⟩
    rw [← List.take_append_drop p.arity (grown (g.block b).code i).stack, List.mem_append] at ht
    rcases ht with ht | ht
    · exact List.mem_append_left _ (Tree.mem_indices_node.2 (.inr ⟨t, ht, hc⟩))
    · exact List.mem_append_right _ (List.mem_flatMap.2 ⟨t, List.mem_reverse.2 ht, hc⟩)

namespace Site

variable {o : Options} {code : List Instr} {g : Graph} {b a : Nat} {h : List Event} {n : Nat}
  {m : Machine} {limit w : Nat} {r : Root}

theorem single (s : Site g b a) : s.temp ∈ Aliases.singleStores g :=
  Aliases.single_of_class? s.class_eq

theorem origin (s : Site g b a) : Origin g s.temp s.temp := by
  obtain ⟨p, hp, hstores⟩ := s.stores
  obtain ⟨q, hq, hop⟩ := s.allocates
  exact origin_self_of_allocates hp hstores s.feedsStore hq (by simp [Instr.allocates, hop])

theorem op_store (s : Site g b a) {p : Instr} (hp : (g.block b).code[s.store]? = some p) :
    p.op = .tstore ∧ p.temp = s.temp := by
  obtain ⟨ps, hps, hstores⟩ := s.stores
  rw [Graph.at?, hp, Option.some_inj] at hps
  simpa [hps, Instr.stores] using hstores

/-- Within the block, the class is loaded only after the new object is stored. -/
theorem store_lt_load (hbuilt : Graph.Built o code g) (s : Site g b a) {l : Nat} {p : Instr}
    (hp : (g.block b).code[l]? = some p) (hload : p.loads p.temp = true)
    (hclass : g.aliases.class? p.temp = some s.kind) : s.store < l :=
  origin_before_load hbuilt (b := b) hp hload (Aliases.single_of_class? hclass)
    ((origin_congr (Aliases.eqvGen_of_class? s.class_eq hclass)).1 s.origin) s.stores

/-- A store that the pass counts writes the object. -/
theorem writes_of_root (hbuilt : Graph.Built o code g) (hmade : ∀ p ∈ code, p.Constructed)
    (hptr : isPointerSize g.pointerSize = true) (s : Site g b a) (hroot : RootAt g b r)
    (hwrites : WritesWord g b s.kind w r) (hlt : s.store < r.tree.index) {e : Event}
    (hrun : Run g (h ++ [e]) b (r.tree.index + 1) m) (hplace : e.place = ⟨b, r.tree.index⟩) :
    e.Writes g (h.length - r.tree.index + a) w := by
  obtain ⟨p, offset, bits, hp, hfield, hloaded, hoffset, hbits, hword⟩ := hwrites
  have hindex := (List.getElem?_eq_some_iff.1 hp).1
  have hat := hrun.at_place (List.getElem?_concat_length (l := h) (a := e))
  rw [hplace, Graph.at?, hp, Option.some_inj] at hat
  have hlength : (h ++ [e]).length - (r.tree.index + 1) = h.length - r.tree.index := by simp
  -- the store goes into the object that the class holds
  obtain ⟨t, u, q, v, hclass, horigin, hlast, htarget⟩ :=
    hrun.class_operand hbuilt hmade hroot hindex hloaded
  obtain ⟨pa, hpa, hop⟩ := s.allocates
  have hobject := hrun.holds_allocated hbuilt hmade (Nat.lt_succ_of_lt hlt) s.feedsStore hpa
    (by simp [Instr.allocates, hop]) s.stores s.single
  rw [horigin.unique ((origin_congr (Aliases.eqvGen_of_class? s.class_eq hclass)).1 s.origin)]
    at hlast
  rw [(hlast.unique hobject).2, hlength] at htarget
  -- the offset is a constant
  obtain ⟨u, pu, hu, hpu, hnumber, rfl, hnonneg⟩ := offset?_eq_some hoffset
  have hfeeds := ((hroot.grown hindex).operand hu).1
  obtain ⟨el, v', hel, hv', hoperand⟩ := hrun.feeds_last hbuilt hmade hfeeds
  obtain ⟨_, _, _, _, hstep, _⟩ := hrun.before hel
  rw [hrun.instr_at (Nat.lt_succ_of_lt hfeeds.lt) hel hpu] at hstep
  rw [hstep.of_number hnumber, List.cons.injEq] at hv'
  rw [← hv'.1] at hoperand
  obtain ⟨size, hsize, hover⟩ := overwrites_of_hasWord hptr hnonneg hbits hword
  refine ⟨hat ▸ hfield, htarget, u.index, pu, size, ?_, ?_, hnumber, hoperand, hat ▸ hsize,
    hover.first, hover.last⟩
  · rw [hplace]
    exact hfeeds
  · rw [hplace]
    exact hpu

/-- While the object is followed, nothing is collected after it is stored. -/
theorem not_collects (s : Site g b a) (hfollowed : s.Followed limit) (hroot : RootAt g b r)
    (hlimit : r.tree.index < limit) {j : Nat} {p : Instr} (hp : (g.block b).code[j]? = some p)
    (hlo : s.store < j) (hhi : j ≤ r.tree.index) : p.collects = false := by
  have hn : r.tree.index + 1 ≤ (g.block b).code.length :=
    Nat.le_trans hlimit hfollowed.limit_le
  refine Bool.eq_false_iff.2 fun hcollects => ?_
  rcases (inv_grown hn).noticed (Nat.lt_succ_of_le hhi) hp hcollects with
    ⟨_, hnone⟩ | ⟨r', hr', hle, hcollects', _⟩
  · have := hnone r (mem_of_rootAt hroot (Nat.lt_succ_self _) hn)
    omega
  · obtain ⟨hroot', hlt'⟩ := rootAt_of_mem hn hr'
    rw [(hfollowed.calm r' hroot' (by omega) (by omega)).1] at hcollects'
    cases hcollects'

/-- A load of the class counts as a use wherever it stands in the tree of a root. -/
theorem loadedClass?_of_load (hbuilt : Graph.Built o code g) (s : Site g b a)
    (hwrites : WritesWord g b s.kind w r) {l : Nat} {p : Instr}
    (hp : (g.block b).code[l]? = some p) (hload : p.loads p.temp = true)
    (hclass : g.aliases.class? p.temp = some s.kind) :
    g.context.loadedClass? (g.block b).code (some (.node l [])) = some s.kind := by
  obtain ⟨_, _, _, _, _, hloaded, _⟩ := hwrites
  obtain ⟨_, p', _, hp', hload', href, hclass'⟩ := Context.loadedClass?_eq_some hloaded
  have href := hbuilt.reference_of_class (List.mem_of_getElem? hp') (List.mem_of_getElem? hp)
    hload' hload hclass' hclass href
  have hop : p.op = .tload := (Instr.loads_iff.1 hload).1
  simp only [Context.loadedClass?, Context.at?, Option.bind_some, Tree.index, hp, hop, href,
    decide_true, Bool.and_self, if_true]
  exact hclass

/-- What stays on the stack has been there all along. -/
theorem mem_stack_of_lt {i i' : Nat} {t : Tree} (ht : t ∈ (grown (g.block b).code i').stack)
    (hi : t.index < i) (hle : i ≤ i') (hn : i' ≤ (g.block b).code.length) :
    t ∈ (grown (g.block b).code i).stack := by
  induction i' with
  | zero =>
    obtain rfl := Nat.le_zero.1 hle
    exact ht
  | succ i' ih =>
    rcases Nat.lt_or_eq_of_le hle with hlt | rfl
    · refine ih ((mem_stack_succ (List.getElem?_eq_getElem hn) ht).resolve_right ?_)
        (Nat.le_of_lt_succ hlt) (Nat.le_of_succ_le hn)
      omega
    · exact ht

/-- The forest keeps the allocation on its stack until the new object is stored. -/
theorem stack_ne_nil (s : Site g b a) {i : Nat} (ha : a ≤ i) (hi : i < s.store) :
    (grown (g.block b).code (i + 1)).stack ≠ [] := by
  intro hempty
  obtain ⟨ps, t, hps, _, _, _, ht, hindex⟩ := s.feedsStore
  have hstay := mem_stack_of_lt (List.mem_of_getElem? ht) (i := i + 1) (by omega) hi
    (Nat.le_of_lt (List.getElem?_eq_some_iff.1 hps).1)
  rw [hempty] at hstay
  cases hstay

/-- An instruction that takes everything off the stack of the forest takes no reference to
the object. -/
theorem not_holds_of_cleared (hbuilt : Graph.Built o code g) (s : Site g b a)
    (hfollowed : s.Followed limit) (hwrites : WritesWord g b s.kind w r)
    {r' : Root} (hroot : RootAt g b r') (hlimit : r'.tree.index < limit)
    {p : Instr} (hp : (g.block b).code[r'.tree.index]? = some p) (hstore : p.op ≠ .tstore)
    (hfield : p.storesField = false)
    (hempty : (grown (g.block b).code (r'.tree.index + 1)).stack = [])
    (hparts : ∀ t ∈ (grown (g.block b).code r'.tree.index).stack, ∀ c ∈ t.indices,
      c ∈ r'.tree.indices ++ r'.dropped.flatMap (·.indices)) :
    ∀ t ∈ (grown (g.block b).code r'.tree.index).stack, ¬ t.Holds g b a s.kind := by
  have hlt := (List.getElem?_eq_some_iff.1 hp).1
  intro t ht hholds
  have hbefore := (inv_grown (Nat.le_of_lt hlt)).stack_lt t ht
  rcases hholds with hindex | ⟨pl, hpl, hload, hclass⟩
  · -- the allocation is taken by the store of its object
    rcases Nat.lt_trichotomy r'.tree.index s.store with hearly | heq | hlate
    · exact s.stack_ne_nil (by omega) hearly hempty
    · exact hstore (s.op_store (heq ▸ hp)).1
    · exact s.feedsStore.index_ne hlate (Nat.le_of_lt hlt) t ht hindex
  · -- a load of the class may not be abandoned
    have hlate := s.store_lt_load hbuilt hpl hload hclass
    have hpermitted := (hfollowed.calm r' hroot (by omega) hlimit).2 t.index
      (hparts t ht _ t.index_mem_indices)
      (s.loadedClass?_of_load hbuilt hwrites hpl hload hclass)
    have hnofield : g.context.variants.isFieldStore p = false :=
      (isFieldStore_standard p).trans hfield
    unfold Context.permitted? at hpermitted
    rw [hp] at hpermitted
    simp [hnofield, hstore] at hpermitted

/-- All references to the object are known while it is followed and not used. -/
theorem confined (hbuilt : Graph.Built o code g) (hmade : ∀ p ∈ code, p.Constructed)
    (s : Site g b a) (hfollowed : s.Followed limit) (hwrites : WritesWord g b s.kind w r)
    (hrun : Run g h b n m) (ha : a < n) (hlimit : n ≤ limit)
    (hunused : ∀ j e, a < j → j < n → h[h.length - n + j]? = some e →
      ¬ e.Uses g s.kind (h.length - n + a)) :
    Confined g b a s.kind (h.length - n + a) n h m := by
  obtain ⟨b', hb⟩ : ∃ b', b = b' := ⟨b, rfl⟩
  rw [hb] at hrun
  induction hrun with
  | start => omega
  | jump => omega
  | exec run at_ step ih =>
    rename_i h b' i m m' p operands results
    subst hb
    have hle := run.visit.1
    have hlength : (h ++ [(⟨⟨b, i⟩, p, operands, results⟩ : Event)]).length - (i + 1) =
        h.length - i := by simp
    rw [hlength] at hunused ⊢
    have hshape := hbuilt.shaped hmade (List.mem_of_getElem? at_)
    rcases Nat.lt_succ_iff_lt_or_eq.1 ha with hai | rfl
    · have hconf := ih hai (Nat.le_of_succ_le hlimit)
        (fun j e haj hj he => hunused j e haj (Nat.lt_succ_of_lt hj) (getElem?_append_of_some he))
        rfl
      refine hconf.step at_ hshape step (by omega) (hunused i _ hai (Nat.lt_succ_self i) ?_) ?_
      · rw [Nat.sub_add_cancel hle]
        exact List.getElem?_concat_length
      · intro hcomplex hzero hone t ht
        obtain ⟨r', hroot, rfl, hempty, hparts⟩ := exists_clearing_root at_
          (hshape.isMeta_eq_false hzero) (.inr ⟨hzero, hone⟩)
        refine s.not_holds_of_cleared hbuilt hfollowed hwrites hroot hlimit at_ ?_ ?_ hempty
          hparts t (List.mem_of_mem_drop ht)
        · exact fun hop => hzero (hshape.outputs_eq_zero (.inl hop))
        · exact Bool.eq_false_iff.2 fun hfield => hzero (hshape.outputs_eq_zero (.inr hfield))
    · obtain ⟨pa, hpa, hop⟩ := s.allocates
      rw [hpa, Option.some_inj] at at_
      subst at_
      rw [Nat.sub_add_cancel hle]
      exact .start run.born hpa hshape hop step

/-- The operand in which a root may use the object is not used otherwise. -/
theorem not_permitted (s : Site g b a) {r' : Root} (hroot : RootAt g b r') {l j q : Nat}
    {p : Instr} (hfeeds : Feeds (g.block b).code l j q) (hp : (g.block b).code[j]? = some p)
    (hloaded : g.context.loadedClass? (g.block b).code (some (.node l [])) = some s.kind)
    (hpermitted : g.context.permitted? (g.block b).code r' = some l)
    (hnofield : ¬ (p.storesField = true ∧ q = 1))
    (hnocopy : ¬ (p.op = .tstore ∧ g.aliases.class? p.temp = some s.kind)) : False := by
  unfold Context.permitted? at hpermitted
  split at hpermitted
  · cases hpermitted
  · rename_i p' hp'
    have hgrown := hroot.grown (List.getElem?_eq_some_iff.1 hp').1
    -- the root takes the load, and nothing else does
    have htaken : ∀ {q' : Nat}, (r'.tree.operand? q').map (·.index) = some l →
        r'.tree.index = j ∧ q' = q ∧ p' = p := by
      intro q' hq'
      obtain ⟨u, hu, rfl⟩ := Option.map_eq_some_iff.1 hq'
      obtain ⟨hindex, hq⟩ := (hgrown.operand hu).1.unique hfeeds
      rw [hindex, hp, Option.some_inj] at hp'
      exact ⟨hindex, hq, hp'.symm⟩
    split at hpermitted
    · rename_i hfield
      obtain ⟨_, rfl, rfl⟩ := htaken hpermitted
      exact hnofield ⟨(isFieldStore_standard p').symm.trans hfield, rfl⟩
    · split at hpermitted
      · rename_i hop
        split at hpermitted
        · rename_i k k' hk hk'
          split at hpermitted
          · rename_i heq
            obtain ⟨u, hu, rfl⟩ := Option.map_eq_some_iff.1 hpermitted
            obtain ⟨_, _, rfl⟩ := htaken hpermitted
            rw [hu] at hk'
            have hsame : some k' = some s.kind := hk'.symm.trans hloaded
            rw [Option.some_inj] at hsame
            refine hnocopy ⟨hop, ?_⟩
            rw [← hsame, ← heq]
            exact hk
          · cases hpermitted
        · cases hpermitted
      · cases hpermitted

/-- An instruction that uses the object while it is followed is part of a tree that is not
finished yet. -/
theorem pending_of_use (hbuilt : Graph.Built o code g) (hmade : ∀ p ∈ code, p.Constructed)
    (s : Site g b a) (hfollowed : s.Followed limit) (hwrites : WritesWord g b s.kind w r)
    (hlimit : r.tree.index < limit) {j k : Nat} {p : Instr} {m' : Machine}
    {operands results : List Value} (hconf : Confined g b a s.kind k j h m)
    (hp : (g.block b).code[j]? = some p) (hstep : Exec h p m operands results m')
    (huse : Event.Uses g s.kind ⟨⟨b, j⟩, p, operands, results⟩ k) (hle : j ≤ r.tree.index) :
    ∃ t ∈ (grown (g.block b).code (r.tree.index + 1)).stack, j ∈ t.indices := by
  obtain ⟨q, hq, hnofield, hnocopy⟩ := huse
  have hshape := hbuilt.shaped hmade (List.mem_of_getElem? hp)
  have hn : r.tree.index + 1 ≤ (g.block b).code.length := Nat.le_trans hlimit hfollowed.limit_le
  have hmeta := hstep.isMeta_of_operand (List.mem_of_getElem? hq)
  by_cases hcomplex : p.isComplex = true
  · exfalso
    obtain ⟨hoperands, _⟩ := hstep.of_isComplex hcomplex
    rw [hoperands] at hq
    obtain ⟨d, hd⟩ := List.mem_iff_getElem?.1 (List.mem_reverse.1 (List.mem_of_getElem? hq))
    obtain ⟨t, ht, hholds⟩ := hconf.stack d hd
    obtain ⟨r', hroot, rfl, hempty, hparts⟩ := exists_clearing_root hp hmeta (.inl hcomplex)
    refine s.not_holds_of_cleared hbuilt hfollowed hwrites hroot (Nat.lt_of_le_of_lt hle hlimit)
      hp ?_ ?_ hempty hparts t (List.mem_of_getElem? ht) hholds
    · intro hop
      simp [Instr.isComplex, hop, Opcode.row] at hcomplex
    · refine Bool.eq_false_iff.2 fun hfield => ?_
      simp only [Instr.storesField, Bool.or_eq_true, decide_eq_true_eq] at hfield
      rcases hfield with hop | hop <;> simp [Instr.isComplex, hop, Opcode.row] at hcomplex
  · rw [Bool.not_eq_true] at hcomplex
    obtain ⟨t, hfeeds, hholds⟩ := hconf.feeds_operand hp hshape hmeta hcomplex hstep hq
    rcases hholds with hindex | ⟨pl, hpl, hload, hclass⟩
    · -- the allocation feeds the store of its object only
      exfalso
      rw [hindex] at hfeeds
      obtain ⟨rfl, rfl⟩ := hfeeds.unique s.feedsStore
      obtain ⟨hop, htemp⟩ := s.op_store hp
      refine hnocopy ⟨hop, ?_⟩
      simp only [htemp]
      exact s.class_eq
    · rcases (inv_grown hn).parts (Nat.lt_succ_of_le hle) hp hmeta with hpending | hdone
      · exact hpending
      · -- in the tree of a root, the load is where the root may use the object
        exfalso
        obtain ⟨r', hr', t', ht', hj⟩ := hdone
        obtain ⟨hroot', hlt'⟩ := rootAt_of_mem hn hr'
        obtain ⟨hgrown, hindex⟩ := (inv_grown hn).roots_grown r' hr' t' ht'
        have hl := (inv_grown hn).roots_closed r' hr' t' ht' j hj t.index q hfeeds
        have hlate := s.store_lt_load hbuilt hpl hload hclass
        have hjle := hgrown.le_index j hj
        have hlt := hfeeds.lt
        have hmem : t.index ∈ r'.tree.indices ++ r'.dropped.flatMap (·.indices) := by
          rcases List.mem_cons.1 ht' with rfl | ht'
          · exact List.mem_append_left _ hl
          · exact List.mem_append_right _ (List.mem_flatMap.2 ⟨t', ht', hl⟩)
        have hloaded := s.loadedClass?_of_load hbuilt hwrites hpl hload hclass
        have hpermitted := (hfollowed.calm r' hroot' (by omega) (by omega)).2 _ hmem hloaded
        exact s.not_permitted hroot' hfeeds hp hloaded hpermitted hnofield hnocopy

/-! ## Written in time -/

/-- A run before index `n` of the block has written word `w` of the object before index
`j`. -/
def Written (_ : Site g b a) (h : List Event) (n j w : Nat) : Prop :=
  ∃ i e, a < i ∧ i < j ∧ h[h.length - n + i]? = some e ∧ e.Writes g (h.length - n + a) w

/-- A run before index `n` of the block has to have written the object before index `j`:
there the block ends, something is collected, or the object is used. -/
def Due (s : Site g b a) (h : List Event) (n j : Nat) : Prop :=
  a < j ∧ ((j = n ∧ n = (g.block b).code.length) ∨
    j < n ∧ ∃ e, h[h.length - n + j]? = some e ∧
      (e.instr.collects = true ∨ e.Uses g s.kind (h.length - n + a)))

/-- A run before index `n` of the block has written all words of the object in time. -/
def Covered (s : Site g b a) (h : List Event) (n : Nat) : Prop :=
  ∀ j, s.Due h n j → ∀ w : Nat, w * g.pointerSize.toInt < s.size.toInt → s.Written h n j w

/-- The ways in which a run before index `n` of the block has not written the object in
time. -/
inductive Gap (s : Site g b a) (h : List Event) (n : Nat) : Prop where
  /-- Something is collected before the new object is stored. -/
  | early {j : Nat} {e : Event} (words : 0 < s.size.toInt) (after : a < j)
      (before : j < s.store) (reached : j < n) (event : h[h.length - n + j]? = some e)
      (collects : e.instr.collects = true)
  /-- The object is used in a tree that is not finished yet when word `w` is written. -/
  | pending {j w : Nat} {e : Event} {r : Root} {t : Tree} (after : a < j) (reached : j < n)
      (event : h[h.length - n + j]? = some e) (uses : e.Uses g s.kind (h.length - n + a))
      (word : w * g.pointerSize.toInt < s.size.toInt) (unwritten : ¬ s.Written h n j w)
      (root : RootAt g b r) (writes : WritesWord g b s.kind w r)
      (stack : t ∈ (grown (g.block b).code r.tree.index).stack) (part : j ∈ t.indices)
  /-- The size of the object wraps around, and words beyond the 64th are not followed. -/
  | wrapped {j w : Nat} (due : s.Due h n j) (word : w * g.pointerSize.toInt < s.size.toInt)
      (unwritten : ¬ s.Written h n j w) (beyond : 64 ≤ w)
      (wraps : 2 ^ 63 ≤ s.size.toInt + g.pointerSize.toInt - 1)

/-- The run before an event of the block that a run stands in. -/
theorem run_at (hrun : Run g h b n m) {j : Nat} (hj : j < n) {e : Event}
    (he : h[h.length - n + j]? = some e) :
    ∃ m₀ m₁, e.place = ⟨b, j⟩ ∧ (g.block b).code[j]? = some e.instr ∧
      Run g (h.take (h.length - n + j)) b j m₀ ∧
      Exec (h.take (h.length - n + j)) e.instr m₀ e.operands e.results m₁ ∧
      Run g (h.take (h.length - n + j) ++ [e]) b (j + 1) m₁ ∧
      (h.take (h.length - n + j)).length - j = h.length - n := by
  obtain ⟨hle, _, hplaces⟩ := hrun.visit
  obtain ⟨e', he', hplace⟩ := hplaces j hj
  rw [he, Option.some_inj] at he'
  subst he'
  obtain ⟨m₀, m₁, hbefore, hat, hstep, hafter⟩ := hrun.before he
  rw [hplace] at hbefore hat hafter
  rw [List.take_add_one, he, Option.toList_some] at hafter
  refine ⟨m₀, m₁, hplace, hat, hbefore, hstep, hafter, ?_⟩
  rw [List.length_take]
  omega

/-- A store that the pass counts has written its words once it is executed. -/
theorem written_of_root (hbuilt : Graph.Built o code g) (hmade : ∀ p ∈ code, p.Constructed)
    (hptr : isPointerSize g.pointerSize = true) (s : Site g b a) (hroot : RootAt g b r)
    (hwrites : WritesWord g b s.kind w r) (hlt : s.store < r.tree.index)
    (hrun : Run g h b n m) {j : Nat} (hj : r.tree.index < j) (hn : j ≤ n) :
    s.Written h n j w := by
  have hlt' := Nat.lt_of_lt_of_le hj hn
  obtain ⟨e, he, _⟩ := hrun.visit.2.2 _ hlt'
  obtain ⟨m₀, m₁, hplace, _, _, _, hafter, hbase⟩ := run_at hrun hlt' he
  have hwrite := s.writes_of_root hbuilt hmade hptr hroot hwrites hlt hafter hplace
  rw [hbase] at hwrite
  exact ⟨r.tree.index, e, Nat.lt_trans s.feedsStore.lt hlt, hj, he, hwrite⟩

/-- A field store leaves the stack of the forest as it was below its operands. -/
theorem mem_stack_of_store (hbuilt : Graph.Built o code g) (hmade : ∀ p ∈ code, p.Constructed)
    {i : Nat} {p : Instr} (hp : (g.block b).code[i]? = some p) (hfield : p.storesField = true)
    {t : Tree} (ht : t ∈ (grown (g.block b).code (i + 1)).stack) :
    t ∈ (grown (g.block b).code i).stack := by
  have houtputs := (hbuilt.shaped hmade (List.mem_of_getElem? hp)).outputs_eq_zero (.inr hfield)
  have hgrows := grows_grown hp
  generalize grown (g.block b).code (i + 1) = s' at hgrows ht
  cases hgrows with
  | skip => exact ht
  | complex => cases ht
  | root => exact List.mem_of_mem_drop ht
  | push _ _ outputs => simp [houtputs] at outputs
  | spill _ _ some => exact absurd houtputs some

/-- No instruction takes a reference to the object before the object is stored. -/
theorem not_taken (hbuilt : Graph.Built o code g) (hmade : ∀ p ∈ code, p.Constructed)
    (s : Site g b a) (hfollowed : s.Followed limit) (hroot : s.store < r.tree.index)
    (hlimit : r.tree.index < limit) (hwrites : WritesWord g b s.kind w r)
    (hrun : Run g h b n m) {j : Nat} (haj : a < j) (hjn : j < n) (hj : j < s.store) {e : Event}
    (he : h[h.length - n + j]? = some e) : .object (h.length - n + a) ∉ e.operands := by
  induction j using Nat.strongRecOn generalizing e with
  | ind j ih =>
    intro htaken
    obtain ⟨m₀, m₁, hplace, hp, hbefore, hstep, _, hbase⟩ := run_at hrun hjn he
    -- so far nothing has taken one, and all of them are known
    have hconf := s.confined hbuilt hmade hfollowed hwrites hbefore haj (by omega) (by
      intro i e' hai hij he'
      rw [hbase] at he' ⊢
      rintro ⟨q, hq, _⟩
      exact ih i hij hai (by omega) (by omega) (getElem?_of_take he').2
        (List.mem_of_getElem? hq))
    rw [hbase] at hconf
    have hshape := hbuilt.shaped hmade (List.mem_of_getElem? hp)
    have hmeta := hstep.isMeta_of_operand htaken
    have hcomplex : e.instr.isComplex = false := by
      refine Bool.eq_false_iff.2 fun hcomplex => ?_
      obtain ⟨_, _, rfl, hempty, _⟩ := exists_clearing_root hp hmeta (.inl hcomplex)
      exact s.stack_ne_nil (Nat.le_of_lt haj) hj hempty
    obtain ⟨q, hq⟩ := List.mem_iff_getElem?.1 htaken
    obtain ⟨t, hfeeds, hholds⟩ := hconf.feeds_operand hp hshape hmeta hcomplex hstep hq
    rcases hholds with hindex | ⟨pl, hpl, hload, hclass⟩
    · rw [hindex] at hfeeds
      exact Nat.ne_of_lt hj (hfeeds.unique s.feedsStore).1
    · have hlate := s.store_lt_load hbuilt hpl hload hclass
      have hlt := hfeeds.lt
      omega

/-- The first instruction that uses the object is one that does so too early. -/
theorem gap_of_use (hbuilt : Graph.Built o code g) (hmade : ∀ p ∈ code, p.Constructed)
    (s : Site g b a) (hfollowed : s.Followed limit) (hroot : RootAt g b r)
    (hlimit : r.tree.index < limit) (hwrites : WritesWord g b s.kind w r)
    (hrun : Run g h b n m) (hw : w * g.pointerSize.toInt < s.size.toInt) {j : Nat}
    (haj : a < j) (hjn : j < n) (hle : j ≤ r.tree.index) {e : Event}
    (he : h[h.length - n + j]? = some e) (huse : e.Uses g s.kind (h.length - n + a))
    (hnot : ¬ s.Written h n j w) : s.Gap h n := by
  -- by induction on `j`: either no earlier instruction uses the object, or the gap is there
  induction j using Nat.strongRecOn generalizing e with
  | ind j ih =>
    by_cases hearlier : ∃ i e', a < i ∧ i < j ∧ h[h.length - n + i]? = some e' ∧
        e'.Uses g s.kind (h.length - n + a)
    · obtain ⟨i, e', hai, hij, he', huse'⟩ := hearlier
      refine ih i hij hai (Nat.lt_trans hij hjn) (by omega) he' huse' fun hwritten => hnot ?_
      obtain ⟨i', e'', hai', hi', hrest⟩ := hwritten
      exact ⟨i', e'', hai', Nat.lt_trans hi' hij, hrest⟩
    · obtain ⟨m₀, m₁, hplace, hp, hbefore, hstep, _, hbase⟩ := run_at hrun hjn he
      have hconf := s.confined hbuilt hmade hfollowed hwrites hbefore haj (by omega) (by
        intro i e' hai hij he'
        rw [hbase] at he' ⊢
        exact fun huse' => hearlier ⟨i, e', hai, hij, (getElem?_of_take he').2, huse'⟩)
      rw [hbase] at hconf
      obtain ⟨t, ht, hpart⟩ := s.pending_of_use hbuilt hmade hfollowed hwrites hlimit hconf hp
        hstep huse hle
      have hstay := hwrites
      obtain ⟨p', _, _, hp', hfield, _⟩ := hstay
      exact .pending haj hjn he huse hw hnot hroot hwrites
        (mem_stack_of_store hbuilt hmade hp' hfield ht) hpart

/-- A run has written all words of the object in time unless there is a gap. -/
theorem covered_iff (hbuilt : Graph.Built o code g) (hmade : ∀ p ∈ code, p.Constructed)
    (hptr : isPointerSize g.pointerSize = true) (s : Site g b a) (hfollowed : s.Followed limit)
    (hrun : Run g h b n m) : s.Covered h n ↔ ¬ s.Gap h n := by
  obtain ⟨words, hwords, hwritten⟩ := hfollowed.written
  constructor
  · intro hcovered hgap
    cases hgap with
    | early hsize haj hj hjn he hcollects =>
      obtain ⟨r, _, hlt, hlimit, hwrites⟩ := hwritten 0
        (hasWord_of_wordsOf hptr s.nonneg hwords (by simpa using hsize) (.inl (by decide)))
      obtain ⟨i, e', hai, hij, he', _, htarget, _⟩ :=
        hcovered _ ⟨haj, .inr ⟨hjn, _, he, .inl hcollects⟩⟩ 0 (by simpa using hsize)
      exact s.not_taken hbuilt hmade hfollowed hlt hlimit hwrites hrun hai (by omega) (by omega)
        he' (List.mem_of_getElem? htarget)
    | pending haj hjn he huse hw hnot =>
      exact hnot (hcovered _ ⟨haj, .inr ⟨hjn, _, he, .inr huse⟩⟩ _ hw)
    | wrapped hdue hw hnot => exact hnot (hcovered _ hdue _ hw)
  · intro hgap j hdue w hw
    by_contra hnot
    by_cases hwraps : 64 ≤ w ∧ 2 ^ 63 ≤ s.size.toInt + g.pointerSize.toInt - 1
    · exact hgap (.wrapped hdue hw hnot hwraps.1 hwraps.2)
    · obtain ⟨r, hroot, hlt, hlimit, hwrites⟩ := hwritten w
        (hasWord_of_wordsOf hptr s.nonneg hwords hw (by omega))
      -- the store of the word is not executed yet
      have hle : j ≤ r.tree.index := by
        refine Nat.le_of_not_lt fun hj => hnot ?_
        refine s.written_of_root hbuilt hmade hptr hroot hwrites hlt hrun hj ?_
        rcases hdue.2 with ⟨hjn, _⟩ | ⟨hjn, _⟩
        · exact Nat.le_of_eq hjn
        · exact Nat.le_of_lt hjn
      obtain ⟨haj, ⟨hjn, hn⟩ | ⟨hjn, e, he, hcollects | huse⟩⟩ := hdue
      · have := hfollowed.limit_le
        omega
      · obtain ⟨_, _, _, hp, _⟩ := run_at hrun hjn he
        rcases Nat.lt_trichotomy j s.store with hearly | heq | hlate
        · have hsize : 0 ≤ w * g.pointerSize.toInt := by
            rcases pointerSize_cases hptr with hptr | hptr | hptr <;> rw [hptr] <;> omega
          exact hgap (.early (by omega) haj hearly hjn he hcollects)
        · simp [Instr.collects, (s.op_store (heq ▸ hp)).1, Opcode.row] at hcollects
        · rw [s.not_collects hfollowed hroot hlimit hp hlate hle] at hcollects
          cases hcollects
      · exact hgap (s.gap_of_use hbuilt hmade hfollowed hroot hlimit hwrites hrun hw haj hjn hle
          he huse hnot)

end Site

end StackFlow
