import StackFlow.Proofs.Aliases
import StackFlow.Proofs.Replay

/-!
# Where aliases get their value

Temporaries of one class copy one another, and all values of a class come in through the
one store that is no copy.

* `Copies g t u`: the only store of `t` copies `u`.  `Origin g t r` follows the copies
  to the temporary `r` that copies none.
* `Aliases.eqvGen_of_class?` reads a class as a chain of copies, so that the members of
  a class have the same origin (`origin_congr`).
* `origin_stored` and `origin_before_load` say how the store of an origin lies to the
  loads of its class.
* `Run.loaded_origin` is the result: whatever member of a class a run loads, it gets
  what was stored last into the origin.
-/

namespace StackFlow

open Relation Forest

/-- Whether the instruction at `q` stores the temporary `t`. -/
def Graph.StoresAt (g : Graph) (q : Place) (t : Int64) : Prop :=
  ∃ p, g.at? q = some p ∧ p.stores t = true

/-! ## Temporaries with a single store -/

section Singles

variable {g : Graph} {t : Int64} {q q' : Place}

theorem two_le_count {xs ys : List Int64} (hxs : t ∈ xs) (hys : t ∈ ys) :
    2 ≤ (xs ++ ys).count t := by
  have := List.count_pos_iff.2 hxs
  have := List.count_pos_iff.2 hys
  rw [List.count_append]
  omega

/-- The temporaries stored by the code, one for each store. -/
def storedTemps (code : List Instr) : List Int64 :=
  (code.filter (·.op = .tstore)).map (·.temp)

theorem mem_storedTemps {code : List Instr} :
    t ∈ storedTemps code ↔ ∃ p ∈ code, p.stores t = true := by
  simp only [storedTemps, List.mem_map, List.mem_filter, decide_eq_true_eq, Instr.stores,
    Bool.and_eq_true, and_assoc]

theorem storedTemps_append (xs ys : List Instr) :
    storedTemps (xs ++ ys) = storedTemps xs ++ storedTemps ys := by
  simp [storedTemps]

/-- A list that stores `t` once stores it at one index. -/
theorem index_unique {code : List Instr} {i j : Nat} {p p' : Instr}
    (hcount : (storedTemps code).count t ≤ 1) (hp : code[i]? = some p)
    (hp' : code[j]? = some p') (hstores : p.stores t = true) (hstores' : p'.stores t = true) :
    i = j := by
  have hlt : ∀ {i j : Nat} {p p' : Instr}, code[i]? = some p → code[j]? = some p' →
      p.stores t = true → p'.stores t = true → ¬ i < j := by
    intro i j p p' hp hp' hstores hstores' hij
    rw [← List.take_append_drop j code, storedTemps_append] at hcount
    have htake : p ∈ code.take j :=
      List.mem_iff_getElem?.2 ⟨i, by rw [List.getElem?_take, if_pos hij, hp]⟩
    have hdrop : p' ∈ code.drop j :=
      List.mem_iff_getElem?.2 ⟨0, by rw [List.getElem?_drop, Nat.add_zero, hp']⟩
    have := two_le_count (mem_storedTemps.2 ⟨p, htake, hstores⟩)
      (mem_storedTemps.2 ⟨p', hdrop, hstores'⟩)
    omega
  have := hlt hp hp' hstores hstores'
  have := hlt hp' hp hstores' hstores
  omega

theorem mem_singleStores : t ∈ Aliases.singleStores g ↔
    (g.layout.toList.flatMap fun b => storedTemps b.code).count t = 1 := by
  simp only [Aliases.singleStores, TempSet.mem_filter, TempSet.mem_ofList, decide_eq_true_eq]
  refine ⟨And.right, fun h => ⟨?_, h⟩⟩
  exact List.count_pos_iff.1 (Nat.lt_of_lt_of_eq Nat.zero_lt_one h.symm)

theorem getElem?_layout {b : Nat} (hb : b < g.size) : g.layout.toList[b]? = some (g.block b) := by
  have hlt : b < g.layout.size := hb
  simp [Graph.block, Layout.block, hlt]

theorem Graph.StoresAt.lt_size (h : g.StoresAt q t) : q.block < g.size := by
  obtain ⟨p, hp, _⟩ := h
  exact Graph.Built.lt_of_mem_code (List.mem_of_getElem? hp)

/-- A temporary with a single store is stored at one place. -/
theorem place_unique (ht : t ∈ Aliases.singleStores g) (hq : g.StoresAt q t)
    (hq' : g.StoresAt q' t) : q = q' := by
  have hcount := mem_singleStores.1 ht
  have hmem : ∀ {q}, g.StoresAt q t → t ∈ storedTemps (g.block q.block).code := by
    rintro q ⟨p, hp, hstores⟩
    exact mem_storedTemps.2 ⟨p, List.mem_of_getElem? hp, hstores⟩
  have hblock : ∀ {q q'}, g.StoresAt q t → g.StoresAt q' t → ¬ q.block < q'.block := by
    intro q q' hq hq' hlt
    rw [← List.take_append_drop q'.block g.layout.toList, List.flatMap_append] at hcount
    have htake : g.block q.block ∈ g.layout.toList.take q'.block :=
      List.mem_iff_getElem?.2 ⟨q.block, by
        rw [List.getElem?_take, if_pos hlt, getElem?_layout hq.lt_size]⟩
    have hdrop : g.block q'.block ∈ g.layout.toList.drop q'.block :=
      List.mem_iff_getElem?.2 ⟨0, by
        rw [List.getElem?_drop, Nat.add_zero, getElem?_layout hq'.lt_size]⟩
    have := two_le_count (t := t)
      (List.mem_flatMap (f := fun b : Block => storedTemps b.code)|>.2 ⟨_, htake, hmem hq⟩)
      (List.mem_flatMap (f := fun b : Block => storedTemps b.code)|>.2 ⟨_, hdrop, hmem hq'⟩)
    omega
  have heq : q.block = q'.block := by
    have := hblock hq hq'
    have := hblock hq' hq
    omega
  have hle : (storedTemps (g.block q.block).code).count t ≤ 1 := by
    rw [← hcount]
    refine List.Sublist.count_le t ?_
    exact List.sublist_flatten_of_mem (List.mem_map_of_mem
      (List.mem_of_getElem? (getElem?_layout hq.lt_size)))
  obtain ⟨p, hp, hstores⟩ := hq
  obtain ⟨p', hp', hstores'⟩ := hq'
  have hindex : q.index = q'.index := by
    refine index_unique hle hp ?_ hstores hstores'
    rw [heq]
    exact hp'
  cases q
  cases q'
  simp_all

end Singles

/-! ## Copies -/

/-- `Copies g t u`: the only store of `t` copies `u`, which has a single store too. -/
def Copies (g : Graph) (t u : Int64) : Prop :=
  t ∈ Aliases.singleStores g ∧ u ∈ Aliases.singleStores g ∧
    ∃ (b j l : Nat) (p v : Instr), (g.block b).code[j]? = some p ∧ p.stores t = true ∧
      Feeds (g.block b).code l j 0 ∧ (g.block b).code[l]? = some v ∧ v.loads u = true ∧
      v.ty = p.ty

/-- `Origin g t r`: following the copies from `t` leads to `r`, which copies nothing. -/
def Origin (g : Graph) (t r : Int64) : Prop :=
  ReflTransGen (Copies g) t r ∧ ∀ u, ¬ Copies g r u

section Origins

variable {g : Graph} {t u r r' : Int64}

theorem Feeds.source_unique {code : List Instr} {l l' c q : Nat} (h : Feeds code l c q)
    (h' : Feeds code l' c q) : l = l' := by
  obtain ⟨p, t, hp, _, _, _, ht, rfl⟩ := h
  obtain ⟨p', t', hp', _, _, _, ht', rfl⟩ := h'
  rw [hp, Option.some_inj] at hp'
  subst hp'
  rw [ht, Option.some_inj] at ht'
  rw [ht']

theorem Copies.unique {u' : Int64} (h : Copies g t u) (h' : Copies g t u') : u = u' := by
  obtain ⟨ht, _, b, j, l, p, v, hp, hstores, hfeeds, hv, hload, _⟩ := h
  obtain ⟨_, _, b', j', l', p', v', hp', hstores', hfeeds', hv', hload', _⟩ := h'
  have hplace : (⟨b, j⟩ : Place) = ⟨b', j'⟩ :=
    place_unique ht ⟨p, hp, hstores⟩ ⟨p', hp', hstores'⟩
  cases hplace
  obtain rfl := Feeds.source_unique hfeeds hfeeds'
  rw [hv, Option.some_inj] at hv'
  subst hv'
  rw [Instr.loads_iff] at hload hload'
  rw [← hload.2, hload'.2]

theorem Origin.single (h : Origin g t r) (ht : t ∈ Aliases.singleStores g) :
    r ∈ Aliases.singleStores g := by
  rcases h.1.cases_tail with rfl | ⟨u, _, hcopies⟩
  · exact ht
  · exact hcopies.2.1

theorem Copies.origin_iff (h : Copies g t u) : Origin g t r ↔ Origin g u r := by
  constructor
  · rintro ⟨hway, hend⟩
    rcases hway.cases_head with rfl | ⟨u', hcopies, hway⟩
    · exact absurd h (hend u)
    · exact ⟨h.unique hcopies ▸ hway, hend⟩
  · exact fun ⟨hway, hend⟩ => ⟨.head h hway, hend⟩

/-- Temporaries that copies connect have the same origin. -/
theorem origin_congr (h : EqvGen (Copies g) t u) : Origin g t r ↔ Origin g u r := by
  induction h with
  | rel t u hcopies => exact hcopies.origin_iff
  | refl t => exact Iff.rfl
  | symm t u _ ih => exact ih.symm
  | trans t u v _ _ ih ih' => exact ih.trans ih'

theorem Origin.unique (h : Origin g t r) (h' : Origin g t r') : r = r' := by
  obtain ⟨hway, hend⟩ := h
  induction hway using ReflTransGen.head_induction_on with
  | refl =>
    rcases h'.1.cases_head with rfl | ⟨u, hcopies, _⟩
    · rfl
    · exact absurd hcopies (hend u)
  | head hcopies _ ih => exact ih (hcopies.origin_iff.1 h')

end Origins

/-! ## Classes -/

/-- The roots of a block's forest. -/
theorem grown_of_mem_roots {code : List Instr} {r : Root} (hr : r ∈ (Forest.ofCode code).roots) :
    r.tree.Grown code := by
  rw [Forest.ofCode_eq, List.mem_reverse] at hr
  exact ((inv_grown (Nat.le_refl _)).roots_grown r hr _ List.mem_cons_self).1

/-- The forests of all blocks of a graph. -/
def Graph.forests (g : Graph) : Array Forest := g.layout.map fun b => Forest.ofCode b.code

theorem Forest.eq_of_ofGraph {g : Graph} {forests : Array Forest}
    (h : Forest.ofGraph g = .ok forests) : forests = g.forests := by
  unfold Forest.ofGraph at h
  split at h
  · cases h
    rfl
  · cases h

theorem Forest.canLayOut_iff {g : Graph} : (g.layout.all fun b => b.code.all canLayOut) = true ↔
    ∀ b, ∀ p ∈ (g.block b).code, canLayOut p = true := by
  rw [Array.all_eq_true]
  constructor
  · intro hall b p hp
    have hb : b < g.layout.size := Graph.Built.lt_of_mem_code hp
    have hblock := hall b hb
    simp only [Graph.block, Layout.block, Array.getD_eq_getD_getElem?,
      Array.getElem?_eq_getElem hb, Option.getD_some] at hp
    exact List.all_eq_true.1 hblock p hp
  · intro hall b hb
    refine List.all_eq_true.2 fun p hp => hall b p ?_
    simpa [Graph.block, Layout.block, Array.getD_eq_getD_getElem?, hb] using hp

/-- The aliases in a graph. -/
def Graph.aliases (g : Graph) : Aliases :=
  .compute g g.forests (Aliases.singleStores g)

namespace Aliases

variable {g : Graph} {t u k : Int64}

theorem sites_forests (g : Graph) : sites g g.forests =
    g.layout.toList.flatMap fun b => (Forest.ofCode b.code).roots.map (⟨b.code, ·⟩) := by
  rw [sites, Graph.forests, Array.toList_map, ← List.map_prod_left_eq_zip, List.flatMap_map]

/-- The sites of a graph are the roots of its blocks. -/
theorem mem_sites {x : Site} : x ∈ sites g g.forests ↔
    ∃ b < g.size, ∃ r ∈ (Forest.ofCode (g.block b).code).roots, x = ⟨(g.block b).code, r⟩ := by
  rw [sites_forests, List.mem_flatMap]
  constructor
  · rintro ⟨blk, hblk, hx⟩
    obtain ⟨r, hr, rfl⟩ := List.mem_map.1 hx
    obtain ⟨b, hb⟩ := List.mem_iff_getElem?.1 hblk
    have hlt : b < g.size := by simpa [Graph.size] using (List.getElem?_eq_some_iff.1 hb).1
    rw [getElem?_layout hlt, Option.some_inj] at hb
    subst hb
    exact ⟨b, hlt, r, hr, rfl⟩
  · rintro ⟨b, hlt, r, hr, rfl⟩
    exact ⟨g.block b, List.mem_of_getElem? (getElem?_layout hlt), List.mem_map_of_mem hr⟩

theorem copies_of_site {x : Site} (hx : x ∈ sites g g.forests)
    (h : x.Copies (singleStores g) t u) : Copies g t u := by
  obtain ⟨b, -, r, hroot, rfl⟩ := mem_sites.1 hx
  obtain ⟨p, w, v, hp, hstores, ht, hw, hv, hload, hty, hu⟩ := Site.copies_iff.1 h
  exact ⟨ht, hu, b, _, _, p, v, hp, hstores, ((grown_of_mem_roots hroot).operand hw).1, hv, hload,
    hty⟩

/-- What the entries of aliases say: a temporary with a single store is connected to the
name of its class. -/
theorem sound_aliases (h : (t, k) ∈ g.aliases.entries) :
    t ∈ singleStores g ∧ EqvGen (Copies g) t k := by
  obtain ⟨⟨x, -, hsees⟩, hleast⟩ := mem_entries_ofSites.1 h
  have hcopies : CopiesAt (singleStores g) (sites g g.forests) ≤ Copies g := by
    rintro t u ⟨x, hx, hcopies⟩
    exact copies_of_site hx hcopies
  exact ⟨hsees.single, EqvGen.mono hcopies _ _ hleast.1⟩

/-- Members of one class are connected by copies. -/
theorem eqvGen_of_class? (ht : g.aliases.class? t = some k)
    (hu : g.aliases.class? u = some k) : EqvGen (Copies g) t u :=
  .trans _ _ _ (sound_aliases (mem_of_class? ht)).2
    (.symm _ _ (sound_aliases (mem_of_class? hu)).2)

theorem single_of_class? (ht : g.aliases.class? t = some k) : t ∈ singleStores g :=
  (sound_aliases (mem_of_class? ht)).1

end Aliases

/-! ## Stores of an origin and loads of its class -/

section Walks

variable {o : Options} {code : List Instr} {g : Graph} {t r : Int64} {ps : List Place}
  {q : Place} {p : Instr}

/-- What a store of `t` copies has been loaded before, in the same visit to the block. -/
theorem Copies.loaded_before {u : Int64} (h : Copies g t u) (hwalk : Walk g .start ps q)
    (hq : g.StoresAt q t) : ∃ xs ys l v, ps = xs ++ (⟨q.block, l⟩ : Place) :: ys ∧
      Walk g .start xs ⟨q.block, l⟩ ∧ g.at? ⟨q.block, l⟩ = some v ∧ v.loads u = true := by
  obtain ⟨ht, _, b, j, l, p, v, hp, hstores, hfeeds, hv, hload, _⟩ := h
  obtain rfl : q = ⟨b, j⟩ := place_unique ht hq ⟨p, hp, hstores⟩
  obtain ⟨zs, hps, _⟩ := hwalk.visit rfl
  have hmem : (⟨b, l⟩ : Place) ∈ ps := by
    rw [hps]
    exact List.mem_append_right _ (Walk.mem_visited.2 ⟨rfl, hfeeds.lt⟩)
  obtain ⟨xs, ys, hsplit, hbefore, _⟩ := hwalk.cut_of_mem hmem
  exact ⟨xs, ys, l, v, hsplit, hbefore, hv, hload⟩

/-- Before a member of a class is loaded, the origin of the class has been stored. -/
theorem origin_stored (hbuilt : Graph.Built o code g) (hwalk : Walk g .start ps q)
    (hp : g.at? q = some p) (hload : p.loads t = true) (ht : t ∈ Aliases.singleStores g) :
    ∃ r, Origin g t r ∧ ∃ q' ∈ ps, g.StoresAt q' r := by
  -- by induction on the walk: the store of a copy comes with an earlier load
  induction hn : ps.length using Nat.strongRecOn generalizing ps q p t with
  | ind n ih =>
    subst hn
    obtain ⟨q', hq', hstored⟩ := hbuilt.stored_before_load hwalk hp hload
    by_cases hcopy : ∃ u, Copies g t u
    · obtain ⟨u, hcopies⟩ := hcopy
      obtain ⟨xs, ys, hps, hbefore, _⟩ := hwalk.cut_of_mem hq'
      obtain ⟨xs', ys', l, v, hxs, hbefore', hv, hload'⟩ :=
        hcopies.loaded_before hbefore hstored
      obtain ⟨r, horigin, q'', hq'', hstored''⟩ :=
        ih xs'.length (by simp [hps, hxs]) hbefore' hv hload' hcopies.2.1 rfl
      refine ⟨r, hcopies.origin_iff.2 horigin, q'', ?_, hstored''⟩
      rw [hps, hxs]
      simp [hq'']
    · exact ⟨t, ⟨.refl, fun u hu => hcopy ⟨u, hu⟩⟩, q', hq', hstored⟩

/-- Where a member of a class is stored, the origin has been stored. -/
theorem origin_stored_of_store (hbuilt : Graph.Built o code g) (hwalk : Walk g .start ps q)
    {q' : Place} (hq' : q' ∈ ps) (hstored : g.StoresAt q' t) :
    ∃ r, Origin g t r ∧ ∃ q'' ∈ ps, g.StoresAt q'' r := by
  by_cases hcopy : ∃ u, Copies g t u
  · obtain ⟨u, hcopies⟩ := hcopy
    obtain ⟨xs, ys, hps, hbefore, _⟩ := hwalk.cut_of_mem hq'
    obtain ⟨xs', ys', l, v, hxs, hbefore', hv, hload⟩ := hcopies.loaded_before hbefore hstored
    obtain ⟨r, horigin, q'', hq'', hstored''⟩ :=
      origin_stored hbuilt hbefore' hv hload hcopies.2.1
    refine ⟨r, hcopies.origin_iff.2 horigin, q'', ?_, hstored''⟩
    rw [hps, hxs]
    simp [hq'']
  · exact ⟨t, ⟨.refl, fun u hu => hcopy ⟨u, hu⟩⟩, q', hq', hstored⟩

/-- In a block that loads a member of a class, the store of the origin comes first. -/
theorem origin_before_load (hbuilt : Graph.Built o code g) {b l j : Nat}
    (hp : g.at? ⟨b, l⟩ = some p) (hload : p.loads t = true)
    (ht : t ∈ Aliases.singleStores g) (horigin : Origin g t r) (hstored : g.StoresAt ⟨b, j⟩ r) :
    j < l := by
  refine Nat.lt_of_not_le fun hle => ?_
  have hr := horigin.single ht
  have hindex : j ≤ (g.block b).code.length := by
    obtain ⟨_, hp', _⟩ := hstored
    exact Nat.le_of_lt (List.getElem?_eq_some_iff.1 hp').1
  -- the first time control gets to the store, it has been at the load before
  obtain ⟨ps, hwalk, hfirst⟩ := hbuilt.exists_first_walk (q := ⟨b, j⟩) hstored.lt_size hindex
  have hlt : l < j := by
    refine Nat.lt_of_le_of_ne hle ?_
    rintro rfl
    obtain ⟨p', hp', hstores⟩ := hstored
    rw [hp, Option.some_inj] at hp'
    subst hp'
    rw [Instr.loads_iff] at hload
    rw [Instr.stores_iff] at hstores
    rw [hload.1] at hstores
    cases hstores.1
  obtain ⟨zs, hps, _⟩ := hwalk.visit rfl
  have hmem : (⟨b, l⟩ : Place) ∈ ps := by
    rw [hps]
    exact List.mem_append_right _ (Walk.mem_visited.2 ⟨rfl, hlt⟩)
  obtain ⟨xs, ys, hsplit, hbefore, _⟩ := hwalk.cut_of_mem hmem
  obtain ⟨r', horigin', q', hq', hstored'⟩ := origin_stored hbuilt hbefore hp hload ht
  rw [horigin'.unique horigin] at hstored'
  obtain rfl := place_unique hr hstored hstored'
  exact hfirst (hsplit ▸ List.mem_append_left _ hq')

/-- After the origin of a class is stored, a member has to be stored before it is
loaded. -/
theorem stored_after_origin (hbuilt : Graph.Built o code g) {xs ys : List Place} {q₀ : Place}
    (hwalk : Walk g .start (xs ++ q₀ :: ys) q) (hp : g.at? q = some p)
    (hload : p.loads t = true) (ht : t ∈ Aliases.singleStores g) (horigin : Origin g t r)
    (hne : t ≠ r) (hstored : g.StoresAt q₀ r) : ∃ q' ∈ ys, g.StoresAt q' t := by
  obtain ⟨_, hinside, hafter⟩ := hwalk.cut rfl
  obtain ⟨zs, hzs, hfirst⟩ := hbuilt.exists_first_walk hstored.lt_size (Nat.le_of_lt hinside)
  -- the same way, but from the first time control gets to the store of the origin
  have hshort : Walk g .start (zs ++ [q₀] ++ ys) q := (hzs.step hinside).append hafter
  obtain ⟨q', hq', hstored'⟩ := hbuilt.stored_before_load hshort hp hload
  rcases List.mem_append.1 hq' with hq' | hq'
  · exfalso
    rcases List.mem_append.1 hq' with hq' | hq'
    · obtain ⟨r', horigin', q'', hq'', hstored''⟩ :=
        origin_stored_of_store hbuilt hzs hq' hstored'
      rw [horigin'.unique horigin] at hstored''
      obtain rfl := place_unique (horigin.single ht) hstored hstored''
      exact hfirst hq''
    · rw [List.mem_singleton] at hq'
      subst hq'
      obtain ⟨p₁, hp₁, hstores₁⟩ := hstored
      obtain ⟨p₂, hp₂, hstores₂⟩ := hstored'
      rw [hp₁, Option.some_inj] at hp₂
      subst hp₂
      rw [Instr.stores_iff] at hstores₁ hstores₂
      exact hne (hstores₂.2.symm.trans hstores₁.2)
  · exact ⟨q', hq', hstored'⟩

end Walks

section Runs

variable {o : Options} {code : List Instr} {g : Graph} {h : List Event} {b i : Nat}
  {m : Machine} {t r : Int64}

theorem Run.storesAt (hrun : Run g h b i m) {n : Nat} {e : Event} (he : h[n]? = some e)
    (hstores : e.instr.stores t = true) : g.StoresAt e.place t :=
  ⟨e.instr, hrun.at_place he, hstores⟩

/-- In the block it stands in, a run has not stored an origin since it loaded a member of
the class. -/
theorem Run.not_stores_origin (hbuilt : Graph.Built o code g) (hrun : Run g h b i m) {l k : Nat}
    {p : Instr} {e : Event} (hp : g.at? ⟨b, l⟩ = some p) (hload : p.loads t = true)
    (ht : t ∈ Aliases.singleStores g) (horigin : Origin g t r) (hk : h.length - i + l ≤ k)
    (he : h[k]? = some e) : e.instr.stores r = false := by
  obtain ⟨hle, _, hplaces⟩ := hrun.visit
  have hlt := (List.getElem?_eq_some_iff.1 he).1
  obtain ⟨e', he', hplace⟩ := hplaces (k - (h.length - i)) (by omega)
  rw [show h.length - i + (k - (h.length - i)) = k by omega, he, Option.some_inj] at he'
  subst he'
  refine Bool.eq_false_iff.2 fun hstores => ?_
  have hstored := hrun.storesAt he hstores
  rw [hplace] at hstored
  have := origin_before_load hbuilt hp hload ht horigin hstored
  omega

theorem getElem?_of_take {n k : Nat} {e : Event} (he : (h.take n)[k]? = some e) :
    k < n ∧ h[k]? = some e := by
  rw [List.getElem?_take] at he
  split at he
  · exact ⟨‹_›, he⟩
  · cases he

/-- The store of a copy takes what a load of its source has left, and the origin has not
been stored in between. -/
theorem Run.copy_source (hbuilt : Graph.Built o code g) (hmade : ∀ p ∈ code, p.Constructed)
    (hrun : Run g h b i m) {s : Nat} {es : Event} (hes : h[s]? = some es)
    (hstores : es.instr.stores t = true) {u : Int64} (hcopies : Copies g t u)
    (horigin : Origin g u r) :
    ∃ n el, n < s ∧ h[n]? = some el ∧ el.instr.loads u = true ∧
      (∀ v, el.results = [v] → es.operands[0]? = some v) ∧
      ∀ k e, n ≤ k → k ≤ s → h[k]? = some e → e.instr.stores r = false := by
  obtain ⟨ht, hu, b₀, j, l, p, w, hp, hpStores, hfeeds, hw, hload, _⟩ := hcopies
  have hplace : es.place = ⟨b₀, j⟩ :=
    place_unique ht (hrun.storesAt hes hstores) ⟨p, hp, hpStores⟩
  obtain ⟨_, m₁, _, _, _, hrun₁⟩ := hrun.before hes
  rw [hplace] at hrun₁
  change Run g (h.take (s + 1)) b₀ (j + 1) m₁ at hrun₁
  have hlt := (List.getElem?_eq_some_iff.1 hes).1
  have hlj := hfeeds.lt
  have hbase : (h.take (s + 1)).length - (j + 1) = s - j := by
    rw [List.length_take]
    omega
  have hle := hrun₁.visit.1
  obtain ⟨el, es', v, hel, hresults, hes', hv⟩ :=
    hrun₁.feeds hbuilt hmade hfeeds (Nat.lt_succ_self j)
  have helInstr := hrun₁.instr_at (Nat.lt_succ_of_lt hlj) hel hw
  have hjs : j ≤ s := by
    rw [List.length_take] at hle
    omega
  rw [hbase] at hel hes'
  rw [Nat.sub_add_cancel hjs] at hes'
  have hes' := (getElem?_of_take hes').2
  rw [hes, Option.some_inj] at hes'
  subst hes'
  refine ⟨s - j + l, el, by omega, (getElem?_of_take hel).2, helInstr.symm ▸ hload,
    fun v' hv' => ?_, fun k e hk hks he => ?_⟩
  · rw [hresults, List.cons.injEq] at hv'
    rw [← hv'.1]
    exact hv
  · refine hrun₁.not_stores_origin hbuilt (l := l) hw hload hu horigin (hbase ▸ hk) ?_
    rw [List.getElem?_take, if_pos (by omega), he]

/-- Since the last store of a copy, the origin has not been stored either. -/
theorem Run.not_stores_origin_of_last (hbuilt : Graph.Built o code g) (hrun : Run g h b i m)
    {n s k : Nat} {e ek : Event} {v : Value} (he : h[n]? = some e)
    (hload : e.instr.loads t = true) (ht : t ∈ Aliases.singleStores g)
    (horigin : Origin g t r) (hne : t ≠ r) (hlast : LastStore (h.take n) t s v) (hsk : s < k)
    (hkn : k < n) (hek : h[k]? = some ek) : ek.instr.stores r = false := by
  refine Bool.eq_false_iff.2 fun hstores => ?_
  obtain ⟨m₀, _, hbefore, hat, _⟩ := hrun.before he
  have hek' : (h.take n)[k]? = some ek := by rw [List.getElem?_take, if_pos hkn, hek]
  obtain ⟨hlt, hget⟩ := List.getElem?_eq_some_iff.1 hek'
  have hsplit : (h.take n).map (·.place) = ((h.take n).take k).map (·.place) ++
      ek.place :: ((h.take n).drop (k + 1)).map (·.place) := by
    conv_lhs => rw [← List.take_append_drop k (h.take n), List.drop_eq_getElem_cons hlt, hget]
    simp
  have hwalk := hbefore.walk
  rw [hsplit] at hwalk
  obtain ⟨q', hq', p', hp', hstores'⟩ :=
    stored_after_origin hbuilt hwalk hat hload ht horigin hne (hrun.storesAt hek hstores)
  obtain ⟨e', he', rfl⟩ := List.mem_map.1 hq'
  obtain ⟨d, hd⟩ := List.mem_iff_getElem?.1 he'
  rw [List.getElem?_drop] at hd
  have hinstr := hbefore.at_place hd
  rw [hp', Option.some_inj] at hinstr
  rw [hinstr, hlast.2 _ _ (by omega) hd] at hstores'
  cases hstores'

/-- Whatever member of a class a run loads, it gets what was stored last into the origin
of the class. -/
theorem Run.loaded_origin (hbuilt : Graph.Built o code g) (hmade : ∀ p ∈ code, p.Constructed)
    (hrun : Run g h b i m) {n : Nat} {e : Event} (he : h[n]? = some e)
    (hload : e.instr.loads t = true) (ht : t ∈ Aliases.singleStores g)
    (horigin : Origin g t r) : ∃ q v, LastStore (h.take n) r q v ∧ e.results = [v] := by
  induction n using Nat.strongRecOn generalizing e t with
  | ind n ih =>
    obtain ⟨s, v, hlast, hresults⟩ := hrun.loaded hbuilt he hload
    rcases horigin.1.cases_head with rfl | ⟨u, hcopies, _⟩
    · exact ⟨s, v, hlast, hresults⟩
    · have hne : t ≠ r := by
        rintro rfl
        exact horigin.2 u hcopies
      have horigin' := hcopies.origin_iff.1 horigin
      obtain ⟨es, hes, hstores, hoperands⟩ := hlast.1
      obtain ⟨hsn, hes⟩ := getElem?_of_take hes
      obtain ⟨n', el, hn', hel, hload', hvalue, hnone⟩ :=
        hrun.copy_source hbuilt hmade hes hstores hcopies horigin'
      obtain ⟨q, v', hlast', hresults'⟩ :=
        ih n' (Nat.lt_trans hn' hsn) hel hload' hcopies.2.1 horigin'
      have hvv : v' = v := by
        have hv' := hvalue v' hresults'
        rw [hoperands, List.getElem?_cons_zero, Option.some_inj] at hv'
        exact hv'.symm
      rw [hvv] at hlast'
      refine ⟨q, v, hlast'.extend (by omega) fun k ek hk hkn hek => ?_, hresults⟩
      rcases Nat.lt_or_ge s k with hsk | hsk
      · exact hrun.not_stores_origin_of_last hbuilt he hload ht horigin hne hlast hsk hkn hek
      · exact hnone k ek hk hsk hek

/-- A load in the block a run stands in has left what the origin of the class still
holds. -/
theorem Run.class_value (hbuilt : Graph.Built o code g) (hmade : ∀ p ∈ code, p.Constructed)
    (hrun : Run g h b i m) {l : Nat} {p : Instr} (hl : l < i)
    (hp : (g.block b).code[l]? = some p) (hload : p.loads t = true)
    (ht : t ∈ Aliases.singleStores g) (horigin : Origin g t r) :
    ∃ e q v, h[h.length - i + l]? = some e ∧ e.results = [v] ∧ LastStore h r q v := by
  obtain ⟨hle, _, hplaces⟩ := hrun.visit
  obtain ⟨e, he, _⟩ := hplaces l hl
  obtain ⟨q, v, hlast, hresults⟩ := hrun.loaded_origin hbuilt hmade he
    ((hrun.instr_at hl he hp).symm ▸ hload) ht horigin
  refine ⟨e, q, v, he, hresults, ?_⟩
  rw [← List.take_length (l := h)]
  exact hlast.extend (by omega) fun k ek hk _ hek =>
    hrun.not_stores_origin hbuilt hp hload ht horigin hk hek

/-- An operand that the last instruction of a run takes from a load is what the origin of
the class holds. -/
theorem Run.loaded_operand (hbuilt : Graph.Built o code g) (hmade : ∀ p ∈ code, p.Constructed)
    {e : Event} (hrun : Run g (h ++ [e]) b (i + 1) m) {l q : Nat} {p : Instr}
    (hfeeds : Feeds (g.block b).code l i q) (hp : (g.block b).code[l]? = some p)
    (hload : p.loads t = true) (ht : t ∈ Aliases.singleStores g) (horigin : Origin g t r) :
    ∃ n v, LastStore (h ++ [e]) r n v ∧ e.operands[q]? = some v := by
  obtain ⟨el, v, hel, hv, hoperand⟩ := hrun.feeds_last hbuilt hmade hfeeds
  obtain ⟨el', n, v', hel', hv', hlast⟩ :=
    hrun.class_value hbuilt hmade (Nat.lt_succ_of_lt hfeeds.lt) hp hload ht horigin
  rw [hel, Option.some_inj] at hel'
  subst hel'
  rw [hv, List.cons.injEq] at hv'
  exact ⟨n, v, hv'.1 ▸ hlast, hoperand⟩

/-- A temporary holds the new object that the block a run stands in has stored into it. -/
theorem Run.holds_allocated (hbuilt : Graph.Built o code g) (hmade : ∀ p ∈ code, p.Constructed)
    (hrun : Run g h b i m) {a j : Nat} {p : Instr} (hj : j < i)
    (hfeeds : Feeds (g.block b).code a j 0) (hp : (g.block b).code[a]? = some p)
    (halloc : p.allocates = true) (hstored : g.StoresAt ⟨b, j⟩ t)
    (ht : t ∈ Aliases.singleStores g) :
    LastStore h t (h.length - i + j) (.object (h.length - i + a)) := by
  obtain ⟨ea, es, v, hea, hv, hes, hoperand⟩ := hrun.feeds hbuilt hmade hfeeds hj
  have hinstr := hrun.instr_at (Nat.lt_trans hfeeds.lt hj) hea hp
  rw [hrun.allocated hea (hinstr.symm ▸ halloc), List.cons.injEq] at hv
  obtain ⟨ps, hps, hstores⟩ := id hstored
  rw [← hrun.instr_at hj hes hps] at hstores
  obtain ⟨_, _, _, _, hstep, _⟩ := hrun.before hes
  have hop : es.instr.op = .tstore := (Instr.stores_iff.1 hstores).1
  obtain ⟨w, _, _, hoperands, _⟩ := hstep.of_tstore hop
  rw [hoperands, List.getElem?_cons_zero, Option.some_inj] at hoperand
  rw [hoperand, ← hv.1] at hoperands
  refine ⟨⟨es, hes, hstores, hoperands⟩, fun n e hn he => Bool.eq_false_iff.2 fun hagain => ?_⟩
  -- the block stores the temporary at one index only
  have hlt := (List.getElem?_eq_some_iff.1 he).1
  obtain ⟨hle, _, hplaces⟩ := hrun.visit
  obtain ⟨e', he', hplace⟩ := hplaces (n - (h.length - i)) (by omega)
  rw [show h.length - i + (n - (h.length - i)) = n by omega, he, Option.some_inj] at he'
  subst he'
  have hsame := place_unique ht (hrun.storesAt he hagain) hstored
  rw [hplace, Place.mk.injEq] at hsame
  omega

end Runs

end StackFlow
