import StackFlow.Proofs.Exchanges

/-!
# Initialization markers

* `Fuses g b i` is what the marker pass has found out when it exchanges the allocation
  at index `i` of block `b`; `accounts_fuseMarkers` says that it exchanges no other.
* `Fusion.Corridor` holds the places between the allocation and the marker.  Control does
  not leave the corridor but through the marker, and nothing in it collects
  (`Fusion.Inv` and its steps).
-/

namespace StackFlow

open Relation Forest

/-! ## What the marker pass finds out -/

/-- The root of block `b` with the index `i` marks an object of class `k` as
initialized. -/
def MarksAt (g : Graph) (k : Int64) (q : Place) : Prop :=
  ∃ r ∈ (g.context.forest q.block).roots, ∃ p, (g.block q.block).code[q.index]? = some p ∧
    r.tree.index = q.index ∧ p.op = .fullyInitialized ∧
    g.context.loadedClass? (g.block q.block).code (r.tree.operand? 0) = some k

/-- The instruction at `q` is an allocation that clears memory, and some root stores the
object into class `k`. -/
def AllocatesAt (g : Graph) (k : Int64) (q : Place) : Prop :=
  ∃ r ∈ (g.context.forest q.block).roots, ∃ t p, (g.block q.block).code[q.index]? = some p ∧
    g.context.allocatedClass? (g.block q.block).code r.tree = some k ∧
    r.tree.operand? 0 = some t ∧ t.index = q.index ∧ p.op = .gcMalloc

/-- What the marker pass has found out of an allocation that it exchanges. -/
def Fuses (g : Graph) (b i : Nat) : Prop :=
  ∃ k q, MarksAt g k q ∧ AllocatesAt g k ⟨b, i⟩ ∧ g.reachesUncollected ⟨b, i⟩ q = true

/-- The same with the marker that is noted for the class: of several, the last one. -/
def Pairs (g : Graph) (b i : Nat) : Prop :=
  ∃ k q, (g.context.markers g).marks.lookup k = some q ∧ AllocatesAt g k ⟨b, i⟩ ∧
    g.reachesUncollected ⟨b, i⟩ q = true

section Pass

variable {g g' : Graph}

theorem Exchanges.map_collects {code code' : List Instr} (h : Exchanges code code') :
    code'.map (·.collects) = code.map (·.collects) := by
  refine List.ext_getElem? fun i => ?_
  rw [List.getElem?_map, List.getElem?_map]
  rcases h i with ⟨hold, hnew⟩ | ⟨p, p', hold, hnew, hexchanged⟩
  · rw [hold, hnew]
  · rw [hold, hnew, Option.map_some, Option.map_some, hexchanged.collects_eq]

theorem Resembles.collectsIn_eq (h : Resembles g g') (b lo hi : Nat) :
    g'.collectsIn b lo hi = g.collectsIn b lo hi := by
  have hmap : ∀ code : List Instr, ((code.take hi).drop lo).any (·.collects) =
      (((code.map (·.collects)).take hi).drop lo).any id := by
    intro code
    rw [← List.map_take, ← List.map_drop, List.any_map]
    rfl
  rw [Graph.collectsIn, Graph.collectsIn, hmap, hmap, (h.code b).map_collects]

theorem Resembles.escapesBetween_eq (h : Resembles g g') (a b : Nat) :
    g'.escapesBetween a b = g.escapesBetween a b := by
  have hsucc : g'.layout.succ = g.layout.succ := funext h.succ
  have hindices : g'.layout.indices = g.layout.indices := congrArg List.range h.size
  unfold Graph.escapesBetween
  simp only [hsucc, hindices, h.facts]

theorem Resembles.reachesUncollected_eq (h : Resembles g g') (m i : Place) :
    g'.reachesUncollected m i = g.reachesUncollected m i := by
  have hlength : (g'.block m.block).code.length = (g.block m.block).code.length := by
    have hmap := congrArg List.length (h.code m.block).map_collects
    simpa using hmap
  unfold Graph.reachesUncollected
  rw [h.collectsIn_eq, h.collectsIn_eq, h.collectsIn_eq, h.escapesBetween_eq, hlength]

/-- The markers and allocations that have been noted are there. -/
structure Context.Markers.Noted (g : Graph) (m : Context.Markers) : Prop where
  marks : ∀ e ∈ m.marks, MarksAt g e.1 e.2
  allocations : ∀ e ∈ m.allocations, AllocatesAt g e.1 e.2

theorem Context.Markers.Noted.note (h : Resembles g g') {m : Context.Markers}
    (hm : m.Noted g) {b : Nat} {r : Root} (hr : r ∈ (g.context.forest b).roots) :
    (g.context.noteMarker b (g'.block b).code m r).Noted g := by
  unfold Context.noteMarker
  split
  · exact hm
  · rename_i p' hp'
    obtain ⟨p, hp, hexchanged⟩ := (h.code b).of_new hp'
    split
    · rename_i hop
      have heq := hexchanged.eq_of_op (by simp [hop]) (by simp [hop])
      split
      · rename_i k hk
        rw [(h.code b).loadedClass?_eq] at hk
        refine ⟨fun e he => ?_, hm.allocations⟩
        rcases List.mem_cons.1 he with rfl | he
        · exact ⟨r, hr, p, hp, rfl, heq ▸ hop, hk⟩
        · exact hm.marks e he
      · exact hm
    · split
      · rename_i k v hk hv
        split
        · rename_i halloc
          obtain ⟨q', hq', hop⟩ := (Option.any_eq_true _ _).1 halloc
          obtain ⟨q, hq, hexchanged⟩ := (h.code b).of_new hq'
          have hop : q'.op = .gcMalloc := of_decide_eq_true hop
          have heq := hexchanged.eq_of_op (by simp [hop]) (by simp [hop])
          rw [(h.code b).allocatedClass?_eq rfl] at hk
          refine ⟨hm.marks, fun e he => ?_⟩
          rcases List.mem_cons.1 he with rfl | he
          · exact ⟨r, hr, v, q, hq, hk, hv, rfl, heq ▸ hop⟩
          · exact hm.allocations e he
        · exact hm
      · exact hm

/-- What holds of no markers and is kept by each root holds of the markers of a graph. -/
theorem Context.markers_induct {c : Context} {P : Context.Markers → Prop} (hstart : P {})
    (hnote : ∀ b, ∀ r ∈ (c.forest b).roots, ∀ m, P m → P (c.noteMarker b (g.block b).code m r)) :
    P (c.markers g) :=
  List.foldlRecOn _ _ hstart fun _ hm b _ =>
    List.foldlRecOn _ _ hm fun m hm r hr => hnote b r hr m hm

theorem noted_markers (h : Resembles g g') : (g.context.markers g').Noted g :=
  Context.markers_induct ⟨by simp, by simp⟩ fun _ _ hr _ hm => hm.note h hr

theorem mem_of_lookup {k : Int64} {q : Place} {es : List (Int64 × Place)}
    (h : es.lookup k = some q) : (k, q) ∈ es := by
  obtain ⟨xs, ys, hes, _⟩ := List.lookup_eq_some_iff.1 h
  rw [hes]
  simp

/-- Exchanges leave all markers. -/
theorem marks_noteMarker {c : Context} {b : Nat} {r : Root} {code code' : List Instr}
    {m m' : Context.Markers} (h : Exchanges code code') (hm : m'.marks = m.marks) :
    (c.noteMarker b code' m' r).marks = (c.noteMarker b code m r).marks := by
  have hother : ∀ {code : List Instr} {m : Context.Markers} {p : Instr},
      code[r.tree.index]? = some p → p.op ≠ .fullyInitialized →
        (c.noteMarker b code m r).marks = m.marks := by
    intro code m p hp hop
    unfold Context.noteMarker
    rw [hp]
    simp only [hop, if_false]
    split
    · split <;> rfl
    · rfl
  rcases h r.tree.index with ⟨hold, hnew⟩ | ⟨p, p', hold, hnew, hexchanged⟩
  · unfold Context.noteMarker
    rw [hold, hnew]
    exact hm
  · by_cases hop : p.op = .fullyInitialized
    · obtain rfl := hexchanged.eq_of_op' (by simp [hop]) (by simp [hop])
      unfold Context.noteMarker
      rw [hold, hnew, h.loadedClass?_eq]
      simp only [hop, if_true]
      split
      · rw [hm]
      · exact hm
    · have hop' : p'.op ≠ .fullyInitialized := by
        intro hop'
        have heq := hexchanged.eq_of_op (by simp [hop']) (by simp [hop'])
        exact hop (heq ▸ hop')
      rw [hother hold hop, hother hnew hop', hm]

theorem marks_of_resembles (h : Resembles g g') :
    (g.context.markers g').marks = (g.context.markers g).marks := by
  have hindices : g'.layout.indices = g.layout.indices := congrArg List.range h.size
  unfold Context.markers
  rw [hindices]
  let same := fun m' m : Context.Markers => m'.marks = m.marks
  refine List.foldl_rel (r := same) rfl fun b _ m' m hm => ?_
  exact List.foldl_rel (r := same) hm fun r _ m' m hm => marks_noteMarker (h.code b) hm

theorem Pairs.fuses {b i : Nat} (h : Pairs g b i) : Fuses g b i := by
  obtain ⟨k, q, hmark, hallocates, hreaches⟩ := h
  exact ⟨k, q, (noted_markers (.refl g)).marks _ (mem_of_lookup hmark), hallocates, hreaches⟩

/-- The marker pass exchanges only allocations that reach their marker. -/
theorem accounts_fuseMarkers {J : Reason → Nat → Nat → Prop} {s s' : Progress}
    (hJ : ∀ b i, Pairs g b i → J .initMarker b i) (haccounts : s.Accounts g J)
    (hyields : Elision.Yields g.context.fuseMarkers s () s') : s'.Accounts g J := by
  unfold Context.fuseMarkers at hyields
  rw [Elision.yields_get_bind] at hyields
  have hnoted := noted_markers haccounts.resembles
  have hmarks := marks_of_resembles haccounts.resembles
  simp only at hyields
  generalize g.context.markers s.graph = m at hnoted hmarks hyields
  refine Elision.forM_induct (P := fun _ s => s.Accounts g J) haccounts ?_ hyields
  intro _ k _ s s' _ haccounts hyields
  unfold Context.fuseMarker at hyields
  split at hyields
  · rename_i i a hi ha
    rw [Elision.yields_get_bind] at hyields
    split at hyields
    · rename_i hreaches
      have hallocates := hnoted.allocations _ (mem_of_lookup ha)
      rw [haccounts.resembles.reachesUncollected_eq] at hreaches
      obtain ⟨r, hr, t, p, hp, _, _, _, hop⟩ := hallocates
      refine (haccounts.replace hyields hp (.inr (.inr ⟨hop, rfl⟩)) (hJ _ _ ?_)).1
      exact ⟨k, i, hmarks ▸ hi, hnoted.allocations _ (mem_of_lookup ha), hreaches⟩
    · rw [(Elision.yields_pure.1 hyields).2]
      exact haccounts
  · rw [(Elision.yields_pure.1 hyields).2]
    exact haccounts

end Pass

/-! ## From the allocation to the marker -/

/-- An allocation at index `i` of block `b` with the marker that it always reaches. -/
structure Fusion (g : Graph) (b i : Nat) where
  mark : Place
  /-- Where the new object is stored. -/
  store : Nat
  /-- Where the marker's operand is loaded. -/
  load : Nat
  /-- The temporary that the new object is stored into. -/
  origin : Int64
  /-- The temporary that the marker's operand is loaded from. -/
  member : Int64
  allocates : ∃ p, (g.block b).code[i]? = some p ∧ p.op = .gcMalloc
  stores : g.StoresAt ⟨b, store⟩ origin
  feedsStore : Feeds (g.block b).code i store 0
  marks : ∃ p, (g.block mark.block).code[mark.index]? = some p ∧ p.op = .fullyInitialized
  feedsMark : Feeds (g.block mark.block).code load mark.index 0
  loads : ∃ p, (g.block mark.block).code[load]? = some p ∧ p.loads member = true
  single : member ∈ Aliases.singleStores g
  origin_eq : Origin g member origin
  reaches : g.reachesUncollected ⟨b, i⟩ mark = true

theorem Fuses.fusion {g : Graph} {b i : Nat} (h : Fuses g b i) : Nonempty (Fusion g b i) := by
  obtain ⟨k, q, ⟨r, hr, pm, hpm, hindex, hop, hloaded⟩, ⟨r', hr', t, pa, hpa, hallocated, ht,
    htindex, hmalloc⟩, hreaches⟩ := h
  rw [Graph.forest_context] at hr hr'
  obtain ⟨u, pl, hu, hpl, hload, _, hclass⟩ := Context.loadedClass?_eq_some hloaded
  obtain ⟨ps, t', v, hps, hstores, ht', hv, hallocates, hclass'⟩ :=
    Context.allocatedClass?_eq_some rfl hallocated
  rw [ht, Option.some_inj] at ht'
  subst ht'
  have hfeeds := ((grown_of_mem_roots hr).operand hu).1
  have hfeeds' := ((grown_of_mem_roots hr').operand ht).1
  rw [hindex] at hfeeds
  have horigin := origin_self_of_allocates hps hstores hfeeds' hv hallocates
  rw [htindex] at hfeeds'
  exact ⟨{
    mark := q
    store := r'.tree.index
    load := u.index
    origin := ps.temp
    member := pl.temp
    allocates := ⟨pa, hpa, hmalloc⟩
    stores := ⟨ps, hps, hstores⟩
    feedsStore := hfeeds'
    marks := ⟨pm, hpm, hop⟩
    feedsMark := hfeeds
    loads := ⟨pl, hpl, hload⟩
    single := Aliases.single_of_class? hclass
    origin_eq := (origin_congr (Aliases.eqvGen_of_class? hclass hclass')).2 horigin
    reaches := hreaches }⟩

namespace Fusion

variable {o : Options} {code : List Instr} {g : Graph} {b i : Nat}

/-- The places that control may be at after the allocation and before the marker. -/
def Corridor (f : Fusion g b i) (q : Place) : Prop :=
  if b = f.mark.block then q.block = b ∧ i < q.index ∧ q.index ≤ f.mark.index
  else (q.block = b ∧ i < q.index) ∨ (q.block = f.mark.block ∧ q.index ≤ f.mark.index) ∨
    (q.block ≠ b ∧ q.block ≠ f.mark.block ∧
      Search.Leads g.layout.succ (g.layout.indices.filter (· ≠ f.mark.block))
        (g.layout.succ b) q.block)

theorem not_collectsIn {lo hi n : Nat} {p : Instr} (h : g.collectsIn b lo hi = false)
    (hp : (g.block b).code[n]? = some p) (hlo : lo ≤ n) (hhi : n < hi) : p.collects = false := by
  refine Bool.eq_false_iff.2 fun hcollects => Bool.eq_false_iff.1 h ?_
  refine List.any_eq_true.2 ⟨p, List.mem_iff_getElem?.2 ⟨n - lo, ?_⟩, hcollects⟩
  rw [List.getElem?_drop, List.getElem?_take, Nat.add_sub_cancel' hlo, if_pos hhi, hp]

theorem reaches_iff (f : Fusion g b i) :
    if b = f.mark.block then
      i < f.mark.index ∧ g.collectsIn b (i + 1) f.mark.index = false
    else g.collectsIn b (i + 1) (g.block b).code.length = false ∧
      g.collectsIn f.mark.block 0 f.mark.index = false ∧
      ∀ n, Search.Leads g.layout.succ (g.layout.indices.filter (· ≠ f.mark.block))
        (g.layout.succ b) n → (g.block n).facts.collects = false ∧ (g.block n).succ ≠ [] := by
  have h := f.reaches
  unfold Graph.reachesUncollected at h
  simp only at h
  split
  · rename_i hb
    rw [if_pos hb] at h
    simpa using h
  · rename_i hb
    rw [if_neg hb] at h
    simp only [Bool.and_eq_true, Bool.not_eq_true'] at h
    obtain ⟨⟨hfirst, hlast⟩, hescapes⟩ := h
    refine ⟨hfirst, hlast, fun n hn => ?_⟩
    have hnodup : (g.layout.indices.filter (· ≠ f.mark.block)).Nodup :=
      List.nodup_range.filter _
    rw [← Search.mem_visited hnodup] at hn
    simp only [Graph.escapesBetween, ne_eq, hb, not_false_eq_true, decide_true, Bool.true_and,
      List.any_eq_false, Bool.or_eq_true, not_or, Bool.not_eq_true] at hescapes
    obtain ⟨hcollects, hsucc⟩ := hescapes n hn
    refine ⟨hcollects, fun hnil => ?_⟩
    rw [show g.layout.succ n = [] from hnil] at hsucc
    cases hsucc

theorem mark_lt (f : Fusion g b i) :
    f.mark.index < (g.block f.mark.block).code.length := by
  obtain ⟨p, hp, _⟩ := f.marks
  exact (List.getElem?_eq_some_iff.1 hp).1

/-- Nothing in the corridor collects. -/
theorem not_collects (hbuilt : Graph.Built o code g) (f : Fusion g b i) {q : Place} {p : Instr}
    (hq : f.Corridor q) (hp : g.at? q = some p) : p.collects = false := by
  obtain ⟨c, n⟩ := q
  -- the marker itself does not collect either
  have hmark : c = f.mark.block → n = f.mark.index → p.collects = false := by
    rintro rfl rfl
    obtain ⟨p', hp', hop⟩ := f.marks
    rw [Graph.at?, hp', Option.some_inj] at hp
    subst hp
    simp [Instr.collects, hop, Opcode.row]
  have hreaches := f.reaches_iff
  unfold Corridor at hq
  simp only at hq
  split at hq
  · rename_i hb
    rw [if_pos hb] at hreaches
    obtain ⟨rfl, hlo, hhi⟩ := hq
    rcases Nat.lt_or_eq_of_le hhi with hhi | hhi
    · exact not_collectsIn hreaches.2 hp hlo hhi
    · exact hmark hb hhi
  · rename_i hb
    rw [if_neg hb] at hreaches
    rcases hq with ⟨rfl, hlo⟩ | ⟨rfl, hhi⟩ | ⟨_, _, hleads⟩
    · exact not_collectsIn hreaches.1 hp hlo (List.getElem?_eq_some_iff.1 hp).1
    · rcases Nat.lt_or_eq_of_le hhi with hhi | hhi
      · exact not_collectsIn hreaches.2.1 hp (Nat.zero_le _) hhi
      · exact hmark rfl hhi
    · have hcode := List.mem_of_getElem? hp
      have hfacts := (hreaches.2.2 _ hleads).1
      rw [hbuilt.facts_eq (Graph.Built.lt_of_mem_code hcode)] at hfacts
      exact Bool.eq_false_iff.2 (List.any_eq_false.1 hfacts p hcode)

/-- The block of the allocation collects, so that control does not come back to it. -/
theorem not_leads_self (hbuilt : Graph.Built o code g) (f : Fusion g b i)
    (hb : b ≠ f.mark.block) : ¬ Search.Leads g.layout.succ
      (g.layout.indices.filter (· ≠ f.mark.block)) (g.layout.succ b) b := by
  intro hleads
  have hreaches := f.reaches_iff
  rw [if_neg hb] at hreaches
  obtain ⟨p, hp, hop⟩ := f.allocates
  have hcode := List.mem_of_getElem? hp
  have hfacts := (hreaches.2.2 _ hleads).1
  rw [hbuilt.facts_eq (Graph.Built.lt_of_mem_code hcode)] at hfacts
  refine List.any_eq_false.1 hfacts p hcode ?_
  simp [Instr.collects, hop, Opcode.row]

theorem corridor_start (f : Fusion g b i) : f.Corridor ⟨b, i + 1⟩ := by
  have hreaches := f.reaches_iff
  unfold Corridor
  split
  · rename_i hb
    rw [if_pos hb] at hreaches
    exact ⟨rfl, Nat.lt_succ_self i, hreaches.1⟩
  · exact .inl ⟨rfl, Nat.lt_succ_self i⟩

theorem corridor_step (f : Fusion g b i) {c n : Nat} (h : f.Corridor ⟨c, n⟩)
    (hne : (⟨c, n⟩ : Place) ≠ f.mark) : f.Corridor ⟨c, n + 1⟩ := by
  have hlt : c = f.mark.block → n ≤ f.mark.index → n + 1 ≤ f.mark.index := by
    rintro rfl hle
    refine Nat.lt_of_le_of_ne hle ?_
    rintro rfl
    exact hne rfl
  unfold Corridor at h ⊢
  simp only at h ⊢
  split
  · rename_i hb
    rw [if_pos hb] at h
    obtain ⟨rfl, hlo, hhi⟩ := h
    exact ⟨rfl, Nat.lt_succ_of_lt hlo, hlt hb hhi⟩
  · rename_i hb
    rw [if_neg hb] at h
    rcases h with ⟨rfl, hlo⟩ | ⟨hc, hhi⟩ | h
    · exact .inl ⟨rfl, Nat.lt_succ_of_lt hlo⟩
    · exact .inr (.inl ⟨hc, hlt hc hhi⟩)
    · exact .inr (.inr h)

theorem corridor_jump (hbuilt : Graph.Built o code g) (f : Fusion g b i) {c s : Nat}
    (h : f.Corridor ⟨c, (g.block c).code.length⟩) (hs : s ∈ (g.block c).succ) :
    f.Corridor ⟨s, 0⟩ ∧ s ≠ b := by
  have hmark := f.mark_lt
  unfold Corridor at h ⊢
  simp only at h ⊢
  split
  · rename_i hb
    rw [if_pos hb] at h
    obtain ⟨rfl, _, hhi⟩ := h
    rw [← hb] at hmark
    exact absurd hhi (Nat.not_le.2 hmark)
  · rename_i hb
    rw [if_neg hb] at h
    -- a block that control comes to is the marker's or one that was searched
    have hleads : s ≠ f.mark.block → Search.Leads g.layout.succ
        (g.layout.indices.filter (· ≠ f.mark.block)) (g.layout.succ b) s := by
      intro hne
      have hmem : s ∈ g.layout.indices.filter (· ≠ f.mark.block) :=
        List.mem_filter.2 ⟨List.mem_range.2 (hbuilt.succ_lt hs), by simpa using hne⟩
      rcases h with ⟨rfl, _⟩ | ⟨rfl, hhi⟩ | ⟨_, _, hleads⟩
      · exact ⟨s, hs, hmem, .refl⟩
      · exact absurd hhi (Nat.not_le.2 hmark)
      · exact hleads.tail hs hmem
    have hsb : s ≠ b := by
      rintro rfl
      exact f.not_leads_self hbuilt hb (hleads hb)
    by_cases hsm : s = f.mark.block
    · exact ⟨.inr (.inl ⟨hsm, Nat.zero_le _⟩), hsb⟩
    · exact ⟨.inr (.inr ⟨hsb, hsm, hleads hsm⟩), hsb⟩

/-- No block of the corridor leaves the routine. -/
theorem corridor_succ (hbuilt : Graph.Built o code g) (f : Fusion g b i) {c : Nat}
    (h : f.Corridor ⟨c, (g.block c).code.length⟩) : (g.block c).succ ≠ [] := by
  have hmark := f.mark_lt
  have hreaches := f.reaches_iff
  unfold Corridor at h
  simp only at h
  split at h
  · rename_i hb
    obtain ⟨rfl, _, hhi⟩ := h
    rw [← hb] at hmark
    exact absurd hhi (Nat.not_le.2 hmark)
  · rename_i hb
    rw [if_neg hb] at hreaches
    rcases h with ⟨rfl, _⟩ | ⟨rfl, hhi⟩ | ⟨_, _, hleads⟩
    · -- the load of the marker is only reached through the store of the object
      obtain ⟨p, hp, hload⟩ := f.loads
      have hlt := (List.getElem?_eq_some_iff.1 hp).1
      obtain ⟨ps, hwalk, _⟩ := hbuilt.exists_first_walk (q := ⟨f.mark.block, f.load⟩)
        (Graph.Built.lt_of_mem_code (List.mem_of_getElem? hp)) (Nat.le_of_lt hlt)
      obtain ⟨r, horigin, q, hq, hstored⟩ := origin_stored hbuilt hwalk hp hload f.single
      rw [horigin.unique f.origin_eq] at hstored
      obtain rfl := place_unique (f.origin_eq.single f.single) f.stores hstored
      obtain ⟨xs, ys, _, _, _, hafter⟩ := hwalk.cut_of_mem hq
      exact hafter.succ_ne_nil (Ne.symm hb)
    · exact absurd hhi (Nat.not_le.2 hmark)
    · exact (hreaches.2.2 _ hleads).2

end Fusion

/-! ## Runs through the corridor -/

/-- Whether the event marks `v` as initialized. -/
def Event.Marks (e : Event) (v : Value) : Prop :=
  e.instr.op = .fullyInitialized ∧ e.operands = [v]

/-- The object `k` has been marked in the events `h`. -/
def Marked (h : List Event) (k : Nat) : Prop :=
  ∃ j e, k < j ∧ h[j]? = some e ∧ e.Marks (.object k)

theorem Marked.append {h : List Event} {k : Nat} (hmarked : Marked h k) (e : Event) :
    Marked (h ++ [e]) k := by
  obtain ⟨j, ej, hj, hej, hmarks⟩ := hmarked
  refine ⟨j, ej, hj, ?_, hmarks⟩
  rwa [List.getElem?_append_left (List.getElem?_eq_some_iff.1 hej).1]

namespace Fusion

variable {o : Options} {code : List Instr} {g : Graph} {b i k : Nat} {h : List Event}
  {c n : Nat} {m : Machine}

/-- What is true from the execution of the allocation at time `k` to that of its marker.
The object is on the stack first, and in the origin of its class later. -/
structure Inv (f : Fusion g b i) (k : Nat) (h : List Event) (c n : Nat) : Prop where
  corridor : f.Corridor ⟨c, n⟩
  held : (c = b ∧ h.length + i = k + n ∧ n ≤ f.store) ∨
    ((∃ q, LastStore h f.origin q (.object k)) ∧ (c = b → f.store < n))

theorem store_before_mark (hbuilt : Graph.Built o code g) (f : Fusion g b i)
    (hb : f.mark.block = b) : f.store < f.mark.index := by
  obtain ⟨p, hp, hload⟩ := f.loads
  rw [hb] at hp
  have hstore := origin_before_load hbuilt (b := b) hp hload f.single f.origin_eq f.stores
  exact Nat.lt_trans hstore f.feedsMark.lt

/-- The allocation opens the corridor. -/
theorem inv_start (f : Fusion g b i) {e : Event} : f.Inv h.length (h ++ [e]) b (i + 1) where
  corridor := f.corridor_start
  held := by
    refine .inl ⟨rfl, ?_, f.feedsStore.lt⟩
    rw [List.length_append, List.length_singleton]
    omega

/-- The object goes from the stack into the origin of its class. -/
theorem stored (hbuilt : Graph.Built o code g) (hmade : ∀ p ∈ code, p.Constructed)
    (f : Fusion g b i) {e : Event} (hrun : Run g (h ++ [e]) b (f.store + 1) m)
    (htime : h.length + i = k + f.store) : ∃ q, LastStore (h ++ [e]) f.origin q (.object k) := by
  obtain ⟨p, hp, hop⟩ := f.allocates
  have hlast := hrun.holds_allocated hbuilt hmade (Nat.lt_succ_self _) f.feedsStore hp
    (by simp [Instr.allocates, hop]) f.stores (f.origin_eq.single f.single)
  have hle := hrun.visit.1
  rw [List.length_append, List.length_singleton] at hle hlast
  rw [show h.length + 1 - (f.store + 1) + i = k by omega] at hlast
  exact ⟨_, hlast⟩

/-- The marker takes what is in the origin of its class. -/
theorem marks_of_held (hbuilt : Graph.Built o code g) (hmade : ∀ p ∈ code, p.Constructed)
    (f : Fusion g b i) {e : Event} {q : Nat} {v : Value}
    (hrun : Run g (h ++ [e]) f.mark.block (f.mark.index + 1) m)
    (hlast : LastStore (h ++ [e]) f.origin q v) (he : e.place = f.mark) : e.Marks v := by
  obtain ⟨p, hp, hload⟩ := f.loads
  obtain ⟨q', v', hlast', hoperand⟩ :=
    hrun.loaded_operand hbuilt hmade f.feedsMark hp hload f.single f.origin_eq
  rw [← (hlast.unique hlast').2] at hoperand
  obtain ⟨m₀, m₁, _, hat, hstep, _⟩ :=
    hrun.before (List.getElem?_concat_length (l := h) (a := e))
  obtain ⟨pm, hpm, hop⟩ := f.marks
  rw [he, Graph.at?, hpm, Option.some_inj] at hat
  have hshape := hbuilt.shaped hmade (List.mem_of_getElem? hpm)
  rw [hat] at hop hshape
  obtain ⟨taken, _, _, hoperands, hcount, _⟩ := hstep.paired hshape
    (by simp [Instr.isMeta, hop, Opcode.row]) (by simp [Instr.isComplex, hop, Opcode.row])
  have hone : e.operands.length = 1 := by
    rw [hoperands, List.length_reverse, hcount, Instr.arity,
      (hshape (by simp [hop]) (by simp [hop])).1, hop]
    rfl
  obtain ⟨w, hw⟩ := List.length_eq_one_iff.1 hone
  rw [hw, List.getElem?_cons_zero, Option.some_inj] at hoperand
  exact ⟨hop, hoperand ▸ hw⟩

/-- One step in the corridor executes the marker or stays in it. -/
theorem inv_exec (hbuilt : Graph.Built o code g) (hmade : ∀ p ∈ code, p.Constructed)
    (f : Fusion g b i) {e : Event} (hinv : f.Inv k h c n)
    (hrun : Run g (h ++ [e]) c (n + 1) m) (he : e.place = ⟨c, n⟩) :
    e.Marks (.object k) ∨ f.Inv k (h ++ [e]) c (n + 1) := by
  rcases hinv.held with ⟨rfl, htime, hle⟩ | ⟨⟨q, hlast⟩, hafter⟩
  · have hne : (⟨c, n⟩ : Place) ≠ f.mark := by
      intro heq
      have := f.store_before_mark hbuilt (by rw [← heq])
      rw [← heq] at this
      exact absurd hle (Nat.not_le.2 this)
    refine .inr ⟨f.corridor_step hinv.corridor hne, ?_⟩
    rcases Nat.lt_or_eq_of_le hle with hlt | rfl
    · refine .inl ⟨rfl, ?_, hlt⟩
      rw [List.length_append, List.length_singleton]
      omega
    · exact .inr ⟨f.stored hbuilt hmade hrun htime, fun _ => Nat.lt_succ_self _⟩
  · have hother : e.instr.stores f.origin = false := by
      refine Bool.eq_false_iff.2 fun hstores => ?_
      have hstored := hrun.storesAt (List.getElem?_concat_length (l := h) (a := e)) hstores
      have hplace := place_unique (f.origin_eq.single f.single) hstored f.stores
      rw [he] at hplace
      cases hplace
      exact absurd (hafter rfl) (Nat.lt_irrefl _)
    by_cases hmark : (⟨c, n⟩ : Place) = f.mark
    · rw [hmark] at he
      rw [show c = f.mark.block by rw [← hmark], show n = f.mark.index by rw [← hmark]] at hrun
      exact .inl (f.marks_of_held hbuilt hmade hrun (hlast.append hother) he)
    · exact .inr ⟨f.corridor_step hinv.corridor hmark, .inr ⟨⟨q, hlast.append hother⟩,
        fun hc => Nat.lt_succ_of_lt (hafter hc)⟩⟩

/-- A jump stays in the corridor. -/
theorem inv_jump (hbuilt : Graph.Built o code g) (f : Fusion g b i) {s : Nat}
    (hinv : f.Inv k h c n) (hn : n = (g.block c).code.length) (hs : s ∈ (g.block c).succ) :
    f.Inv k h s 0 := by
  subst hn
  obtain ⟨hcorridor, hsb⟩ := f.corridor_jump hbuilt hinv.corridor hs
  refine ⟨hcorridor, .inr ⟨?_, fun hb => absurd hb hsb⟩⟩
  rcases hinv.held with ⟨rfl, _, hle⟩ | ⟨hlast, _⟩
  · obtain ⟨p, hp, _⟩ := f.stores
    exact absurd hle (Nat.not_le.2 (List.getElem?_eq_some_iff.1 hp).1)
  · exact hlast

/-- After the allocation, a run has marked the object or is in the corridor. -/
theorem marked_or_inv (hbuilt : Graph.Built o code g) (hmade : ∀ p ∈ code, p.Constructed)
    (f : Fusion g b i) (hrun : Run g h c n m) {e : Event} (he : h[k]? = some e)
    (hplace : e.place = ⟨b, i⟩) : Marked h k ∨ f.Inv k h c n := by
  induction hrun with
  | start => simp at he
  | exec run at_ step ih =>
    rename_i h c n m m' p operands results
    have hrun := Run.exec run at_ step
    rcases Nat.lt_or_ge k h.length with hlt | hge
    · rw [List.getElem?_append_left hlt] at he
      rcases ih he with hmarked | hinv
      · exact .inl (hmarked.append _)
      · rcases f.inv_exec hbuilt hmade hinv hrun rfl with hmarks | hinv
        · exact .inl ⟨h.length, _, hlt, List.getElem?_concat_length, hmarks⟩
        · exact .inr hinv
    · have hk : k = h.length := by
        have := (List.getElem?_eq_some_iff.1 he).1
        rw [List.length_append, List.length_singleton] at this
        omega
      subst hk
      rw [List.getElem?_concat_length, Option.some_inj] at he
      subst he
      cases hplace
      exact .inr f.inv_start
  | jump run done way ih =>
    rcases ih he with hmarked | hinv
    · exact .inl hmarked
    · exact .inr (f.inv_jump hbuilt hinv done way)

/-- A collection after the allocation comes after the marker. -/
theorem marked_before_collection (hbuilt : Graph.Built o code g)
    (hmade : ∀ p ∈ code, p.Constructed) (f : Fusion g b i) (hrun : Run g h c n m) {e e' : Event}
    {j : Nat} (he : h[k]? = some e) (hplace : e.place = ⟨b, i⟩) (hj : k < j)
    (he' : h[j]? = some e') (hcollects : e'.instr.collects = true) : Marked (h.take j) k := by
  obtain ⟨m₀, _, hbefore, hat, _⟩ := hrun.before he'
  have hek : (h.take j)[k]? = some e := by rw [List.getElem?_take, if_pos hj, he]
  rcases f.marked_or_inv hbuilt hmade hbefore hek hplace with hmarked | hinv
  · exact hmarked
  · rw [f.not_collects hbuilt hinv.corridor hat] at hcollects
    cases hcollects

/-- A run does not come to an end after the allocation but after the marker. -/
theorem marked_at_end (hbuilt : Graph.Built o code g) (hmade : ∀ p ∈ code, p.Constructed)
    (f : Fusion g b i) (hrun : Run g h c n m) {e : Event} (he : h[k]? = some e)
    (hplace : e.place = ⟨b, i⟩) (hn : n = (g.block c).code.length)
    (hend : (g.block c).succ = []) : Marked h k := by
  rcases f.marked_or_inv hbuilt hmade hrun he hplace with hmarked | hinv
  · exact hmarked
  · subst hn
    exact absurd hend (f.corridor_succ hbuilt hinv.corridor)

end Fusion

end StackFlow
