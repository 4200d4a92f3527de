import StackFlow.Elision.Optimize
import StackFlow.Proofs.Origins

/-!
# What the passes exchange

* `Elision.Yields` says that a pass comes to an end; it opens by the steps of the pass
  (`yields_bind`, `yields_get_bind`, `yields_replace` and the loops).
* `Exchanged p p'`: the passes may put `p'` in the place of `p`.  `Resembles g g'` says
  it of all instructions of two graphs that are the same otherwise.
* What the passes look at is the same in graphs that resemble one another.
* `Progress.Accounts g s`: every instruction that differs from that of `g` is reported.
-/

namespace StackFlow

/-! ## Passes that come to an end -/

namespace Elision

variable {α β : Type} {s s' : Progress} {a : α} {b : β}

/-- `Yields x s a s'`: from the state `s`, the pass `x` ends with `a` in the state `s'`. -/
def Yields (x : Elision α) (s : Progress) (a : α) (s' : Progress) : Prop :=
  x.run s = (.ok a, s')

theorem yields_pure {a' : α} : Yields (pure a) s a' s' ↔ a' = a ∧ s' = s := by
  constructor
  · intro h
    cases h
    exact ⟨rfl, rfl⟩
  · rintro ⟨rfl, rfl⟩
    rfl

theorem run_bind (x : Elision α) (f : α → Elision β) (s : Progress) :
    (x >>= f).run s = match x.run s with
      | (.ok a, s₁) => (f a).run s₁
      | (.error m, s₁) => (.error m, s₁) := by
  simp only [bind, ExceptT.bind, ExceptT.mk, ExceptT.run, StateT.bind]
  rcases hx : x s with ⟨_ | _, s₁⟩ <;> rfl

theorem run_get_bind (f : Progress → Elision β) (s : Progress) : (get >>= f).run s = (f s).run s :=
  rfl

theorem run_discard (x : Elision α) (s : Progress) :
    (discard x).run s = match x.run s with
      | (.ok _, s₁) => (.ok (), s₁)
      | (.error m, s₁) => (.error m, s₁) := by
  simp only [discard, Functor.mapConst, ExceptT.map, ExceptT.mk, ExceptT.run, Function.comp, bind,
    StateT.bind]
  rcases hx : x s with ⟨_ | _, s₁⟩ <;> rfl

theorem yields_bind {x : Elision α} {f : α → Elision β} :
    Yields (x >>= f) s b s' ↔ ∃ a s₁, Yields x s a s₁ ∧ Yields (f a) s₁ b s' := by
  unfold Yields
  rw [run_bind]
  constructor
  · intro h
    split at h
    · rename_i a s₁ hx
      exact ⟨a, s₁, hx, h⟩
    · cases h
  · rintro ⟨a, s₁, hx, hf⟩
    rw [hx]
    exact hf

theorem yields_get_bind {f : Progress → Elision β} :
    Yields (get >>= f) s b s' ↔ Yields (f s) s b s' := by
  rw [yields_bind]
  constructor
  · rintro ⟨s₁, s₂, hget, hf⟩
    cases hget
    exact hf
  · exact fun hf => ⟨s, s, rfl, hf⟩

theorem not_yields_throw {m : Misuse} : ¬ Yields (throw m : Elision α) s a s' := by
  intro h
  cases h

theorem yields_discard {x : Elision α} : Yields (discard x) s () s' ↔ ∃ a, Yields x s a s' := by
  unfold Yields
  rw [run_discard]
  constructor
  · intro h
    split at h
    · rename_i a s₁ hx
      cases h
      exact ⟨a, hx⟩
    · cases h
  · rintro ⟨a, hx⟩
    rw [hx]

theorem yields_when {on : Bool} {x : Elision Unit} :
    Yields (Elision.when on x) s () s' ↔ if on then Yields x s () s' else s' = s := by
  unfold Elision.when
  split
  · exact Iff.rfl
  · simp [yields_pure]

/-- A loop that carries a value keeps what each of its rounds keeps. -/
theorem foldlM_induct {xs : List α} {f : β → α → Elision β} {b₀ : β}
    {P : List α → β → Progress → Prop} (h₀ : P [] b₀ s)
    (hstep : ∀ pre x post b b' s s', xs = pre ++ x :: post → P pre b s →
      Yields (f b x) s b' s' → P (pre ++ [x]) b' s')
    (h : Yields (xs.foldlM f b₀) s b s') : P xs b s' := by
  -- the rounds done so far are a part of the list that is before those still to do
  suffices hall : ∀ pre post b₀ s, xs = pre ++ post → P pre b₀ s →
      Yields (post.foldlM f b₀) s b s' → P xs b s' from hall [] xs b₀ s rfl h₀ h
  intro pre post
  induction post generalizing pre with
  | nil =>
    intro b₀ s hxs hP h
    rw [List.foldlM_nil, yields_pure] at h
    rw [hxs, List.append_nil, h.1, h.2]
    exact hP
  | cons x post ih =>
    intro b₀ s hxs hP h
    rw [List.foldlM_cons, yields_bind] at h
    obtain ⟨b₁, s₁, hx, hrest⟩ := h
    exact ih (pre ++ [x]) b₁ s₁ (by rw [hxs, List.append_assoc]; rfl)
      (hstep pre x post b₀ b₁ s s₁ hxs hP hx) hrest

/-- A loop keeps what each of its rounds keeps. -/
theorem forM_induct {xs : List α} {f : α → Elision Unit} {P : List α → Progress → Prop}
    (h₀ : P [] s)
    (hstep : ∀ pre x post s s', xs = pre ++ x :: post → P pre s → Yields (f x) s () s' →
      P (pre ++ [x]) s')
    (h : Yields (xs.forM f) s () s') : P xs s' := by
  suffices hall : ∀ pre post s, xs = pre ++ post → P pre s → Yields (post.forM f) s () s' →
      P xs s' from hall [] xs s rfl h₀ h
  intro pre post
  induction post generalizing pre with
  | nil =>
    intro s hxs hP h
    rw [List.forM, yields_pure] at h
    rw [hxs, List.append_nil, h.2]
    exact hP
  | cons x post ih =>
    intro s hxs hP h
    rw [List.forM, yields_bind] at h
    obtain ⟨_, s₁, hx, hrest⟩ := h
    exact ih (pre ++ [x]) s₁ (by rw [hxs, List.append_assoc]; rfl)
      (hstep pre x post s s₁ hxs hP hx) hrest

theorem yields_replace {reason : Reason} {b i : Nat} {p : Instr}
    (h : Yields (Elision.replace reason b i p) s () s') :
    ∃ old, s.graph.instr? b i = some old ∧ s'.graph = s.graph.setInstr b i p ∧
      s'.report.substitutions =
        s.report.substitutions.push { reason, spot := ⟨b, i⟩, old, new := p } := by
  unfold Elision.replace at h
  rw [yields_get_bind] at h
  split at h
  · rename_i old graph hold hreplace
    cases h
    refine ⟨old, hold, ?_, rfl⟩
    unfold Graph.replace at hreplace
    rw [hold] at hreplace
    simp only at hreplace
    split at hreplace
    · cases hreplace
      rfl
    · cases hreplace
  · exact absurd h not_yields_throw
  · exact absurd h not_yields_throw

end Elision

/-! ## Exchanged instructions -/

/-- `Exchanged p p'`: the passes may put `p'` in the place of `p`. -/
def Exchanged (p p' : Instr) : Prop :=
  p' = p ∨ (p.op = .rstore ∧ p.ty = .reference ∧ p' = .typed .rstoreSimple .reference) ∨
    (p.op = .gcMalloc ∧ p' = .ofOpcode .gcAllocateOnly)

namespace Exchanged

variable {p p' : Instr}

theorem collects_eq (h : Exchanged p p') : p'.collects = p.collects := by
  rcases h with rfl | ⟨hop, _, rfl⟩ | ⟨hop, rfl⟩
  · rfl
  · simp [Instr.collects, hop, Instr.typed, Instr.ofOpcode, Opcode.row]
  · simp [Instr.collects, hop, Instr.ofOpcode, Opcode.row]

/-- An instruction that is neither a store without a barrier nor an allocation that does
not clear memory has not been exchanged. -/
theorem eq_of_op (h : Exchanged p p') (hstore : p'.op ≠ .rstoreSimple)
    (halloc : p'.op ≠ .gcAllocateOnly) : p' = p := by
  rcases h with rfl | ⟨_, _, rfl⟩ | ⟨_, rfl⟩
  · rfl
  · exact absurd rfl hstore
  · exact absurd rfl halloc

/-- An instruction that is neither a store with a barrier nor an allocation that clears
memory is not exchanged. -/
theorem eq_of_op' (h : Exchanged p p') (hstore : p.op ≠ .rstore) (halloc : p.op ≠ .gcMalloc) :
    p' = p := by
  rcases h with rfl | ⟨hop, _⟩ | ⟨hop, _⟩
  · rfl
  · exact absurd hop hstore
  · exact absurd hop halloc

theorem isFieldStore_eq (h : Exchanged p p') :
    Variants.standard.isFieldStore p' = Variants.standard.isFieldStore p := by
  rcases h with rfl | ⟨hop, _, rfl⟩ | ⟨hop, rfl⟩
  · rfl
  · simp [Variants.isFieldStore, Variants.standard, Instr.typed, Instr.ofOpcode, hop]
  · simp [Variants.isFieldStore, Variants.standard, Instr.typed, Instr.ofOpcode, hop]

theorem isAllocation_eq (h : Exchanged p p') :
    Variants.standard.isAllocation p' = Variants.standard.isAllocation p := by
  rcases h with rfl | ⟨hop, _, rfl⟩ | ⟨hop, rfl⟩
  · rfl
  · simp [Variants.isAllocation, Variants.standard, Instr.typed, Instr.ofOpcode, hop]
  · simp [Variants.isAllocation, Variants.standard, Instr.typed, Instr.ofOpcode, hop]

end Exchanged

/-- Two lists of instructions that are the same but for exchanges. -/
def Exchanges (code code' : List Instr) : Prop :=
  ∀ i : Nat, (code[i]? = none ∧ code'[i]? = none) ∨
    ∃ p p', code[i]? = some p ∧ code'[i]? = some p' ∧ Exchanged p p'

namespace Exchanges

variable {code code' : List Instr} {i : Nat} {p p' : Instr}

theorem refl (code : List Instr) : Exchanges code code := by
  intro i
  cases h : code[i]? with
  | none => exact .inl ⟨rfl, rfl⟩
  | some p => exact .inr ⟨p, p, rfl, rfl, .inl rfl⟩

theorem of_new (h : Exchanges code code') (hp : code'[i]? = some p') :
    ∃ p, code[i]? = some p ∧ Exchanged p p' := by
  rcases h i with ⟨_, hnone⟩ | ⟨p, q, hold, hnew, hexchanged⟩
  · rw [hp] at hnone
    cases hnone
  · rw [hp, Option.some_inj] at hnew
    exact ⟨p, hold, hnew ▸ hexchanged⟩

theorem of_old (h : Exchanges code code') (hp : code[i]? = some p) :
    ∃ p', code'[i]? = some p' ∧ Exchanged p p' := by
  rcases h i with ⟨hnone, _⟩ | ⟨q, p', hold, hnew, hexchanged⟩
  · rw [hp] at hnone
    cases hnone
  · rw [hp, Option.some_inj] at hold
    exact ⟨p', hnew, hold ▸ hexchanged⟩

theorem set (h : Exchanges code code') {j : Nat} (hp : code[j]? = some p)
    (hexchanged : Exchanged p p') : Exchanges code (code'.set j p') := by
  intro i
  obtain ⟨q, hq, _⟩ := h.of_old hp
  have hlt := (List.getElem?_eq_some_iff.1 hq).1
  by_cases hij : j = i
  · subst hij
    exact .inr ⟨p, p', hp, by rw [List.getElem?_set_self hlt], hexchanged⟩
  · rw [List.getElem?_set_ne hij]
    exact h i

end Exchanges

/-- `Resembles g g'`: the graphs are the same but for exchanges. -/
structure Resembles (g g' : Graph) : Prop where
  options : g'.options = g.options
  size : g'.size = g.size
  succ : ∀ b, (g'.block b).succ = (g.block b).succ
  facts : ∀ b, (g'.block b).facts = (g.block b).facts
  code : ∀ b, Exchanges (g.block b).code (g'.block b).code

theorem Graph.block_setInstr (g : Graph) (b i : Nat) (p : Instr) (b' : Nat) :
    (g.setInstr b i p).block b' =
      if b = b' then { g.block b' with code := (g.block b').code.set i p } else g.block b' := by
  unfold Graph.setInstr Graph.block Layout.block
  simp only [Array.getD_eq_getD_getElem?, Array.getElem?_modify]
  split
  · rename_i hb
    subst hb
    rcases Nat.lt_or_ge b g.layout.size with hlt | hge
    · simp [hlt]
    · simp [hge, default, instInhabitedBlock.default]
  · rfl

namespace Resembles

variable {g g' : Graph}

theorem pointerSize_eq (h : Resembles g g') : g'.pointerSize = g.pointerSize := by
  rw [Graph.pointerSize, h.options, Graph.pointerSize]

theorem refl (g : Graph) : Resembles g g :=
  ⟨rfl, rfl, fun _ => rfl, fun _ => rfl, fun _ => .refl _⟩

theorem setInstr (h : Resembles g g') {b i : Nat} {p p' : Instr}
    (hp : (g.block b).code[i]? = some p) (hexchanged : Exchanged p p') :
    Resembles g (g'.setInstr b i p') where
  options := h.options
  size := by
    rw [← h.size]
    simp [Graph.setInstr, Graph.size]
  succ b' := by
    rw [Graph.block_setInstr, ← h.succ b']
    split <;> rfl
  facts b' := by
    rw [Graph.block_setInstr, ← h.facts b']
    split <;> rfl
  code b' := by
    rw [Graph.block_setInstr]
    split
    · rename_i hb
      subst hb
      exact (h.code b).set hp hexchanged
    · exact h.code b'

end Resembles

/-! ## What the passes look at -/

/-- What the passes know of a graph, for the variants of the standard platform. -/
def Graph.context (g : Graph) : Context where
  variants := .standard
  forests := g.forests
  aliases := g.aliases

/-- What the passes know of a graph. -/
def Graph.contextFor (g : Graph) (v : Variants) : Context where
  variants := v
  forests := g.forests
  aliases := g.aliases

theorem Context.eq_contextFor_of_ofGraph {g : Graph} {v : Variants} {c : Context}
    (h : Context.ofGraph v g = .ok c) : c = g.contextFor v := by
  unfold Context.ofGraph at h
  cases hforests : Forest.ofGraph g with
  | error m =>
    rw [hforests] at h
    cases h
  | ok forests =>
    obtain rfl := Forest.eq_of_ofGraph hforests
    rw [hforests] at h
    cases h
    rfl

theorem Context.eq_of_ofGraph {g : Graph} {c : Context}
    (h : Context.ofGraph .standard g = .ok c) : c = g.context :=
  eq_contextFor_of_ofGraph h

namespace Exchanges

variable {code code' : List Instr} {c : Context}

theorem loadedClass?_eq (h : Exchanges code code') (t : Option Tree) :
    c.loadedClass? code' t = c.loadedClass? code t := by
  cases t with
  | none => rfl
  | some t =>
    simp only [Context.loadedClass?, Context.at?, Option.bind_some]
    rcases h t.index with ⟨hold, hnew⟩ | ⟨p, p', hold, hnew, hexchanged⟩
    · rw [hold, hnew]
    · rw [hold, hnew]
      rcases hexchanged with rfl | ⟨hop, _, rfl⟩ | ⟨hop, rfl⟩
      · rfl
      · simp [hop, Instr.typed, Instr.ofOpcode]
      · simp [hop, Instr.ofOpcode]

theorem allocatedClass?_eq (h : Exchanges code code') (hc : c.variants = .standard)
    (t : Tree) : c.allocatedClass? code' t = c.allocatedClass? code t := by
  have hstore : ∀ {p p'}, Exchanged p p' → (p'.op = .tstore ↔ p.op = .tstore) ∧
      (p.op = .tstore → p' = p) := by
    rintro p p' (rfl | ⟨hop, _, rfl⟩ | ⟨hop, rfl⟩)
    · exact ⟨Iff.rfl, fun _ => rfl⟩
    · simp [hop, Instr.typed, Instr.ofOpcode]
    · simp [hop, Instr.ofOpcode]
  have halloc : (Context.at? code' (t.operand? 0)).map c.variants.isAllocation =
      (Context.at? code (t.operand? 0)).map c.variants.isAllocation := by
    cases t.operand? 0 with
    | none => rfl
    | some u =>
      simp only [Context.at?, Option.bind_some]
      rcases h u.index with ⟨hold, hnew⟩ | ⟨p, p', hold, hnew, hexchanged⟩
      · rw [hold, hnew]
      · rw [hold, hnew, Option.map_some, Option.map_some, hc, hexchanged.isAllocation_eq]
  unfold Context.allocatedClass?
  rcases h t.index with ⟨hold, hnew⟩ | ⟨p, p', hold, hnew, hexchanged⟩
  · rw [hold, hnew]
  · rw [hold, hnew]
    cases hat : Context.at? code (t.operand? 0) with
    | none =>
      rw [hat, Option.map_none, Option.map_eq_none_iff] at halloc
      rw [halloc]
    | some v =>
      rw [hat, Option.map_some, Option.map_eq_some_iff] at halloc
      obtain ⟨v', hv', halloc⟩ := halloc
      obtain ⟨hiff, heq⟩ := hstore hexchanged
      rw [hv']
      simp only [halloc, hiff]
      by_cases hop : p.op = .tstore
      · rw [heq hop]
      · simp [hop]

theorem isNull_eq (h : Exchanges code code') (t : Option Tree) :
    Context.isNull code' t = Context.isNull code t := by
  cases t with
  | none => rfl
  | some t =>
    simp only [Context.isNull, Context.at?, Option.bind_some]
    rcases h t.index with ⟨hold, hnew⟩ | ⟨p, p', hold, hnew, hexchanged⟩
    · rw [hold, hnew]
    · rw [hold, hnew]
      rcases hexchanged with rfl | ⟨hop, _, rfl⟩ | ⟨hop, rfl⟩
      · rfl
      · simp [hop, Instr.typed, Instr.ofOpcode]
      · simp [hop, Instr.ofOpcode]

theorem offset?_eq (h : Exchanges code code') (t : Option Tree) :
    Context.offset? code' t = Context.offset? code t := by
  cases t with
  | none => rfl
  | some t =>
    simp only [Context.offset?, Context.at?, Option.bind_some]
    rcases h t.index with ⟨hold, hnew⟩ | ⟨p, p', hold, hnew, hexchanged⟩
    · rw [hold, hnew]
    · rw [hold, hnew]
      rcases hexchanged with rfl | ⟨hop, _, rfl⟩ | ⟨hop, rfl⟩
      · rfl
      · simp [hop, Instr.typed, Instr.ofOpcode]
      · simp [hop, Instr.ofOpcode]

end Exchanges

theorem Graph.forest_context (g : Graph) (b : Nat) :
    g.context.forest b = Forest.ofCode (g.block b).code := by
  unfold Context.forest Graph.context Graph.forests Graph.block Layout.block
  rcases Nat.lt_or_ge b g.layout.size with hlt | hge
  · simp [hlt]
  · simp [hge, default, instInhabitedBlock.default, instInhabitedForest.default, Forest.ofCode]
    rfl

theorem Graph.forest_contextFor (g : Graph) (v : Variants) (b : Nat) :
    (g.contextFor v).forest b = Forest.ofCode (g.block b).code :=
  g.forest_context b

namespace Context

variable {c : Context} {code : List Instr} {k : Int64}

/-- A tree that loads a class is a load of one of its members. -/
theorem loadedClass?_eq_some {t : Option Tree} (h : c.loadedClass? code t = some k) :
    ∃ u p, t = some u ∧ code[u.index]? = some p ∧ p.loads p.temp = true ∧ p.ty = .reference ∧
      c.aliases.class? p.temp = some k := by
  unfold loadedClass? at h
  split at h
  · rename_i p hp
    obtain ⟨u, hu, hp⟩ := Option.bind_eq_some_iff.1 hp
    split at h
    · rename_i hop
      rw [Bool.and_eq_true, decide_eq_true_eq, decide_eq_true_eq] at hop
      exact ⟨u, p, hu, hp, by simp [Instr.loads, hop.1], hop.2, h⟩
    · cases h
  · cases h

/-- A tree that stores a new object into a class is a store of an allocation. -/
theorem allocatedClass?_eq_some {t : Tree} (hc : c.variants = .standard)
    (h : c.allocatedClass? code t = some k) :
    ∃ p u v, code[t.index]? = some p ∧ p.stores p.temp = true ∧ t.operand? 0 = some u ∧
      code[u.index]? = some v ∧ v.allocates = true ∧ c.aliases.class? p.temp = some k := by
  unfold allocatedClass? at h
  split at h
  · rename_i p v hp hv
    obtain ⟨u, hu, hv⟩ := Option.bind_eq_some_iff.1 hv
    split at h
    · rename_i hop
      rw [Bool.and_eq_true, decide_eq_true_eq, hc] at hop
      exact ⟨p, u, v, hp, by simp [Instr.stores, hop.1], hu, hv, hop.2, h⟩
    · cases h
  · cases h

end Context

/-- A temporary that a new object is stored into copies nothing. -/
theorem origin_self_of_allocates {g : Graph} {b i j : Nat} {p v : Instr} {r : Int64}
    (hp : (g.block b).code[j]? = some p) (hstores : p.stores r = true)
    (hfeeds : Forest.Feeds (g.block b).code i j 0) (hv : (g.block b).code[i]? = some v)
    (hallocates : v.allocates = true) : Origin g r r := by
  refine ⟨.refl, fun u hcopies => ?_⟩
  obtain ⟨hsingle, _, b', j', l, p', w, hp', hstores', hfeeds', hw, hload, _⟩ := hcopies
  have hplace : (⟨b, j⟩ : Place) = ⟨b', j'⟩ :=
    place_unique hsingle ⟨p, hp, hstores⟩ ⟨p', hp', hstores'⟩
  cases hplace
  obtain rfl := Feeds.source_unique hfeeds hfeeds'
  rw [hv, Option.some_inj] at hw
  subst hw
  simp only [Instr.allocates, Instr.loads, Bool.or_eq_true, Bool.and_eq_true,
    decide_eq_true_eq] at hallocates hload
  rw [hload.1] at hallocates
  simp at hallocates

/-! ## Reports -/

/-- `Accounts g J s`: the graph of `s` resembles `g`, every instruction that is not the
one of `g` is reported, and every report is justified. -/
structure Progress.Accounts (g : Graph) (J : Reason → Nat → Nat → Prop) (s : Progress) :
    Prop where
  resembles : Resembles g s.graph
  reported : ∀ b i, s.graph.at? ⟨b, i⟩ = g.at? ⟨b, i⟩ ∨
    ∃ x ∈ s.report.substitutions, x.spot = ⟨b, i⟩
  justified : ∀ x ∈ s.report.substitutions, ∃ b i : Nat, x.spot = ⟨b, i⟩ ∧ J x.reason b i

namespace Progress.Accounts

variable {g : Graph} {J : Reason → Nat → Nat → Prop} {s s' : Progress}

theorem start (g : Graph) (J : Reason → Nat → Nat → Prop) : Accounts g J { graph := g } :=
  ⟨.refl g, fun _ _ => .inl rfl, by simp⟩

theorem mono {J' : Reason → Nat → Nat → Prop} (h : Accounts g J s)
    (hJ : ∀ reason b i, J reason b i → J' reason b i) : Accounts g J' s where
  resembles := h.resembles
  reported := h.reported
  justified := fun x hx => (h.justified x hx).imp fun b ⟨i, hspot, hx⟩ => ⟨i, hspot, hJ _ b i hx⟩

/-- Every exchange that is reported is justified. -/
theorem justified_of_has (h : Accounts g J s) {reason : Reason} {b i : Nat}
    (hhas : s.report.has reason ⟨b, i⟩ = true) : J reason b i := by
  obtain ⟨x, hx, hboth⟩ := Array.any_eq_true'.1 hhas
  rw [Bool.and_eq_true, decide_eq_true_eq, decide_eq_true_eq] at hboth
  obtain ⟨b', i', hspot, hjustified⟩ := h.justified x hx
  rw [hboth.2, Spot.mk.injEq, Int.natCast_inj, Int.natCast_inj] at hspot
  rw [hspot.1, hspot.2, ← hboth.1]
  exact hjustified

/-- A report accounts for itself. -/
theorem self (h : Accounts g J s) :
    Accounts g (fun reason b i => s.report.has reason ⟨b, i⟩ = true) s where
  resembles := h.resembles
  reported := h.reported
  justified := fun x hx => by
    obtain ⟨b, i, hspot, _⟩ := h.justified x hx
    exact ⟨b, i, hspot, Array.any_eq_true'.2 ⟨x, hx, by simp [hspot]⟩⟩

/-- There is a reason for every instruction that is not the one of `g`. -/
theorem justified_of_ne (h : Accounts g J s) {b i : Nat}
    (hne : s.graph.at? ⟨b, i⟩ ≠ g.at? ⟨b, i⟩) : ∃ reason, J reason b i := by
  rcases h.reported b i with heq | ⟨x, hx, hspot⟩
  · exact absurd heq hne
  · obtain ⟨b', i', hspot', hjustified⟩ := h.justified x hx
    rw [hspot, Spot.mk.injEq, Int.natCast_inj, Int.natCast_inj] at hspot'
    rw [← hspot'.1, ← hspot'.2] at hjustified
    exact ⟨x.reason, hjustified⟩

theorem replace (h : Accounts g J s) {reason : Reason} {b i : Nat} {p p' : Instr}
    (hyields : Elision.Yields (Elision.replace reason b i p') s () s')
    (hp : (g.block b).code[i]? = some p) (hexchanged : Exchanged p p') (hJ : J reason b i) :
    Accounts g J s' ∧ ∀ b' i', s'.graph.at? ⟨b', i'⟩ = s.graph.at? ⟨b', i'⟩ ∨
      b' = b ∧ i' = i := by
  obtain ⟨old, _, hgraph, hreport⟩ := Elision.yields_replace hyields
  have hother : ∀ b' i', s'.graph.at? ⟨b', i'⟩ = s.graph.at? ⟨b', i'⟩ ∨ b' = b ∧ i' = i := by
    intro b' i'
    rw [hgraph]
    unfold Graph.at?
    rw [Graph.block_setInstr]
    simp only
    split
    · rename_i hb
      by_cases hi : i = i'
      · exact .inr ⟨hb.symm, hi.symm⟩
      · exact .inl (List.getElem?_set_ne hi)
    · exact .inl rfl
  refine ⟨⟨hgraph ▸ h.resembles.setInstr hp hexchanged, fun b' i' => ?_, fun x hx => ?_⟩, hother⟩
  · rw [hreport]
    rcases hother b' i' with heq | ⟨rfl, rfl⟩
    · rw [heq]
      exact (h.reported b' i').imp id fun ⟨x, hx, hspot⟩ => ⟨x, Array.mem_push_of_mem _ hx, hspot⟩
    · exact .inr ⟨_, Array.mem_push_self, rfl⟩
  · rw [hreport] at hx
    rcases Array.mem_push.1 hx with hx | rfl
    · exact h.justified x hx
    · exact ⟨b, i, rfl, hJ⟩

end Progress.Accounts

end StackFlow
