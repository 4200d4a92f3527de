import StackFlow.Proofs.Coverage
import StackFlow.Proofs.Typing

/-!
# Where references to a new object are

* `Exec.mem_results` says where a reference that an instruction leaves comes from, and
  `Run.born` that there are no references to an object before its allocation.
* `Event.Uses`: an instruction uses an object other than by storing into it or by copying
  it within its class.
* `Confined` says that all references to an object are known: on the stack where the forest
  has the allocation or a load of the class, and in the temporaries of the class.
  `Confined.step` keeps it until the object is used.
-/

namespace StackFlow

open Forest

/-! ## References come from somewhere -/

namespace Instr

theorem mem_of_mem_handsOn {p : Instr} {operands : List Value} {v : Value}
    (h : v ∈ p.handsOn operands) : v ∈ operands := by
  unfold handsOn at h
  split at h
  · cases h
  · split at h
    · exact List.mem_of_mem_eraseIdx h
    · exact h

end Instr

namespace Exec

variable {h : List Event} {p : Instr} {m m' : Machine} {operands results : List Value}

theorem of_isMeta (hstep : Exec h p m operands results m') (hmeta : p.isMeta = true) :
    operands = [] ∧ results = [] ∧ m' = m := by
  cases hstep with
  | skip => exact ⟨rfl, rfl, rfl⟩
  | load op => simp [Instr.isMeta, op, Opcode.row] at hmeta
  | store op => simp [Instr.isMeta, op, Opcode.row] at hmeta
  | complex complex => simp [isComplex_of_isMeta hmeta] at complex
  | plain spoken => simp [hmeta] at spoken

theorem isMeta_of_operand (hstep : Exec h p m operands results m') {v : Value}
    (hv : v ∈ operands) : p.isMeta = false := by
  refine Bool.eq_false_iff.2 fun hmeta => ?_
  rw [(hstep.of_isMeta hmeta).1] at hv
  cases hv

theorem of_isComplex (hstep : Exec h p m operands results m') (hcomplex : p.isComplex = true) :
    operands = m.stack.reverse ∧ m'.temps = m.temps ∧
      ∀ v ∈ m'.stack, Known h (p.handsOn operands) v := by
  cases hstep with
  | complex _ known => exact ⟨rfl, rfl, known⟩
  | skip silent => simp [isComplex_of_isMeta silent] at hcomplex
  | load op => simp [Instr.isComplex, op, Opcode.row] at hcomplex
  | store op => simp [Instr.isComplex, op, Opcode.row] at hcomplex
  | plain _ paired => simp [hcomplex] at paired

theorem mem_operands (hstep : Exec h p m operands results m') {v : Value} (hv : v ∈ operands) :
    v ∈ m.stack := by
  cases hstep with
  | skip => cases hv
  | load => cases hv
  | store op top =>
    rw [List.mem_singleton.1 hv, top]
    exact List.mem_cons_self
  | complex => exact List.mem_reverse.1 hv
  | plain _ _ _ stack =>
    rw [stack]
    exact List.mem_append_left _ (List.mem_reverse.1 hv)

theorem mem_stack (hstep : Exec h p m operands results m') {v : Value} (hv : v ∈ m'.stack) :
    v ∈ m.stack ∨ v ∈ results := by
  cases hstep with
  | skip => exact .inl hv
  | load =>
    rcases List.mem_cons.1 hv with rfl | hv
    · exact .inr List.mem_cons_self
    · exact .inl hv
  | store op top =>
    rw [top]
    exact .inl (List.mem_cons_of_mem _ hv)
  | complex => exact .inr (List.mem_reverse.2 hv)
  | plain _ _ _ stack =>
    rw [stack]
    rcases List.mem_append.1 hv with hv | hv
    · exact .inr (List.mem_reverse.1 hv)
    · exact .inl (List.mem_append_right _ hv)

/-- A reference that an instruction leaves is loaded, new, or handed on. -/
theorem mem_results (hstep : Exec h p m operands results m') {k : Nat}
    (hk : .object k ∈ results) :
    (p.op = .tload ∧ m.temps p.temp = .object k) ∨ (p.allocates = true ∧ k = h.length) ∨
      .object k ∈ p.handsOn operands ∨ ∃ e ∈ h, .object k ∈ e.instr.handsOn e.operands := by
  cases hstep with
  | skip => cases hk
  | load op => exact .inl ⟨op, (List.mem_singleton.1 hk).symm⟩
  | store => cases hk
  | complex _ known => exact .inr (.inr (known _ (List.mem_reverse.1 hk) k rfl))
  | plain _ _ _ _ _ leaves =>
    unfold Leaves at leaves
    split at leaves
    · rw [leaves, List.mem_singleton] at hk
      cases hk
    · split at leaves
      · rename_i halloc
        rw [leaves, List.mem_singleton] at hk
        cases hk
        exact .inr (.inl ⟨halloc, rfl⟩)
      · exact .inr (.inr (leaves.2 _ hk k rfl))

theorem temps_cases (hstep : Exec h p m operands results m') (t : Int64) :
    m'.temps t = m.temps t ∨ (p.op = .tstore ∧ p.temp = t ∧ operands = [m'.temps t]) := by
  cases hstep with
  | store op top =>
    by_cases ht : t = p.temp
    · exact .inr ⟨op, ht.symm, by simp [ht]⟩
    · exact .inl (if_neg ht)
  | _ => exact .inl rfl

end Exec

/-- There are no references to objects that are still to be allocated. -/
structure Born (h : List Event) (m : Machine) : Prop where
  stack : ∀ k, .object k ∈ m.stack → k < h.length
  temps : ∀ k t, m.temps t = .object k → k < h.length
  operands : ∀ e ∈ h, ∀ k, .object k ∈ e.operands → k < h.length

theorem Run.born {g : Graph} {h : List Event} {b i : Nat} {m : Machine} (hrun : Run g h b i m) :
    Born h m := by
  induction hrun with
  | start stack temps =>
    exact ⟨fun k hk => absurd hk (stack k), fun k t hk => absurd hk (temps k t), by simp⟩
  | jump _ _ _ ih => exact ih
  | exec run at_ step ih =>
    rename_i h b i m m' p operands results
    have hlength : (h ++ [(⟨⟨b, i⟩, p, operands, results⟩ : Event)]).length = h.length + 1 := by
      simp
    have hoperands : ∀ k, .object k ∈ operands → k < h.length :=
      fun k hk => ih.stack k (step.mem_operands hk)
    refine ⟨fun k hk => ?_, fun k t hk => ?_, fun e he k hk => ?_⟩
    · rw [hlength]
      rcases step.mem_stack hk with hk | hk
      · exact Nat.lt_succ_of_lt (ih.stack k hk)
      · rcases step.mem_results hk with ⟨_, hk⟩ | ⟨_, rfl⟩ | hk | ⟨e, he, hk⟩
        · exact Nat.lt_succ_of_lt (ih.temps k _ hk)
        · exact Nat.lt_succ_self _
        · exact Nat.lt_succ_of_lt (hoperands k (Instr.mem_of_mem_handsOn hk))
        · exact Nat.lt_succ_of_lt (ih.operands e he k (Instr.mem_of_mem_handsOn hk))
    · rw [hlength]
      rcases step.temps_cases t with heq | ⟨_, _, heq⟩
      · exact Nat.lt_succ_of_lt (ih.temps k t (heq ▸ hk))
      · refine Nat.lt_succ_of_lt (hoperands k ?_)
        rw [heq, hk]
        exact List.mem_singleton_self _
    · rw [hlength]
      rcases List.mem_append.1 he with he | he
      · exact Nat.lt_succ_of_lt (ih.operands e he k hk)
      · rw [List.mem_singleton.1 he] at hk
        exact Nat.lt_succ_of_lt (hoperands k hk)

/-! ## Confined objects -/

/-- Whether the event uses the object `k` other than by storing into it, or by copying it
within the class `c`. -/
def Event.Uses (g : Graph) (c : Int64) (e : Event) (k : Nat) : Prop :=
  ∃ q, e.operands[q]? = some (.object k) ∧ ¬ (e.instr.storesField = true ∧ q = 1) ∧
    ¬ (e.instr.op = .tstore ∧ g.aliases.class? e.instr.temp = some c)

/-- Whether the tree is that of the allocation at index `a`, or a load of class `c`. -/
def Tree.Holds (g : Graph) (b a : Nat) (c : Int64) (t : Tree) : Prop :=
  t.index = a ∨ ∃ p, (g.block b).code[t.index]? = some p ∧ p.loads p.temp = true ∧
    g.aliases.class? p.temp = some c

/-- All references to the object `k`, which was allocated at index `a` of block `b`, are
known before index `i`. -/
structure Confined (g : Graph) (b a : Nat) (c : Int64) (k i : Nat) (h : List Event)
    (m : Machine) : Prop where
  stack : ∀ d : Nat, m.stack[d]? = some (.object k) →
    ∃ t, (grown (g.block b).code i).stack[d]? = some t ∧ t.Holds g b a c
  temps : ∀ t, m.temps t = .object k → g.aliases.class? t = some c
  handed : ∀ e ∈ h, .object k ∉ e.instr.handsOn e.operands

namespace Confined

variable {g : Graph} {b a i k : Nat} {c : Int64} {h : List Event} {m m' : Machine} {p : Instr}
  {operands results : List Value}

/-- What is not used is not handed on. -/
theorem not_handed (huse : ¬ Event.Uses g c ⟨⟨b, i⟩, p, operands, results⟩ k) :
    .object k ∉ p.handsOn operands := by
  intro hk
  refine huse ?_
  unfold Instr.handsOn at hk
  split at hk
  · cases hk
  · rename_i hstore
    split at hk
    · rename_i hfield
      obtain ⟨q, hne, hq⟩ := List.mem_eraseIdx_iff_getElem?.1 hk
      exact ⟨q, hq, fun h => hne h.2, fun h => hstore h.1⟩
    · rename_i hfield
      obtain ⟨q, hq⟩ := List.mem_iff_getElem?.1 hk
      exact ⟨q, hq, fun h => hfield h.1, fun h => hstore h.1⟩

theorem handed_append (hconf : Confined g b a c k i h m) {e : Event}
    (huse : .object k ∉ e.instr.handsOn e.operands) :
    ∀ e' ∈ h ++ [e], .object k ∉ e'.instr.handsOn e'.operands := by
  intro e' he'
  rcases List.mem_append.1 he' with he' | he'
  · exact hconf.handed e' he'
  · rwa [List.mem_singleton.1 he']

theorem step_temps (hconf : Confined g b a c k i h m)
    (hstep : Exec h p m operands results m')
    (huse : ¬ Event.Uses g c ⟨⟨b, i⟩, p, operands, results⟩ k) (t : Int64)
    (ht : m'.temps t = .object k) : g.aliases.class? t = some c := by
  rcases hstep.temps_cases t with heq | ⟨hop, rfl, hoperands⟩
  · exact hconf.temps t (heq ▸ ht)
  · by_contra hclass
    refine huse ⟨0, ?_, fun h => absurd h.2 (by decide), fun h => hclass h.2⟩
    rw [hoperands, ht]
    rfl

/-- A new object is known. -/
theorem start (hborn : Born h m) (hp : (g.block b).code[a]? = some p) (hshape : p.Shaped)
    (halloc : p.op = .gcMalloc) (hstep : Exec h p m operands results m') :
    Confined g b a c h.length (a + 1) (h ++ [⟨⟨b, a⟩, p, operands, results⟩]) m' := by
  have hmeta : p.isMeta = false := by simp [Instr.isMeta, halloc, Opcode.row]
  have hcomplex : p.isComplex = false := by simp [Instr.isComplex, halloc, Opcode.row]
  have houtputs : p.outputs = 1 := by
    rw [(hshape (by simp [halloc]) (by simp [halloc])).2, halloc]
    rfl
  have hnone : .object h.length ∉ operands :=
    fun hk => Nat.lt_irrefl _ (hborn.stack _ (hstep.mem_operands hk))
  refine ⟨fun d hd => ?_, fun t ht => ?_, fun e he hk => ?_⟩
  · obtain ⟨taken, rest, hstack, _, _, hstack', _, hone⟩ := hstep.paired hshape hmeta hcomplex
    obtain ⟨v, rfl⟩ := hone houtputs
    rw [hstack'] at hd
    have hgrows := grows_grown hp
    generalize grown (g.block b).code (a + 1) = s' at hgrows
    cases d with
    | zero =>
      cases hgrows with
      | push => exact ⟨_, rfl, .inl rfl⟩
      | skip silent => simp [hmeta] at silent
      | complex _ complex => simp [hcomplex] at complex
      | root _ _ outputs => simp [houtputs] at outputs
      | spill _ _ _ several => exact absurd houtputs several
    | succ d =>
      have hmem : .object h.length ∈ m.stack := by
        rw [hstack]
        exact List.mem_append_right _ (List.mem_of_getElem? hd)
      exact absurd (hborn.stack _ hmem) (Nat.lt_irrefl _)
  · rcases hstep.temps_cases t with heq | ⟨_, _, hoperands⟩
    · exact absurd (hborn.temps _ t (heq ▸ ht)) (Nat.lt_irrefl _)
    · rw [hoperands, ht] at hnone
      exact absurd (List.mem_singleton_self _) hnone
  · rcases List.mem_append.1 he with he | he
    · exact Nat.lt_irrefl _ (hborn.operands e he _ (Instr.mem_of_mem_handsOn hk))
    · rw [List.mem_singleton.1 he] at hk
      exact hnone (Instr.mem_of_mem_handsOn hk)

/-- An operand that refers to the object is known to the forest. -/
theorem feeds_operand (hconf : Confined g b a c k i h m) (hp : (g.block b).code[i]? = some p)
    (hshape : p.Shaped) (hmeta : p.isMeta = false) (hcomplex : p.isComplex = false)
    (hstep : Exec h p m operands results m') {q : Nat} (hq : operands[q]? = some (.object k)) :
    ∃ t : Tree, Feeds (g.block b).code t.index i q ∧ t.Holds g b a c := by
  obtain ⟨taken, rest, hstack, rfl, hcount, _⟩ := hstep.paired hshape hmeta hcomplex
  have hqlt : q < p.arity := by
    have := (List.getElem?_eq_some_iff.1 hq).1
    rwa [List.length_reverse, hcount] at this
  have hold : m.stack[p.arity - 1 - q]? = some (.object k) := by
    rw [hstack, List.getElem?_append_left (by omega)]
    rwa [List.getElem?_reverse (by omega), hcount] at hq
  obtain ⟨t, ht, hholds⟩ := hconf.stack _ hold
  exact ⟨t, ⟨p, t, hp, hmeta, hcomplex, hqlt, ht, rfl⟩, hholds⟩

/-- A reference among the results of an instruction has been loaded. -/
theorem stack_result (hconf : Confined g b a c k i h m) (hp : (g.block b).code[i]? = some p)
    (hshape : p.Shaped) (hmeta : p.isMeta = false) (hcomplex : p.isComplex = false)
    (hstep : Exec h p m operands results m') (hk : k < h.length)
    (huse : ¬ Event.Uses g c ⟨⟨b, i⟩, p, operands, results⟩ k) {d : Nat}
    (hd : results.reverse[d]? = some (.object k)) :
    ∃ t, (grown (g.block b).code (i + 1)).stack[d]? = some t ∧ t.Holds g b a c := by
  have hmem := List.mem_reverse.1 (List.mem_of_getElem? hd)
  rcases hstep.mem_results hmem with ⟨hop, htemp⟩ | ⟨_, rfl⟩ | hk | ⟨e, he, hk⟩
  · have houtputs : p.outputs = 1 := by
      rw [(hshape (by simp [hop]) (by simp [hop])).2, hop]
      rfl
    obtain ⟨_, _, _, _, _, _, _, hone⟩ := hstep.paired hshape hmeta hcomplex
    obtain ⟨v, rfl⟩ := hone houtputs
    obtain rfl : d = 0 := by simpa using (List.getElem?_eq_some_iff.1 hd).1
    have hgrows := grows_grown hp
    generalize grown (g.block b).code (i + 1) = s' at hgrows
    cases hgrows with
    | push => exact ⟨_, rfl, .inr ⟨p, hp, by simp [Instr.loads, hop], hconf.temps _ htemp⟩⟩
    | skip silent => simp [hmeta] at silent
    | complex _ complex => simp [hcomplex] at complex
    | root _ _ outputs => simp [houtputs] at outputs
    | spill _ _ _ several => exact absurd houtputs several
  · exact absurd hk (Nat.lt_irrefl _)
  · exact absurd hk (not_handed huse)
  · exact absurd hk (hconf.handed e he)

/-- A reference below the operands of an instruction has been there before. -/
theorem stack_rest (hconf : Confined g b a c k i h m) (hp : (g.block b).code[i]? = some p)
    (hshape : p.Shaped) (hmeta : p.isMeta = false) (hcomplex : p.isComplex = false)
    (hstep : Exec h p m operands results m')
    (hspill : p.outputs ≠ 0 → p.outputs ≠ 1 →
      ∀ t ∈ (grown (g.block b).code i).stack.drop p.arity, ¬ t.Holds g b a c) {d : Nat}
    (hd : m.stack[p.arity + d]? = some (.object k)) :
    ∃ t, (grown (g.block b).code (i + 1)).stack[results.length + d]? = some t ∧
      t.Holds g b a c := by
  obtain ⟨t, ht, hholds⟩ := hconf.stack _ hd
  rw [← List.getElem?_drop] at ht
  obtain ⟨_, _, _, _, _, _, hzero, hone⟩ := hstep.paired hshape hmeta hcomplex
  have hgrows := grows_grown hp
  generalize grown (g.block b).code (i + 1) = s' at hgrows
  cases hgrows with
  | push _ _ outputs =>
    obtain ⟨v, rfl⟩ := hone outputs
    refine ⟨t, ?_, hholds⟩
    rw [List.length_singleton, Nat.add_comm]
    exact ht
  | root _ _ outputs =>
    refine ⟨t, ?_, hholds⟩
    rw [hzero outputs, List.length_nil, Nat.zero_add]
    exact ht
  | skip silent => simp [hmeta] at silent
  | complex _ complex => simp [hcomplex] at complex
  | spill _ _ some several =>
    exact absurd hholds (hspill some several t (List.mem_of_getElem? ht))

/-- The references to an object stay known as long as it is not used, and as long as none
is left on the stack by an instruction that the forest cannot follow. -/
theorem step (hconf : Confined g b a c k i h m) (hp : (g.block b).code[i]? = some p)
    (hshape : p.Shaped) (hstep : Exec h p m operands results m') (hk : k < h.length)
    (huse : ¬ Event.Uses g c ⟨⟨b, i⟩, p, operands, results⟩ k)
    (hspill : p.isComplex = false → p.outputs ≠ 0 → p.outputs ≠ 1 →
      ∀ t ∈ (grown (g.block b).code i).stack.drop p.arity, ¬ t.Holds g b a c) :
    Confined g b a c k (i + 1) (h ++ [⟨⟨b, i⟩, p, operands, results⟩]) m' := by
  have hhanded := hconf.handed_append (e := ⟨⟨b, i⟩, p, operands, results⟩) (not_handed huse)
  refine ⟨fun d hd => ?_, hconf.step_temps hstep huse, hhanded⟩
  by_cases hmeta : p.isMeta = true
  · rw [(hstep.of_isMeta hmeta).2.2] at hd
    have hgrown : grown (g.block b).code (i + 1) = grown (g.block b).code i := by
      rw [grown_succ hp, Forest.step, if_pos hmeta]
    rw [hgrown]
    exact hconf.stack d hd
  · rw [Bool.not_eq_true] at hmeta
    by_cases hcomplex : p.isComplex = true
    · exfalso
      obtain ⟨_, _, hknown⟩ := hstep.of_isComplex hcomplex
      rcases hknown _ (List.mem_of_getElem? hd) k rfl with hk | ⟨e, he, hk⟩
      · exact not_handed huse hk
      · exact hconf.handed e he hk
    · rw [Bool.not_eq_true] at hcomplex
      obtain ⟨taken, rest, hstack, _, hcount, hstack', _⟩ := hstep.paired hshape hmeta hcomplex
      rw [hstack'] at hd
      rcases Nat.lt_or_ge d results.reverse.length with hlt | hge
      · rw [List.getElem?_append_left hlt] at hd
        exact hconf.stack_result hp hshape hmeta hcomplex hstep hk huse hd
      · rw [List.getElem?_append_right hge, List.length_reverse] at hd
        rw [List.length_reverse] at hge
        have hold : m.stack[p.arity + (d - results.length)]? = some (.object k) := by
          rw [hstack, List.getElem?_append_right (by omega), hcount, Nat.add_sub_cancel_left]
          exact hd
        have hrest := hconf.stack_rest hp hshape hmeta hcomplex hstep (hspill hcomplex) hold
        rwa [Nat.add_sub_cancel' hge] at hrest

end Confined

end StackFlow
