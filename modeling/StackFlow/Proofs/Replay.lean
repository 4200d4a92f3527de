import StackFlow.Proofs.Machine

/-!
# Forests and runs

The forest of a block is grown instruction by instruction; `Forest.grown` is what it has
become before some index, and `Forest.Grows` says what one instruction adds.

* `Feeds code l c q`: the instruction at `l` produces operand `q` of the one at `c`.
* `Growing.Inv` is what stays true while a forest grows: trees are in the order of their
  indices, their branches are instructions that feed one another, every instruction is
  part of some tree, and no collection goes unnoticed.
* `Run.feeds` is what forests are for: in a run, an instruction takes what the
  instructions that feed it have left.
-/

namespace StackFlow

/-- The number of operands of an instruction whose operands can be paired. -/
def Instr.arity (p : Instr) : Nat := p.inputs.toInt.toNat

namespace Forest

/-- The forest of the code before index `i`. -/
def grown (code : List Instr) (i : Nat) : Growing :=
  (code.take i).zipIdx.foldl (fun s (p, i) => step s i p) {}

@[simp] theorem grown_zero (code : List Instr) : grown code 0 = {} := by
  simp [grown]

theorem grown_succ {code : List Instr} {i : Nat} {p : Instr} (h : code[i]? = some p) :
    grown code (i + 1) = step (grown code i) i p := by
  have hlt := (List.getElem?_eq_some_iff.1 h).1
  have hlength : (code.take i).length = i := by simp [Nat.le_of_lt hlt]
  rw [grown, List.take_add_one, h, Option.toList_some, List.zipIdx_append, List.foldl_append,
    hlength, Nat.zero_add]
  rfl

theorem ofCode_eq (code : List Instr) : ofCode code =
    ⟨(grown code code.length).roots.reverse, (grown code code.length).collects⟩ := by
  simp [ofCode, grown]

/-- What an instruction at index `i` makes of a forest. -/
inductive Grows (s : Growing) (i : Nat) (p : Instr) : Growing → Prop where
  | skip (silent : p.isMeta = true) : Grows s i p s
  | complex (spoken : p.isMeta = false) (complex : p.isComplex = true) :
      Grows s i p ⟨[], false, ⟨.node i [], s.collects || p.collects, s.stack.reverse⟩ :: s.roots⟩
  | push (spoken : p.isMeta = false) (paired : p.isComplex = false) (outputs : p.outputs = 1) :
      Grows s i p ⟨.node i (takeOperands p.arity s.stack) :: s.stack.drop p.arity,
        s.collects || p.collects, s.roots⟩
  | root (spoken : p.isMeta = false) (paired : p.isComplex = false) (outputs : p.outputs = 0) :
      Grows s i p ⟨s.stack.drop p.arity, false,
        ⟨.node i (takeOperands p.arity s.stack), s.collects || p.collects, []⟩ :: s.roots⟩
  /-- An instruction that leaves several values. -/
  | spill (spoken : p.isMeta = false) (paired : p.isComplex = false) (some : p.outputs ≠ 0)
      (several : p.outputs ≠ 1) :
      Grows s i p ⟨[], false, ⟨.node i (takeOperands p.arity s.stack), s.collects || p.collects,
        (s.stack.drop p.arity).reverse⟩ :: s.roots⟩

theorem grows_step (s : Growing) (i : Nat) (p : Instr) : Grows s i p (step s i p) := by
  unfold step
  split
  · rename_i hmeta
    exact .skip hmeta
  · rename_i hmeta
    rw [Bool.not_eq_true] at hmeta
    simp only
    split
    · rename_i hcomplex
      exact .complex hmeta hcomplex
    · rename_i hcomplex
      rw [Bool.not_eq_true] at hcomplex
      split
      · rename_i hzero
        exact .root hmeta hcomplex hzero
      · rename_i hzero
        split
        · rename_i hone
          exact .push hmeta hcomplex hone
        · rename_i hone
          exact .spill hmeta hcomplex hzero hone

theorem grows_grown {code : List Instr} {i : Nat} {p : Instr} (h : code[i]? = some p) :
    Grows (grown code i) i p (grown code (i + 1)) := by
  rw [grown_succ h]
  exact grows_step _ _ _

/-- The operand at place `q` of `n` is the tree at depth `n - 1 - q` of the stack. -/
theorem getElem?_takeOperands {n q : Nat} {stack : List Tree} {t : Tree} :
    (takeOperands n stack)[q]? = some (some t) ↔ q < n ∧ stack[n - 1 - q]? = some t := by
  have hlen : (stack.take n).length = min n stack.length := List.length_take
  simp only [takeOperands]
  rcases Nat.lt_or_ge q (n - (stack.take n).length) with hlt | hge
  · rw [List.getElem?_append_left (by simpa using hlt), List.getElem?_replicate, if_pos hlt]
    refine ⟨fun h => absurd h (by simp), fun h => ?_⟩
    have hin := (List.getElem?_eq_some_iff.1 h.2).1
    omega
  · rw [List.getElem?_append_right (by simpa using hge), List.length_replicate,
      List.getElem?_map]
    rcases Nat.lt_or_ge q n with hqn | hqn
    · rw [List.getElem?_reverse (by omega), List.getElem?_take]
      have hindex : (stack.take n).length - 1 - (q - (n - (stack.take n).length)) =
          n - 1 - q := by omega
      rw [hindex, if_pos (by omega)]
      simp [hqn]
    · rw [List.getElem?_eq_none (by simp; omega)]
      simp [Nat.not_lt.2 hqn]

/-- `Feeds code l c q`: operand `q` of the instruction at index `c` is what the
instruction at index `l` has left. -/
def Feeds (code : List Instr) (l c q : Nat) : Prop :=
  ∃ p t, code[c]? = some p ∧ p.isMeta = false ∧ p.isComplex = false ∧ q < p.arity ∧
    (grown code c).stack[p.arity - 1 - q]? = some t ∧ t.index = l

theorem feeds_takeOperands {code : List Instr} {c q : Nat} {p : Instr} {t : Tree}
    (hp : code[c]? = some p) (hmeta : p.isMeta = false) (hcomplex : p.isComplex = false)
    (h : (takeOperands p.arity (grown code c).stack)[q]? = some (some t)) :
    Feeds code t.index c q := by
  obtain ⟨hq, ht⟩ := getElem?_takeOperands.1 h
  exact ⟨p, t, hp, hmeta, hcomplex, hq, ht, rfl⟩

end Forest

open Forest

namespace Tree

/-- A tree whose branches are instructions that feed one another. -/
inductive Grown (code : List Instr) : Tree → Prop where
  | node {c : Nat} {operands : List (Option Tree)}
      (feeds : ∀ (q : Nat) (t : Tree), operands[q]? = some (some t) → Feeds code t.index c q)
      (grown : ∀ (q : Nat) (t : Tree), operands[q]? = some (some t) → Grown code t) :
      Grown code (.node c operands)

theorem Grown.operand {code : List Instr} {t u : Tree} {q : Nat} (h : t.Grown code)
    (hq : t.operand? q = some u) : Feeds code u.index t.index q ∧ u.Grown code := by
  cases h with
  | node feeds grown =>
    have hq := Option.join_eq_some_iff.1 hq
    exact ⟨feeds q u hq, grown q u hq⟩

theorem index_mem_indices (t : Tree) : t.index ∈ t.indices := by
  cases t with
  | node c operands => simp [indices, index]

theorem mem_operandIndices {c : Nat} {ts : List (Option Tree)} :
    c ∈ operandIndices ts ↔ ∃ t, some t ∈ ts ∧ c ∈ t.indices := by
  induction ts with
  | nil => simp [operandIndices]
  | cons o ts ih =>
    cases o with
    | none => simp [operandIndices, ih]
    | some u => simp [operandIndices, ih, or_and_right, exists_or]

theorem some_mem_takeOperands {n : Nat} {stack : List Tree} {t : Tree} :
    some t ∈ takeOperands n stack ↔ t ∈ stack.take n := by
  simp [takeOperands, -List.map_take]

theorem mem_indices_node {c i n : Nat} {stack : List Tree} :
    c ∈ (node i (takeOperands n stack)).indices ↔
      c = i ∨ ∃ t ∈ stack.take n, c ∈ t.indices := by
  rw [indices, List.mem_cons, mem_operandIndices]
  simp only [some_mem_takeOperands]

/-- Whether the tree holds whatever feeds one of its instructions. -/
def Closed (code : List Instr) (t : Tree) : Prop :=
  ∀ c ∈ t.indices, ∀ l q, Feeds code l c q → l ∈ t.indices

end Tree

namespace Forest

variable {code : List Instr}

/-- What stays true of the forest of the code before index `i`. -/
structure Growing.Inv (code : List Instr) (i : Nat) (s : Growing) : Prop where
  stack_lt : ∀ t ∈ s.stack, t.index < i
  stack_sorted : s.stack.Pairwise fun t u => u.index < t.index
  stack_grown : ∀ t ∈ s.stack, t.Grown code
  stack_closed : ∀ t ∈ s.stack, t.Closed code
  roots_lt : ∀ r ∈ s.roots, r.tree.index < i
  roots_sorted : s.roots.Pairwise fun r r' => r'.tree.index < r.tree.index
  roots_grown : ∀ r ∈ s.roots, ∀ t ∈ r.tree :: r.dropped, t.Grown code ∧ t.index ≤ r.tree.index
  roots_closed : ∀ r ∈ s.roots, ∀ t ∈ r.tree :: r.dropped, t.Closed code
  /-- Every instruction is part of some tree. -/
  parts : ∀ {c : Nat} {p : Instr}, c < i → code[c]? = some p → p.isMeta = false →
    (∃ t ∈ s.stack, c ∈ t.indices) ∨ ∃ r ∈ s.roots, ∃ t ∈ r.tree :: r.dropped, c ∈ t.indices
  /-- A collection shows at the first root that is not before it. -/
  noticed : ∀ {c : Nat} {p : Instr}, c < i → code[c]? = some p → p.collects = true →
    (s.collects = true ∧ ∀ r ∈ s.roots, r.tree.index < c) ∨
      ∃ r ∈ s.roots, c ≤ r.tree.index ∧ r.collects = true ∧
        ∀ r' ∈ s.roots, r'.tree.index < c ∨ r.tree.index ≤ r'.tree.index

theorem collects_of_isMeta {p : Instr} (h : p.isMeta = true) : p.collects = false := by
  unfold Instr.isMeta at h
  unfold Instr.collects
  cases hop : p.op <;> simp_all [Opcode.row]

theorem isComplex_of_isMeta {p : Instr} (h : p.isMeta = true) : p.isComplex = false := by
  unfold Instr.isMeta at h
  unfold Instr.isComplex
  cases hop : p.op <;> simp_all [Opcode.row]

section NewTree

variable {i : Nat} {p : Instr}

/-- The tree of the instruction at index `i`. -/
theorem grown_node (hinv : (grown code i).Inv code i) (hp : code[i]? = some p)
    (hmeta : p.isMeta = false) (hcomplex : p.isComplex = false) :
    (Tree.node i (takeOperands p.arity (grown code i).stack)).Grown code := by
  refine .node (fun q t h => feeds_takeOperands hp hmeta hcomplex h) fun q t h => ?_
  exact hinv.stack_grown t (List.mem_of_getElem? (getElem?_takeOperands.1 h).2)

theorem closed_node (hinv : (grown code i).Inv code i) (hp : code[i]? = some p) :
    (Tree.node i (takeOperands p.arity (grown code i).stack)).Closed code := by
  intro c hc l q hfeeds
  rw [Tree.mem_indices_node] at hc ⊢
  right
  rcases hc with rfl | ⟨t, ht, hc⟩
  · obtain ⟨p', t, hp', _, _, hq, ht, rfl⟩ := hfeeds
    rw [hp, Option.some_inj] at hp'
    subst hp'
    refine ⟨t, List.mem_iff_getElem?.2 ⟨p.arity - 1 - q, ?_⟩, t.index_mem_indices⟩
    rw [List.getElem?_take, if_pos (by omega)]
    exact ht
  · exact ⟨t, ht, hinv.stack_closed t (List.mem_of_mem_take ht) c hc l q hfeeds⟩

theorem closed_leaf (hp : code[i]? = some p) (hcomplex : p.isComplex = true) :
    (Tree.node i []).Closed code := by
  intro c hc l q hfeeds
  rw [Tree.indices, Tree.operandIndices, List.mem_singleton] at hc
  subst hc
  obtain ⟨p', t, hp', _, hpaired, _⟩ := hfeeds
  rw [hp, Option.some_inj] at hp'
  rw [← hp', hcomplex] at hpaired
  cases hpaired

end NewTree

namespace Growing.Inv

variable {i : Nat} {s : Growing} {p : Instr}

theorem skip (h : s.Inv code i) (hp : code[i]? = some p) (hmeta : p.isMeta = true) :
    s.Inv code (i + 1) := by
  refine { h with
    stack_lt := fun t ht => Nat.lt_succ_of_lt (h.stack_lt t ht)
    roots_lt := fun r hr => Nat.lt_succ_of_lt (h.roots_lt r hr)
    parts := fun {c q} hc hq hspoken => ?_
    noticed := fun {c q} hc hq hcollects => ?_ }
  · rcases Nat.lt_succ_iff_lt_or_eq.1 hc with hc | rfl
    · exact h.parts hc hq hspoken
    · rw [hp, Option.some_inj] at hq
      rw [← hq, hmeta] at hspoken
      cases hspoken
  · rcases Nat.lt_succ_iff_lt_or_eq.1 hc with hc | rfl
    · exact h.noticed hc hq hcollects
    · rw [hp, Option.some_inj] at hq
      rw [← hq, collects_of_isMeta hmeta] at hcollects
      cases hcollects

theorem push (h : s.Inv code i) (hp : code[i]? = some p) {tree : Tree} {n : Nat}
    (hindex : tree.index = i) (hgrown : tree.Grown code) (hclosed : tree.Closed code)
    (hparts : ∀ t ∈ s.stack.take n, ∀ c ∈ t.indices, c ∈ tree.indices) :
    Inv code (i + 1) ⟨tree :: s.stack.drop n, s.collects || p.collects, s.roots⟩ where
  stack_lt t ht := by
    rcases List.mem_cons.1 ht with rfl | ht
    · omega
    · exact Nat.lt_succ_of_lt (h.stack_lt t (List.mem_of_mem_drop ht))
  stack_sorted := by
    refine List.pairwise_cons.2 ⟨fun t ht => ?_, h.stack_sorted.sublist (List.drop_sublist _ _)⟩
    exact hindex ▸ h.stack_lt t (List.mem_of_mem_drop ht)
  stack_grown t ht := by
    rcases List.mem_cons.1 ht with rfl | ht
    · exact hgrown
    · exact h.stack_grown t (List.mem_of_mem_drop ht)
  stack_closed t ht := by
    rcases List.mem_cons.1 ht with rfl | ht
    · exact hclosed
    · exact h.stack_closed t (List.mem_of_mem_drop ht)
  roots_lt r hr := Nat.lt_succ_of_lt (h.roots_lt r hr)
  roots_sorted := h.roots_sorted
  roots_grown := h.roots_grown
  roots_closed := h.roots_closed
  parts {c q} hc hq hspoken := by
    rcases Nat.lt_succ_iff_lt_or_eq.1 hc with hc | rfl
    · rcases h.parts hc hq hspoken with ⟨t, ht, hct⟩ | hroots
      · rw [← List.take_append_drop n s.stack, List.mem_append] at ht
        rcases ht with ht | ht
        · exact .inl ⟨tree, List.mem_cons_self, hparts t ht c hct⟩
        · exact .inl ⟨t, List.mem_cons_of_mem _ ht, hct⟩
      · exact .inr hroots
    · exact .inl ⟨tree, List.mem_cons_self, hindex ▸ tree.index_mem_indices⟩
  noticed {c q} hc hq hcollects := by
    rcases Nat.lt_succ_iff_lt_or_eq.1 hc with hc | rfl
    · exact (h.noticed hc hq hcollects).imp (fun hs => ⟨by simp [hs.1], hs.2⟩) id
    · rw [hp, Option.some_inj] at hq
      exact .inl ⟨by simp [hq, hcollects], h.roots_lt⟩

theorem root (h : s.Inv code i) (hp : code[i]? = some p) {tree : Tree} {dropped rest : List Tree}
    (hindex : tree.index = i) (hgrown : tree.Grown code) (hclosed : tree.Closed code)
    (hdropped : ∀ t ∈ dropped, t ∈ s.stack) (hrest : rest.Sublist s.stack)
    (hparts : ∀ t ∈ s.stack, ∀ c ∈ t.indices, c ∈ tree.indices ∨ t ∈ dropped ∨ t ∈ rest) :
    Inv code (i + 1) ⟨rest, false, ⟨tree, s.collects || p.collects, dropped⟩ :: s.roots⟩ where
  stack_lt t ht := Nat.lt_succ_of_lt (h.stack_lt t (hrest.subset ht))
  stack_sorted := h.stack_sorted.sublist hrest
  stack_grown t ht := h.stack_grown t (hrest.subset ht)
  stack_closed t ht := h.stack_closed t (hrest.subset ht)
  roots_lt r hr := by
    rcases List.mem_cons.1 hr with rfl | hr
    · exact hindex ▸ Nat.lt_succ_self _
    · exact Nat.lt_succ_of_lt (h.roots_lt r hr)
  roots_sorted := by
    refine List.pairwise_cons.2 ⟨fun r hr => ?_, h.roots_sorted⟩
    exact hindex ▸ h.roots_lt r hr
  roots_grown r hr t ht := by
    rcases List.mem_cons.1 hr with rfl | hr
    · rcases List.mem_cons.1 ht with rfl | ht
      · exact ⟨hgrown, Nat.le_refl _⟩
      · have ht := hdropped t ht
        exact ⟨h.stack_grown t ht, hindex ▸ Nat.le_of_lt (h.stack_lt t ht)⟩
    · exact h.roots_grown r hr t ht
  roots_closed r hr t ht := by
    rcases List.mem_cons.1 hr with rfl | hr
    · rcases List.mem_cons.1 ht with rfl | ht
      · exact hclosed
      · exact h.stack_closed t (hdropped t ht)
    · exact h.roots_closed r hr t ht
  parts {c q} hc hq hspoken := by
    rcases Nat.lt_succ_iff_lt_or_eq.1 hc with hc | rfl
    · rcases h.parts hc hq hspoken with ⟨t, ht, hct⟩ | ⟨r, hr, hct⟩
      · rcases hparts t ht c hct with hc | ht | ht
        · exact .inr ⟨_, List.mem_cons_self, tree, List.mem_cons_self, hc⟩
        · exact .inr ⟨_, List.mem_cons_self, t, List.mem_cons_of_mem _ ht, hct⟩
        · exact .inl ⟨t, ht, hct⟩
      · exact .inr ⟨r, List.mem_cons_of_mem _ hr, hct⟩
    · exact .inr ⟨_, List.mem_cons_self, tree, List.mem_cons_self, hindex ▸ tree.index_mem_indices⟩
  noticed {c q} hc hq hcollects := by
    rcases Nat.lt_succ_iff_lt_or_eq.1 hc with hc | rfl
    · rcases h.noticed hc hq hcollects with ⟨hs, hroots⟩ | ⟨r, hr, hle, hcollects, hfirst⟩
      · refine .inr ⟨_, List.mem_cons_self, ?_, by simp [hs], fun r' hr' => ?_⟩
        · exact hindex ▸ Nat.le_of_lt hc
        · rcases List.mem_cons.1 hr' with rfl | hr'
          · exact .inr (Nat.le_refl _)
          · exact .inl (hroots r' hr')
      · refine .inr ⟨r, List.mem_cons_of_mem _ hr, hle, hcollects, fun r' hr' => ?_⟩
        rcases List.mem_cons.1 hr' with rfl | hr'
        · exact .inr (hindex ▸ Nat.le_of_lt (h.roots_lt r hr))
        · exact hfirst r' hr'
    · rw [hp, Option.some_inj] at hq
      refine .inr ⟨_, List.mem_cons_self, Nat.le_of_eq hindex.symm, by simp [hq, hcollects],
        fun r' hr' => ?_⟩
      rcases List.mem_cons.1 hr' with rfl | hr'
      · exact .inr (Nat.le_refl _)
      · exact .inl (h.roots_lt r' hr')

end Growing.Inv

theorem inv_step {i : Nat} {p : Instr} (hp : code[i]? = some p)
    (hinv : (grown code i).Inv code i) : (grown code (i + 1)).Inv code (i + 1) := by
  have hgrows := grows_grown hp
  have hnode : ∀ t ∈ (grown code i).stack.take p.arity, ∀ c ∈ t.indices,
      c ∈ (Tree.node i (takeOperands p.arity (grown code i).stack)).indices :=
    fun t ht c hc => Tree.mem_indices_node.2 (.inr ⟨t, ht, hc⟩)
  have hsplit : ∀ t ∈ (grown code i).stack, t ∈ (grown code i).stack.take p.arity ∨
      t ∈ (grown code i).stack.drop p.arity := by
    intro t ht
    rwa [← List.mem_append, List.take_append_drop]
  generalize grown code (i + 1) = s' at hgrows
  cases hgrows with
  | skip silent => exact hinv.skip hp silent
  | complex spoken complex =>
    refine hinv.root hp rfl (.node (by simp) (by simp)) (closed_leaf hp complex)
      (fun t ht => List.mem_reverse.1 ht) (List.nil_sublist _) fun t ht c hc => ?_
    exact .inr (.inl (List.mem_reverse.2 ht))
  | push spoken paired outputs =>
    exact hinv.push hp rfl (grown_node hinv hp spoken paired) (closed_node hinv hp) hnode
  | root spoken paired outputs =>
    refine hinv.root hp rfl (grown_node hinv hp spoken paired) (closed_node hinv hp)
      (by simp) (List.drop_sublist _ _) fun t ht c hc => ?_
    exact (hsplit t ht).imp (hnode t · c hc) .inr
  | spill spoken paired some several =>
    refine hinv.root hp rfl (grown_node hinv hp spoken paired) (closed_node hinv hp)
      (fun t ht => List.mem_of_mem_drop (List.mem_reverse.1 ht)) (List.nil_sublist _)
      fun t ht c hc => ?_
    exact (hsplit t ht).imp (hnode t · c hc) fun ht => .inl (List.mem_reverse.2 ht)

/-- A growing forest keeps its invariant. -/
theorem inv_grown {i : Nat} (hi : i ≤ code.length) : (grown code i).Inv code i := by
  induction i with
  | zero =>
    rw [grown_zero]
    constructor <;> simp
  | succ i ih => exact inv_step (List.getElem?_eq_getElem hi) (ih (Nat.le_of_succ_le hi))

/-! ## Roots in order -/

/-- An instruction adds one root, which settles the collections so far, or none. -/
theorem Grows.roots {s s' : Growing} {i : Nat} {p : Instr} (h : Grows s i p s') :
    (s'.roots = s.roots ∧ s'.collects = (s.collects || p.collects)) ∨
      ∃ r, s'.roots = r :: s.roots ∧ r.tree.index = i ∧
        r.collects = (s.collects || p.collects) ∧ s'.collects = false := by
  cases h with
  | skip silent => exact .inl ⟨rfl, by simp [collects_of_isMeta silent]⟩
  | push => exact .inl ⟨rfl, rfl⟩
  | complex => exact .inr ⟨_, rfl, rfl, rfl, rfl⟩
  | root => exact .inr ⟨_, rfl, rfl, rfl, rfl⟩
  | spill => exact .inr ⟨_, rfl, rfl, rfl, rfl⟩

/-- Roots are only added. -/
theorem roots_suffix {i n : Nat} (hin : i ≤ n) (hn : n ≤ code.length) :
    (grown code i).roots <:+ (grown code n).roots := by
  induction n, hin using Nat.le_induction with
  | base => exact List.suffix_rfl
  | succ n _ ih =>
    have hsuffix := ih (Nat.le_of_succ_le hn)
    rcases (grows_grown (List.getElem?_eq_getElem hn)).roots with ⟨hroots, _⟩ | ⟨r', hroots, _⟩
    · rwa [hroots]
    · rw [hroots]
      exact hsuffix.trans (List.suffix_cons _ _)

theorem mem_roots_of_le {i n : Nat} {r : Root} (h : r ∈ (grown code i).roots) (hin : i ≤ n)
    (hn : n ≤ code.length) : r ∈ (grown code n).roots :=
  (roots_suffix hin hn).subset h

/-- The roots before a root are those of the code before it. -/
theorem roots_split {n : Nat} (hn : n ≤ code.length) {pre post : List Root} {r : Root}
    (h : (grown code n).roots.reverse = pre ++ r :: post) :
    pre = (grown code r.tree.index).roots.reverse ∧ r.tree.index < n ∧
      (grown code (r.tree.index + 1)).roots = r :: (grown code r.tree.index).roots := by
  induction n generalizing post with
  | zero => simp at h
  | succ n ih =>
    have hlt := Nat.lt_succ_self n
    rcases (grows_grown (List.getElem?_eq_getElem hn)).roots with
      ⟨hroots, _⟩ | ⟨r', hroots, hindex, _⟩
    · rw [hroots] at h
      obtain ⟨hpre, hindex, hnext⟩ := ih (Nat.le_of_succ_le hn) h
      exact ⟨hpre, Nat.lt_trans hindex hlt, hnext⟩
    · rw [hroots, List.reverse_cons] at h
      rcases List.eq_nil_or_concat post with rfl | ⟨post, r'', rfl⟩
      · obtain ⟨hpre, hr⟩ := List.append_inj' h rfl
        cases hr
        rw [hindex]
        exact ⟨hpre.symm, hlt, hroots⟩
      · rw [List.concat_eq_append, ← List.cons_append, ← List.append_assoc] at h
        obtain ⟨hpre, hindex, hnext⟩ := ih (Nat.le_of_succ_le hn) (List.append_inj' h rfl).1
        exact ⟨hpre, Nat.lt_trans hindex hlt, hnext⟩

/-! ## An instruction feeds one other -/

/-- A tree of the stack was there before, or is that of the last instruction. -/
theorem mem_stack_succ {i : Nat} {p : Instr} (hp : code[i]? = some p) {t : Tree}
    (ht : t ∈ (grown code (i + 1)).stack) : t ∈ (grown code i).stack ∨ t.index = i := by
  have hgrows := grows_grown hp
  generalize grown code (i + 1) = s' at hgrows ht
  cases hgrows with
  | skip => exact .inl ht
  | complex => cases ht
  | push =>
    rcases List.mem_cons.1 ht with rfl | ht
    · exact .inr rfl
    · exact .inl (List.mem_of_mem_drop ht)
  | root => exact .inl (List.mem_of_mem_drop ht)
  | spill => cases ht

theorem Feeds.lt {l c q : Nat} (h : Feeds code l c q) : l < c := by
  obtain ⟨p, t, hp, _, _, _, ht, rfl⟩ := h
  have hc := Nat.le_of_lt (List.getElem?_eq_some_iff.1 hp).1
  exact (inv_grown hc).stack_lt t (List.mem_of_getElem? ht)

/-- Trees further down the stack are older. -/
theorem index_lt_of_deeper {i d d' : Nat} {t u : Tree} (hi : i ≤ code.length)
    (ht : (grown code i).stack[d]? = some t) (hu : (grown code i).stack[d']? = some u)
    (hd : d < d') : u.index < t.index := by
  obtain ⟨hlt, rfl⟩ := List.getElem?_eq_some_iff.1 ht
  obtain ⟨hlt', rfl⟩ := List.getElem?_eq_some_iff.1 hu
  exact List.pairwise_iff_getElem.1 (inv_grown hi).stack_sorted _ _ hlt hlt' hd

/-- What has been taken from the stack does not come back. -/
theorem Feeds.index_ne {l c q i : Nat} (h : Feeds code l c q) (hc : c < i)
    (hi : i ≤ code.length) : ∀ t ∈ (grown code i).stack, t.index ≠ l := by
  have hlt := h.lt
  induction i with
  | zero => omega
  | succ i ih =>
    have hp := List.getElem?_eq_getElem hi
    rcases Nat.lt_succ_iff_lt_or_eq.1 hc with hc | rfl
    · intro t ht
      rcases mem_stack_succ hp ht with ht | ht
      · exact ih hc (Nat.le_of_succ_le hi) t ht
      · omega
    · obtain ⟨p, t, hp', hmeta, hcomplex, hq, ht, rfl⟩ := h
      rw [hp, Option.some_inj] at hp'
      subst hp'
      have hdrop : ∀ u ∈ (grown code c).stack.drop (code[c]).arity, u.index ≠ t.index := by
        intro u hu
        obtain ⟨d, hd⟩ := List.mem_iff_getElem?.1 hu
        rw [List.getElem?_drop] at hd
        exact Nat.ne_of_lt (index_lt_of_deeper (Nat.le_of_succ_le hi) ht hd (by omega))
      have hgrows := grows_grown hp
      generalize grown code (c + 1) = s' at hgrows
      cases hgrows with
      | skip silent => simp [hmeta] at silent
      | complex _ complex => simp [hcomplex] at complex
      | push =>
        intro u hu
        rcases List.mem_cons.1 hu with rfl | hu
        · exact Nat.ne_of_gt hlt
        · exact hdrop u hu
      | root => exact hdrop
      | spill => simp

/-- An instruction feeds only one operand of one other. -/
theorem Feeds.unique {l c c' q q' : Nat} (h : Feeds code l c q) (h' : Feeds code l c' q') :
    c = c' ∧ q = q' := by
  have hne : ∀ {c c' q q'}, Feeds code l c q → Feeds code l c' q' → ¬ c < c' := by
    rintro c c' q q' h ⟨p, t, hp, _, _, _, ht, hindex⟩ hlt
    exact h.index_ne hlt (Nat.le_of_lt (List.getElem?_eq_some_iff.1 hp).1) t
      (List.mem_of_getElem? ht) hindex
  obtain rfl : c = c' := Nat.le_antisymm (Nat.not_lt.1 (hne h' h)) (Nat.not_lt.1 (hne h h'))
  refine ⟨rfl, ?_⟩
  obtain ⟨p, t, hp, _, _, hq, ht, hindex⟩ := h
  obtain ⟨p', t', hp', _, _, hq', ht', hindex'⟩ := h'
  rw [hp, Option.some_inj] at hp'
  subst hp'
  have hc := Nat.le_of_lt (List.getElem?_eq_some_iff.1 hp).1
  rcases Nat.lt_trichotomy q q' with hlt | heq | hgt
  · have := index_lt_of_deeper hc ht' ht (by omega)
    omega
  · exact heq
  · have := index_lt_of_deeper hc ht ht' (by omega)
    omega

end Forest

/-- A tree is at the largest of its indices. -/
theorem Tree.Grown.le_index {code : List Instr} {t : Tree} (h : t.Grown code) :
    ∀ c ∈ t.indices, c ≤ t.index := by
  induction h with
  | node feeds grown ih =>
    rename_i i operands
    intro c hc
    rw [Tree.indices, List.mem_cons, Tree.mem_operandIndices] at hc
    rcases hc with rfl | ⟨t, ht, hc⟩
    · exact Nat.le_refl _
    · obtain ⟨q, hq⟩ := List.mem_iff_getElem?.1 ht
      exact Nat.le_trans (ih q t hq c hc) (Nat.le_of_lt (feeds q t hq).lt)

/-! ## Forests in a run -/

/-- A step of an instruction whose operands can be paired. -/
theorem Exec.paired {h : List Event} {p : Instr} {m m' : Machine}
    {operands results : List Value} (hstep : Exec h p m operands results m') (hshape : p.Shaped)
    (hmeta : p.isMeta = false) (hcomplex : p.isComplex = false) :
    ∃ taken rest, m.stack = taken ++ rest ∧ operands = taken.reverse ∧
      taken.length = p.arity ∧ m'.stack = results.reverse ++ rest ∧
      (p.outputs = 0 → results = []) ∧ (p.outputs = 1 → ∃ v, results = [v]) := by
  cases hstep with
  | skip silent => simp [hmeta] at silent
  | complex complex => simp [hcomplex] at complex
  | load op =>
    obtain ⟨hin, hout⟩ := hshape (by simp [op]) (by simp [op])
    rw [op] at hin hout
    refine ⟨[], m.stack, rfl, rfl, ?_, rfl, fun hzero => ?_, fun _ => ⟨_, rfl⟩⟩
    · simp [Instr.arity, hin, Opcode.row]
    · rw [hout] at hzero
      simp [Opcode.row] at hzero
  | store op top =>
    rename_i v rest
    obtain ⟨hin, hout⟩ := hshape (by simp [op]) (by simp [op])
    rw [op] at hin hout
    refine ⟨[v], rest, top, rfl, ?_, rfl, fun _ => rfl, fun hone => ?_⟩
    · rw [Instr.arity, hin]
      rfl
    · rw [hout] at hone
      simp [Opcode.row] at hone
  | plain spoken paired noTemp stack count leaves =>
    rename_i taken rest
    have hnumber : p.op = .number → p.outputs = 1 := fun hop => by
      rw [(hshape (by simp [hop]) (by simp [hop])).2, hop]
      rfl
    have halloc : p.allocates = true → p.outputs = 1 := fun hop => by
      simp only [Instr.allocates, Bool.or_eq_true, decide_eq_true_eq] at hop
      rcases hop with hop | hop <;>
      · rw [(hshape (by simp [hop]) (by simp [hop])).2, hop]
        rfl
    have hone : (1 : Int64) ≠ 0 := by decide
    unfold Leaves at leaves
    refine ⟨taken, rest, stack, rfl, count, rfl, fun hzero => ?_, fun hout => ?_⟩
    · split at leaves
      · rename_i hop
        exact absurd ((hnumber hop).symm.trans hzero) hone
      · split at leaves
        · rename_i hop
          exact absurd ((halloc hop).symm.trans hzero) hone
        · rw [hzero] at leaves
          exact List.length_eq_zero_iff.1 leaves.1
    · split at leaves
      · exact ⟨_, leaves⟩
      · split at leaves
        · exact ⟨_, leaves⟩
        · rw [hout] at leaves
          exact List.length_eq_one_iff.1 leaves.1

section Runs

variable {o : Options} {code : List Instr} {g : Graph} {h : List Event} {b i : Nat}
  {m : Machine}

/-- The values on the stack are what the trees on the stack stand for. -/
theorem Run.stack_fed (hbuilt : Graph.Built o code g) (hmade : ∀ p ∈ code, p.Constructed)
    (hrun : Run g h b i m) : ∀ {d : Nat} {t : Tree},
      (grown (g.block b).code i).stack[d]? = some t →
      ∃ v e, m.stack[d]? = some v ∧ h[h.length - i + t.index]? = some e ∧ e.results = [v] := by
  induction hrun with
  | start => simp
  | jump => simp
  | exec run at_ step ih =>
    rename_i h b i m m' p operands results
    intro d t ht
    have hle := run.visit.1
    have hlt := (List.getElem?_eq_some_iff.1 at_).1
    have hshape := hbuilt.shaped hmade (List.mem_of_getElem? at_)
    have hbase : (h ++ [(⟨⟨b, i⟩, p, operands, results⟩ : Event)]).length - (i + 1) =
        h.length - i := by simp
    rw [hbase]
    -- an older tree stands for an older event
    have hold : ∀ {d' : Nat} {t : Tree}, (grown (g.block b).code i).stack[d']? = some t →
        ∃ v e, m.stack[d']? = some v ∧
          (h ++ [(⟨⟨b, i⟩, p, operands, results⟩ : Event)])[h.length - i + t.index]? = some e ∧
          e.results = [v] := by
      intro d' t ht
      obtain ⟨v, e, hv, he, hresults⟩ := ih ht
      refine ⟨v, e, hv, ?_, hresults⟩
      rwa [List.getElem?_append_left (List.getElem?_eq_some_iff.1 he).1]
    have hgrows := grows_grown at_
    generalize grown (g.block b).code (i + 1) = s' at hgrows ht
    cases hgrows with
    | complex => simp at ht
    | spill => simp at ht
    | skip silent =>
      obtain rfl : m' = m := by
        cases step with
        | skip => rfl
        | load op => simp [Instr.isMeta, op, Opcode.row] at silent
        | store op => simp [Instr.isMeta, op, Opcode.row] at silent
        | complex complex => simp [isComplex_of_isMeta silent] at complex
        | plain spoken => simp [silent] at spoken
      exact hold ht
    | push spoken paired outputs =>
      obtain ⟨taken, rest, hstack, _, hcount, hstack', _, hone⟩ :=
        step.paired hshape spoken paired
      obtain ⟨v, rfl⟩ := hone outputs
      rw [hstack']
      cases d with
      | zero =>
        simp only [List.getElem?_cons_zero, Option.some_inj] at ht
        subst ht
        refine ⟨v, ⟨⟨b, i⟩, p, operands, [v]⟩, by simp, ?_, rfl⟩
        rw [Tree.index, Nat.sub_add_cancel hle]
        simp
      | succ d =>
        rw [List.getElem?_cons_succ, List.getElem?_drop] at ht
        obtain ⟨w, e, hw, he, hresults⟩ := hold ht
        refine ⟨w, e, ?_, he, hresults⟩
        rw [hstack, List.getElem?_append_right (by omega), hcount] at hw
        simpa using hw
    | root spoken paired outputs =>
      obtain ⟨taken, rest, hstack, _, hcount, hstack', hzero, _⟩ :=
        step.paired hshape spoken paired
      obtain rfl := hzero outputs
      rw [hstack']
      rw [List.getElem?_drop] at ht
      obtain ⟨w, e, hw, he, hresults⟩ := hold ht
      refine ⟨w, e, ?_, he, hresults⟩
      rw [hstack, List.getElem?_append_right (by omega), hcount] at hw
      simpa using hw

/-- In a run, an instruction takes what the instructions that feed it have left. -/
theorem Run.feeds (hbuilt : Graph.Built o code g) (hmade : ∀ p ∈ code, p.Constructed)
    (hrun : Run g h b i m) {l c q : Nat} (hfeeds : Feeds (g.block b).code l c q) (hc : c < i) :
    ∃ e e' v, h[h.length - i + l]? = some e ∧ e.results = [v] ∧
      h[h.length - i + c]? = some e' ∧ e'.operands[q]? = some v := by
  obtain ⟨hle, _, hplaces⟩ := hrun.visit
  obtain ⟨e', he', hplace⟩ := hplaces c hc
  obtain ⟨m₀, m₁, hbefore, _, hstep, _⟩ := hrun.before he'
  obtain ⟨p, t, hp, hmeta, hcomplex, hq, ht, rfl⟩ := hfeeds
  rw [hplace] at hbefore
  rw [hrun.instr_at hc he' hp] at hstep
  have hlen : (h.take (h.length - i + c)).length = h.length - i + c := by
    rw [List.length_take]
    omega
  obtain ⟨v, e, hv, he, hresults⟩ := hbefore.stack_fed hbuilt hmade ht
  rw [hlen, Nat.add_sub_cancel] at he
  obtain ⟨taken, rest, hstack, hoperands, hcount, _⟩ :=
    hstep.paired (hbuilt.shaped hmade (List.mem_of_getElem? hp)) hmeta hcomplex
  refine ⟨e, e', v, ?_, hresults, he', ?_⟩
  · rw [List.getElem?_take] at he
    split at he
    · exact he
    · cases he
  · rw [hstack, List.getElem?_append_left (by omega)] at hv
    rw [hoperands, List.getElem?_reverse (by omega), hcount]
    exact hv

/-- What the last instruction of a run has taken. -/
theorem Run.feeds_last (hbuilt : Graph.Built o code g) (hmade : ∀ p ∈ code, p.Constructed)
    {e : Event} (hrun : Run g (h ++ [e]) b (i + 1) m) {l q : Nat}
    (hfeeds : Feeds (g.block b).code l i q) :
    ∃ el v, (h ++ [e])[(h ++ [e]).length - (i + 1) + l]? = some el ∧ el.results = [v] ∧
      e.operands[q]? = some v := by
  obtain ⟨el, e', v, hel, hv, he', hoperand⟩ :=
    hrun.feeds hbuilt hmade hfeeds (Nat.lt_succ_self i)
  have hle := hrun.visit.1
  rw [List.length_append, List.length_singleton] at he' hle
  rw [show h.length + 1 - (i + 1) + i = h.length by omega, List.getElem?_concat_length,
    Option.some_inj] at he'
  subst he'
  exact ⟨el, v, hel, hv, hoperand⟩

end Runs

end StackFlow
