import StackFlow.Proofs.Fidelity
import StackFlow.Proofs.Replay

/-!
# Operands and what produced them

A block can be replayed on a stack of sources, which say of every value which instruction of the
block has left it, or that nothing is known of it.  There are five groups.

* Replays.  `Moves` is one instruction of a replay, and `Replay` puts them together.
  `Takes code c operands` says what the instruction at index `c` may take.
* What is known.  The trees on the stack of a growing forest are known in every replay
  (`prefix_of_replay`), and there is a replay that knows nothing else (`exists_replay`).  So an
  instruction feeds an operand exactly if every replay says so (`feeds_iff_takes`).
* Nodes.  `Tree.Made` says that the operands of a node are those that were taken from the stack.
* Places.  `Growing.held` lists the instructions in all trees, where every one that is no debug
  information stands once (`held_grown`).  So the forest has all of them but those whose values
  are on the stack at the end (`mem_indices_iff`).
* Collections between roots, and `Graph.forest_paired`, which puts all of it together.
-/

namespace StackFlow

/-! ## Replays -/

/-- What is known of a value: the index of the instruction that has left it, or nothing. -/
abbrev Source := Option Nat

/-- What the instruction `p` at index `i` makes of the values in `rest`, which it has not taken.
Of several values that it leaves nothing is known, nor of how many values are left then. -/
inductive LeavesOver (i : Nat) (p : Instr) (rest : List Source) : List Source → Prop where
  | nothing (outputs : p.outputs = 0) : LeavesOver i p rest rest
  | value (outputs : p.outputs = 1) : LeavesOver i p rest (some i :: rest)
  | several {stack : List Source} (outputs : 2 ≤ p.outputs)
      (unknown : ∀ v ∈ stack, v = none ∨ v ∈ rest) : LeavesOver i p rest stack

/-- `Moves i p stack operands stack'`: on `stack`, the topmost value first, the instruction `p` at
index `i` takes `operands`, the topmost value last, and leaves `stack'`.  Nothing is known of what
a complex instruction takes and leaves. -/
inductive Moves (i : Nat) (p : Instr) : List Source → List Source → List Source → Prop where
  | skip {stack : List Source} (silent : p.isMeta = true) : Moves i p stack [] stack
  | complex {stack stack' : List Source} (spoken : p.isMeta = false) (complex : p.isComplex = true)
      (unknown : ∀ v ∈ stack', v = none ∨ v ∈ stack) : Moves i p stack [] stack'
  | paired {taken rest stack' : List Source} (spoken : p.isMeta = false)
      (paired : p.isComplex = false) (count : (taken.length : Int) = p.inputs.toInt)
      (left : LeavesOver i p rest stack') : Moves i p (taken ++ rest) taken.reverse stack'

/-- `Replay code i stack`: a replay of the code before index `i`, over values of which nothing is
known, may come to `stack`. -/
inductive Replay (code : List Instr) : Nat → List Source → Prop where
  | start (n : Nat) : Replay code 0 (List.replicate n none)
  | step {i : Nat} {p : Instr} {stack operands stack' : List Source} (run : Replay code i stack)
      (at_ : code[i]? = some p) (moves : Moves i p stack operands stack') :
      Replay code (i + 1) stack'

/-- In some replay, the instruction at index `c` takes `operands`. -/
def Takes (code : List Instr) (c : Nat) (operands : List Source) : Prop :=
  ∃ p stack stack', code[c]? = some p ∧ Replay code c stack ∧ Moves c p stack operands stack'

/-- In all replays, the instruction at index `c` takes what that at index `l` has left. -/
def GoesInto (code : List Instr) (l c : Nat) : Prop :=
  ∃ k : Nat, ∀ operands, Takes code c operands → operands[k]? = some (some l)

/-- In all replays, what the instruction at index `l` has left is on the stack at the end. -/
def Stays (code : List Instr) (l : Nat) : Prop :=
  ∃ k : Nat, ∀ stack, Replay code code.length stack → stack[k]? = some (some l)

/-- Whether the instruction takes and leaves a number of values. -/
def Instr.Counted (p : Instr) : Prop := 0 ≤ p.inputs ∧ 0 ≤ p.outputs

theorem Instr.Counted.arity {p : Instr} (h : p.Counted) : (p.arity : Int) = p.inputs.toInt :=
  Int.toNat_of_nonneg (Int64.le_iff_toInt_le.1 h.1)

/-- Several values are neither none nor one. -/
theorem Instr.Counted.several_iff {p : Instr} (h : p.Counted) :
    2 ≤ p.outputs ↔ p.outputs ≠ 0 ∧ p.outputs ≠ 1 := by
  have hle : 0 ≤ p.outputs.toInt := Int64.le_iff_toInt_le.1 h.2
  have hzero : p.outputs = 0 ↔ p.outputs.toInt = 0 := Int64.toInt_inj.symm
  have hone : p.outputs = 1 ↔ p.outputs.toInt = 1 := Int64.toInt_inj.symm
  have htwo : 2 ≤ p.outputs ↔ 2 ≤ p.outputs.toInt := Int64.le_iff_toInt_le
  rw [ne_eq, ne_eq, hzero, hone, htwo]
  omega

namespace Forest

variable {code : List Instr} {i c k l : Nat} {p : Instr} {s : Growing} {t u : Tree}
  {stack operands stack' : List Source}

/-! ## What is known in all replays -/

/-- The sources of the trees on a stack. -/
def sources (trees : List Tree) : List Source := trees.map fun t => some t.index

/-- What the trees on the stack stand for is known after an instruction as well. -/
theorem prefix_of_moves (hcounted : p.Counted) (hmoves : Moves i p stack operands stack')
    (hbelow : sources s.stack <+: stack) : sources (step s i p).stack <+: stack' := by
  cases hmoves with
  | skip silent => simpa [step, silent] using hbelow
  | complex spoken complex => simp [step, spoken, complex, Growing.root, sources]
  | paired spoken paired count left =>
    rename_i taken rest
    have hlength : taken.length = p.arity := by
      have harity := hcounted.arity
      omega
    have hrest : sources (s.stack.drop p.arity) <+: rest := by
      have hdrop := hbelow.drop p.arity
      rwa [List.drop_left' hlength, sources, ← List.map_drop] at hdrop
    cases left with
    | nothing outputs =>
      simpa [step, spoken, paired, outputs, Growing.root, Instr.arity] using hrest
    | value outputs =>
      simpa [step, spoken, paired, outputs, sources, Tree.index, Instr.arity] using hrest
    | several outputs =>
      obtain ⟨hzero, hone⟩ := hcounted.several_iff.1 outputs
      simp [step, spoken, paired, hzero, hone, Growing.root, sources]

/-- What the trees on the stack stand for is known in every replay. -/
theorem prefix_of_replay (hcounted : ∀ p ∈ code, p.Counted) (hreplay : Replay code i stack) :
    sources (grown code i).stack <+: stack := by
  induction hreplay with
  | start => simp [sources]
  | step _ at_ moves ih =>
    rw [grown_succ at_]
    exact prefix_of_moves (hcounted _ (List.mem_of_getElem? at_)) moves ih

theorem length_takeOperands (n : Nat) (trees : List Tree) : (takeOperands n trees).length = n := by
  simp [takeOperands]

/-- Over enough values of which nothing is known, the operands are taken off the stack. -/
theorem sources_append_replicate (n m : Nat) (trees : List Tree) :
    sources trees ++ List.replicate (n - trees.length + m) none =
      ((takeOperands n trees).map (Option.map Tree.index)).reverse ++
        (sources (trees.drop n) ++ List.replicate m none) := by
  have htaken : ((takeOperands n trees).map (Option.map Tree.index)).reverse =
      sources (trees.take n) ++ List.replicate (n - trees.length) none := by
    have hmissing : n - (trees.take n).length = n - trees.length := by
      rw [List.length_take]
      omega
    have hmap : Option.map Tree.index ∘ some = fun t => some t.index := rfl
    simp only [takeOperands, sources, hmissing, List.map_append, List.map_replicate,
      Option.map_none, List.map_map, hmap, List.reverse_append, List.reverse_replicate,
      List.map_reverse, List.reverse_reverse]
  rw [htaken, List.replicate_add]
  rcases Nat.le_total trees.length n with hle | hle
  · rw [List.take_of_length_le hle, List.drop_of_length_le hle]
    simp [sources]
  · rw [Nat.sub_eq_zero_of_le hle]
    simp [sources, ← List.append_assoc, ← List.map_append, -List.map_take, -List.map_drop]

/-- The values that an instruction takes if nothing is known but what the trees stand for. -/
theorem moves_known (hcounted : p.Counted) (spoken : p.isMeta = false)
    (paired : p.isComplex = false) {m : Nat}
    (left : LeavesOver i p (sources (s.stack.drop p.arity) ++ List.replicate m none) stack') :
    Moves i p (sources s.stack ++ List.replicate (p.arity - s.stack.length + m) none)
      ((takeOperands p.arity s.stack).map (Option.map Tree.index)) stack' := by
  have hcount : ((((takeOperands p.arity s.stack).map (Option.map Tree.index)).reverse.length :
      Nat) : Int) = p.inputs.toInt := by
    rw [List.length_reverse, List.length_map, length_takeOperands, hcounted.arity]
  have hmoves := Moves.paired spoken paired hcount left
  rwa [← sources_append_replicate, List.reverse_reverse] at hmoves

/-- Some replay knows nothing but what the trees on the stack stand for. -/
theorem exists_replay (hcounted : ∀ p ∈ code, p.Counted) (hi : i ≤ code.length) (m : Nat) :
    Replay code i (sources (grown code i).stack ++ List.replicate m none) := by
  induction i generalizing m with
  | zero =>
    have hstart : Replay code 0 (List.replicate m none) := .start m
    simpa [sources] using hstart
  | succ i ih =>
    have ih := ih (Nat.le_of_succ_le hi)
    have hp := List.getElem?_eq_getElem hi
    have hcount := hcounted _ (List.mem_of_getElem? hp)
    have hgrows := grows_grown hp
    generalize grown code (i + 1) = s' at hgrows
    cases hgrows with
    | skip silent => exact (ih m).step hp (.skip silent)
    | complex spoken complex =>
      refine (ih 0).step hp (.complex spoken complex fun v hv => .inl ?_)
      exact List.eq_of_mem_replicate hv
    | push spoken paired outputs =>
      exact (ih _).step hp (moves_known hcount spoken paired (.value outputs))
    | root spoken paired outputs =>
      exact (ih _).step hp (moves_known hcount spoken paired (.nothing outputs))
    | spill spoken paired some several =>
      refine (ih (_ + 0)).step hp (moves_known hcount spoken paired
        (.several (hcount.several_iff.2 ⟨some, several⟩) fun v hv => .inl ?_))
      exact List.eq_of_mem_replicate hv

/-- What an instruction takes in some replay: what the trees on the stack stand for, as far as
its operands can be paired. -/
theorem exists_takes (hcounted : ∀ p ∈ code, p.Counted) (hp : code[c]? = some p) :
    Takes code c (if p.isMeta || p.isComplex then []
      else (takeOperands p.arity (grown code c).stack).map (Option.map Tree.index)) := by
  have hc := Nat.le_of_lt (List.getElem?_eq_some_iff.1 hp).1
  have hcount := hcounted _ (List.mem_of_getElem? hp)
  have hreplay := exists_replay hcounted hc
  cases hmeta : p.isMeta with
  | true => exact ⟨p, _, _, hp, hreplay 0, .skip hmeta⟩
  | false =>
    cases hcomplex : p.isComplex with
    | true => exact ⟨p, _, [], hp, hreplay 0, .complex hmeta hcomplex (by simp)⟩
    | false =>
      by_cases hzero : p.outputs = 0
      · exact ⟨p, _, _, hp, hreplay (_ + 0), moves_known hcount hmeta hcomplex (.nothing hzero)⟩
      · by_cases hone : p.outputs = 1
        · exact ⟨p, _, _, hp, hreplay (_ + 0), moves_known hcount hmeta hcomplex (.value hone)⟩
        · exact ⟨p, _, [], hp, hreplay (_ + 0), moves_known hcount hmeta hcomplex
            (.several (hcount.several_iff.2 ⟨hzero, hone⟩) (by simp))⟩

/-- What feeds an instruction is what it takes in every replay. -/
theorem Feeds.taken (hcounted : ∀ p ∈ code, p.Counted) (hfeeds : Feeds code l c k)
    (htakes : Takes code c operands) : operands[k]? = some (some l) := by
  obtain ⟨p, t, hp, hmeta, hcomplex, hk, ht, rfl⟩ := hfeeds
  obtain ⟨p', stack, stack', hp', hreplay, hmoves⟩ := htakes
  rw [hp, Option.some_inj] at hp'
  subst hp'
  cases hmoves with
  | skip silent => simp [hmeta] at silent
  | complex _ complex => simp [hcomplex] at complex
  | paired spoken paired count left =>
    rename_i taken rest
    have hlength : taken.length = p.arity := by
      have harity := (hcounted _ (List.mem_of_getElem? hp)).arity
      omega
    have hsource : (sources (grown code c).stack)[p.arity - 1 - k]? = some (some t.index) := by
      rw [sources, List.getElem?_map, ht, Option.map_some]
    obtain ⟨more, hmore⟩ := prefix_of_replay hcounted hreplay
    rw [← List.getElem?_append_left (List.getElem?_eq_some_iff.1 hsource).1, hmore,
      List.getElem?_append_left (by omega)] at hsource
    rw [List.getElem?_reverse (by omega), hlength]
    exact hsource

/-- An instruction feeds an operand exactly if every replay says that it has left the value. -/
theorem feeds_iff_takes (hcounted : ∀ p ∈ code, p.Counted) (hp : code[c]? = some p) :
    Feeds code l c k ↔ ∀ operands, Takes code c operands → operands[k]? = some (some l) := by
  refine ⟨fun hfeeds operands => hfeeds.taken hcounted, fun hevery => ?_⟩
  have hknown := hevery _ (exists_takes hcounted hp)
  split at hknown
  · cases hknown
  · rename_i hpaired
    rw [Bool.or_eq_true, not_or, Bool.not_eq_true, Bool.not_eq_true] at hpaired
    rw [List.getElem?_map, Option.map_eq_some_iff] at hknown
    obtain ⟨o, ho, hindex⟩ := hknown
    obtain ⟨t, rfl, rfl⟩ := Option.map_eq_some_iff.1 hindex
    exact feeds_takeOperands hp hpaired.1 hpaired.2 ho

theorem goesInto_iff (hcounted : ∀ p ∈ code, p.Counted) (hp : code[c]? = some p) :
    GoesInto code l c ↔ ∃ k, Feeds code l c k :=
  exists_congr fun _ => (feeds_iff_takes hcounted hp).symm

/-- What stays on the stack is what its trees stand for. -/
theorem stays_iff (hcounted : ∀ p ∈ code, p.Counted) :
    Stays code l ↔ ∃ t ∈ (grown code code.length).stack, t.index = l := by
  constructor
  · intro hstays
    obtain ⟨k, hevery⟩ := hstays
    have hknown := hevery _ (exists_replay hcounted (Nat.le_refl _) 0)
    rw [List.replicate_zero, List.append_nil, sources, List.getElem?_map,
      Option.map_eq_some_iff] at hknown
    obtain ⟨t, ht, hindex⟩ := hknown
    exact ⟨t, List.mem_of_getElem? ht, Option.some.inj hindex⟩
  · intro hstack
    obtain ⟨t, ht, rfl⟩ := hstack
    obtain ⟨k, hk⟩ := List.mem_iff_getElem?.1 ht
    refine ⟨k, fun stack hreplay => ?_⟩
    obtain ⟨more, hmore⟩ := prefix_of_replay hcounted hreplay
    have hsource : (sources (grown code code.length).stack)[k]? = some (some t.index) := by
      rw [sources, List.getElem?_map, hk, Option.map_some]
    rw [← hmore, List.getElem?_append_left (List.getElem?_eq_some_iff.1 hsource).1, hsource]

end Forest

open Forest

/-! ## Nodes -/

/-- The node `t` has the operands that its instruction finds on the stack. -/
def Tree.Made (code : List Instr) (t : Tree) : Prop :=
  ∃ p, code[t.index]? = some p ∧ p.isMeta = false ∧
    t.operands = if p.isComplex then [] else takeOperands p.arity (grown code t.index).stack

/-- `t.Within u`: the node `u` is in the tree `t`. -/
inductive Tree.Within (t : Tree) : Tree → Prop where
  | self : Within t t
  | operand {u v : Tree} {q : Nat} (within : Within t u) (operand : u.operand? q = some v) :
      Within t v

/-- The node `u` is in one of the trees of the forest. -/
def Forest.HasNode (f : Forest) (u : Tree) : Prop :=
  ∃ r ∈ f.roots, ∃ t ∈ r.tree :: r.dropped, t.Within u

section Nodes

variable {code : List Instr} {i c k l : Nat} {p : Instr} {t u : Tree} {r : Root}

theorem Tree.Made.operand?_iff (h : t.Made code) :
    (t.operand? k).map Tree.index = some l ↔ Feeds code l t.index k := by
  obtain ⟨p, hp, hmeta, hoperands⟩ := h
  rw [Tree.operand?, hoperands]
  constructor
  · intro hindex
    obtain ⟨u, hu, rfl⟩ := Option.map_eq_some_iff.1 hindex
    rw [Option.join_eq_some_iff] at hu
    split at hu
    · cases hu
    · rename_i hcomplex
      exact feeds_takeOperands hp hmeta (Bool.not_eq_true _ ▸ hcomplex) hu
  · intro hfeeds
    obtain ⟨p', u, hp', _, hcomplex, hk, hu, rfl⟩ := hfeeds
    rw [hp, Option.some_inj] at hp'
    subst hp'
    rw [hcomplex, if_neg Bool.false_ne_true, getElem?_takeOperands.2 ⟨hk, hu⟩]
    rfl

/-- The trees on the stack are made. -/
theorem made_of_mem_stack (hi : i ≤ code.length) (ht : t ∈ (grown code i).stack) :
    t.Made code := by
  induction i with
  | zero => simp at ht
  | succ i ih =>
    have ih := ih (Nat.le_of_succ_le hi)
    have hp := List.getElem?_eq_getElem hi
    have hgrows := grows_grown hp
    generalize grown code (i + 1) = s' at hgrows ht
    cases hgrows with
    | skip => exact ih ht
    | complex => cases ht
    | push spoken paired =>
      rcases List.mem_cons.1 ht with rfl | ht
      · exact ⟨_, hp, spoken, by simp [paired, Tree.operands, Tree.index]⟩
      · exact ih (List.mem_of_mem_drop ht)
    | root => exact ih (List.mem_of_mem_drop ht)
    | spill => cases ht

/-- The trees of the roots are made. -/
theorem made_of_mem_roots (hi : i ≤ code.length) (hr : r ∈ (grown code i).roots)
    (ht : t ∈ r.tree :: r.dropped) : t.Made code := by
  induction i with
  | zero => simp at hr
  | succ i ih =>
    have hstack : ∀ {t}, t ∈ (grown code i).stack → t.Made code :=
      made_of_mem_stack (Nat.le_of_succ_le hi)
    have ih := ih (Nat.le_of_succ_le hi)
    have hp := List.getElem?_eq_getElem hi
    have hgrows := grows_grown hp
    generalize grown code (i + 1) = s' at hgrows hr
    cases hgrows with
    | skip => exact ih hr
    | push => exact ih hr
    | complex spoken complex =>
      rcases List.mem_cons.1 hr with rfl | hr
      · rcases List.mem_cons.1 ht with rfl | ht
        · exact ⟨_, hp, spoken, by simp [complex, Tree.operands]⟩
        · exact hstack (List.mem_reverse.1 ht)
      · exact ih hr
    | root spoken paired =>
      rcases List.mem_cons.1 hr with rfl | hr
      · rcases List.mem_cons.1 ht with rfl | ht
        · exact ⟨_, hp, spoken, by simp [paired, Tree.operands, Tree.index]⟩
        · cases ht
      · exact ih hr
    | spill spoken paired =>
      rcases List.mem_cons.1 hr with rfl | hr
      · rcases List.mem_cons.1 ht with rfl | ht
        · exact ⟨_, hp, spoken, by simp [paired, Tree.operands, Tree.index]⟩
        · exact hstack (List.mem_of_mem_drop (List.mem_reverse.1 ht))
      · exact ih hr

theorem Tree.Made.operand (h : t.Made code) (hu : t.operand? k = some u) : u.Made code := by
  obtain ⟨p, hp, _, hoperands⟩ := h
  rw [Tree.operand?, hoperands, Option.join_eq_some_iff] at hu
  split at hu
  · cases hu
  · obtain ⟨_, hu⟩ := getElem?_takeOperands.1 hu
    exact made_of_mem_stack (Nat.le_of_lt (List.getElem?_eq_some_iff.1 hp).1)
      (List.mem_of_getElem? hu)

theorem Tree.Made.within (h : t.Made code) (hu : t.Within u) : u.Made code := by
  induction hu with
  | self => exact h
  | operand _ operand ih => exact ih.operand operand

/-- The nodes of a forest are made. -/
theorem made_of_hasNode (hu : (ofCode code).HasNode u) : u.Made code := by
  obtain ⟨r, hr, t, ht, hwithin⟩ := hu
  rw [ofCode_eq] at hr
  exact (made_of_mem_roots (Nat.le_refl _) (List.mem_reverse.1 hr) ht).within hwithin

end Nodes

/-! ## Places -/

/-- The places of all instructions in the trees of a root. -/
def Root.indices (r : Root) : List Nat := (r.tree :: r.dropped).flatMap Tree.indices

/-- The places of all instructions in the trees of a forest. -/
def Forest.indices (f : Forest) : List Nat := f.roots.flatMap Root.indices

/-- The places of all instructions in the trees of a growing forest. -/
def Forest.Growing.held (s : Growing) : List Nat :=
  s.stack.flatMap Tree.indices ++ s.roots.flatMap Root.indices

section Places

variable {code : List Instr} {c i n : Nat} {p : Instr} {t : Tree} {s s' : Growing}

theorem operandIndices_eq (ts : List (Option Tree)) :
    Tree.operandIndices ts = (ts.filterMap id).flatMap Tree.indices := by
  induction ts with
  | nil => rfl
  | cons o ts ih => cases o <;> simp [Tree.operandIndices, ih]

/-- An instruction is added to those in the trees of its operands. -/
theorem perm_indices_node (i n : Nat) (trees : List Tree) :
    ((Tree.node i (takeOperands n trees)).indices ++ (trees.drop n).flatMap Tree.indices).Perm
      (i :: trees.flatMap Tree.indices) := by
  have hoperands : (takeOperands n trees).filterMap id = (trees.take n).reverse := by
    simp [takeOperands, List.filterMap_append, List.filterMap_map, -List.map_reverse]
  have hperm : (Tree.operandIndices (takeOperands n trees)).Perm
      ((trees.take n).flatMap Tree.indices) := by
    rw [operandIndices_eq, hoperands]
    exact (List.reverse_perm _).flatMap_right _
  rw [Tree.indices, List.cons_append]
  refine .cons i ((hperm.append_right _).trans ?_)
  rw [← List.flatMap_append, List.take_append_drop]

/-- An instruction that is no debug information is put into one tree, and the others stay. -/
theorem Forest.Grows.perm_held (h : Grows s i p s') (spoken : p.isMeta = false) :
    s'.held.Perm (i :: s.held) := by
  have hnode := (perm_indices_node i p.arity s.stack).append_right (s.roots.flatMap Root.indices)
  have hreverse : ∀ trees : List Tree,
      (trees.reverse.flatMap Tree.indices).Perm (trees.flatMap Tree.indices) :=
    fun trees => (List.reverse_perm trees).flatMap_right _
  rw [List.append_assoc] at hnode
  cases h with
  | skip silent => simp [spoken] at silent
  | complex => exact ((hreverse s.stack).append_right _).cons i
  | push =>
    rw [Growing.held, List.flatMap_cons, List.append_assoc]
    exact hnode
  | root =>
    rw [Growing.held, List.flatMap_cons, Root.indices, List.flatMap_singleton]
    exact List.perm_append_comm_assoc _ _ _ |>.trans hnode
  | spill =>
    rw [Growing.held, List.flatMap_cons, Root.indices, List.flatMap_cons, List.append_assoc]
    exact (((hreverse _).append_right _).append_left _).trans hnode

/-- The trees hold every instruction so far that is no debug information, in one place each. -/
theorem held_grown (hi : i ≤ code.length) :
    (grown code i).held.Nodup ∧
      ∀ c, c ∈ (grown code i).held ↔ c < i ∧ ∃ p, code[c]? = some p ∧ p.isMeta = false := by
  induction i with
  | zero => simp [Growing.held]
  | succ i ih =>
    obtain ⟨hnodup, hmem⟩ := ih (Nat.le_of_succ_le hi)
    have hp := List.getElem?_eq_getElem hi
    cases hmeta : code[i].isMeta with
    | true =>
      rw [grown_succ hp, step, if_pos hmeta]
      refine ⟨hnodup, fun c => (hmem c).trans (and_congr_left fun hspoken => ?_)⟩
      have hne : c ≠ i := by
        rintro rfl
        obtain ⟨p, hp', hspoken⟩ := hspoken
        rw [hp, Option.some_inj] at hp'
        rw [← hp', hmeta] at hspoken
        cases hspoken
      omega
    | false =>
      have hperm := (grows_grown hp).perm_held hmeta
      refine ⟨hperm.nodup_iff.2 (List.nodup_cons.2 ⟨fun hheld => ?_, hnodup⟩), fun c => ?_⟩
      · exact Nat.lt_irrefl i ((hmem i).1 hheld).1
      · rw [hperm.mem_iff, List.mem_cons, hmem, Nat.lt_succ_iff_lt_or_eq, or_and_right, or_comm]
        refine or_congr_right ⟨?_, And.left⟩
        rintro rfl
        exact ⟨rfl, _, hp, hmeta⟩

theorem indices_perm (code : List Instr) :
    (ofCode code).indices.Perm ((grown code code.length).roots.flatMap Root.indices) := by
  rw [Forest.indices, ofCode_eq]
  exact (List.reverse_perm _).flatMap_right _

theorem nodup_indices (code : List Instr) : (ofCode code).indices.Nodup := by
  have hheld := (held_grown (Nat.le_refl code.length)).1
  exact (indices_perm code).nodup_iff.2 (hheld.sublist (List.sublist_append_right _ _))

/-- In a tree is what goes into its instruction, if only through others. -/
theorem Tree.mem_indices_iff (hgrown : t.Grown code) (hclosed : t.Closed code) :
    c ∈ t.indices ↔ Relation.ReflTransGen (fun l c => ∃ k, Feeds code l c k) c t.index := by
  constructor
  · intro hc
    clear hclosed
    induction hgrown with
    | node feeds _ ih =>
      rw [Tree.indices, List.mem_cons, Tree.mem_operandIndices] at hc
      rcases hc with rfl | ⟨u, hu, hc⟩
      · exact .refl
      · obtain ⟨k, hk⟩ := List.mem_iff_getElem?.1 hu
        exact (ih k u hk hc).tail ⟨k, feeds k u hk⟩
  · intro hpath
    induction hpath using Relation.ReflTransGen.head_induction_on with
    | refl => exact t.index_mem_indices
    | head hfeeds _ ih =>
      obtain ⟨k, hfeeds⟩ := hfeeds
      exact hclosed _ ih _ k hfeeds

/-- In the trees on the stack is what goes into a value that stays, if only through others. -/
theorem mem_stack_indices_iff (hcounted : ∀ p ∈ code, p.Counted) :
    c ∈ (grown code code.length).stack.flatMap Tree.indices ↔
      ∃ l, Stays code l ∧ Relation.ReflTransGen (GoesInto code) c l := by
  have hinv := inv_grown (Nat.le_refl code.length)
  have hheld := (held_grown (Nat.le_refl code.length)).2
  rw [List.mem_flatMap]
  constructor
  · intro hc
    obtain ⟨t, ht, hc⟩ := hc
    refine ⟨t.index, (stays_iff hcounted).2 ⟨t, ht, rfl⟩, ?_⟩
    rw [Tree.mem_indices_iff (hinv.stack_grown t ht) (hinv.stack_closed t ht)] at hc
    refine Relation.ReflTransGen.mono (fun l c hfeeds => ?_) _ _ hc
    obtain ⟨k, p, u, hp, hrest⟩ := hfeeds
    exact (goesInto_iff hcounted hp).2 ⟨k, p, u, hp, hrest⟩
  · intro hgoes
    obtain ⟨l, hstays, hpath⟩ := hgoes
    obtain ⟨t, ht, rfl⟩ := (stays_iff hcounted).1 hstays
    refine ⟨t, ht, ?_⟩
    induction hpath using Relation.ReflTransGen.head_induction_on with
    | refl => exact t.index_mem_indices
    | head hgoes _ ih =>
      obtain ⟨-, p, hp, -⟩ := (hheld _).1 (List.mem_append_left _ (List.mem_flatMap.2 ⟨t, ht, ih⟩))
      obtain ⟨k, hfeeds⟩ := (goesInto_iff hcounted hp).1 hgoes
      exact hinv.stack_closed t ht _ ih _ k hfeeds

/-- The forest holds every instruction but debug information and what stays on the stack. -/
theorem mem_indices_iff (hcounted : ∀ p ∈ code, p.Counted) :
    c ∈ (ofCode code).indices ↔ (∃ p, code[c]? = some p ∧ p.isMeta = false) ∧
      ¬ ∃ l, Stays code l ∧ Relation.ReflTransGen (GoesInto code) c l := by
  obtain ⟨hnodup, hheld⟩ := held_grown (Nat.le_refl code.length)
  have hdisjoint := (List.nodup_append'.1 hnodup).2.2
  rw [← mem_stack_indices_iff hcounted, (indices_perm code).mem_iff]
  constructor
  · intro hc
    exact ⟨((hheld c).1 (List.mem_append_right _ hc)).2, fun hstack => hdisjoint hstack hc⟩
  · intro hc
    obtain ⟨⟨p, hp, hspoken⟩, hstack⟩ := hc
    have hlt := (List.getElem?_eq_some_iff.1 hp).1
    exact (List.mem_append.1 ((hheld c).2 ⟨hlt, p, hp, hspoken⟩)).resolve_left hstack

end Places

/-! ## Collections between roots -/

/-- Some instruction after the roots `rs` and before index `i` may collect. -/
def CollectsAfter (code : List Instr) (rs : List Root) (i : Nat) : Prop :=
  ∃ j p, code[j]? = some p ∧ (∀ r ∈ rs, r.tree.index < j) ∧ j < i ∧ p.collects = true

section Collections

variable {code : List Instr} {i : Nat} {p : Instr} {r : Root} {rs pre post : List Root}

theorem collectsAfter_congr (h : ∀ r, r ∈ rs ↔ r ∈ pre) :
    CollectsAfter code rs i ↔ CollectsAfter code pre i := by
  simp only [CollectsAfter, h]

theorem collectsAfter_succ (hp : code[i]? = some p) (hlast : ∀ r ∈ rs, r.tree.index < i) :
    CollectsAfter code rs (i + 1) ↔ CollectsAfter code rs i ∨ p.collects = true := by
  constructor
  · intro hcollects
    obtain ⟨j, p', hp', hafter, hj, hcollects⟩ := hcollects
    rcases Nat.lt_succ_iff_lt_or_eq.1 hj with hj | rfl
    · exact .inl ⟨j, p', hp', hafter, hj, hcollects⟩
    · rw [hp, Option.some_inj] at hp'
      exact .inr (hp' ▸ hcollects)
  · intro hcollects
    rcases hcollects with ⟨j, p', hp', hafter, hj, hcollects⟩ | hcollects
    · exact ⟨j, p', hp', hafter, Nat.lt_succ_of_lt hj, hcollects⟩
    · exact ⟨i, p, hp, hlast, Nat.lt_succ_self i, hcollects⟩

/-- The collections that a growing forest has noticed are those after its last root. -/
theorem collects_grown_iff (hi : i ≤ code.length) :
    (grown code i).collects = true ↔ CollectsAfter code (grown code i).roots i := by
  induction i with
  | zero => simp [CollectsAfter]
  | succ i ih =>
    have ih := ih (Nat.le_of_succ_le hi)
    have hp := List.getElem?_eq_getElem hi
    rcases (grows_grown hp).roots with ⟨hroots, hcollects⟩ | ⟨r, hroots, hindex, _, hcollects⟩
    · rw [hroots, hcollects, Bool.or_eq_true, ih,
        collectsAfter_succ hp (inv_grown (Nat.le_of_succ_le hi)).roots_lt]
    · rw [hroots, hcollects]
      refine iff_of_false Bool.false_ne_true fun hafter => ?_
      obtain ⟨j, _, _, hafter, hj, _⟩ := hafter
      have hlt := hafter r List.mem_cons_self
      omega

/-- A root says whether something may collect after the root before it, up to its own
instruction. -/
theorem collects_root_iff (h : (ofCode code).roots = pre ++ r :: post) :
    r.collects = true ↔ CollectsAfter code pre (r.tree.index + 1) := by
  rw [ofCode_eq] at h
  obtain ⟨rfl, hlt, hroot⟩ := roots_split (Nat.le_refl _) h
  have hle := Nat.le_of_lt hlt
  have hp := List.getElem?_eq_getElem hlt
  rcases (grows_grown hp).roots with ⟨hroots, _⟩ | ⟨r', hroots, _, hcollects, _⟩
  · rw [hroot] at hroots
    exact absurd hroots (List.cons_ne_self _ _)
  · rw [hroot, List.cons.injEq] at hroots
    rw [hroots.1, hcollects, Bool.or_eq_true, collects_grown_iff hle,
      collectsAfter_congr (fun _ => List.mem_reverse),
      ← collectsAfter_succ hp (inv_grown hle).roots_lt, hroots.1]

end Collections

/-! ## Forests of a graph -/

/-- What the passes rely on of the forest `f` of a block with the given code. -/
structure Forest.Paired (code : List Instr) (f : Forest) : Prop where
  /-- Operand `k` of a node is that of the instruction at `l` exactly if in all replays the node
  takes there what that instruction has left. -/
  operand : ∀ u, f.HasNode u → ∀ k l, (u.operand? k).map Tree.index = some l ↔
    ∀ operands, Takes code u.index operands → operands[k]? = some (some l)
  /-- No instruction is in two places. -/
  once : f.indices.Nodup
  /-- Every instruction is in some tree, but for debug information and for what goes, if only
  through others, into a value that is on the stack at the end of all replays. -/
  everywhere : ∀ c, c ∈ f.indices ↔ (∃ p, code[c]? = some p ∧ p.isMeta = false) ∧
    ¬ ∃ l, Stays code l ∧ Relation.ReflTransGen (GoesInto code) c l
  ascending : f.roots.Pairwise fun r r' => r.tree.index < r'.tree.index
  older : ∀ u, f.HasNode u → ∀ k v, u.operand? k = some v → v.index < u.index
  collects : ∀ pre r post, f.roots = pre ++ r :: post →
    (r.collects = true ↔ CollectsAfter code pre (r.tree.index + 1))
  tail : f.tail = true ↔ CollectsAfter code f.roots code.length

namespace Graph

variable {o : Options} {code : List Instr} {g : Graph}

theorem Built.counted (h : Built o code g) {b : Nat} {p : Instr} (hp : p ∈ (g.block b).code) :
    p.Counted :=
  Instr.nonneg_of_validate (Scope.validate_of_check h.checked p (h.instr_mem hp))

/-- The forest of every block of a graph pairs operands with what has left them in all replays of
the block.  It has every instruction that is no debug information in one place, unless what it
leaves is still to be taken at the end of the block; lists roots and operands in the order in
which they run; and says between which roots something may collect. -/
theorem forest_paired (hbuild : build o code = .ok g) (b : Nat) :
    (Forest.ofCode (g.block b).code).Paired (g.block b).code where
  operand u hu k l := by
    have hmade := made_of_hasNode hu
    obtain ⟨p, hp, _⟩ := id hmade
    rw [hmade.operand?_iff]
    exact feeds_iff_takes (fun _ => (built_of_build hbuild).counted) hp
  once := nodup_indices _
  everywhere _ := mem_indices_iff fun _ => (built_of_build hbuild).counted
  ascending := by
    rw [ofCode_eq]
    exact List.pairwise_reverse.2 (inv_grown (Nat.le_refl _)).roots_sorted
  older u hu k v hv := by
    refine Feeds.lt ((made_of_hasNode hu).operand?_iff (k := k).1 ?_)
    rw [hv, Option.map_some]
  collects _ _ _ := collects_root_iff
  tail := by
    rw [ofCode_eq]
    refine (collects_grown_iff (Nat.le_refl _)).trans ?_
    exact collectsAfter_congr fun _ => List.mem_reverse.symm

/-- A routine with a multi-output operator, an operator whose operands come from it and from a
constant, and a complex instruction that abandons a value. -/
def mixedRoutine : List Instr :=
  [.number 1, .operator "split" 1 2, .number 3, .operator "mix" 2 1, .ofOpcode .gcSafe,
    .operator "take" 1 0, .ret .void]

/-- In every replay, the constant is the second operand; of the first one that is not known. -/
theorem forest_paired_mixed : ∃ g, build (Defaults.options {}) mixedRoutine = .ok g ∧
    (∀ operands, Takes (g.block 0).code 3 operands → operands[1]? = some (some 2)) ∧
    (∀ l, ¬ ∀ operands, Takes (g.block 0).code 3 operands → operands[0]? = some (some l)) ∧
    (Forest.ofCode (g.block 0).code).indices.Nodup := by
  obtain ⟨g, hbuild, -⟩ := exists_ok_of_any (x := build (Defaults.options {}) mixedRoutine)
    (P := fun _ => true) (by cbv)
  have hcode : (g.block 0).code = mixedRoutine := by
    have hresult : (build (Defaults.options {}) mixedRoutine).toOption.map
        (fun g => (g.block 0).code) = some mixedRoutine := by cbv
    rw [hbuild] at hresult
    exact Option.some.inj hresult
  have hroots : (Forest.ofCode (g.block 0).code).roots =
      [⟨.node 1 [some (.node 0 [])], false, []⟩,
        ⟨.node 4 [], true, [.node 3 [none, some (.node 2 [])]]⟩, ⟨.node 5 [none], false, []⟩,
        ⟨.node 6 [], false, []⟩] := by
    rw [hcode]
    rfl
  have hpaired := forest_paired hbuild 0
  have hnode : (Forest.ofCode (g.block 0).code).HasNode (.node 3 [none, some (.node 2 [])]) := by
    refine ⟨⟨.node 4 [], true, [.node 3 [none, some (.node 2 [])]]⟩, ?_, _,
      List.mem_cons_of_mem _ List.mem_cons_self, .self⟩
    rw [hroots]
    exact List.mem_cons_of_mem _ List.mem_cons_self
  refine ⟨g, hbuild, (hpaired.operand _ hnode 1 2).1 rfl, fun l hevery => ?_, hpaired.once⟩
  cases (hpaired.operand _ hnode 0 l).2 hevery

end Graph

end StackFlow
