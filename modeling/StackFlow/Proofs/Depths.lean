import StackFlow.Proofs.Fidelity
import StackFlow.Proofs.Metering

/-!
# What effects say of depths

Running an instruction takes slots off the stack, and then puts others there.

* `Instr.depthAfter` gives the depth that an instruction leads to, where a stack that runs empty
  stays empty, and `Instr.depthAfter?` fails when it runs empty.
* `Instr.depthAfter_eq` says that a meter sees the same in an instruction, and
  `Instr.foldlM_depthAfter?` that the slots taken by code that does not reset the stack are the
  fewest that it runs on.
* `Block.depths_of_effect` is the main result: what the effect of a run of instructions says of
  the depths that it can start from and end at.
-/

namespace StackFlow

open Meter (Action)

namespace Instr

/-! ## Depths -/

/-- The slots that the instruction takes.  A compound takes those of its routine. -/
def taken (p : Instr) : Nat :=
  if p.op = .compound then p.nested.elim 0 fun sub => sub.effect.consume.toNatClampNeg
  else p.inputs.toNatClampNeg

/-- The slots that the instruction leaves. -/
def left (p : Instr) : Nat :=
  if p.op = .compound then p.nested.elim 0 fun sub => sub.effect.produce.toNatClampNeg
  else p.outputs.toNatClampNeg

/-- Whether the depth after the instruction does not depend on the depth before it. -/
def resets (p : Instr) : Bool :=
  if p.op = .compound then p.nested.any (·.effect.isAbsolute) else p.op.row.resets

/-- The sum of the counts of the instruction. -/
def slots (p : Instr) : Nat := p.taken + p.resetDepth.toNatClampNeg + p.left

/-- The depth after the instruction.  It takes its slots first, as many as there are, and what it
leaves comes last; if it resets the stack, it sets the depth in between. -/
def depthAfter (d : Nat) (p : Instr) : Nat :=
  (if p.resets then p.resetDepth.toNatClampNeg else d - p.taken) + p.left

/-- The depth after the instruction, if there are as many slots as it takes. -/
def depthAfter? (d : Nat) (p : Instr) : Option Nat :=
  if p.taken ≤ d then some (p.depthAfter d) else none

/-! ## What a meter sees of an instruction -/

/-- The shift of the instruction. -/
def shift (p : Instr) : Shift :=
  if p.resets then .absolute (p.resetDepth.toNatClampNeg + p.left) else .relative p.taken p.left

variable {p : Instr} {code : List Instr} {d : Nat}

theorem depthAfter_eq (d : Nat) (p : Instr) : p.depthAfter d = p.shift.depthAfter d := by
  unfold depthAfter shift
  split <;> rfl

theorem resetDepth_nonneg (p : Instr) : 0 ≤ p.resetDepth := by
  unfold resetDepth
  split
  · rename_i h
    simp only [Bool.and_eq_true, decide_eq_true_eq] at h
    exact Int64.le_of_lt h.2
  · exact Int64.le_refl 0

theorem resetDepth_eq_zero (h : p.op.row.resets = false) : p.resetDepth = 0 := by
  unfold resetDepth
  split
  · rename_i hinsert
    simp only [Bool.and_eq_true, decide_eq_true_eq] at hinsert
    rw [hinsert.1] at h
    cases h
  · rfl

/-- The steps of the instruction do its shift. -/
theorem prod_actions (hsub : ∀ sub, p.nested = some sub → sub.effect.Counted) :
    (p.actions.map Action.shift).prod = p.shift := by
  unfold actions shift resets taken left
  split
  · rename_i hop
    rw [resetDepth_eq_zero (by rw [hop]; rfl)]
    cases hnested : p.nested with
    | none => rfl
    | some sub =>
      have habsolute := (hsub sub hnested).isAbsolute_eq
      cases hknown : sub.effect.consume.isKnown <;>
        simp [Action.shift, Effect.shift, habsolute, hknown]
  · rename_i hop
    cases hresets : p.op.row.resets with
    | false => simp [Action.shift, ← Shift.relative_eq_mul]
    | true => simp [Action.shift, Shift.absolute_mul_relative, Shift.mul_absolute]

theorem sum_actions (p : Instr) : (p.actions.map Action.slots).sum = p.slots := by
  unfold actions slots taken left
  split
  · rename_i hop
    rw [resetDepth_eq_zero (by rw [hop]; rfl)]
    cases p.nested <;> simp [Action.slots, Effect.slots]
  · cases hresets : p.op.row.resets with
    | false => simp [Action.slots, resetDepth_eq_zero hresets]
    | true => simp [Action.slots, Nat.add_assoc]

theorem counted_actions (hvalid : p.validate = .ok ())
    (hsub : ∀ sub, p.nested = some sub → sub.effect.Counted) : ∀ a ∈ p.actions, a.Counted := by
  obtain ⟨hinputs, houtputs⟩ := nonneg_of_validate hvalid
  intro a ha
  rw [actions, List.mem_cons] at ha
  rcases ha with rfl | ha
  · exact trivial
  · split at ha
    · cases hnested : p.nested with
      | none =>
        rw [hnested] at ha
        cases ha
      | some sub =>
        rw [hnested, Option.elim_some, List.mem_singleton] at ha
        exact ha ▸ hsub sub hnested
    · rcases List.mem_append.1 ha with ha | ha
      · rcases List.mem_cons.1 ha with rfl | ha
        · exact hinputs
        · split at ha
          · rw [List.mem_singleton.1 ha]
            exact p.resetDepth_nonneg
          · cases ha
      · rw [List.mem_singleton.1 ha]
        exact houtputs

theorem bounded_actions (hvalid : ∀ p ∈ code, p.validate = .ok ())
    (hsub : ∀ p ∈ code, ∀ sub, p.nested = some sub → sub.effect.Counted)
    (hslots : (code.map slots).sum < 2 ^ 63) : Meter.Bounded (code.flatMap actions) where
  counted a ha := by
    obtain ⟨p, hp, ha⟩ := List.mem_flatMap.1 ha
    exact counted_actions (hvalid p hp) (hsub p hp) a ha
  slots_lt := by
    have hsum : ((code.flatMap actions).map Action.slots).sum = (code.map slots).sum := by
      clear hvalid hsub hslots
      induction code with
      | nil => rfl
      | cons p code ih =>
        rw [List.flatMap_cons, List.map_append, List.sum_append, ih, sum_actions, List.map_cons,
          List.sum_cons]
    rwa [hsum]

/-- The steps of a run of instructions do the shifts of the instructions. -/
theorem prod_flatMap_actions
    (hsub : ∀ p ∈ code, ∀ sub, p.nested = some sub → sub.effect.Counted) :
    ((code.flatMap actions).map Action.shift).prod = (code.map shift).prod := by
  induction code with
  | nil => rfl
  | cons p code ih =>
    rw [List.flatMap_cons, List.map_append, List.prod_append,
      ih fun q hq => hsub q (List.mem_cons_of_mem _ hq), prod_actions (hsub p List.mem_cons_self),
      List.map_cons, List.prod_cons]

theorem foldl_depthAfter (code : List Instr) (d : Nat) :
    code.foldl depthAfter d = (code.map shift).prod.depthAfter d := by
  rw [Shift.depthAfter_prod, List.foldl_map]
  congr 1
  funext d p
  exact depthAfter_eq d p

/-- Code that does not reset the stack runs exactly on the depths that its shift can take slots
from. -/
theorem foldlM_depthAfter? (h : ∀ p ∈ code, p.resets = false) : ∃ consume produce,
    (code.map shift).prod = .relative consume produce ∧ ∀ d,
      code.foldlM depthAfter? d = if consume ≤ d then some (d - consume + produce) else none := by
  induction code with
  | nil => exact ⟨0, 0, rfl, fun d => by simp⟩
  | cons p code ih =>
    obtain ⟨c, q, hprod, hrun⟩ := ih fun p hp => h p (List.mem_cons_of_mem _ hp)
    have hp := h p List.mem_cons_self
    refine ⟨p.taken + (c - p.left), p.left - c + q, ?_, fun d => ?_⟩
    · rw [List.map_cons, List.prod_cons, hprod, shift, hp]
      rfl
    · have hstep : p.depthAfter? d = if p.taken ≤ d then some (d - p.taken + p.left) else none := by
        simp [depthAfter?, depthAfter, hp]
      rw [List.foldlM_cons, hstep]
      split
      · rw [Option.bind_eq_bind, Option.bind_some, hrun]
        split
        · rw [if_pos (by omega)]
          exact congrArg some (by omega)
        · rw [if_neg (by omega)]
      · rw [if_neg (by omega)]
        rfl

/-- Once the stack is reset, the depth stays absolute. -/
theorem prod_of_resets (h : ∃ p ∈ code, p.resets = true) :
    ∃ depth, (code.map shift).prod = .absolute depth := by
  obtain ⟨p, hp, hresets⟩ := h
  obtain ⟨pre, post, rfl⟩ := List.append_of_mem hp
  have hshift : p.shift = .absolute (p.resetDepth.toNatClampNeg + p.left) := by
    rw [shift, hresets, if_pos rfl]
  rw [List.map_append, List.prod_append, List.map_cons, List.prod_cons, hshift, ← mul_assoc,
    Shift.mul_absolute]
  cases (post.map shift).prod with
  | relative c q => exact ⟨_, Shift.absolute_mul_relative⟩
  | absolute d => exact ⟨d, Shift.mul_absolute⟩

end Instr

namespace Block

variable {code : List Instr} {e : Effect}

/-- What the effect of a run of instructions says of the depth of the stack.  If none of them resets
the stack, they run without taking a slot that is not there exactly from the depths that are at
least `e.consume`, and then replace that many slots by `e.produce`.  If one of them resets the
stack, `e.produce` is the depth at the end from any depth, where a stack that runs empty stays
empty. -/
theorem depths_of_effect (hvalid : ∀ p ∈ code, p.validate = .ok ())
    (hsub : ∀ p ∈ code, ∀ sub, p.nested = some sub → sub.effect.Counted)
    (hslots : (code.map Instr.slots).sum < 2 ^ 63) (he : (factsOf code).effect = e) :
    ((∀ p ∈ code, p.resets = false) → 0 ≤ e.consume ∧ ∀ d : Nat,
        ((∃ d', code.foldlM Instr.depthAfter? d = some d') ↔ e.consume.toInt ≤ d) ∧
        ∀ d', code.foldlM Instr.depthAfter? d = some d' →
          (d' : Int) = d - e.consume.toInt + e.produce.toInt) ∧
      ((∃ p ∈ code, p.resets = true) → e.consume = Count.unknown ∧
        ∀ d : Nat, ((code.foldl Instr.depthAfter d : Nat) : Int) = e.produce.toInt) := by
  have hbounded := Instr.bounded_actions hvalid hsub hslots
  have hsum := Meter.slots_prod_shift_le (code.flatMap Instr.actions)
  have hlt := hbounded.slots_lt
  rw [Meter.effect_factsOf, hbounded.effectOf_eq, Instr.prod_flatMap_actions hsub] at he
  rw [Instr.prod_flatMap_actions hsub] at hsum
  refine ⟨fun hkeeps => ?_, fun hresets => ?_⟩
  · obtain ⟨c, q, hprod, hrun⟩ := Instr.foldlM_depthAfter? hkeeps
    rw [hprod, Shift.slots_relative] at hsum
    rw [hprod, Shift.effect] at he
    subst he
    have hconsume : (Int64.ofNat c).toInt = c := Int64.toInt_ofNat_of_lt (by omega)
    have hproduce : (Int64.ofNat q).toInt = q := Int64.toInt_ofNat_of_lt (by omega)
    refine ⟨Shift.ofNat_nonneg (by omega), fun d => ?_⟩
    rw [hrun, hconsume, hproduce]
    split
    · rename_i hle
      refine ⟨iff_of_true ⟨_, rfl⟩ (Int.ofNat_le.2 hle), fun d' hd' => ?_⟩
      rw [Option.some_inj] at hd'
      omega
    · rename_i hnot
      refine ⟨iff_of_false (by simp) fun hle => hnot (Int.ofNat_le.1 hle), fun d' hd' => ?_⟩
      cases hd'
  · obtain ⟨depth, hprod⟩ := Instr.prod_of_resets hresets
    rw [hprod, Shift.slots_absolute] at hsum
    rw [hprod, Shift.effect] at he
    subst he
    refine ⟨rfl, fun d => ?_⟩
    rw [Instr.foldl_depthAfter, hprod]
    exact (Int64.toInt_ofNat_of_lt (n := depth) (by omega)).symm

/-- Code that needs two slots for its compound. -/
def nestingCode : List Instr := [.number 1, .compound Meter.diggingSummary, .ofOpcode .drop]

/-- Code that drops more than it leaves after a call. -/
def callingCode : List Instr :=
  [.ofOpcode .drop, .texted .nCall "f", .number 1, .ofOpcode .drop, .ofOpcode .drop, .number 2]

/-- The one runs from depth two to an empty stack, and not from depth one; the other ends at depth
one from any depth. -/
theorem depths_of_effect_nesting :
    nestingCode.foldlM Instr.depthAfter? 2 = some 0 ∧
      (¬ ∃ d', nestingCode.foldlM Instr.depthAfter? 1 = some d') ∧
      ∀ d, callingCode.foldl Instr.depthAfter d = 1 := by
  have hvalid : ∀ p ∈ nestingCode ++ callingCode, p.validate = .ok () := by
    simp only [nestingCode, callingCode, List.cons_append, List.nil_append, List.forall_mem_cons]
    exact ⟨rfl, rfl, rfl, rfl, rfl, rfl, rfl, rfl, rfl, by simp⟩
  have hsub : ∀ p ∈ nestingCode ++ callingCode, ∀ sub, p.nested = some sub →
      sub.effect.Counted := by
    have hplain : ∀ {p : Instr}, p.nested = none → ∀ sub, p.nested = some sub →
        sub.effect.Counted := by
      intro p hnone sub hsome
      rw [hnone] at hsome
      cases hsome
    simp only [nestingCode, callingCode, List.cons_append, List.nil_append, List.forall_mem_cons]
    refine ⟨hplain rfl, fun sub hsome => ?_, hplain rfl, hplain rfl, hplain rfl, hplain rfl,
      hplain rfl, hplain rfl, hplain rfl, by simp⟩
    cases hsome
    decide
  rw [List.forall_mem_append] at hvalid hsub
  obtain ⟨hkeeps, _⟩ := depths_of_effect (e := ⟨0, 2, 0⟩) hvalid.1 hsub.1 (by decide +kernel)
    (by decide)
  obtain ⟨_, hresets⟩ := depths_of_effect (e := .absolute 0 1) hvalid.2 hsub.2
    (by decide +kernel) (by decide +kernel)
  obtain ⟨_, hdepths⟩ := hkeeps (by decide)
  obtain ⟨_, hdepth⟩ := hresets (by decide)
  refine ⟨?_, ?_, ?_⟩
  · obtain ⟨d', hd'⟩ := (hdepths 2).1.2 (by decide)
    have hzero : (d' : Int) = 0 := ((hdepths 2).2 d' hd').trans (by decide)
    rw [hd', Int.ofNat_eq_zero.1 hzero]
  · exact fun hrun => absurd ((hdepths 1).1.1 hrun) (by decide)
  · exact fun d => Int.ofNat_inj.1 ((hdepth d).trans (by decide))

end Block

end StackFlow
