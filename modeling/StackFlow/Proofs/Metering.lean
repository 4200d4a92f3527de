import Mathlib.Algebra.Ring.Nat
import StackFlow.Graph.Block
import StackFlow.Proofs.Shifts

/-!
# Metering in parts

A meter does not see where a run of code is cut.

* `Meter.Action` names the steps of a meter.  `Meter.Bounded` says that all counts in a list of
  steps are numbers of slots, and that they add up to less than `2 ^ 63`.
* `Meter.Bounded.shows_run` says that the meter then follows the product of the shifts of the
  steps.
* `Instr.actions` gives the steps of an instruction, so `effect_factsOf` reads the effect of a
  block off a list of steps.
* `Meter.effect_in_parts` is the main result: effects of parts put together, by `andThen` or by a
  compound instruction, are the effect of the whole.
-/

namespace StackFlow

namespace Meter

/-! ## Steps of a meter -/

/-- One step of a meter. -/
inductive Action where
  | pop (n : Int64)
  | push (n : Int64)
  | fetch (n : Int64)
  | reset (depth : Int64)
  | apply (e : Effect)
deriving DecidableEq

/-- Takes one step. -/
def act (m : Meter) : Action → Meter
  | .pop n => m.pop n
  | .push n => m.push n
  | .fetch n => m.fetch n
  | .reset depth => m.reset depth
  | .apply e => m.apply e

/-- The meter after the steps, from the start. -/
def run (xs : List Action) : Meter := xs.foldl act {}

/-- The effect of the steps. -/
def effectOf (xs : List Action) : Effect := (run xs).effect

namespace Action

/-- Whether the counts of the step are numbers of slots. -/
def Counted : Action → Prop
  | pop n | push n | reset n => 0 ≤ n
  | fetch _ => True
  | apply e => e.Counted

instance : DecidablePred Counted
  | pop n | push n | reset n => inferInstanceAs (Decidable (0 ≤ n))
  | fetch _ => inferInstanceAs (Decidable True)
  | apply e => inferInstanceAs (Decidable e.Counted)

/-- The sum of the counts of the step. -/
def slots : Action → Nat
  | pop n | push n | reset n => n.toNatClampNeg
  | fetch _ => 0
  | apply e => e.slots

/-- What the step does to the depth of the stack. -/
def shift : Action → Shift
  | pop n => .relative n.toNatClampNeg 0
  | push n => .relative 0 n.toNatClampNeg
  | fetch _ => 1
  | reset n => .absolute n.toNatClampNeg
  | apply e => e.shift

/-- The bytes that the step reads. -/
def bytes : Action → Int64
  | fetch n => n
  | apply e => e.cursor
  | _ => 0

theorem slots_shift_le (a : Action) : a.shift.slots ≤ a.slots := by
  cases a with
  | apply e => exact e.slots_shift_le
  | _ => simp [shift, slots, Shift.slots, Shift.one_eq]

end Action

theorem slots_prod_shift_le (xs : List Action) :
    (xs.map Action.shift).prod.slots ≤ (xs.map Action.slots).sum := by
  induction xs with
  | nil => exact Nat.le_refl 0
  | cons a xs ih =>
    simp only [List.map_cons, List.prod_cons, List.sum_cons]
    exact Nat.le_trans (Shift.slots_mul_le _ _) (Nat.add_le_add a.slots_shift_le ih)

/-- All counts in the steps are numbers of slots, and they add up to less than `2 ^ 63`. -/
structure Bounded (xs : List Action) : Prop where
  counted : ∀ a ∈ xs, a.Counted
  slots_lt : (xs.map Action.slots).sum < 2 ^ 63

variable {m : Meter} {s : Shift} {a : Action} {xs ys zs : List Action} {e : Effect}

theorem Shows.act (h : m.Shows s) (ha : a.Counted) (hslots : s.slots + a.slots < 2 ^ 63) :
    (m.act a).Shows (s * a.shift) := by
  cases a with
  | pop n =>
    have hpop := h.pop (n := n.toNatClampNeg) hslots
    rwa [Int64.ofNat_toNatClampNeg n ha] at hpop
  | push n =>
    have hpush := h.push (n := n.toNatClampNeg) hslots
    rwa [Int64.ofNat_toNatClampNeg n ha] at hpush
  | fetch n =>
    rw [Action.shift, mul_one]
    exact h.fetch n
  | reset n =>
    have hreset := Shows.reset m s n.toNatClampNeg
    rwa [Int64.ofNat_toNatClampNeg n ha] at hreset
  | apply e =>
    exact h.apply ha (Nat.lt_of_le_of_lt (Nat.add_le_add_left e.slots_shift_le _) hslots)

theorem Shows.foldl_act (h : m.Shows s) (hcounted : ∀ a ∈ xs, a.Counted)
    (hslots : s.slots + (xs.map Action.slots).sum < 2 ^ 63) :
    (xs.foldl Meter.act m).Shows (s * (xs.map Action.shift).prod) := by
  induction xs generalizing m s with
  | nil => rwa [List.map_nil, List.prod_nil, mul_one]
  | cons a xs ih =>
    rw [List.map_cons, List.sum_cons] at hslots
    have ha := h.act (hcounted a List.mem_cons_self) (by omega)
    have hle := Shift.slots_mul_le s a.shift
    have hshift := a.slots_shift_le
    rw [List.map_cons, List.prod_cons, ← mul_assoc]
    exact ih ha (fun b hb => hcounted b (List.mem_cons_of_mem _ hb)) (by omega)

theorem cursor_act (m : Meter) (a : Action) : (m.act a).cursor = m.cursor + a.bytes := by
  cases a with
  | apply e =>
    simp only [act, Meter.apply, Action.bytes]
    split
    · simp [fetch]
    · rfl
  | _ => simp [act, fetch, reset, Action.bytes]

theorem cursor_foldl_act (m : Meter) (xs : List Action) :
    (xs.foldl act m).cursor = m.cursor + (run xs).cursor := by
  unfold run
  induction xs generalizing m with
  | nil => exact (Int64.add_zero _).symm
  | cons a xs ih =>
    rw [List.foldl_cons, ih, List.foldl_cons, ih (act {} a), cursor_act, cursor_act,
      Int64.zero_add, Int64.add_assoc]

namespace Bounded

theorem left (h : Bounded (xs ++ ys)) : Bounded xs where
  counted a ha := h.counted a (List.mem_append_left _ ha)
  slots_lt := by
    have := h.slots_lt
    rw [List.map_append, List.sum_append] at this
    omega

theorem right (h : Bounded (xs ++ ys)) : Bounded ys where
  counted a ha := h.counted a (List.mem_append_right _ ha)
  slots_lt := by
    have := h.slots_lt
    rw [List.map_append, List.sum_append] at this
    omega

/-- The meter follows the shifts of the steps. -/
theorem shows_run (h : Bounded xs) : (run xs).Shows (xs.map Action.shift).prod := by
  have := shows_start.foldl_act h.counted (by simpa [Shift.slots, Shift.one_eq] using h.slots_lt)
  rwa [one_mul] at this

/-- The effect of the steps is that of their shifts. -/
theorem effectOf_eq (h : Bounded xs) :
    effectOf xs = (xs.map Action.shift).prod.effect (run xs).cursor := h.shows_run.effect_eq

theorem effectOf_append (h : Bounded (xs ++ ys)) :
    effectOf (xs ++ ys) = (effectOf xs).andThen (effectOf ys) := by
  have hcursor : (run (xs ++ ys)).cursor = (run xs).cursor + (run ys).cursor := by
    rw [run, List.foldl_append, cursor_foldl_act]
    rfl
  have hslots := h.slots_lt
  have hxs := slots_prod_shift_le xs
  have hys := slots_prod_shift_le ys
  rw [List.map_append, List.sum_append] at hslots
  rw [h.effectOf_eq, h.left.effectOf_eq, h.right.effectOf_eq, hcursor, List.map_append,
    List.prod_append]
  exact Shift.effect_mul (by omega) _ _

end Bounded

theorem effectOf_nil : effectOf [] = .zero := rfl

/-- Every effect with numbers of slots is that of a step. -/
theorem effectOf_apply (he : e.Counted) (hslots : e.slots < 2 ^ 63) :
    effectOf [.apply e] = e := by
  have hbounded : Bounded [.apply e] := ⟨by simpa [Action.Counted] using he, by
    simpa [Action.slots] using hslots⟩
  rw [hbounded.effectOf_eq, run, List.foldl_cons, List.foldl_nil, cursor_act, Int64.zero_add]
  simpa [Action.shift, Action.bytes] using he.effect_shift

theorem effectOf_fetch_zero : effectOf (.fetch 0 :: xs) = effectOf xs := by
  simp [effectOf, run, act, fetch]

end Meter

/-! ## Steps of instructions -/

namespace Instr

open Meter (Action)

/-- The steps that a meter takes for the instruction. -/
def actions (p : Instr) : List Action :=
  .fetch p.operands ::
    if p.op = .compound then p.nested.elim [] fun sub => [.apply sub.effect]
    else
      .pop p.inputs :: (if p.op.row.resets then [.reset p.resetDepth] else []) ++
        [.push p.outputs]

theorem meter_eq (m : Meter) (p : Instr) : p.meter m = p.actions.foldl Meter.act m := by
  unfold meter actions
  rw [List.foldl_cons]
  split
  · cases p.nested <;> rfl
  · split <;> rfl

theorem actions_compound (sub : Summary Instr) :
    (compound sub).actions = [.fetch 0, .apply sub.effect] := rfl

end Instr

namespace Meter

variable {sub : Summary Instr}

theorem effect_factsOf (code : List Instr) :
    (Block.factsOf code).effect = effectOf (code.flatMap Instr.actions) := by
  have hmeter : Instr.meter = fun m p => p.actions.foldl act m := by
    funext m p
    exact p.meter_eq m
  rw [Block.factsOf, effectOf, Meter.run, List.foldl_flatMap, hmeter]

/-- A compound instruction has the effect of its routine. -/
theorem effectOf_compound (sub : Summary Instr) (he : sub.effect.Counted)
    (hslots : sub.effect.slots < 2 ^ 63) :
    effectOf (Instr.compound sub).actions = sub.effect := by
  rw [Instr.actions_compound, effectOf_fetch_zero, effectOf_apply he hslots]

/-- In place of a run of instructions, a compound with their effect will do. -/
theorem effectOf_fold (h : Bounded (xs ++ ys ++ zs)) (hsub : sub.effect = effectOf ys) :
    effectOf (xs ++ (Instr.compound sub).actions ++ zs) = effectOf (xs ++ ys ++ zs) := by
  have hys := h.left.right
  have hle := slots_prod_shift_le ys
  have hlt := hys.slots_lt
  have hcounted : sub.effect.Counted := by
    rw [hsub, hys.effectOf_eq]
    exact Shift.counted_effect (by omega) _
  have hslots : sub.effect.slots = (ys.map Action.shift).prod.slots := by
    rw [hsub, hys.effectOf_eq, Shift.slots_effect (by omega)]
  have hfolded : Bounded (xs ++ (Instr.compound sub).actions ++ zs) := by
    have hsum := h.slots_lt
    simp only [List.map_append, List.sum_append] at hsum
    refine ⟨fun a ha => ?_, ?_⟩
    · simp only [Instr.actions_compound, List.mem_append, List.mem_cons, List.not_mem_nil,
        or_false] at ha
      rcases ha with (ha | rfl | rfl) | ha
      · exact h.left.left.counted a ha
      · exact trivial
      · exact hcounted
      · exact h.right.counted a ha
    · simp only [Instr.actions_compound, List.map_append, List.sum_append, List.map_cons,
        List.sum_cons, List.map_nil, List.sum_nil, Action.slots, hslots]
      omega
  rw [hfolded.effectOf_append, hfolded.left.effectOf_append,
    effectOf_compound sub hcounted (by omega), hsub, h.effectOf_append, h.left.effectOf_append]

/-- What a meter finds out of steps does not depend on how they are cut.  The effects of two
parts, one after the other, are the effect of the whole; so effects follow one another
associatively, doing nothing is neutral, and a block has the same effect if it is metered one
instruction after the other, in two parts, or with a run of its instructions as one compound. -/
theorem effect_in_parts :
    (∀ xs ys, Bounded (xs ++ ys) → effectOf (xs ++ ys) = (effectOf xs).andThen (effectOf ys)) ∧
      (∀ xs ys zs, Bounded (xs ++ ys ++ zs) →
        ((effectOf xs).andThen (effectOf ys)).andThen (effectOf zs) =
          (effectOf xs).andThen ((effectOf ys).andThen (effectOf zs))) ∧
      (∀ xs, Bounded xs → Effect.zero.andThen (effectOf xs) = effectOf xs ∧
        (effectOf xs).andThen .zero = effectOf xs) ∧
      (∀ e : Effect, e.Counted → e.slots < 2 ^ 63 → effectOf [.apply e] = e) ∧
      ∀ (pre run post : List Instr) (sub : Summary Instr),
        Bounded ((pre ++ run ++ post).flatMap Instr.actions) →
        sub.effect = (Block.factsOf run).effect →
        (Block.factsOf (pre ++ run ++ post)).effect =
            (Block.factsOf pre).effect.andThen (Block.factsOf (run ++ post)).effect ∧
          (Block.factsOf (pre ++ run ++ post)).effect =
            (Block.factsOf (pre ++ .compound sub :: post)).effect := by
  refine ⟨fun xs ys => Bounded.effectOf_append, fun xs ys zs h => ?_, fun xs h => ?_,
    fun e => effectOf_apply, fun pre run post sub h hsub => ?_⟩
  · rw [← h.left.effectOf_append, ← h.effectOf_append]
    rw [List.append_assoc] at *
    rw [← h.right.effectOf_append, ← h.effectOf_append]
  · have hfront : Bounded ([] ++ xs) := h
    have hnil : Bounded (xs ++ []) := by rwa [List.append_nil]
    rw [← effectOf_nil, ← hnil.effectOf_append, List.append_nil]
    exact ⟨hfront.effectOf_append.symm, rfl⟩
  · simp only [effect_factsOf, List.flatMap_append, List.flatMap_cons] at h hsub ⊢
    refine ⟨?_, ?_⟩
    · rw [List.append_assoc] at h ⊢
      exact h.effectOf_append
    · rw [← effectOf_fold h hsub, List.append_assoc]

/-- An operator that takes three slots and leaves one. -/
def diggingOperator : Instr := .operator "+" 3 1

/-- The operator as a nested routine. -/
def diggingSummary : Summary Instr where
  name := "dig"
  qualifiers := []
  effect := ⟨0, 3, 1⟩
  collects := false
  terminates := false
  body := none

/-- Code that digs three slots below its start has the same effect with the operator as a
compound; and steps that reset the stack have the effect of their parts. -/
theorem effect_in_parts_digging :
    (Block.factsOf [.number 1, diggingOperator, .ofOpcode .drop, .ofOpcode .drop,
        .number 2]).effect = ⟨0, 3, 1⟩ ∧
      (Block.factsOf [.number 1, .compound diggingSummary, .ofOpcode .drop, .ofOpcode .drop,
        .number 2]).effect = ⟨0, 3, 1⟩ ∧
      effectOf [.pop 2, .reset 1, .push 3, .pop 5, .fetch 2] =
        (effectOf [.pop 2, .reset 1]).andThen (effectOf [.push 3, .pop 5, .fetch 2]) := by
  obtain ⟨happend, _, _, _, hfold⟩ := effect_in_parts
  have hwhole : (Block.factsOf [.number 1, diggingOperator, .ofOpcode .drop, .ofOpcode .drop,
      .number 2]).effect = ⟨0, 3, 1⟩ := by decide
  have hfolded := (hfold [.number 1] [diggingOperator] [.ofOpcode .drop, .ofOpcode .drop, .number 2]
    diggingSummary ⟨by decide, by decide⟩ (by decide)).2
  exact ⟨hwhole, hfolded ▸ hwhole,
    happend [.pop 2, .reset 1] [.push 3, .pop 5, .fetch 2] ⟨by decide, by decide⟩⟩

end Meter

end StackFlow
