import Mathlib.Algebra.BigOperators.Group.List.Basic
import StackFlow.Meter

/-!
# Shifts of the stack depth

An effect says what a run of instructions does to the depth of the stack.  A `Shift` says
the same in natural numbers, where nothing wraps around.

* Shifts form a monoid, which acts on depths: `Shift.depthAfter_mul` and
  `Shift.depthAfter_prod`.
* `Shift.effect` writes a shift as an effect.  `Shift.effect_mul` says that effects follow one
  another as shifts do as long as the slots that they name are fewer than `2 ^ 63`.
* `Meter.Shows` relates a meter to the shift that it has followed so far, and the lemmas after
  it say what one step of the meter does to that shift.
-/

namespace StackFlow

/-- What a run of instructions does to the depth of the stack. -/
inductive Shift where
  /-- The run takes `consume` slots, and leaves `produce` slots on what is left. -/
  | relative (consume produce : Nat)
  /-- The run ends at the depth `depth`, whatever it has started from. -/
  | absolute (depth : Nat)
deriving DecidableEq

namespace Shift

/-! ## The monoid of shifts -/

/-- The slots that the shift names. -/
def slots : Shift → Nat
  | relative consume produce => consume + produce
  | absolute depth => depth

/-- One shift and then another. -/
def andThen : Shift → Shift → Shift
  | relative c p, relative c' p' => relative (c + (c' - p)) (p - c' + p')
  | absolute d, relative c p => absolute (d - c + p)
  | _, absolute d => absolute d

theorem andThen_assoc (a b c : Shift) : (a.andThen b).andThen c = a.andThen (b.andThen c) := by
  cases a <;> cases b <;> cases c <;> simp only [andThen, relative.injEq, absolute.injEq] <;> omega

theorem relative_zero_andThen (a : Shift) : (relative 0 0).andThen a = a := by
  cases a <;> simp [andThen]

theorem andThen_relative_zero (a : Shift) : a.andThen (relative 0 0) = a := by
  cases a <;> simp [andThen]

instance : Monoid Shift where
  one := relative 0 0
  mul := andThen
  mul_assoc := andThen_assoc
  one_mul := relative_zero_andThen
  mul_one := andThen_relative_zero

variable {c p d n : Nat} {a b : Shift}

theorem one_eq : (1 : Shift) = relative 0 0 := rfl

theorem relative_mul_relative {c' p' : Nat} :
    relative c p * relative c' p' = relative (c + (c' - p)) (p - c' + p') := rfl

theorem absolute_mul_relative : absolute d * relative c p = absolute (d - c + p) := rfl

theorem mul_absolute : a * absolute d = absolute d := by
  cases a <;> rfl

/-- Taking slots and then leaving some is one shift. -/
theorem relative_eq_mul : relative c p = relative c 0 * relative 0 p := by
  simp [relative_mul_relative]

theorem slots_relative : (relative c p).slots = c + p := rfl

theorem slots_absolute : (absolute d).slots = d := rfl

theorem slots_mul_le (a b : Shift) : (a * b).slots ≤ a.slots + b.slots := by
  cases b with
  | absolute d => simp [mul_absolute, slots]
  | relative c' p' =>
    cases a with
    | absolute d =>
      simp only [absolute_mul_relative, slots]
      omega
    | relative c p =>
      simp only [relative_mul_relative, slots]
      omega

/-! ## Depths -/

/-- The depth that the shift leads to from depth `n`.  An empty stack stays empty when slots
are taken from it. -/
def depthAfter (n : Nat) : Shift → Nat
  | relative consume produce => n - consume + produce
  | absolute depth => depth

theorem depthAfter_mul : (a * b).depthAfter n = b.depthAfter (a.depthAfter n) := by
  cases b with
  | absolute d => rw [mul_absolute, depthAfter, depthAfter]
  | relative c' p' =>
    cases a with
    | absolute d => rfl
    | relative c p =>
      simp only [relative_mul_relative, depthAfter]
      omega

theorem depthAfter_prod (xs : List Shift) (n : Nat) :
    xs.prod.depthAfter n = xs.foldl depthAfter n := by
  induction xs generalizing n with
  | nil => rfl
  | cons a xs ih => rw [List.prod_cons, depthAfter_mul, ih, List.foldl_cons]

/-! ## Shifts as effects -/

/-- The effect of a run that reads `bytes` bytes and shifts the depth. -/
def effect (bytes : Int64) : Shift → Effect
  | relative consume produce => ⟨bytes, .ofNat consume, .ofNat produce⟩
  | absolute depth => .absolute bytes (.ofNat depth)

@[simp] theorem cursor_effect (bytes : Int64) (a : Shift) : (a.effect bytes).cursor = bytes := by
  cases a <;> rfl

theorem ofNat_nonneg (h : n < 2 ^ 63) : (0 : Int64) ≤ Int64.ofNat n :=
  (Int64.ofNat_le_iff_le (by decide) h).2 (Nat.zero_le n)

theorem isKnown_ofNat (h : n < 2 ^ 63) : Count.isKnown (.ofNat n) = true :=
  decide_eq_true (ofNat_nonneg h)

theorem toInt_ofNat_sub {m : Nat} (hm : m < 2 ^ 63) (hn : n < 2 ^ 63) :
    (Int64.ofNat m - Int64.ofNat n).toInt = m - n := by
  rw [Int64.toInt_sub, Int64.toInt_ofNat_of_lt hm, Int64.toInt_ofNat_of_lt hn,
    Int.bmod_eq_of_le (by omega) (by omega)]

/-- Machine integers subtract as natural numbers do, once negative results are cut off. -/
theorem ite_ofNat_sub {m : Nat} (hm : m < 2 ^ 63) (hn : n < 2 ^ 63) :
    (if Int64.ofNat m - Int64.ofNat n < 0 then 0 else Int64.ofNat m - Int64.ofNat n) =
      Int64.ofNat (m - n) := by
  have hneg : Int64.ofNat m - Int64.ofNat n < 0 ↔ m < n := by
    rw [Int64.lt_iff_toInt_lt, toInt_ofNat_sub hm hn, Int64.toInt_zero]
    omega
  split
  · rename_i hlt
    rw [Nat.sub_eq_zero_of_le (Nat.le_of_lt (hneg.1 hlt))]
    rfl
  · rename_i hnot
    exact (Int64.ofNat_sub _ _ (Nat.le_of_not_lt fun hlt => hnot (hneg.2 hlt))).symm

theorem max_ofNat_sub {m : Nat} (hm : m < 2 ^ 63) (hn : n < 2 ^ 63) :
    max (Int64.ofNat m - Int64.ofNat n) 0 = Int64.ofNat (m - n) := by
  rw [← ite_ofNat_sub hm hn]
  show (if Int64.ofNat m - Int64.ofNat n ≤ 0 then 0 else Int64.ofNat m - Int64.ofNat n) = _
  split
  · rename_i hle
    split
    · rfl
    · rename_i hnot
      exact Int64.le_antisymm (Int64.not_lt.1 hnot) hle
  · rename_i hnot
    rw [if_neg fun hlt => hnot (Int64.le_of_lt hlt)]

/-- What the one run leaves over and the other takes are the same slots. -/
theorem ofNat_sub_add_comm (m n : Nat) :
    Int64.ofNat (m - n) + Int64.ofNat n = Int64.ofNat (n - m) + Int64.ofNat m := by
  rw [← Int64.ofNat_add, ← Int64.ofNat_add]
  exact congrArg Int64.ofNat (by omega)

/-- Effects follow one another as the shifts do. -/
theorem effect_mul (h : a.slots + b.slots < 2 ^ 63) (i j : Int64) :
    (a * b).effect (i + j) = (a.effect i).andThen (b.effect j) := by
  have hunknown : Count.isKnown Count.unknown = false := rfl
  cases b with
  | absolute d =>
    rw [mul_absolute, Effect.andThen, cursor_effect]
    simp [effect, Effect.absolute, hunknown]
  | relative c' p' =>
    cases a with
    | absolute d =>
      simp only [slots] at h
      have hmax := max_ofNat_sub (m := d) (n := c') (by omega) (by omega)
      have hknown : Count.isKnown (.ofNat c') = true := isKnown_ofNat (by omega)
      simp [absolute_mul_relative, effect, Effect.andThen, Effect.absolute, hknown, hunknown, hmax,
        Int64.ofNat_add]
    | relative c p =>
      simp only [slots] at h
      have hmax := max_ofNat_sub (m := c') (n := p) (by omega) (by omega)
      have hknown : Count.isKnown (.ofNat c) = true := isKnown_ofNat (by omega)
      have hknown' : Count.isKnown (.ofNat c') = true := isKnown_ofNat (by omega)
      have hover := ofNat_sub_add_comm c' p
      simp only [relative_mul_relative, effect, Effect.andThen, hknown, hknown', hmax,
        Int64.ofNat_add, Bool.not_true, Bool.false_eq_true, if_false, Effect.mk.injEq, true_and]
      grind

end Shift

/-! ## Effects as shifts -/

namespace Effect

variable {e : Effect}

/-- Whether the effect has numbers of slots for its parts; the slots taken may be unknown. -/
def Counted (e : Effect) : Prop := (e.consume = Count.unknown ∨ 0 ≤ e.consume) ∧ 0 ≤ e.produce

instance : Decidable e.Counted := inferInstanceAs (Decidable (_ ∧ _))

/-- The shift of a run with the given effect. -/
def shift (e : Effect) : Shift :=
  if e.consume.isKnown then .relative e.consume.toNatClampNeg e.produce.toNatClampNeg
  else .absolute e.produce.toNatClampNeg

/-- The slots that the effect names. -/
def slots (e : Effect) : Nat := e.consume.toNatClampNeg + e.produce.toNatClampNeg

theorem slots_shift_le (e : Effect) : e.shift.slots ≤ e.slots := by
  unfold shift slots
  split
  · exact Nat.le_refl _
  · exact Nat.le_add_left _ _

/-- The slots taken are either unknown or a number. -/
theorem Counted.isAbsolute_eq (h : e.Counted) : e.isAbsolute = !e.consume.isKnown := by
  unfold isAbsolute
  rcases h.1 with hunknown | hknown
  · rw [hunknown]
    rfl
  · rw [Count.isKnown, decide_eq_true hknown]
    refine decide_eq_false fun hunknown => ?_
    rw [hunknown] at hknown
    exact absurd hknown (by decide)

/-- The shift says all of the effect but the bytes that it reads. -/
theorem Counted.effect_shift (h : e.Counted) : e.shift.effect e.cursor = e := by
  obtain ⟨hconsume, hproduce⟩ := h
  unfold shift
  split
  · rename_i hknown
    simp [Shift.effect, Int64.ofNat_toNatClampNeg _ hproduce,
      Int64.ofNat_toNatClampNeg _ (of_decide_eq_true hknown)]
  · rename_i hunknown
    have hconsume := hconsume.resolve_right fun hle => hunknown (decide_eq_true hle)
    simp only [Shift.effect, absolute, Int64.ofNat_toNatClampNeg _ hproduce, ← hconsume]

end Effect

namespace Shift

variable {a : Shift}

theorem counted_effect (h : a.slots < 2 ^ 63) (bytes : Int64) : (a.effect bytes).Counted := by
  cases a with
  | relative c p =>
    rw [slots_relative] at h
    exact ⟨.inr (ofNat_nonneg (by omega)), ofNat_nonneg (by omega)⟩
  | absolute d => exact ⟨.inl rfl, ofNat_nonneg h⟩

theorem slots_effect (h : a.slots < 2 ^ 63) (bytes : Int64) :
    (a.effect bytes).slots = a.slots := by
  cases a with
  | relative c p =>
    rw [slots_relative] at *
    rw [Effect.slots, effect, Int64.toNatClampNeg_ofNat_of_lt (by omega),
      Int64.toNatClampNeg_ofNat_of_lt (by omega)]
  | absolute d =>
    rw [slots_absolute] at *
    rw [Effect.slots, effect, Effect.absolute, Int64.toNatClampNeg_ofNat_of_lt h]
    exact Nat.zero_add d

end Shift

/-! ## Meters -/

namespace Meter

variable {m : Meter} {s : Shift} {n : Nat}

/-- `m.Shows s`: the depth of the meter, and how far below the start it has been, are those of a
run that does the shift `s`. -/
def Shows (m : Meter) : Shift → Prop
  | .relative consume produce => m.isAbsolute = false ∧ m.lowest = .ofNat consume ∧
      m.depth = .ofNat produce - .ofNat consume
  | .absolute depth => m.isAbsolute = true ∧ m.depth = .ofNat depth

/-- Nothing has been metered yet. -/
theorem shows_start : Shows {} 1 := ⟨rfl, rfl, rfl⟩

namespace Shows

theorem effect_eq (h : m.Shows s) : m.effect = s.effect m.cursor := by
  unfold Meter.effect
  cases s with
  | relative c p =>
    obtain ⟨habsolute, hlowest, hdepth⟩ := h
    simp only [habsolute, hlowest, hdepth, Bool.false_eq_true, if_false, Shift.effect,
      Effect.mk.injEq, true_and]
    grind
  | absolute d =>
    obtain ⟨habsolute, hdepth⟩ := h
    simp only [habsolute, hdepth, if_true, Shift.effect]

theorem fetch (h : m.Shows s) (k : Int64) : (m.fetch k).Shows s := by
  cases s <;> exact h

theorem push (h : m.Shows s) (hslots : s.slots + n < 2 ^ 63) :
    (m.push (.ofNat n)).Shows (s * .relative 0 n) := by
  cases s with
  | relative c p =>
    obtain ⟨habsolute, hlowest, hdepth⟩ := h
    refine ⟨habsolute, by simpa using hlowest, ?_⟩
    simp only [Meter.push, move, habsolute, Bool.false_and, Bool.false_eq_true, if_false, hdepth,
      Nat.sub_zero, Int64.ofNat_add]
    grind
  | absolute d =>
    obtain ⟨habsolute, hdepth⟩ := h
    have hnonneg : ¬ Int64.ofNat (d + n) < 0 := Int64.not_lt.2 (Shift.ofNat_nonneg hslots)
    rw [Int64.ofNat_add] at hnonneg
    refine ⟨habsolute, ?_⟩
    simp [Meter.push, move, hdepth, hnonneg, Int64.ofNat_add]

theorem pop (h : m.Shows s) (hslots : s.slots + n < 2 ^ 63) :
    (m.pop (.ofNat n)).Shows (s * .relative n 0) := by
  cases s with
  | relative c p =>
    obtain ⟨habsolute, hlowest, hdepth⟩ := h
    rw [Shift.slots_relative] at hslots
    have hmark : .ofNat n - m.depth = .ofNat (c + n) - .ofNat p := by
      rw [hdepth, Int64.ofNat_add]
      grind
    have hlower : m.lowest < .ofNat n - m.depth ↔ p < n := by
      rw [hmark, hlowest, Int64.lt_iff_toInt_lt, Shift.toInt_ofNat_sub (by omega) (by omega),
        Int64.toInt_ofNat_of_lt (by omega)]
      omega
    have hover := Shift.ofNat_sub_add_comm n p
    refine ⟨by simpa using habsolute, ?_, ?_⟩
    · rw [lowest_pop_of_relative habsolute]
      split
      · rename_i hlt
        have hlt := hlower.1 hlt
        rw [hmark, ← Int64.ofNat_sub _ _ (by omega), Nat.add_sub_assoc (by omega)]
      · rename_i hnot
        rw [Nat.sub_eq_zero_of_le (Nat.le_of_not_lt fun hlt => hnot (hlower.2 hlt)), hlowest]
        rfl
    · rw [depth_pop_of_relative habsolute, hdepth, Nat.add_zero, Int64.ofNat_add]
      grind
  | absolute d =>
    obtain ⟨habsolute, hdepth⟩ := h
    rw [Shift.slots_absolute] at hslots
    refine ⟨by simpa using habsolute, ?_⟩
    have hcut := Shift.ite_ofNat_sub (m := d) (n := n) (by omega) (by omega)
    simp only [Meter.pop, move, habsolute, Bool.not_true, Bool.false_and, Bool.true_and,
      Bool.false_eq_true, if_false, decide_eq_true_eq, hdepth, ← Int64.sub_eq_add_neg]
    exact hcut

theorem reset (m : Meter) (s : Shift) (d : Nat) :
    (m.reset (.ofNat d)).Shows (s * .absolute d) := by
  rw [Shift.mul_absolute]
  exact ⟨rfl, rfl⟩

/-- Nested code counts as one step. -/
theorem apply {e : Effect} (h : m.Shows s) (he : e.Counted)
    (hslots : s.slots + e.shift.slots < 2 ^ 63) : (m.apply e).Shows (s * e.shift) := by
  unfold Meter.apply Effect.shift at *
  simp only
  split
  · rename_i hknown
    simp only [hknown, if_true, Shift.slots_relative] at hslots
    have hpop := (h.fetch e.cursor).pop (n := e.consume.toNatClampNeg) (by omega)
    have hle := Shift.slots_mul_le s (.relative e.consume.toNatClampNeg 0)
    rw [Shift.slots_relative] at hle
    have hpush := hpop.push (n := e.produce.toNatClampNeg) (by omega)
    rwa [Int64.ofNat_toNatClampNeg _ (of_decide_eq_true hknown),
      Int64.ofNat_toNatClampNeg _ he.2, mul_assoc, ← Shift.relative_eq_mul] at hpush
  · have hreset := reset (m.fetch e.cursor) s e.produce.toNatClampNeg
    rwa [Int64.ofNat_toNatClampNeg _ he.2] at hreset

end Shows

end Meter

end StackFlow
