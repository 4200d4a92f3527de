import StackFlow.Effect

/-!
# Metering instructions one by one

A `Meter` follows the operand cursor and the depth of the operand stack through a
run of instructions and yields the `Effect` of the run.  The depth is relative to
the start until an instruction resets it, and absolute from then on; an absolute
depth never falls below zero.
-/

namespace StackFlow

/-- The cursor and stack depth reached so far. -/
structure Meter where
  /-- Depth of the stack, relative to the start unless `isAbsolute`. -/
  depth : Int64 := 0
  /-- Whether the depth no longer depends on the start. -/
  isAbsolute : Bool := false
  /-- Cursor bytes read. -/
  cursor : Int64 := 0
  /-- How far below its starting depth the stack has been. -/
  lowest : Int64 := 0
deriving DecidableEq, Inhabited

namespace Meter

/-- The depth changed by `n`; an absolute depth stops at zero. -/
def move (m : Meter) (n : Int64) : Meter :=
  let depth := m.depth + n
  { m with depth := if m.isAbsolute && depth < 0 then 0 else depth }

/-- Takes `n` slots from the stack. -/
def pop (m : Meter) (n : Int64) : Meter :=
  let m := m.move (-n)
  if !m.isAbsolute && m.lowest < -m.depth then { m with lowest := -m.depth } else m

/-- Puts `n` slots on the stack. -/
def push (m : Meter) (n : Int64) : Meter := m.move n

/-- Reads `n` bytes from the cursor. -/
def fetch (m : Meter) (n : Int64) : Meter := { m with cursor := m.cursor + n }

/-- Makes the depth absolute from here on. -/
def reset (m : Meter) (depth : Int64) : Meter :=
  { m with depth := depth, isAbsolute := true }

/-- Runs code whose effect is already known. -/
def apply (m : Meter) (e : Effect) : Meter :=
  let m := m.fetch e.cursor
  if e.consume.isKnown then (m.pop e.consume).push e.produce else m.reset e.produce

/-- The effect of everything metered so far. -/
def effect (m : Meter) : Effect :=
  if m.isAbsolute then Effect.absolute m.cursor m.depth
  else ⟨m.cursor, m.lowest, m.depth + m.lowest⟩

section

variable {m : Meter} {n : Int64}

@[simp] theorem isAbsolute_push : (m.push n).isAbsolute = m.isAbsolute := rfl

@[simp] theorem cursor_push : (m.push n).cursor = m.cursor := rfl

@[simp] theorem lowest_push : (m.push n).lowest = m.lowest := rfl

@[simp] theorem isAbsolute_pop : (m.pop n).isAbsolute = m.isAbsolute := by
  unfold pop
  simp only
  split <;> rfl

@[simp] theorem cursor_pop : (m.pop n).cursor = m.cursor := by
  unfold pop
  simp only
  split <;> rfl

@[simp] theorem cursor_effect : m.effect.cursor = m.cursor := by
  unfold effect
  split <;> rfl

theorem depth_push_of_relative (h : m.isAbsolute = false) : (m.push n).depth = m.depth + n := by
  simp [push, move, h]

theorem depth_pop_of_relative (h : m.isAbsolute = false) : (m.pop n).depth = m.depth - n := by
  have hmove : (m.move (-n)).depth = m.depth - n := by
    rw [Int64.sub_eq_add_neg]
    simp [move, h]
  unfold pop
  simp only
  split <;> exact hmove

theorem lowest_pop_of_relative (h : m.isAbsolute = false) :
    (m.pop n).lowest = if m.lowest < n - m.depth then n - m.depth else m.lowest := by
  have hmove : -(m.move (-n)).depth = n - m.depth := by
    rw [← Int64.neg_sub, Int64.sub_eq_add_neg m.depth]
    simp [move, h]
  unfold pop
  simp only [hmove, show (m.move (-n)).isAbsolute = false from h,
    show (m.move (-n)).lowest = m.lowest from rfl, Bool.not_false, Bool.true_and,
    decide_eq_true_eq]
  split <;> rfl

end

end Meter

end StackFlow
