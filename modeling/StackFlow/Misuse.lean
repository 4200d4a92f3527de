import StackFlow.Fault

/-!
# Misuse

What a caller must not ask for, and what the library promises never to run into.
A `Failure` is either an error of the analyzed routine or such a misuse.  A `Spot`
names one instruction of a graph, which a misuse or a report is about.
-/

namespace StackFlow

/-- A place in the code of a graph. -/
structure Spot where
  block : Int
  index : Int
deriving DecidableEq, Inhabited

/-- The block and the index within it. -/
def Spot.text (s : Spot) : String := s!"bb_{s.block}.ins[{s.index}]"

/-- Whether `s` comes before `t` in layout order. -/
def Spot.isBefore (s t : Spot) : Bool :=
  s.block < t.block || (s.index < t.index && s.block = t.block)

/-- A request that the library cannot honour, or a broken promise of its own. -/
inductive Misuse where
  | pointerSize (n : Int64)
  | roundLimit (n : Int64)
  | variants (e : FlowError)
  /-- The two instructions differ in shape or collection behavior. -/
  | replacement (old new : Instr) (spot : Spot)
  /-- A code that names no type has no size. -/
  | sizeOfType (ty : Ty)
  | envValue (key : String)
  | envTooSmall (key : String)
  | noConvergence (what : String) (rounds : Nat)
  | splitJunction (source target : Nat)
  /-- An index beyond its range, a division by zero, or an operand list that
  cannot be laid out. -/
  | outOfRange

/-- The wording of a misuse; `outOfRange` has none. -/
def Misuse.message? : Misuse → Option String
  | pointerSize n => s!"gcflow: invalid pointer size: {n.toInt}"
  | roundLimit n => s!"gcflow: invalid iteration limit: {n.toInt}"
  | variants e => s!"gcflow: invalid replacement table: {e.message}"
  | replacement p q s => s!"gcflow: cannot replace {p.listing} with {q.listing} at {s.text}"
  | sizeOfType ty => s!"invalid type: {ty.code}"
  | envValue key => s!"gcflow: invalid value for {key}"
  | envTooSmall key => s!"gcflow: value too small for {key}"
  | noConvergence what n => s!"gcflow: {what} did not converge after {n} rounds"
  | splitJunction p s => s!"gcflow: edge bb_{p} -> bb_{s} spans two edge sets"
  | outOfRange => none

/-- Why an analysis yields no result: an error of the routine, or a misuse. -/
inductive Failure where
  | flow (e : FlowError)
  | misuse (m : Misuse)

/-- Errors of a routine as failures. -/
def liftFlow {α : Type} : Except FlowError α → Except Failure α
  | .ok a => .ok a
  | .error e => .error (.flow e)

end StackFlow
