import StackFlow.Fault

/-!
# Checking single instructions

The operand checks an instruction has to pass before it may enter a graph.
-/

namespace StackFlow

/-- The qualifiers a compound instruction may have. -/
def legalQualifiers : List String := ["protected", "private", "nocomp", "componly"]

/-- Refuses the first qualifier that is not legal. -/
def checkQualifiers (qualifiers : List String) : Except FlowError Unit :=
  match qualifiers.find? (!legalQualifiers.contains ·) with
  | some q => .error (.ofFault (.illegalQualifier q))
  | none => .ok ()

namespace Instr

/-- What is wrong with the operands of the instruction; of several faults the first
in the order of the cases. -/
def malformation? (p : Instr) : Option Malformation :=
  if !p.op.isValid then some (.invalidOpcode p.op)
  else if p.inputs < 0 || p.outputs < 0 then some (.negativeArity p.op)
  else if p.operands < 0 then some (.negativeOperands p.op)
  else if (p.accessesTemp || p.op = .name) && p.temp < 0 then some (.negativeTemp p.op p.temp)
  else if p.op.isLabelled && p.label < 0 then some (.negativeLabel p.op p.label)
  else if p.accessesTemp && p.ty = .void then some (.voidTemp p.op p.temp)
  else if p.op = .compound && p.nested.isNone then some .missingBody
  else none

/-- Checks the operands, and then the qualifiers of a compound instruction. -/
def validate (p : Instr) : Except FlowError Unit :=
  match p.malformation? with
  | some m => .error (.malformed m)
  | none =>
    if p.op = .compound then checkQualifiers (p.nested.elim [] (·.qualifiers)) else .ok ()

end Instr

end StackFlow
