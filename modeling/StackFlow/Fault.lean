import StackFlow.Instr.Basic

/-!
# Errors of a routine

Why a routine cannot be turned into a flow graph.  A `FlowError` is a cause
(`Fault`), the compound instructions it came through, and the source location it
was traced to.  All wording is in `Malformation.reason`, `Fault.text` and
`FlowError.message`.
-/

namespace StackFlow

/-- The kinds of errors, as a byte code; `unnamed` keeps the codes of no kind. -/
inductive FaultKind where
  | danglingTarget
  | joinInconsistency
  | uninitializedTemp
  | typeConflict
  | malformed
  | illegalQualifier
  | iterationLimit
  | unnamed (code : Nat)
deriving DecidableEq

namespace FaultKind

/-- The kind a byte stands for; only the low eight bits of the number count. -/
def ofCode (n : Nat) : FaultKind :=
  match n % 256 with
  | 1 => danglingTarget
  | 2 => joinInconsistency
  | 3 => uninitializedTemp
  | 4 => typeConflict
  | 5 => malformed
  | 6 => illegalQualifier
  | 7 => iterationLimit
  | k => unnamed k

/-- The name of the kind. -/
def name : FaultKind → String
  | danglingTarget => "DanglingTarget"
  | joinInconsistency => "JoinInconsistency"
  | uninitializedTemp => "UninitializedTemp"
  | typeConflict => "TypeConflict"
  | malformed => "Malformed"
  | illegalQualifier => "IllegalQualifier"
  | iterationLimit => "IterationLimit"
  | unnamed k => s!"ErrorKind({k})"

end FaultKind

/-- What is wrong with a malformed instruction, or with a pair of variants. -/
inductive Malformation where
  | invalidOpcode (op : Opcode)
  | negativeArity (op : Opcode)
  | negativeOperands (op : Opcode)
  | negativeTemp (op : Opcode) (temp : Int64)
  | negativeLabel (op : Opcode) (label : Int64)
  | voidTemp (op : Opcode) (temp : Int64)
  | missingBody
  | duplicateTarget (label : Int64)
  | differingArity (p q : Instr)
  | differingCollection (p q : Instr)
  | needsOperands (mnemonic : String)
  | unknownMnemonic (mnemonic : String)
  | described (reason : String)

/-- The wording of a malformation. -/
def Malformation.reason : Malformation → String
  | invalidOpcode op => s!"invalid opcode {op.code}"
  | negativeArity op => s!"{op.mnemonic} has negative arity"
  | negativeOperands op => s!"{op.mnemonic} has negative operand count"
  | negativeTemp op t => s!"{op.mnemonic} of negative temporary {t.toInt}"
  | negativeLabel op l => s!"{op.mnemonic} to negative label {l.toInt}"
  | voidTemp op t => s!"{op.mnemonic} of void temporary {t.toInt}"
  | missingBody => "COMPOUND without body"
  | duplicateTarget l => s!"TARGET {l.toInt} defined twice"
  | differingArity p q => s!"{p.listing} and {q.listing} differ in arity"
  | differingCollection p q => s!"{p.listing} and {q.listing} differ in collection behavior"
  | needsOperands m => s!"{m} needs operands"
  | unknownMnemonic m => s!"unknown instruction {Text.quote m}"
  | described r => r

/-- Why a routine cannot be turned into a flow graph. -/
inductive Fault where
  /-- A jump to a label that no target defines. -/
  | danglingTarget (label : Int64)
  /-- Two ways to one point that have read different numbers of cursor bytes. -/
  | joinInconsistency (e : CursorMismatch)
  /-- A temporary that may be read before it is written. -/
  | uninitializedTemp (temp : Int64)
  /-- The same, for a temporary with a name. -/
  | uninitializedNamed (temp : Int64) (name : String)
  /-- A temporary used with two types that may not share it. -/
  | typeConflict (temp : Int64) (old new : Ty)
  | malformed (m : Malformation)
  | illegalQualifier (qualifier : String)
  /-- A fixpoint that needs more rounds than the options allow. -/
  | iterationLimit (what : String) (limit : Int64)
  /-- An error described by the caller. -/
  | described (kind : FaultKind) (text : String) (temp label : Int64)

namespace Fault

/-- The kind of the fault. -/
def kind : Fault → FaultKind
  | danglingTarget _ => .danglingTarget
  | joinInconsistency _ => .joinInconsistency
  | uninitializedTemp _ => .uninitializedTemp
  | uninitializedNamed .. => .uninitializedTemp
  | typeConflict .. => .typeConflict
  | malformed _ => .malformed
  | illegalQualifier _ => .illegalQualifier
  | iterationLimit .. => .iterationLimit
  | described k .. => k

/-- The wording of the fault. -/
def text : Fault → String
  | danglingTarget l => s!"BRANCH or HOP to {l.toInt} has no target"
  | joinInconsistency e => s!"join inconsistency: {e.message}"
  | uninitializedTemp t => s!"uninitialized temporary {t.toInt}"
  | uninitializedNamed t n => s!"uninitialized temporary {t.toInt} '{n}' declared in this scope"
  | typeConflict t a b => s!"reuse of temporary {t.toInt} of type {a.name} with type {b.name}"
  | malformed m => s!"malformed instruction: {m.reason}"
  | illegalQualifier q => s!"unrecognised qualifier '{q}'"
  | iterationLimit what n => s!"{what} did not converge within {n.toInt} rounds"
  | described _ t _ _ => t

/-- The temporary the fault is about, or -1. -/
def temp : Fault → Int64
  | uninitializedTemp t => t
  | uninitializedNamed t _ => t
  | typeConflict t _ _ => t
  | described _ _ t _ => t
  | _ => -1

/-- The label the fault is about, or -1. -/
def label : Fault → Int64
  | danglingTarget l => l
  | described _ _ _ l => l
  | _ => -1

end Fault

/-- A place in a source file. -/
structure Location where
  file : String := ""
  line : Int64 := 0
deriving DecidableEq, Inhabited

/-- Whether the location names both a file and a line. -/
def Location.isKnown (l : Location) : Bool := l.file ≠ "" && 0 < l.line

/-- A fault with where it was found. -/
structure FlowError where
  fault : Fault
  /-- The compound instructions around the fault, innermost first. -/
  within : List String := []
  location : Location := {}

namespace FlowError

/-- An error without a location. -/
def ofFault (fault : Fault) : FlowError := { fault }

/-- The error traced to a location; a location already known is kept, and an
incomplete one is ignored. -/
def locate (e : FlowError) (l : Location) : FlowError :=
  if !e.location.isKnown && l.isKnown then { e with location := l } else e

/-- The error as seen from around the compound instruction `name`. -/
def inCompound (e : FlowError) (name : String) : FlowError :=
  { e with within := e.within ++ [name] }

/-- The kind of the error. -/
def kind (e : FlowError) : FaultKind := e.fault.kind

/-- The wording of the error without its location. -/
def text (e : FlowError) : String :=
  e.within.foldl (fun s name => s!"{s} in compound instruction {name}") e.fault.text

/-- The wording of the error, after its location if that is known. -/
def message (e : FlowError) : String :=
  if e.location.isKnown then s!"{e.location.file}:{e.location.line.toInt}: {e.text}" else e.text

end FlowError

/-- A malformed instruction, without a location. -/
def FlowError.malformed (m : Malformation) : FlowError := .ofFault (.malformed m)

end StackFlow
