import StackFlow.Meter
import StackFlow.Opcode
import StackFlow.Options
import StackFlow.Text.Quoted
import StackFlow.Ty

/-!
# Instructions

An instruction is an opcode with a fixed set of operand fields; an opcode that has
no use for a field leaves it at its default.  A compound instruction carries a
`Summary` of the routine nested in it, together with the nested code and the
options it was analyzed under.

* `Instr.ofOpcode` and the constructors after it build well-shaped instructions.
* `Instr.collects`, `Instr.transfers` and their relatives read the traits of an
  instruction; a compound takes two of them from its summary.
* `Instr.meter` feeds the effect of an instruction to a `Meter`.
* `Instr.listing` is the text of an instruction in listings, reports and error messages.
-/

namespace StackFlow

/-- What a containing routine knows of a nested one, for code of type `Code`. -/
structure Summary (Code : Type) where
  name : String
  qualifiers : List String
  effect : Effect
  collects : Bool
  terminates : Bool
  /-- The nested code and the options it was analyzed under, if it is known. -/
  body : Option (Options × List Code)
deriving Inhabited

/-- One instruction of the stack machine. -/
structure Instr where
  op : Opcode
  ty : Ty := .void
  /-- The temporary of a load, a store or a name. -/
  temp : Int64 := 0
  /-- The label of a branch, a hop or a target. -/
  label : Int64 := 0
  /-- The condition a branch is taken on. -/
  sense : Bool := false
  /-- The number of a constant, a line or an insertion. -/
  value : Int64 := 0
  /-- The text of a comment, a name, an operator or a call. -/
  text : String := ""
  /-- Stack slots taken. -/
  inputs : Int64 := 0
  /-- Stack slots left. -/
  outputs : Int64 := 0
  /-- Bytes read from the operand cursor. -/
  operands : Int64 := 0
  /-- The routine nested in a compound instruction. -/
  nested : Option (Summary Instr) := none

instance : Inhabited Instr := ⟨{ op := .nop }⟩

namespace Instr

/-! ## Constructors -/

/-- The instruction with the shape that the opcode prescribes. -/
def ofOpcode (op : Opcode) : Instr :=
  { op, inputs := op.row.inputs, outputs := op.row.outputs, operands := op.row.operands }

/-- An instruction of a given type. -/
def typed (op : Opcode) (ty : Ty) : Instr := { ofOpcode op with ty }

/-- An instruction with a text operand. -/
def texted (op : Opcode) (text : String) : Instr := { ofOpcode op with text }

/-- An instruction with a number operand. -/
def numbered (op : Opcode) (value : Int64) : Instr := { ofOpcode op with value }

/-- Says what temporary `temp` is called in the source. -/
def name (temp : Int64) (text : String) : Instr := { ofOpcode .name with temp, text }

/-- Pushes a constant. -/
def number (value : Int64) : Instr := numbered .number value

/-- Pushes `n` bytes read from the operand cursor. -/
def fetch (n : Int64) : Instr := { ofOpcode .fetch with operands := n }

/-- Pushes a temporary. -/
def tload (ty : Ty) (temp : Int64) : Instr := { ofOpcode .tload with ty, temp }

/-- Pops into a temporary. -/
def tstore (ty : Ty) (temp : Int64) : Instr := { ofOpcode .tstore with ty, temp }

/-- Pops a condition and jumps to the label if the condition is `sense`. -/
def branch (label : Int64) (sense : Bool) : Instr := { ofOpcode .branch with label, sense }

/-- Jumps to the label. -/
def hop (label : Int64) : Instr := { ofOpcode .hop with label }

/-- Marks the place of the label. -/
def target (label : Int64) : Instr := { ofOpcode .target with label }

/-- Returns a value of the given type, or nothing for `void`. -/
def ret (ty : Ty) : Instr :=
  let p := typed .ret ty
  if ty = .void then { p with inputs := 0 } else p

/-- A pure operator that takes `inputs` slots and leaves `outputs`. -/
def operator (text : String) (inputs outputs : Int64) : Instr :=
  { ofOpcode .operator with text, inputs, outputs }

/-- Runs a nested routine. -/
def compound (sub : Summary Instr) : Instr :=
  { ofOpcode .compound with text := sub.name, nested := some sub }

/-! ## Traits -/

/-- Whether running the instruction may trigger a collection. -/
def collects (p : Instr) : Bool :=
  if p.op = .compound then p.nested.any (·.collects) else p.op.row.collects

/-- Whether the instruction never continues with the following one. -/
def transfers (p : Instr) : Bool :=
  if p.op = .compound then p.nested.any (·.terminates) else p.op.row.transfers

/-- Whether control may continue with the following instruction. -/
def fallsThrough (p : Instr) : Bool := !p.transfers

/-- Whether the operands cannot be paired with what produced them. -/
def isComplex (p : Instr) : Bool := p.op.row.opaqueOperands

/-- Whether the instruction only carries debug information. -/
def isMeta (p : Instr) : Bool := p.op.row.isMeta

/-- Whether the instruction reads or writes a temporary. -/
def accessesTemp (p : Instr) : Bool := p.op.accessesTemp

/-- Whether `p` loads the temporary `t`. -/
def loads (t : Int64) (p : Instr) : Bool := p.op = .tload && p.temp = t

/-- Whether `p` stores the temporary `t`. -/
def stores (t : Int64) (p : Instr) : Bool := p.op = .tstore && p.temp = t

theorem loads_iff {t : Int64} {p : Instr} : p.loads t = true ↔ p.op = .tload ∧ p.temp = t := by
  simp [loads]

theorem stores_iff {t : Int64} {p : Instr} : p.stores t = true ↔ p.op = .tstore ∧ p.temp = t := by
  simp [stores]

/-- Whether two instructions take, leave and read the same amounts. -/
def sameShape (p q : Instr) : Bool :=
  p.inputs = q.inputs && p.outputs = q.outputs && p.operands = q.operands

/-! ## Effect -/

/-- The depth a resetting instruction leaves: an insertion leaves the slots it
inserts, everything else leaves none. -/
def resetDepth (p : Instr) : Int64 :=
  if p.op = .insert && 0 < p.value then p.value else 0

/-- Feeds the effect of the instruction to a meter. -/
def meter (m : Meter) (p : Instr) : Meter :=
  let m := m.fetch p.operands
  if p.op = .compound then
    match p.nested with
    | some sub => m.apply sub.effect
    | none => m
  else
    let m := m.pop p.inputs
    let m := if p.op.row.resets then m.reset p.resetDepth else m
    m.push p.outputs

/-! ## Text -/

/-- The text of the instruction: its mnemonic with the operands its opcode uses. -/
def listing (p : Instr) : String :=
  match p.op with
  | .comment => s!"// {p.text}"
  | .file => s!"FILE {Text.quote p.text}"
  | .line => s!"LINE {p.value.toInt}"
  | .name => s!"NAME {p.temp.toInt} {Text.quote p.text}"
  | .number => s!"{p.value.toInt}"
  | .fetch => s!"FETCH #{p.operands.toInt}"
  | .tload | .tstore => s!"{p.op.mnemonic}_{p.ty.name}({p.temp.toInt})"
  | .rload | .rstore | .rstoreSimple | .pload | .pstore => s!"{p.op.mnemonic}_{p.ty.name}"
  | .operator => s!"{p.text}/{p.inputs.toInt}/{p.outputs.toInt}"
  | .branch => (if p.sense then "BRANCH_T(" else "BRANCH_F(") ++ s!"{p.label.toInt})"
  | .hop | .target => s!"{p.op.mnemonic}({p.label.toInt})"
  | .insert => s!"INSERT({p.value.toInt})"
  | .nCall | .vCall | .nCallNoGc => s!"{p.op.mnemonic}({p.text})"
  | .compound => s!"COMPOUND {p.text}"
  | op => op.mnemonic

end Instr

end StackFlow
