import StackFlow.Instr.Check

/-!
# Static checks of a routine

What has to hold of a flat list of instructions before it is cut into blocks: every
instruction is well formed, a temporary keeps its type, a label has one target, and
every jump has a target.  Code that is never reached is checked like any other.

`located` pairs each instruction with the source location in force before it;
`check` reports the first violation in the order of the list, and jumps without a
target after everything else.
-/

namespace StackFlow

/-- The location after an instruction: a file starts over, a line moves within it. -/
def Location.after (l : Location) (p : Instr) : Location :=
  match p.op with
  | .file => { file := p.text }
  | .line => { l with line := p.value }
  | _ => l

namespace Scope

/-- Each instruction with the source location in force before it. -/
def located (l : Location) : List Instr → List (Location × Instr)
  | [] => []
  | p :: code => (l, p) :: located (l.after p) code

/-- What the instructions before some place have declared. -/
structure Declared where
  /-- The first type of every temporary. -/
  types : List (Int64 × Ty) := []
  /-- The labels that have a target. -/
  targets : List Int64 := []

/-- Checks one instruction against what came before it. -/
def declare (ptr : Int64) (d : Declared) (p : Instr) : Except FlowError Declared := do
  p.validate
  let d ←
    if p.accessesTemp then
      match d.types.lookup p.temp with
      | none => pure { d with types := (p.temp, p.ty) :: d.types }
      | some old =>
        if Ty.compatible ptr old p.ty then pure d
        else throw (.ofFault (.typeConflict p.temp old p.ty))
    else pure d
  if p.op = .target then
    if d.targets.contains p.label then throw (.malformed (.duplicateTarget p.label))
    else pure { d with targets := p.label :: d.targets }
  else pure d

/-- Checks located instructions from left to right; the first violation wins. -/
def declareAll (ptr : Int64) (d : Declared) :
    List (Location × Instr) → Except FlowError Declared
  | [] => .ok d
  | (l, p) :: rest =>
    match declare ptr d p with
    | .ok d => declareAll ptr d rest
    | .error e => .error (e.locate l)

/-- The first jump to a label that has no target. -/
def dangling? (targets : List Int64) (code : List (Location × Instr)) :
    Option (Location × Instr) :=
  code.find? fun lp => lp.2.op.jumps && !targets.contains lp.2.label

/-- All static checks, for pointers of `ptr` bytes. -/
def check (ptr : Int64) (code : List Instr) : Except FlowError Unit :=
  match declareAll ptr {} (located {} code) with
  | .error e => .error e
  | .ok d =>
    match dangling? d.targets (located {} code) with
    | some (l, p) => .error ((FlowError.ofFault (.danglingTarget p.label)).locate l)
    | none => .ok ()

/-- The error for a temporary that may be read before it is written: traced to the
last name the temporary was given, or else to its first load. -/
def uninitialized (code : List Instr) (t : Int64) : FlowError :=
  let lcode := located {} code
  match lcode.reverse.find? fun lp => lp.2.op = .name && lp.2.temp = t with
  | some (l, p) => (FlowError.ofFault (.uninitializedNamed t p.text)).locate l
  | none =>
    let e := FlowError.ofFault (.uninitializedTemp t)
    match lcode.find? fun lp => lp.2.loads t with
    | some (l, _) => e.locate l
    | none => e

end Scope

end StackFlow
