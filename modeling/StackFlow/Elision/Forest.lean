import StackFlow.Graph.Basic

/-!
# Expression forests

The instructions of a block paired with the instructions that produced their
operands.  Replaying the block on a stack of trees, an instruction that leaves one
value becomes a tree on the stack, and every other one a root of the forest.  An
operand from before the block, or from an instruction that cannot be paired, is
missing.
-/

namespace StackFlow

/-- An instruction, by its place in the block, with the trees of its operands. -/
inductive Tree where
  | node (index : Nat) (operands : List (Option Tree))
deriving Inhabited

namespace Tree

/-- The place of the instruction at the root. -/
def index : Tree → Nat
  | node i _ => i

/-- The trees of the operands. -/
def operands : Tree → List (Option Tree)
  | node _ ts => ts

/-- The tree of operand `k`. -/
def operand? (t : Tree) (k : Nat) : Option Tree := (t.operands[k]?).join

mutual

/-- The places of all instructions in the tree. -/
def indices : Tree → List Nat
  | node i ts => i :: operandIndices ts

/-- The places of all instructions in the trees of some operands. -/
def operandIndices : List (Option Tree) → List Nat
  | [] => []
  | none :: ts => operandIndices ts
  | some t :: ts => indices t ++ operandIndices ts

end

end Tree

/-- A tree whose value no instruction of the block takes. -/
structure Root where
  tree : Tree
  /-- Whether a collection may happen after the root before, up to and including
  this one. -/
  collects : Bool
  /-- The values on the stack that this instruction abandons. -/
  dropped : List Tree
deriving Inhabited

/-- The trees of one block, in the order they run. -/
structure Forest where
  roots : List Root
  /-- Whether a collection may happen after the last root. -/
  tail : Bool
deriving Inhabited

namespace Forest

/-- A forest in the making. -/
structure Growing where
  /-- The pending values, the topmost first. -/
  stack : List Tree := []
  /-- Whether a collection may have happened since the last root. -/
  collects : Bool := false
  /-- The roots so far, the last one first. -/
  roots : List Root := []

/-- Adds a root, which settles the collections so far. -/
def Growing.root (s : Growing) (tree : Tree) (dropped : List Tree) (stack : List Tree) :
    Growing :=
  { stack, collects := false, roots := ⟨tree, s.collects, dropped⟩ :: s.roots }

/-- The topmost `n` values as operands, the topmost one last.  Operands that the stack
does not hold are missing. -/
def takeOperands (n : Nat) (stack : List Tree) : List (Option Tree) :=
  let taken := stack.take n
  List.replicate (n - taken.length) none ++ taken.reverse.map some

/-- Replays one instruction. -/
def step (s : Growing) (i : Nat) (p : Instr) : Growing :=
  if p.isMeta then s
  else
    let s := { s with collects := s.collects || p.collects }
    if p.isComplex then s.root (.node i []) s.stack.reverse []
    else
      let n := p.inputs.toInt.toNat
      let tree := Tree.node i (takeOperands n s.stack)
      let rest := s.stack.drop n
      if p.outputs = 0 then s.root tree [] rest
      else if p.outputs = 1 then { s with stack := tree :: rest }
      else s.root tree rest.reverse []

/-- The forest of a run of instructions. -/
def ofCode (code : List Instr) : Forest :=
  let s := code.zipIdx.foldl (fun s (p, i) => step s i p) {}
  ⟨s.roots.reverse, s.collects⟩

/-- The most operands whose list memory can address. -/
def maxOperands : Int64 := 0x200000000000

/-- Whether the operands of the instruction can be laid out: their number is neither
negative nor beyond what memory can address. -/
def canLayOut (p : Instr) : Bool :=
  p.isMeta || p.isComplex || (0 ≤ p.inputs && p.inputs ≤ maxOperands)

/-- The forests of all blocks of a graph. -/
def ofGraph (g : Graph) : Except Misuse (Array Forest) :=
  if g.layout.all fun b => b.code.all canLayOut then .ok (g.layout.map fun b => ofCode b.code)
  else .error .outOfRange

end Forest

end StackFlow
