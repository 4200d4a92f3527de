import StackFlow.Routine.Scope

/-!
# Drafts of blocks

A flat list of instructions is cut into drafts of blocks, in layout order.  A draft
is named by how its code begins (`Start`), and it names its successors the same
way, so a draft keeps its name while its neighbours are removed or merged.
-/

namespace StackFlow

/-- How the code of a block begins. -/
inductive Start where
  /-- At the beginning of the routine. -/
  | entry
  /-- At the target of a label. -/
  | label (l : Int64)
  /-- After the branch at index `i` of the routine. -/
  | after (i : Nat)
deriving DecidableEq, Inhabited

/-- A block in the making. -/
structure Draft where
  start : Start
  code : List Instr
  /-- Where control may go from here. -/
  succ : List Start
  /-- Where control goes when the code ends without a jump. -/
  fall : Option Start := none
  /-- Whether control may fall off the end of the routine. -/
  exit : Bool := false
  /-- The source location in force at the end. -/
  tail : Location
deriving Inhabited

namespace Draft

/-- Whether the code hops, and does nothing else but carry debug information. -/
def isHopOnly (d : Draft) : Bool :=
  match d.code.reverse with
  | [] => false
  | p :: rest => p.op = .hop && rest.all (·.isMeta)

/-- The code of two drafts in a row; a hop to the very target that follows it
disappears together with the target. -/
def joinCode (xs ys : List Instr) : List Instr :=
  match xs.getLast?, ys with
  | some p, q :: rest =>
    if p.op = .hop && q.op = .target && q.label = p.label then xs.dropLast ++ rest
    else xs ++ ys
  | _, _ => xs ++ ys

/-- Two drafts in a row as one. -/
def join (d e : Draft) : Draft :=
  { d with
    code := joinCode d.code e.code
    succ := e.succ
    fall := e.fall
    exit := d.exit || e.exit
    tail := e.tail }

end Draft

end StackFlow
