import StackFlow.Graph.Dominance
import StackFlow.Graph.Flow
import StackFlow.Graph.Liveness
import StackFlow.Routine.Threading

/-!
# Flow graphs

The control-flow graph of one routine with the facts that are computed when it is
built.  Afterwards instructions may only be exchanged for others of the same shape
and collection behavior (`Graph.replace`), which leaves all facts in place.
-/

namespace StackFlow

/-- The flow graph of one routine. -/
structure Graph where
  options : Options
  layout : Layout
  junctions : Array Junction
  /-- The effect of the code from the entry to each junction. -/
  junctionEffects : Array Effect
  /-- The effect of the whole routine. -/
  effect : Effect
  /-- The temporaries that hold references. -/
  refs : TempSet
  live : Array Live
  /-- The number of rounds the liveness fixpoint took. -/
  rounds : Nat
  dominance : Dominance
deriving Inhabited

namespace Graph

/-- Builds the flow graph of a routine. -/
def build (o : Options) (code : List Instr) : Except Failure Graph := do
  let code := Threading.thread code
  liftFlow (Scope.check o.platform.pointerSize code)
  let layout := Layout.ofCode code
  let junctions := Junction.ofLayout layout
  Junction.check layout junctions
  let (junctionEffects, effect) ← Flow.effects layout junctions
  let (live, rounds) ← Live.compute o layout
  match (live.getD 0 .none).liveIn.min? with
  | some t => throw (.flow (Scope.uninitialized code t))
  | none => pure ()
  let dominance ← Dominance.compute o layout
  return { options := o, layout, junctions, junctionEffects, effect
           refs := layout.temps (·.ty = .reference), live, rounds, dominance }

/-- The number of blocks. -/
def size (g : Graph) : Nat := g.layout.size

/-- The block with index `i`. -/
def block (g : Graph) (i : Nat) : Block := g.layout.block i

/-- The pointer size of the platform. -/
def pointerSize (g : Graph) : Int64 := g.options.platform.pointerSize

/-- The temporaries live into block `i`. -/
def liveIn (g : Graph) (i : Nat) : TempSet := (g.live.getD i .none).liveIn

/-- The temporaries live out of block `i`. -/
def liveOut (g : Graph) (i : Nat) : TempSet := (g.live.getD i .none).liveOut

/-- Whether `a` dominates `b`. -/
def dominates (g : Graph) (a b : Nat) : Bool := g.dominance.dominates a b

/-- The junction that control enters block `i` through. -/
def parentOf? (g : Graph) (i : Nat) : Option Nat := Junction.parentOf? g.junctions i

/-- The junction that control leaves block `i` through. -/
def childOf? (g : Graph) (i : Nat) : Option Nat := Junction.childOf? g.junctions i

/-- Whether some block may trigger a collection. -/
def mayCollect (g : Graph) : Bool := g.layout.any (·.facts.collects)

/-- Whether control may fall off the end of the routine. -/
def fallsThrough (g : Graph) : Bool := g.layout.any (·.exit)

/-- The temporaries loaded or stored by the instructions as they are now. -/
def temps (g : Graph) : TempSet := g.layout.temps fun _ => true

/-! ## Single instructions -/

/-- The instruction at place `i` of block `b`. -/
def instr? (g : Graph) (b i : Nat) : Option Instr := (g.layout[b]?).bind (·.code[i]?)

/-- The graph with another instruction at place `i` of block `b`. -/
def setInstr (g : Graph) (b i : Nat) (p : Instr) : Graph :=
  { g with layout := g.layout.modify b fun k => { k with code := k.code.set i p } }

/-- Exchanges an instruction for one of the same shape and collection behavior. -/
def replace (g : Graph) (b i : Nat) (p : Instr) : Except Misuse Graph :=
  match g.instr? b i with
  | none => .error .outOfRange
  | some old =>
    if old.sameShape p && old.collects = p.collects then .ok (g.setInstr b i p)
    else .error (.replacement old p ⟨b, i⟩)

/-! ## Nested routines -/

/-- The compound instruction that runs the given code.  Errors of the code are
tagged with the name. -/
def compound (o : Options) (name : String) (qualifiers : List String) (code : List Instr) :
    Except Failure Instr :=
  match checkQualifiers qualifiers with
  | .error e => .error (.flow (e.inCompound name))
  | .ok () =>
    match build o code with
    | .error (.flow e) => .error (.flow (e.inCompound name))
    | .error (.misuse m) => .error (.misuse m)
    | .ok g =>
      .ok (.compound
        { name, qualifiers, effect := g.effect, collects := g.mayCollect
          terminates := !g.fallsThrough, body := some (o, code) })

/-- The graph of the routine nested in an instruction. -/
def nested? (p : Instr) : Option Graph :=
  match p.op, p.nested with
  | .compound, some sub => sub.body.bind fun b => (build b.1 b.2).toOption
  | _, _ => none

end Graph

end StackFlow
