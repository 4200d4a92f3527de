import StackFlow.Misuse

/-!
# Reports

What the optimizer exchanged, where and why, in the order it was done.
-/

namespace StackFlow

/-- Why an instruction was exchanged; `unnamed` keeps the codes of no reason. -/
inductive Reason where
  /-- The object written is fresh, or has passed a barrier already. -/
  | freshBarrier
  /-- The reference written is null. -/
  | nullBarrier
  /-- The allocation reaches a marker that says it is initialized. -/
  | initMarker
  /-- Every word of the allocation is written explicitly. -/
  | initCovered
  | unnamed (code : Nat)
deriving DecidableEq, Inhabited

namespace Reason

/-- The reason a byte stands for; only the low eight bits of the number count. -/
def ofCode (n : Nat) : Reason :=
  match n % 256 with
  | 0 => freshBarrier
  | 1 => nullBarrier
  | 2 => initMarker
  | 3 => initCovered
  | k => unnamed k

/-- The name of the reason. -/
def name : Reason → String
  | freshBarrier => "fresh-barrier"
  | nullBarrier => "null-barrier"
  | initMarker => "init-marker"
  | initCovered => "init-covered"
  | unnamed k => s!"Kind({k})"

/-- The reasons the optimizer has. -/
def all : List Reason := [freshBarrier, nullBarrier, initMarker, initCovered]

end Reason

/-- One exchange of an instruction. -/
structure Substitution where
  reason : Reason
  spot : Spot
  old : Instr
  new : Instr
deriving Inhabited

/-- The text of an exchange. -/
def Substitution.text (s : Substitution) : String :=
  s!"{s.spot.text}: {s.old.listing} -> {s.new.listing} ({s.reason.name})"

/-- The exchanges in the order they were done. -/
structure Report where
  substitutions : Array Substitution := #[]
deriving Inhabited

namespace Report

/-- The number of exchanges done for the given reason. -/
def count (r : Report) (reason : Reason) : Nat := r.substitutions.countP (·.reason = reason)

/-- Whether the instruction at `spot` was exchanged for the given reason. -/
def has (r : Report) (reason : Reason) (spot : Spot) : Bool :=
  r.substitutions.any fun s => s.reason = reason && s.spot = spot

/-- The number of write barriers removed. -/
def barriers (r : Report) : Nat := r.count .freshBarrier + r.count .nullBarrier

/-- The number of initializations removed. -/
def initializations (r : Report) : Nat := r.count .initMarker + r.count .initCovered

/-- One line per exchange. -/
def text (r : Report) : String :=
  String.join (r.substitutions.toList.map fun s => s.text ++ "\n")

end Report

end StackFlow
