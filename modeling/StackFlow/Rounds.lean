import StackFlow.Misuse

/-!
# Fixpoints in rounds

The fixpoints over a graph run in rounds that visit every block once, until a round
changes nothing.  The options may cap the number of rounds.  On a graph of `n`
blocks no fixpoint needs more than `n * n + 1` of them; running beyond that would
be a defect of the library and is reported as a `Misuse`.
-/

namespace StackFlow

namespace Rounds

/-- Runs `round` until it reports no change.  `n` is the number of the round about to
start, and `fuel` the number of rounds still allowed on a graph of this size. -/
def run {σ : Type} (what : String) (o : Options) (round : σ → σ × Bool) :
    (fuel n : Nat) → σ → Except Failure (σ × Nat)
  | 0, n, _ => .error (.misuse (.noConvergence what n))
  | fuel + 1, n, s =>
    if !o.canIterate (Int64.ofNat (n - 1)) then
      .error (.flow (.ofFault (.iterationLimit what o.maxRounds)))
    else
      let (s, changed) := round s
      if changed then run what o round fuel (n + 1) s else .ok (s, n)

/-- The fixpoint of `round` on a graph of `blocks` blocks, with the number of rounds
it took, the last one included. -/
def fixpoint {σ : Type} (what : String) (o : Options) (blocks : Nat) (round : σ → σ × Bool)
    (s : σ) : Except Failure (σ × Nat) :=
  run what o round (blocks * blocks + 1) 1 s

end Rounds

end StackFlow
