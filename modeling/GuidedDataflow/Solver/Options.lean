/-!
Limits of a solve. A step is the expansion of one fact; steps are counted from one. The step
limit refuses every step beyond it. The clock is read only at every sixty-fourth step, and a
solve is taken to need no measurable time, so a timeout of zero has run out at the first
reading and any other never does.
-/

namespace GuidedDataflow

structure SolverOptions where
  timeoutMs : Nat
  maxCallDepth : Nat
  /-- The step limit; zero means none. -/
  maxPropagations : Nat
deriving DecidableEq, Inhabited, Repr

namespace SolverOptions

def standard : SolverOptions := ⟨1999999, 8, 0⟩

/-- How many steps lie between two readings of the clock. -/
def clockInterval : Nat := 64

def withinSteps (o : SolverOptions) (step : Nat) : Bool :=
  o.maxPropagations = 0 || step ≤ o.maxPropagations

def withinTime (o : SolverOptions) (step : Nat) : Bool :=
  step % clockInterval ≠ 0 || o.timeoutMs ≠ 0

/-- Whether the solve may take its `step`-th step. -/
def allows (o : SolverOptions) (step : Nat) : Bool := o.withinSteps step && o.withinTime step

end SolverOptions

end GuidedDataflow
