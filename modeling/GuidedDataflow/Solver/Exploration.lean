import GuidedDataflow.Solver.FactStore
import GuidedDataflow.Solver.Options

/-!
Breadth-first exploration of facts. Discovered facts wait in the order of their discovery;
the first one waiting is expanded, and of its successors those not seen before are put at the
end of the queue. The exploration is complete when nothing waits. It is cut short, and marked
so, when the limits refuse the next expansion. The number of expansions is bounded, but by
rounds that double, so that even a bound of astronomical size costs nothing.
-/

namespace GuidedDataflow

/-- Adds the facts that are not there yet, and lists them in order. -/
def FactStore.addNew (s : FactStore) : List Fact → FactStore × List Fact
  | [] => (s, [])
  | f :: fs =>
    match s.add f with
    | (false, s) => s.addNew fs
    | (true, s) =>
      let (store, fresh) := s.addNew fs
      (store, f :: fresh)

structure Exploration where
  store : FactStore
  pending : List Fact
  expanded : Array Fact

namespace Exploration

def discover (e : Exploration) (facts : List Fact) : Exploration :=
  let (store, fresh) := e.store.addNew facts
  { e with store := store, pending := e.pending ++ fresh }

def start (seeds : List Fact) : Exploration := discover ⟨.empty, [], #[]⟩ seeds

def cutShort (e : Exploration) : Exploration := { e with store := e.store.markIncomplete }

/-- Takes `f` off the queue, which goes on with `rest`, and queues its new successors. -/
def expand (e : Exploration) (step : Fact → List Fact) (f : Fact) (rest : List Fact) :
    Exploration :=
  { e with pending := rest, expanded := e.expanded.push f }.discover (step f)

/-- Nothing waits, or the limits refuse the next expansion. -/
def isSettled (e : Exploration) (allows : Nat → Bool) : Bool :=
  e.pending.isEmpty || !allows (e.expanded.size + 1)

/-- Expands up to `fuel` facts while the limits allow. -/
def run (step : Fact → List Fact) (allows : Nat → Bool) : Nat → Exploration → Exploration
  | 0, e => e
  | fuel + 1, e =>
    match e.pending with
    | [] => e
    | f :: rest =>
      if allows (e.expanded.size + 1) then run step allows fuel (e.expand step f rest) else e

theorem run_of_isSettled {step : Fact → List Fact} {allows : Nat → Bool} {e : Exploration}
    (h : e.isSettled allows = true) (fuel : Nat) : run step allows fuel e = e := by
  cases fuel with
  | zero => rfl
  | succ fuel =>
    cases hp : e.pending with
    | nil => simp [run, hp]
    | cons f rest => simp_all [run, isSettled]

theorem run_add (step : Fact → List Fact) (allows : Nat → Bool) (m n : Nat) (e : Exploration) :
    run step allows (m + n) e = run step allows n (run step allows m e) := by
  induction m generalizing e with
  | zero => simp [run]
  | succ m ih =>
    by_cases h : e.isSettled allows = true
    · rw [run_of_isSettled h, run_of_isSettled h, run_of_isSettled h]
    · cases hp : e.pending with
      | nil => simp [isSettled, hp] at h
      | cons f rest =>
        have ha : allows (e.expanded.size + 1) = true := by simpa [isSettled, hp] using h
        simp only [Nat.succ_add, run, hp, ha, if_true, ih]

/-- Runs in rounds until the exploration is settled. Each round has twice the fuel of the one
before it, so that a large bound is reached in few rounds. -/
def runRounds (step : Fact → List Fact) (allows : Nat → Bool) :
    (rounds fuel : Nat) → Exploration → Exploration
  | 0, _, e => e
  | rounds + 1, fuel, e =>
    if e.isSettled allows then e
    else runRounds step allows rounds (2 * fuel) (run step allows fuel e)

/-- The fuel of so many rounds together. -/
def totalFuel : (rounds fuel : Nat) → Nat
  | 0, _ => 0
  | rounds + 1, fuel => fuel + totalFuel rounds (2 * fuel)

theorem runRounds_eq_run (step : Fact → List Fact) (allows : Nat → Bool) (rounds fuel : Nat)
    (e : Exploration) :
    runRounds step allows rounds fuel e = run step allows (totalFuel rounds fuel) e := by
  induction rounds generalizing fuel e with
  | zero => simp [runRounds, totalFuel, run]
  | succ rounds ih =>
    rw [runRounds, totalFuel]
    split
    · next h => rw [run_of_isSettled h]
    · rw [ih, run_add]

/-- Ends the exploration, which is cut short where facts still wait. -/
def finish (e : Exploration) : Exploration := if e.pending.isEmpty then e else e.cutShort

/-- Explores from the seeds in at most so many rounds, the first of one expansion. -/
def explore (step : Fact → List Fact) (allows : Nat → Bool) (rounds : Nat) (seeds : List Fact) :
    Exploration :=
  (runRounds step allows rounds 1 (start seeds)).finish

theorem explore_eq_run (step : Fact → List Fact) (allows : Nat → Bool) (rounds : Nat)
    (seeds : List Fact) :
    explore step allows rounds seeds =
      (run step allows (totalFuel rounds 1) (start seeds)).finish := by
  rw [explore, runRounds_eq_run]

end Exploration

end GuidedDataflow
