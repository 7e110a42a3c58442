import GuidedDataflow.Flow.Transfer
import GuidedDataflow.Query.Demand
import GuidedDataflow.Solver.Error
import GuidedDataflow.Solver.Exploration
import GuidedDataflow.Solver.FactBound

/-!
Sessions of the reachability solver. A query is solved from a set of seed call strings: from
the empty one at top level, and under a scope from those that its parent reached the trigger
under. Each pair of query and seeds is run once and its run kept; asking again makes the kept
run the latest one. A backward solve also solves each allocation site that it finds forward,
from the call strings that the site was found under. A solve changes the session in place: it
checks, records and solves sites in turn, and a failure would leave what has been done so far.
-/

namespace GuidedDataflow

open Std

/-- Call strings that a solve starts from. -/
abbrev Seeds := OrderedSet CallString

/-- The runs of one query by their seeds, latest first. -/
structure History (ρ : Type) where
  runs : List (Seeds × ρ)

namespace History

variable {ρ : Type}

def empty : History ρ := ⟨[]⟩

instance : Inhabited (History ρ) := ⟨empty⟩

def find? (h : History ρ) (seeds : Seeds) : Option ρ :=
  (h.runs.find? (·.1 = seeds)).map Prod.snd

/-- Makes `run` the latest, in the place of an earlier run from the same seeds. -/
def record (h : History ρ) (seeds : Seeds) (run : ρ) : History ρ :=
  ⟨(seeds, run) :: h.runs.filter (·.1 ≠ seeds)⟩

def latest? (h : History ρ) : Option ρ := h.runs.head?.map Prod.snd

def all (h : History ρ) : List ρ := h.runs.map Prod.snd

end History

/-- An allocation site as a backward run met it: under one call string. -/
structure Sighting where
  site : ForwardQuery
  context : CallString
deriving DecidableEq, Inhabited, Repr

namespace Sighting

instance : Ord Sighting := ⟨compareLex (compareOn site) (compareOn context)⟩

instance : TransOrd Sighting := inferInstanceAs (TransCmp (compareLex _ _))

instance : LawfulEqOrd Sighting where
  toReflCmp := inferInstanceAs (ReflCmp (compareLex _ _))
  eq_of_compare {a b} h := by
    obtain ⟨h1, h2⟩ := eq_of_compareLex h
    have e1 : a.site = b.site := eq_of_compareOn h1
    have e2 : a.context = b.context := eq_of_compareOn h2
    cases a; cases b; simp_all

end Sighting

structure BackwardRun where
  store : FactStore
  sightings : OrderedSet Sighting

namespace BackwardRun

def sites (r : BackwardRun) : OrderedSet ForwardQuery :=
  .ofList (r.sightings.toList.map Sighting.site)

/-- The call strings that the site was met under. -/
def contextsOf (r : BackwardRun) (site : ForwardQuery) : Seeds :=
  .ofList ((r.sightings.toList.filter (·.site = site)).map Sighting.context)

end BackwardRun

structure Session where
  program : Program
  options : SolverOptions
  forward : TreeMap ForwardQuery (History FactStore)
  backward : TreeMap BackwardQuery (History BackwardRun)
  closed : Bool

namespace Session

/-- Call strings have to have room for one site. -/
def start (p : Program) (options : SolverOptions) : Except SolveError Session :=
  if options.maxCallDepth = 0 then .error (.internal "max_call_depth must be at least 1")
  else .ok ⟨p, options, ∅, ∅, false⟩

def seedFacts (c : Cell) (seeds : Seeds) : List Fact := seeds.toList.map (Fact.ofCell c)

/-- Explores from the cell under the seeds, with room for every fact that there can be. -/
def explore (s : Session) (step : Fact → List Fact) (c : Cell) (seeds : Seeds) : Exploration :=
  Exploration.explore step s.options.allows (factBits s.program s.options.maxCallDepth seeds)
    (seedFacts c seeds)

def exploreForward (s : Session) (q : ForwardQuery) (seeds : Seeds) : FactStore :=
  (s.explore (Flow.forward s.program s.options.maxCallDepth) ⟨q.edge, q.var⟩ seeds).store

def exploreBackward (s : Session) (q : BackwardQuery) (seeds : Seeds) : BackwardRun :=
  let e := s.explore (Flow.backward s.program s.options.maxCallDepth) ⟨q.edge, q.value⟩ seeds
  { store := e.store
    sightings := .ofList <| e.expanded.toList.filterMap fun f =>
      (Flow.allocation? s.program f).map (⟨·, f.context⟩) }

def ensureOpen (s : Session) : Except SolveError Unit :=
  if s.closed then .error .sessionClosed else .ok ()

/-- Both ends of the edge must be statements of the program; the start is looked at first. -/
def checkEdge (s : Session) (e : Edge) : Except SolveError Unit :=
  if (s.program.statement? e.start).isNone then .error (.unknownStatement e.start)
  else if (s.program.statement? e.target).isNone then .error (.unknownStatement e.target)
  else .ok ()

/-- The stores of all runs of a query, if it has any. -/
def storesOf? (s : Session) : Query → Option (List FactStore)
  | .forward q => s.forward[q]?.map History.all
  | .backward q => s.backward[q]?.map fun h => h.all.map BackwardRun.store

/-- All call strings under which some run of the query reached the cell. -/
def reachedUnder (s : Session) (q : Query) (c : Cell) : Seeds :=
  ((s.storesOf? q).getD []).foldr (fun store found => (store.contextsOf c).union found) .empty

/-- The seeds of a scoped solve. -/
def scopeSeeds (s : Session) (q : Query) (scope : Scope) : Except SolveError Seeds :=
  if (s.storesOf? scope.parent).isNone then .error (.unknownParent q scope.parent)
  else
    let seeds := s.reachedUnder scope.parent scope.trigger
    if seeds.isEmpty then .error (.unknownTrigger scope.parent scope.trigger) else .ok seeds

/-- Work that changes a session as it goes. What has been done before a failure stays done. -/
abbrev InPlace (α : Type) := EStateM SolveError Session α

namespace InPlace

/-- Looks at the session without changing it. -/
def ask {α : Type} (question : Session → Except SolveError α) : InPlace α := fun s =>
  match question s with
  | .ok a => .ok a s
  | .error e => .error e s

/-- What the work returns and the session it leaves, if it does not fail. -/
def answer {α : Type} (work : InPlace α) (s : Session) : Except SolveError (α × Session) :=
  match work s with
  | .ok a s' => .ok (a, s')
  | .error e _ => .error e

end InPlace

/-- The run of the query from the seeds, kept or new, which becomes the latest. -/
def takeForward (q : ForwardQuery) (seeds : Seeds) : InPlace FactStore := do
  let s ← get
  let history := s.forward[q]?.getD .empty
  let store := (history.find? seeds).getD (s.exploreForward q seeds)
  set { s with forward := s.forward.insert q (history.record seeds store) }
  return store

/-- The run of the query from the seeds, kept or new, which becomes the latest. -/
def takeBackward (q : BackwardQuery) (seeds : Seeds) : InPlace BackwardRun := do
  let s ← get
  let history := s.backward[q]?.getD .empty
  let run := (history.find? seeds).getD (s.exploreBackward q seeds)
  set { s with backward := s.backward.insert q (history.record seeds run) }
  return run

def performForward (q : ForwardQuery) (seeds : Seeds) : InPlace Table := do
  .ask ensureOpen
  .ask (·.checkEdge q.edge)
  let store ← takeForward q seeds
  return store.table

/-- Solves sites of a backward run forward, in order. -/
def performSites (run : BackwardRun) : List ForwardQuery → InPlace Unit
  | [] => pure ()
  | site :: sites => do
    let _ ← performForward site (run.contextsOf site)
    performSites run sites

def performBackward (q : BackwardQuery) (seeds : Seeds) : InPlace Table := do
  .ask ensureOpen
  .ask (·.checkEdge q.edge)
  let run ← takeBackward q seeds
  performSites run run.sites.toList
  return run.store.table

def performFrom (q : Query) (seeds : Seeds) : InPlace Table :=
  match q with
  | .forward q => performForward q seeds
  | .backward q => performBackward q seeds

/-- Solves a query at top level or under its scope, in place. -/
def perform (d : Demand) : InPlace Table := do
  .ask ensureOpen
  let seeds ←
    match d.scope with
    | none => pure (.singleton .empty)
    | some scope => .ask (·.scopeSeeds d.query scope)
  performFrom d.query seeds

/-- The table and the session after a solve from the seeds. -/
def solveFrom (s : Session) (q : Query) (seeds : Seeds) : Except SolveError (Table × Session) :=
  (performFrom q seeds).answer s

/-- The table and the session after a solve of the demand. -/
def solve (s : Session) (d : Demand) : Except SolveError (Table × Session) := (perform d).answer s

/-- The sites that the latest run of the query found, each with its least call string. -/
def allocationSites (s : Session) (q : BackwardQuery) : List (ForwardQuery × CallString) :=
  match s.backward[q]?.bind History.latest? with
  | none => []
  | some run => run.sites.toList.filterMap fun site =>
    (run.contextsOf site).toList.head?.map (site, ·)

/-- The table of the latest run of the query. -/
def forwardTable? (s : Session) (q : ForwardQuery) : Option Table :=
  (s.forward[q]?.bind History.latest?).map FactStore.table

/-- Every forward query that has a run, in increasing order. -/
def activeForward (s : Session) : List ForwardQuery := s.forward.keys

/-- Forgets all runs. -/
def close (s : Session) : Session := { s with closed := true, forward := ∅, backward := ∅ }

end Session

end GuidedDataflow
