import GuidedDataflow.Config.Basic
import GuidedDataflow.Guide.Agenda
import GuidedDataflow.Guide.Backend
import GuidedDataflow.Guide.Report
import GuidedDataflow.Guide.SiteCollector

/-!
Guided analysis. From the initial query on, demands are taken off the agenda and solved; the
tables that a solve brings are matched against the rules, and each query that they spawn goes
on the agenda unless its key has been seen. After a forward solve its own table is matched.
After a backward solve its own table is, and then forward tables as the policy says: those of
the allocation sites it found, or all active ones.

A run records its calls to the backend. It opens one session, unless the configuration is
refused, and closes it at the end, also when a solve fails. The query cap leaves what is still
on the agenda unsolved.
-/

namespace GuidedDataflow

/-- What one analysis works on. -/
structure Setup where
  program : Program
  spec : Specification
  config : Config

/-- A table to match, on behalf of the query that its spawned queries are asked by. -/
structure Matched where
  parent : Query
  direction : Direction
  table : Table

/-- Where spawned queries come from. -/
inductive SpawnSource where
  | specification
  | builtIn
deriving DecidableEq, Inhabited, Repr

/-- What a run has brought so far. -/
structure Progress where
  agenda : Agenda
  collector : SiteCollector
  statistics : Statistics
  provenance : Provenance
  complete : Bool
deriving Inhabited

namespace Setup

/-- The queries that a matched table spawns, specification first, then rule by rule. -/
def spawns (u : Setup) (m : Matched) : List (SpawnSource × Spawn) :=
  (u.spec.spawn u.program m.direction m.table).map (.specification, ·) ++
    match m.direction with
    | .forward =>
      u.config.propagation.constructorRules.flatMap fun rule =>
        (rule.spawn u.program m.table).map (.builtIn, ·)
    | .backward => []

/-- The forward tables of the listed queries, as far as the session has them. -/
def forwardTables {σ : Type} (b : Backend σ) (s : σ) (queries : List ForwardQuery) :
    List Matched :=
  queries.filterMap fun q => (b.forwardTable? s q).map fun t => ⟨.forward q, .forward, t⟩

/-- The active forward tables that a global rescan matches after a backward solve. -/
def rescanned {σ : Type} (u : Setup) (b : Backend σ) (s : σ) : Query → List Matched
  | .forward _ => []
  | .backward _ =>
    match u.config.propagation with
    | .localOnly => []
    | .globalRescan _ => forwardTables b s (b.activeForward s)

/-- The site tables that the local policy matches after a backward solve. -/
def siteTables {σ : Type} (u : Setup) (b : Backend σ) (s : σ) : Query → List Matched
  | .forward _ => []
  | .backward q =>
    match u.config.propagation with
    | .localOnly => forwardTables b s (b.allocationSites s q).toList
    | .globalRescan _ => []

/-- The tables to match after a solve, in order. -/
def matched {σ : Type} (u : Setup) (b : Backend σ) (s : σ) (q : Query) (t : Table) :
    List Matched :=
  ⟨q, q.direction, t⟩ :: (u.siteTables b s q ++ u.rescanned b s q)

/-- The forward queries that a solve makes candidates for allocation sites. -/
def candidates {σ : Type} (b : Backend σ) (s : σ) : Query → List ForwardQuery
  | .forward q => [q]
  | .backward q => (b.allocationSites s q).toList

/-- The number of allocation sites that a solve saw. -/
def sitesSeen {σ : Type} (b : Backend σ) (s : σ) : Query → Nat
  | .forward _ => 0
  | .backward q => (b.allocationSites s q).size

end Setup

namespace Progress

/-- Knows the initial query, which waits at top level. -/
def start (policy : VisitedPolicy) (initial : Query) : Progress where
  agenda := (Agenda.empty policy).push (.topLevel initial)
  collector := .empty
  statistics := .zero
  provenance := Provenance.empty.addQuery initial
  complete := true

def countSpawn (s : Statistics) : SpawnSource → Statistics
  | .specification => { s with specSpawned := s.specSpawned + 1 }
  | .builtIn => { s with builtInSpawned := s.builtInSpawned + 1 }

/-- Puts a spawned query on the agenda and into the provenance, or drops it as seen. -/
def enqueue (p : Progress) (parent : Query) (source : SpawnSource) (spawn : Spawn) : Progress :=
  let d := Demand.within spawn.query spawn.trigger parent
  let counted := countSpawn p.statistics source
  if p.agenda.accepts d then
    { p with
      agenda := p.agenda.push d
      statistics := { counted with queriesEnqueued := counted.queriesEnqueued + 1 }
      provenance := p.provenance.addEdge parent spawn.query spawn.trigger }
  else
    { p with
      agenda := p.agenda.push d
      statistics := { counted with duplicatesDropped := counted.duplicatesDropped + 1 } }

/-- Enqueues everything that a matched table spawns. -/
def absorb (p : Progress) (u : Setup) (m : Matched) : Progress :=
  (u.spawns m).foldl (fun p (source, spawn) => p.enqueue m.parent source spawn) p

/-- Counts a solve. -/
def record (p : Progress) (d : Demand) (t : Table) : Progress :=
  { p with
    statistics := p.statistics.recordSolve d.query.direction (!d.isTopLevel) t.complete
    complete := p.complete && t.complete }

/-- Takes in what a solve of `d` brought: counts it, collects its allocation sites and matches
its tables. -/
def afterSolve {σ : Type} (p : Progress) (u : Setup) (b : Backend σ) (s : σ) (d : Demand)
    (t : Table) : Progress :=
  let recorded := p.record d t
  let collected :=
    { recorded with
      collector := (Setup.candidates b s d.query).foldl (·.consider u.program ·) recorded.collector
      statistics :=
        { recorded.statistics with
          allocationSitesSeen :=
            recorded.statistics.allocationSitesSeen + Setup.sitesSeen b s d.query
          rescannedTables :=
            recorded.statistics.rescannedTables + (u.rescanned b s d.query).length } }
  (u.matched b s d.query t).foldl (·.absorb u ·) collected

/-- Whether the cap forbids another solve. -/
def capReached (p : Progress) (c : Config) : Bool :=
  c.maxQueries > 0 && p.statistics.totalSolved ≥ c.maxQueries

/-- Leaves the agenda, on which at least one demand waits, unsolved. -/
def skipRest (p : Progress) : Progress :=
  { p with
    statistics := { p.statistics with queriesSkipped := p.agenda.size }
    complete := false }

def report (p : Progress) : Report :=
  ⟨p.collector.sites, p.statistics, p.provenance, p.complete⟩

end Progress

/-- A call of a run to its backend. -/
inductive BackendCall where
  | start (options : SolverOptions)
  | solve (demand : Demand)
  | close
deriving DecidableEq, Inhabited, Repr

inductive RunError where
  | config (error : ConfigError)
  | solver (error : SolveError)
  /-- The backend reported more allocation sites than it may. -/
  | unbounded
deriving DecidableEq, Inhabited, Repr

namespace RunError

def message : RunError → String
  | config error => "Configuration error: " ++ error.message
  | solver error => "Solver error: " ++ error.message
  | unbounded => "Solver error: too many allocation sites"

end RunError

/-- A successful solve of a run. -/
structure Solved (σ : Type) where
  demand : Demand
  table : Table
  /-- The session right after the solve. -/
  session : σ

/-- A run as a whole. -/
structure Run (σ : Type) where
  calls : List BackendCall
  solved : List (Solved σ)
  result : Except RunError Report

namespace Setup

/-- Every query that some call of the program can give rise to. -/
def spawnable (p : Program) : List Query :=
  p.statements.toList.flatMap fun s =>
    match s.action with
    | .invoke result call =>
      let operands := call.receiver.toList ++ result.toList ++ call.args
      operands.flatMap fun value =>
        (p.predEdges s.id).map (fun e => .backward ⟨e, value⟩) ++
          (p.succEdges s.id).map (fun e => .forward ⟨e, .self value s.id⟩)
    | _ => []

/-- A bound on the solves of a run: each is of the initial query or of a spawnable one, on
behalf of one of these, of an allocation site, or of nothing. -/
def solveBound (p : Program) (siteBound : Nat) : Nat :=
  let queries := (spawnable p).length + 1
  queries * (queries + siteBound + 1)

/-- Solves what is on the agenda until it is empty, the cap is reached or a solve fails. The
calls and solves come in order. -/
def loop {σ : Type} (u : Setup) (b : Backend σ) :
    Nat → σ → Progress → List (Solved σ) × List BackendCall × Except RunError Report
  | fuel, s, p =>
    match p.agenda.pop? with
    | none => ([], [], .ok p.report)
    | some (d, rest) =>
      if p.capReached u.config then ([], [], .ok p.skipRest.report)
      else
        match fuel with
        | 0 => ([], [], .error .unbounded)
        | fuel + 1 =>
          match b.solve s d with
          | .error e => ([], [.solve d], .error (.solver e))
          | .ok (t, s) =>
            let next := { p with agenda := rest }.afterSolve u b s d t
            let (solved, calls, result) := u.loop b fuel s next
            (⟨d, t, s⟩ :: solved, .solve d :: calls, result)

/-- Runs the analysis from one query. -/
def run {σ : Type} (u : Setup) (b : Backend σ) (initial : Query) : Run σ :=
  match u.config.validate with
  | .error e => ⟨[], [], .error (.config e)⟩
  | .ok _ =>
    let options := u.config.solverOptions
    match b.start options with
    | .error e => ⟨[.start options], [], .error (.solver e)⟩
    | .ok s =>
      let (solved, calls, result) :=
        u.loop b (solveBound u.program b.siteBound) s (.start u.config.visitedPolicy initial)
      ⟨.start options :: calls ++ [.close], solved, result⟩

/-- Runs the analysis over the reachability solver of its own program. -/
def analyze (u : Setup) (initial : Query) : Run Session :=
  u.run (.reachability u.program) initial

end Setup

end GuidedDataflow
