import GuidedDataflow.Guide.Backend

/-!
A backend with prepared answers, for running an analysis over data that is given beforehand.
Each query has its table and each backward query its allocation sites; a forward query becomes
active when it is solved or reported as a site. A chosen solve, or opening the session, can be
made to fail.
-/

namespace GuidedDataflow

open Std

structure Prepared where
  tables : List (Query × Table)
  sites : List (BackwardQuery × OrderedSet ForwardQuery)
  /-- The number of the solve that fails, counted from one. -/
  failOn : Option Nat
  failStart : Bool
deriving Inhabited

/-- How far a session has come. -/
structure PreparedSession where
  solves : Nat
  active : OrderedSet ForwardQuery
deriving Inhabited

namespace Prepared

/-- The prepared table of a query; later entries of the list win. -/
def table? (p : Prepared) (q : Query) : Option Table :=
  (p.tables.reverse.find? (·.1 = q)).map Prod.snd

def sitesOf (p : Prepared) (q : BackwardQuery) : OrderedSet ForwardQuery :=
  ((p.sites.reverse.find? (·.1 = q)).map Prod.snd).getD .empty

def start (p : Prepared) : Except SolveError PreparedSession :=
  if p.failStart then .error (.internal "scripted open failure") else .ok ⟨0, .empty⟩

/-- A query without a table has the empty one, which is complete. -/
def solve (p : Prepared) (s : PreparedSession) (d : Demand) :
    Except SolveError (Table × PreparedSession) :=
  let solves := s.solves + 1
  if p.failOn = some solves then
    .error (.internal ("scripted failure on " ++ d.query.text))
  else
    let active :=
      match d.query with
      | .forward q => s.active.insert q
      | .backward q => (p.sitesOf q).union s.active
    .ok ((p.table? d.query).getD .empty, ⟨solves, active⟩)

def backend (p : Prepared) : Backend PreparedSession where
  start _ := p.start
  solve := p.solve
  allocationSites _ q := p.sitesOf q
  forwardTable? s q := if q ∈ s.active then p.table? (.forward q) else none
  activeForward s := s.active.toList
  close s := s
  siteBound := p.sites.foldl (fun n entry => n + entry.2.size) 0

end Prepared

end GuidedDataflow
