import GuidedDataflow.Query.Basic

/-!
Demands: queries together with where they arose. The first query of an analysis is asked at
top level; every other one is asked on behalf of a parent query, at the cell of the parent's
table that triggered it.
-/

namespace GuidedDataflow

structure Scope where
  parent : Query
  trigger : Cell
deriving DecidableEq, Inhabited, Repr

structure Demand where
  query : Query
  scope : Option Scope
deriving DecidableEq, Inhabited, Repr

namespace Demand

def topLevel (query : Query) : Demand := ⟨query, none⟩

def within (query : Query) (trigger : Cell) (parent : Query) : Demand :=
  ⟨query, some ⟨parent, trigger⟩⟩

def parent? (d : Demand) : Option Query := d.scope.map Scope.parent

def trigger? (d : Demand) : Option Cell := d.scope.map Scope.trigger

def isTopLevel (d : Demand) : Bool := d.scope.isNone

end Demand

end GuidedDataflow
