import GuidedDataflow.Config.Error
import GuidedDataflow.Guide.Policy
import GuidedDataflow.Solver.Options

/-!
Configurations of an analysis, the presets they start from, and patches that replace some of
their fields.
-/

namespace GuidedDataflow

structure Config where
  propagation : Propagation
  visitedPolicy : VisitedPolicy
  solverTimeoutMs : Nat
  maxCallDepth : Nat
  maxPropagations : Nat
  /-- The number of queries to solve at most; zero means no cap. -/
  maxQueries : Nat
deriving DecidableEq, Repr

namespace Config

def ofPreset : Preset → Config
  | .fast => ⟨.localOnly, .queryIdentity, 10000, 3, 100000, 1000⟩
  | .balanced => ⟨.localOnly, .queryIdentity, 1999999, 8, 0, 0⟩
  | .thorough => ⟨.globalRescan [.standard], .queryIdentity, 1999999, 16, 0, 0⟩

/-- The balanced preset. -/
def standard : Config := ofPreset default

instance : Inhabited Config := ⟨standard⟩

def checkLimit (field : LimitField) (value : Nat) : Except ConfigError Unit :=
  if field.holds value then .ok () else .error (.range field value)

/-- Every constructor rule needs both names; the first that lacks one is reported. -/
def checkRules (rules : List ConstructorRule) : Except ConfigError Unit :=
  match rules.find? fun r => r.declaringClass.isEmpty || r.methodName.isEmpty with
  | some rule => .error (.emptyRule rule)
  | none => .ok ()

/-- Checks the timeout, then the call depth, then the constructor rules. -/
def validate (c : Config) : Except ConfigError Unit := do
  checkLimit .solverTimeout c.solverTimeoutMs
  checkLimit .callDepth c.maxCallDepth
  checkRules c.propagation.constructorRules

def solverOptions (c : Config) : SolverOptions :=
  ⟨c.solverTimeoutMs, c.maxCallDepth, c.maxPropagations⟩

def describe (c : Config) : String :=
  let cap := if c.maxQueries = 0 then "unbounded" else toString c.maxQueries
  "propagation=" ++ c.propagation.text ++ ", visited=" ++ c.visitedPolicy.label ++
    ", timeout=" ++ toString c.solverTimeoutMs ++ "ms, call_depth=" ++ toString c.maxCallDepth ++
    ", max_queries=" ++ cap

end Config

/-- New values for some fields of a configuration. -/
structure ConfigPatch where
  propagation : Option Propagation
  visitedPolicy : Option VisitedPolicy
  solverTimeoutMs : Option Nat
  maxCallDepth : Option Nat
  maxPropagations : Option Nat
  maxQueries : Option Nat
deriving DecidableEq, Repr

namespace ConfigPatch

def empty : ConfigPatch := ⟨none, none, none, none, none, none⟩

instance : Inhabited ConfigPatch := ⟨empty⟩

/-- Sets every field. -/
def ofConfig (c : Config) : ConfigPatch :=
  ⟨some c.propagation, some c.visitedPolicy, some c.solverTimeoutMs, some c.maxCallDepth,
    some c.maxPropagations, some c.maxQueries⟩

end ConfigPatch

def Config.patch (c : Config) (p : ConfigPatch) : Config where
  propagation := p.propagation.getD c.propagation
  visitedPolicy := p.visitedPolicy.getD c.visitedPolicy
  solverTimeoutMs := p.solverTimeoutMs.getD c.solverTimeoutMs
  maxCallDepth := p.maxCallDepth.getD c.maxCallDepth
  maxPropagations := p.maxPropagations.getD c.maxPropagations
  maxQueries := p.maxQueries.getD c.maxQueries

/-- A full patch leaves nothing of what it is applied to. -/
theorem Config.patch_ofConfig (c d : Config) : c.patch (.ofConfig d) = d := rfl

theorem Config.patch_empty (c : Config) : c.patch .empty = c := rfl

end GuidedDataflow
