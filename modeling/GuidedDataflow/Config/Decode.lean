import GuidedDataflow.Config.Basic
import GuidedDataflow.Document.Basic

/-!
Reading configurations, patches and policies from documents, and showing them as plain data.
-/

namespace GuidedDataflow

open Document

namespace ConstructorRule

def fields : List Field := [⟨"declaring_class", false⟩, ⟨"method_name", false⟩]

def ofTree? (t : Tree) : Option ConstructorRule := do
  let r ← record? fields false t
  return ⟨← r.required? "declaring_class" Tree.text?, ← r.required? "method_name" Tree.text?⟩

def tree (r : ConstructorRule) : Tree :=
  .record [("declaring_class", .text r.declaringClass), ("method_name", .text r.methodName)]

end ConstructorRule

namespace Propagation

def rulesOfTree? (t : Tree) : Option (List ConstructorRule) :=
  (items? t).bind (·.mapM ConstructorRule.ofTree?)

/-- The local policy has no fields, so it passes over whatever a mapping adds. -/
def ofTagged? : String → Tree → Option Propagation
  | "local", .map _ => some .localOnly
  | "local", .list [] => some .localOnly
  | "global_rescan", t => do
    let r ← record? [⟨"built_in_rules", true⟩] false t
    return .globalRescan (← r.withDefault? "built_in_rules" [.standard] rulesOfTree?)
  | _, _ => none

/-- The entry `kind` says which policy it is. -/
def read? {α : Type} [Document α] (a : α) : Option Propagation :=
  (tagged? "kind" a).bind fun (kind, rest) => ofTagged? kind rest

def tree : Propagation → Tree
  | localOnly => .record [("kind", .text "local")]
  | globalRescan rules =>
    .record [("kind", .text "global_rescan"),
      ("built_in_rules", .list (rules.map ConstructorRule.tree))]

end Propagation

namespace VisitedPolicy

def read? {α : Type} [Document α] (a : α) : Option VisitedPolicy :=
  (name? (all.map text) a).bind fun name => all.find? (·.text = name)

end VisitedPolicy

/-- The fields of a configuration, in order. -/
def Config.fieldNames : List String :=
  ["propagation", "visited_policy", "solver_timeout_ms", "max_call_depth", "max_propagations",
    "max_queries"]

namespace ConfigPatch

/-- Every field of a patch may be missing from a mapping or be null. -/
def read? {α : Type} [Document α] (a : α) : Option ConfigPatch := do
  let r ← record? (Config.fieldNames.map (⟨·, false⟩)) true a
  return {
    propagation := ← r.nullable? "propagation" isNull Propagation.read?
    visitedPolicy := ← r.nullable? "visited_policy" isNull VisitedPolicy.read?
    solverTimeoutMs := ← r.nullable? "solver_timeout_ms" isNull nat?
    maxCallDepth := ← r.nullable? "max_call_depth" isNull nat?
    maxPropagations := ← r.nullable? "max_propagations" isNull nat?
    maxQueries := ← r.nullable? "max_queries" isNull nat? }

/-- The fields that are set. -/
def tree (p : ConfigPatch) : Tree :=
  let entry (name : String) (value : Option Tree) : List (String × Tree) :=
    (value.map (name, ·)).toList
  .record <|
    entry "propagation" (p.propagation.map Propagation.tree) ++
    entry "visited_policy" (p.visitedPolicy.map (.text ·.text)) ++
    entry "solver_timeout_ms" (p.solverTimeoutMs.map .nat) ++
    entry "max_call_depth" (p.maxCallDepth.map .nat) ++
    entry "max_propagations" (p.maxPropagations.map .nat) ++
    entry "max_queries" (p.maxQueries.map .nat)

end ConfigPatch

namespace Config

/-- A field that is missing is that of the standard configuration. -/
def read? {α : Type} [Document α] (a : α) : Option Config := do
  let r ← record? (fieldNames.map (⟨·, true⟩)) true a
  return {
    propagation := ← r.withDefault? "propagation" standard.propagation Propagation.read?
    visitedPolicy := ← r.withDefault? "visited_policy" standard.visitedPolicy VisitedPolicy.read?
    solverTimeoutMs := ← r.withDefault? "solver_timeout_ms" standard.solverTimeoutMs nat?
    maxCallDepth := ← r.withDefault? "max_call_depth" standard.maxCallDepth nat?
    maxPropagations := ← r.withDefault? "max_propagations" standard.maxPropagations nat?
    maxQueries := ← r.withDefault? "max_queries" standard.maxQueries nat? }

/-- A configuration shows all its fields. -/
def tree (c : Config) : Tree := (ConfigPatch.ofConfig c).tree

end Config

end GuidedDataflow
