import GuidedDataflow.Config.Preset
import GuidedDataflow.Matching.ConstructorRule

/-!
What can be wrong with a configuration.
-/

namespace GuidedDataflow

/-- The limits that have a range. -/
inductive LimitField where
  | solverTimeout
  | callDepth
deriving DecidableEq, Inhabited, Repr

namespace LimitField

def text : LimitField → String
  | solverTimeout => "solver_timeout_ms"
  | callDepth => "max_call_depth"

def least : LimitField → Nat
  | _ => 1

/-- A timeout is at most one day, a call string at most sixty-four sites long. -/
def greatest : LimitField → Nat
  | solverTimeout => 24 * 60 * 60 * 1000
  | callDepth => 64

def hint : LimitField → String
  | solverTimeout => "Solver timeout must be positive and at most one day"
  | callDepth => "Call strings need at least one call site"

def holds (f : LimitField) (value : Nat) : Prop := f.least ≤ value ∧ value ≤ f.greatest

instance (f : LimitField) (value : Nat) : Decidable (f.holds value) :=
  inferInstanceAs (Decidable (_ ∧ _))

end LimitField

/-- The versions of configuration files that can be read. -/
def supportedConfigVersions : List Nat := [1]

inductive ConfigError where
  | range (field : LimitField) (value : Nat)
  | missingVersion
  | unsupportedVersion (found : Nat)
  | unknownPreset (name : String)
  /-- A constructor rule without a class or without a method name. -/
  | emptyRule (rule : ConstructorRule)
  | unreadable
  | invalidYaml
deriving DecidableEq, Inhabited, Repr

namespace ConfigError

def message : ConfigError → String
  | range field value =>
    "Invalid range for field '" ++ field.text ++ "': " ++ toString value ++ " not in " ++
      toString field.least ++ "..=" ++ toString field.greatest ++ ". " ++ field.hint
  | missingVersion =>
    "Missing 'version' field in configuration file. Add 'version: 1' to the top of your YAML file."
  | unsupportedVersion found =>
    "Unsupported configuration version " ++ toString found ++ ". Supported versions: " ++
      ", ".intercalate (supportedConfigVersions.map toString)
  | unknownPreset name => Preset.unknownMessage name
  | emptyRule rule =>
    "Validation error: built-in rule needs a declaring class and a method name, got '" ++
      rule.declaringClass ++ "' / '" ++ rule.methodName ++ "'"
  | unreadable => "IO error: the file cannot be read as text"
  | invalidYaml => "YAML parsing error: not a configuration"

end ConfigError

end GuidedDataflow
