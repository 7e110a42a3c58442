/-!
What can be wrong with a rule, and with a file of rules.
-/

namespace GuidedDataflow

/-- The part of a compact rule that is missing or empty. -/
inductive RuleFault where
  | brackets
  | colon
  | space
  | openParen
  | closeParen
  | name
  | type
deriving DecidableEq, Inhabited, Repr

namespace RuleFault

def message : RuleFault → String
  | brackets => "expected '<class: ret name(params)>'"
  | colon => "missing ':' after declaring class"
  | space => "missing return type or method name"
  | openParen => "missing '('"
  | closeParen => "parameter list must end with ')'"
  | name => "empty method name"
  | type => "empty declaring class or return type"

end RuleFault

/-- Every cause carries the rule as it was given. -/
inductive RuleError where
  | malformed (rule : String) (fault : RuleFault)
  | unknownMarker (rule marker : String)
  | noTrigger (rule : String)
deriving DecidableEq, Inhabited, Repr

namespace RuleError

def message : RuleError → String
  | malformed rule fault => "Malformed rule '" ++ rule ++ "': " ++ fault.message
  | unknownMarker rule marker =>
    "Unknown selector marker '" ++ marker ++ "' in rule '" ++ rule ++
      "'. Expected ON\x7bF\x7d, ON\x7bB\x7d, GO\x7bF\x7d or GO\x7bB\x7d"
  | noTrigger rule => "Rule '" ++ rule ++ "' has no ON selector"

end RuleError

/-- The versions of rule files that can be read. -/
def supportedRuleVersions : List Nat := [1]

inductive LoadError where
  | rule (error : RuleError)
  | unsupportedVersion (found : Nat)
  /-- The file is missing or is not UTF-8 text. -/
  | unreadable
  | invalidYaml
  | invalidJson
deriving DecidableEq, Inhabited, Repr

namespace LoadError

def message : LoadError → String
  | rule error => error.message
  | unsupportedVersion found =>
    "Unsupported specification version " ++ toString found ++ ". Supported versions: " ++
      ", ".intercalate (supportedRuleVersions.map toString)
  | unreadable => "IO error: the file cannot be read as text"
  | invalidYaml => "YAML parsing error: not a specification"
  | invalidJson => "JSON parsing error: not a specification"

end LoadError

end GuidedDataflow
