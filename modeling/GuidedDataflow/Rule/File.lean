import GuidedDataflow.Rule.Specification

/-!
Rule files: a version and a list of entries, each a compact rule or one written out by its
selectors. Strict loading fails at the first entry that is wrong; lenient loading leaves such
entries out. Either refuses a version that is not supported.
-/

namespace GuidedDataflow

inductive RuleEntry where
  | compact (rule : String)
  | structured (signature : Signature) (on go : List Selector)
deriving DecidableEq, Inhabited, Repr

namespace RuleEntry

/-- A written-out entry needs an on-selector too. -/
def group : RuleEntry → Except RuleError RuleGroup
  | compact rule => RuleGroup.ofCompact rule
  | structured signature on go =>
    if on.isEmpty then .error (.noTrigger signature.text)
    else .ok ⟨signature, .ofList on, .ofList go⟩

end RuleEntry

structure RuleFile where
  version : Nat
  rules : List RuleEntry
deriving DecidableEq, Inhabited, Repr

namespace RuleFile

def checkVersion (f : RuleFile) : Except LoadError Unit :=
  if f.version ∈ supportedRuleVersions then .ok () else .error (.unsupportedVersion f.version)

def strict (f : RuleFile) : Except LoadError Specification := do
  f.checkVersion
  match f.rules.mapM RuleEntry.group with
  | .ok groups => return .ofGroups groups
  | .error e => throw (.rule e)

def lenient (f : RuleFile) : Except LoadError Specification := do
  f.checkVersion
  return .ofGroups (f.rules.filterMap fun entry => entry.group.toOption)

end RuleFile

end GuidedDataflow
