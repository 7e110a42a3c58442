import GuidedDataflow.Rule.Selector

/-!
Rule groups. A group belongs to calls of one signature: a fact on one of its on-selectors
triggers a query on each of its go-selectors.
-/

namespace GuidedDataflow

structure RuleGroup where
  signature : Signature
  on : OrderedSet Selector
  go : OrderedSet Selector
deriving DecidableEq

namespace RuleGroup

/-- A group without selectors. -/
def ofSignature (signature : Signature) : RuleGroup := ⟨signature, .empty, .empty⟩

instance : Inhabited RuleGroup := ⟨ofSignature default⟩

def addOn (g : RuleGroup) (s : Selector) : RuleGroup := { g with on := g.on.insert s }

def addGo (g : RuleGroup) (s : Selector) : RuleGroup := { g with go := g.go.insert s }

/-- The on-selectors of a direction. -/
def triggersIn (g : RuleGroup) (d : Direction) : List Selector :=
  g.on.toList.filter (·.direction = d)

def text (g : RuleGroup) : String :=
  let list (s : OrderedSet Selector) := ", ".intercalate (s.toList.map Selector.text)
  g.signature.text ++ " ON[" ++ list g.on ++ "] GO[" ++ list g.go ++ "]"

end RuleGroup

end GuidedDataflow
