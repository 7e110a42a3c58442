import Std.Data.TreeMap
import GuidedDataflow.Rule.Compact

/-!
Specifications: rule groups by signature. Signatures are in increasing order, the groups of
one signature in the order they were added, and a group that is there already is not added
again.
-/

namespace GuidedDataflow

open Std

structure Specification where
  rules : TreeMap Signature (List RuleGroup)

namespace Specification

def empty : Specification := ⟨∅⟩

instance : Inhabited Specification := ⟨empty⟩

def groupsFor (s : Specification) (signature : Signature) : List RuleGroup :=
  s.rules[signature]?.getD []

def add (s : Specification) (g : RuleGroup) : Specification :=
  let groups := s.groupsFor g.signature
  ⟨s.rules.insert g.signature (if g ∈ groups then groups else groups ++ [g])⟩

def ofGroups (groups : List RuleGroup) : Specification := groups.foldl add empty

def signatures (s : Specification) : List Signature := s.rules.keys

def groups (s : Specification) : List RuleGroup := s.rules.values.flatten

/-- The number of groups. -/
def size (s : Specification) : Nat := s.groups.length

def isEmpty (s : Specification) : Bool := s.rules.isEmpty

/-- All rules must read. -/
def ofRules (rules : List String) : Except RuleError Specification :=
  (rules.mapM RuleGroup.ofCompact).map ofGroups

/-- One rule a line. Blank lines, lines that begin with `#` and lines that do not read are
passed over. -/
def ofLines (content : String) : Specification :=
  ofGroups <| (Text.lines content.toList).filterMap fun line =>
    match Text.trim line with
    | [] => none
    | '#' :: _ => none
    | rule => (RuleGroup.ofCompact (String.ofList rule)).toOption

end Specification

end GuidedDataflow
