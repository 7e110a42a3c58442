import GuidedDataflow.Program.Basic
import GuidedDataflow.Query.Basic

/-!
Collecting allocation sites. A forward query is a site of interest when the statement that it
leaves assigns an integer or string constant; other candidates are only counted.
-/

namespace GuidedDataflow

structure SiteCollector where
  sites : OrderedSet ForwardQuery
  rejected : Nat

namespace SiteCollector

def empty : SiteCollector := ⟨.empty, 0⟩

instance : Inhabited SiteCollector := ⟨empty⟩

def isLiteralSite (p : Program) (q : ForwardQuery) : Bool :=
  (p.statement? q.origin).any Statement.isLiteralAllocation

def consider (c : SiteCollector) (p : Program) (q : ForwardQuery) : SiteCollector :=
  if isLiteralSite p q then { c with sites := c.sites.insert q }
  else { c with rejected := c.rejected + 1 }

/-- Whether considering the query would add a new site. -/
def wouldAdd (c : SiteCollector) (p : Program) (q : ForwardQuery) : Bool :=
  isLiteralSite p q && !decide (q ∈ c.sites)

end SiteCollector

end GuidedDataflow
