import GuidedDataflow.Query.Basic
import GuidedDataflow.Query.CallString

/-!
Facts: a value holds on an edge while the method of the edge runs under a call string.
-/

namespace GuidedDataflow

open Std

structure Fact where
  edge : Edge
  value : Value
  context : CallString
deriving DecidableEq, Inhabited, Repr

namespace Fact

instance : Ord Fact :=
  ⟨compareLex (compareOn edge) (compareLex (compareOn value) (compareOn context))⟩

instance : TransOrd Fact := inferInstanceAs (TransCmp (compareLex _ _))

instance : LawfulEqOrd Fact where
  toReflCmp := inferInstanceAs (ReflCmp (compareLex _ _))
  eq_of_compare {a b} h := by
    obtain ⟨h1, h⟩ := eq_of_compareLex h
    obtain ⟨h2, h3⟩ := eq_of_compareLex h
    have e1 : a.edge = b.edge := eq_of_compareOn h1
    have e2 : a.value = b.value := eq_of_compareOn h2
    have e3 : a.context = b.context := eq_of_compareOn h3
    cases a; cases b; simp_all

/-- The fact without its call string. -/
def cell (f : Fact) : Cell := ⟨f.edge, f.value⟩

/-- The cell under a call string. -/
def ofCell (c : Cell) (context : CallString) : Fact := ⟨c.edge, c.value, context⟩

end Fact

end GuidedDataflow
