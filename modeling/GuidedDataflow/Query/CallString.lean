import GuidedDataflow.Program.Statement

/-!
Call strings: the call sites through which a method was entered, innermost last. The empty
string says that the caller is unknown. Bounded pushes forget the outermost sites, so a
bounded string is always the end of the unbounded one.
-/

namespace GuidedDataflow

open Std

structure CallString where
  sites : List StmtId
deriving DecidableEq, Inhabited, Repr

namespace CallString

instance : Ord CallString := ⟨compareOn sites⟩

instance : TransOrd CallString := inferInstanceAs (TransCmp (compareOn sites))

instance : LawfulEqOrd CallString where
  toReflCmp := inferInstanceAs (ReflCmp (compareOn sites))
  eq_of_compare {a b} h := by
    have : a.sites = b.sites := eq_of_compareOn h
    cases a; cases b; simp_all

def empty : CallString := ⟨[]⟩

def depth (c : CallString) : Nat := c.sites.length

def isEmpty (c : CallString) : Bool := c.sites.isEmpty

def push (c : CallString) (site : StmtId) : CallString := ⟨c.sites ++ [site]⟩

/-- Keeps the innermost `bound` sites. -/
def truncate (c : CallString) (bound : Nat) : CallString := ⟨c.sites.drop (c.depth - bound)⟩

def pushBounded (c : CallString) (site : StmtId) (bound : Nat) : CallString :=
  (c.push site).truncate bound

/-- The innermost site and the string of its caller. -/
def pop? (c : CallString) : Option (StmtId × CallString) :=
  c.sites.getLast?.map fun site => (site, ⟨c.sites.dropLast⟩)

def text (c : CallString) : String := "[" ++ ", ".intercalate (c.sites.map StmtId.text) ++ "]"

theorem depth_truncate (c : CallString) (bound : Nat) :
    (c.truncate bound).depth = min bound c.depth := by
  simp only [truncate, depth, List.length_drop]
  omega

theorem pop?_push (c : CallString) (site : StmtId) : (c.push site).pop? = some (site, c) := by
  simp [push, pop?]

theorem pop?_empty : empty.pop? = none := rfl

end CallString

end GuidedDataflow
