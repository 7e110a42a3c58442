import GuidedDataflow.Program.Statement

/-!
Queries. A forward query asks where a value goes from the edge it was created on; a backward
query asks where a value on an edge comes from. Forward queries come before backward ones,
and queries of one direction are ordered by what they ask.
-/

namespace GuidedDataflow

open Std

inductive Direction where
  | forward
  | backward
deriving DecidableEq, Inhabited, Repr

namespace Direction

def rank : Direction → Nat
  | forward => 0
  | backward => 1

instance : Ord Direction := ⟨compareOn rank⟩

instance : TransOrd Direction := inferInstanceAs (TransCmp (compareOn rank))

instance : LawfulEqOrd Direction where
  toReflCmp := inferInstanceAs (ReflCmp (compareOn rank))
  eq_of_compare {a b} h := by
    have : a.rank = b.rank := eq_of_compareOn h
    cases a <;> cases b <;> simp_all [rank]

def text : Direction → String
  | forward => "forward"
  | backward => "backward"

end Direction

/-- A value holding on an edge. -/
structure Cell where
  edge : Edge
  value : Value
deriving DecidableEq, Inhabited, Repr

namespace Cell

instance : Ord Cell := ⟨compareLex (compareOn edge) (compareOn value)⟩

instance : TransOrd Cell := inferInstanceAs (TransCmp (compareLex _ _))

instance : LawfulEqOrd Cell where
  toReflCmp := inferInstanceAs (ReflCmp (compareLex _ _))
  eq_of_compare {a b} h := by
    obtain ⟨h1, h2⟩ := eq_of_compareLex h
    have e1 : a.edge = b.edge := eq_of_compareOn h1
    have e2 : a.value = b.value := eq_of_compareOn h2
    cases a; cases b; simp_all

def text (c : Cell) : String := "(" ++ c.edge.text ++ ", " ++ c.value.text ++ ")"

end Cell

/-- A value as created: the operand that holds it, and where it was created as what. -/
structure Allocation where
  delegate : Value
  stmt : StmtId
  value : Value
deriving DecidableEq, Inhabited, Repr

namespace Allocation

instance : Ord Allocation :=
  ⟨compareLex (compareOn delegate) (compareLex (compareOn stmt) (compareOn value))⟩

instance : TransOrd Allocation := inferInstanceAs (TransCmp (compareLex _ _))

instance : LawfulEqOrd Allocation where
  toReflCmp := inferInstanceAs (ReflCmp (compareLex _ _))
  eq_of_compare {a b} h := by
    obtain ⟨h1, h⟩ := eq_of_compareLex h
    obtain ⟨h2, h3⟩ := eq_of_compareLex h
    have e1 : a.delegate = b.delegate := eq_of_compareOn h1
    have e2 : a.stmt = b.stmt := eq_of_compareOn h2
    have e3 : a.value = b.value := eq_of_compareOn h3
    cases a; cases b; simp_all

/-- The value stands for itself: it is followed from `stmt` on, whatever created it. -/
def self (value : Value) (stmt : StmtId) : Allocation := ⟨value, stmt, value⟩

end Allocation

structure ForwardQuery where
  edge : Edge
  alloc : Allocation
deriving DecidableEq, Inhabited, Repr

namespace ForwardQuery

instance : Ord ForwardQuery := ⟨compareLex (compareOn edge) (compareOn alloc)⟩

instance : TransOrd ForwardQuery := inferInstanceAs (TransCmp (compareLex _ _))

instance : LawfulEqOrd ForwardQuery where
  toReflCmp := inferInstanceAs (ReflCmp (compareLex _ _))
  eq_of_compare {a b} h := by
    obtain ⟨h1, h2⟩ := eq_of_compareLex h
    have e1 : a.edge = b.edge := eq_of_compareOn h1
    have e2 : a.alloc = b.alloc := eq_of_compareOn h2
    cases a; cases b; simp_all

/-- The value that is followed. -/
def var (q : ForwardQuery) : Value := q.alloc.delegate

/-- The statement that the value leaves. -/
def origin (q : ForwardQuery) : StmtId := q.edge.start

def text (q : ForwardQuery) : String :=
  "Forward(" ++ q.edge.text ++ ", " ++ q.alloc.delegate.text ++ " @ " ++ q.alloc.stmt.text ++
    " = " ++ q.alloc.value.text ++ ")"

end ForwardQuery

structure BackwardQuery where
  edge : Edge
  value : Value
deriving DecidableEq, Inhabited, Repr

namespace BackwardQuery

instance : Ord BackwardQuery := ⟨compareLex (compareOn edge) (compareOn value)⟩

instance : TransOrd BackwardQuery := inferInstanceAs (TransCmp (compareLex _ _))

instance : LawfulEqOrd BackwardQuery where
  toReflCmp := inferInstanceAs (ReflCmp (compareLex _ _))
  eq_of_compare {a b} h := by
    obtain ⟨h1, h2⟩ := eq_of_compareLex h
    have e1 : a.edge = b.edge := eq_of_compareOn h1
    have e2 : a.value = b.value := eq_of_compareOn h2
    cases a; cases b; simp_all

def text (q : BackwardQuery) : String :=
  "Backward(" ++ q.edge.text ++ ", " ++ q.value.text ++ ")"

end BackwardQuery

inductive Query where
  | forward (query : ForwardQuery)
  | backward (query : BackwardQuery)
deriving DecidableEq, Inhabited, Repr

namespace Query

def forward? : Query → Option ForwardQuery
  | forward q => some q
  | backward _ => none

def backward? : Query → Option BackwardQuery
  | forward _ => none
  | backward q => some q

def direction : Query → Direction
  | forward _ => .forward
  | backward _ => .backward

instance : Ord Query :=
  ⟨compareLex (compareOn direction) (compareLex (compareOn forward?) (compareOn backward?))⟩

instance : TransOrd Query := inferInstanceAs (TransCmp (compareLex _ _))

instance : LawfulEqOrd Query where
  toReflCmp := inferInstanceAs (ReflCmp (compareLex _ _))
  eq_of_compare {a b} h := by
    obtain ⟨_, h⟩ := eq_of_compareLex h
    obtain ⟨h2, h3⟩ := eq_of_compareLex h
    have e2 : a.forward? = b.forward? := eq_of_compareOn h2
    have e3 : a.backward? = b.backward? := eq_of_compareOn h3
    cases a <;> cases b <;> simp_all [forward?, backward?]

def edge : Query → Edge
  | forward q => q.edge
  | backward q => q.edge

/-- The value that the query is about, as it stands on the query's edge. -/
def var : Query → Value
  | forward q => q.var
  | backward q => q.value

/-- The query's edge and value as a cell. -/
def cell (q : Query) : Cell := ⟨q.edge, q.var⟩

def text : Query → String
  | forward q => q.text
  | backward q => q.text

end Query

end GuidedDataflow
