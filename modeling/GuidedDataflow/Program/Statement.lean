import GuidedDataflow.Program.Value

/-!
Statements of the analysed program in three-address form. A statement knows its number
and the method it stands in; what it does is its action.
-/

namespace GuidedDataflow

open Std

/-- Statements are numbered from zero over the whole program. -/
structure StmtId where
  index : Nat
deriving DecidableEq, Inhabited, Repr

namespace StmtId

instance : Ord StmtId := ⟨compareOn index⟩

instance : TransOrd StmtId := inferInstanceAs (TransCmp (compareOn index))

instance : LawfulEqOrd StmtId where
  toReflCmp := inferInstanceAs (ReflCmp (compareOn index))
  eq_of_compare {a b} h := by
    have : a.index = b.index := eq_of_compareOn h
    cases a; cases b; simp_all

def text (s : StmtId) : String := "s" ++ toString s.index

end StmtId

/-- An edge of the control-flow graph, from a statement to one that may run next. -/
structure Edge where
  start : StmtId
  target : StmtId
deriving DecidableEq, Inhabited, Repr

namespace Edge

instance : Ord Edge := ⟨compareLex (compareOn start) (compareOn target)⟩

instance : TransOrd Edge := inferInstanceAs (TransCmp (compareLex _ _))

instance : LawfulEqOrd Edge where
  toReflCmp := inferInstanceAs (ReflCmp (compareLex _ _))
  eq_of_compare {a b} h := by
    obtain ⟨h1, h2⟩ := eq_of_compareLex h
    have e1 : a.start = b.start := eq_of_compareOn h1
    have e2 : a.target = b.target := eq_of_compareOn h2
    cases a; cases b; simp_all

def text (e : Edge) : String := e.start.text ++ " -> " ++ e.target.text

end Edge

/-- What a method's identity statement binds a local to. -/
inductive Formal where
  | this
  | parameter (index : Nat)
deriving DecidableEq, Inhabited, Repr

/-- A call; static calls have no receiver. -/
structure Call where
  target : Signature
  receiver : Option Value
  args : List Value
deriving DecidableEq, Inhabited, Repr

namespace Call

def isStatic (c : Call) : Bool := c.receiver.isNone

def arity (c : Call) : Nat := c.args.length

def arg? (c : Call) (i : Nat) : Option Value := c.args[i]?

/-- The value that the call passes for a formal. -/
def actual? (c : Call) : Formal → Option Value
  | .this => c.receiver
  | .parameter i => c.arg? i

def text (c : Call) : String :=
  let receiver := match c.receiver with
    | some v => v.text ++ "."
    | none => ""
  receiver ++ c.target.text ++ "(" ++ ", ".intercalate (c.args.map Value.text) ++ ")"

end Call

inductive Action where
  | identity (target : Value) (formal : Formal)
  | assign (target source : Value)
  | invoke (result : Option Value) (call : Call)
  | ret (value : Option Value)
  | nop
deriving DecidableEq, Inhabited, Repr

structure Statement where
  id : StmtId
  method : Signature
  action : Action
deriving DecidableEq, Inhabited, Repr

namespace Statement

/-- The assigned operand: of an assignment its left side, of a call its result. -/
def left? (s : Statement) : Option Value :=
  match s.action with
  | .assign target _ => some target
  | .invoke result _ => result
  | _ => none

def right? (s : Statement) : Option Value :=
  match s.action with
  | .assign _ source => some source
  | _ => none

/-- Assignments, and calls whose result is kept. -/
def isAssign (s : Statement) : Bool := s.left?.isSome

def call? (s : Statement) : Option Call :=
  match s.action with
  | .invoke _ call => some call
  | _ => none

def isCall (s : Statement) : Bool := s.call?.isSome

def isReturn (s : Statement) : Bool :=
  match s.action with
  | .ret _ => true
  | _ => false

def returned? (s : Statement) : Option Value :=
  match s.action with
  | .ret value => value
  | _ => none

/-- Assigns an integer or string constant. -/
def isLiteralAllocation (s : Statement) : Bool := s.right?.any Value.isLiteral

def text (s : Statement) : String :=
  match s.action with
  | .identity target .this => target.text ++ " := @this"
  | .identity target (.parameter i) => target.text ++ " := @parameter" ++ toString i
  | .assign target source => target.text ++ " = " ++ source.text
  | .invoke (some result) call => result.text ++ " = " ++ call.text
  | .invoke none call => call.text
  | .ret (some value) => "return " ++ value.text
  | .ret none => "return"
  | .nop => "nop"

end Statement

end GuidedDataflow
