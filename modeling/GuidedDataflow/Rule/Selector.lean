import GuidedDataflow.Query.Basic

/-!
Selectors name an operand of a call together with a direction. Operands are the receiver,
the assigned result and the arguments by position, in this order.
-/

namespace GuidedDataflow

open Std

inductive Operand where
  | base
  | result
  | positional (index : Nat)
deriving DecidableEq, Inhabited, Repr

namespace Operand

def rank : Operand → Nat
  | base => 0
  | result => 1
  | positional _ => 2

def index : Operand → Nat
  | positional i => i
  | _ => 0

instance : Ord Operand := ⟨compareLex (compareOn rank) (compareOn index)⟩

instance : TransOrd Operand := inferInstanceAs (TransCmp (compareLex _ _))

instance : LawfulEqOrd Operand where
  toReflCmp := inferInstanceAs (ReflCmp (compareLex _ _))
  eq_of_compare {a b} h := by
    obtain ⟨h1, h2⟩ := eq_of_compareLex h
    have e1 : a.rank = b.rank := eq_of_compareOn h1
    have e2 : a.index = b.index := eq_of_compareOn h2
    cases a <;> cases b <;> simp_all [rank, index]

def text : Operand → String
  | base => "base"
  | result => "return"
  | positional i => "arg" ++ toString i

end Operand

structure Selector where
  direction : Direction
  operand : Operand
deriving DecidableEq, Inhabited, Repr

namespace Selector

instance : Ord Selector := ⟨compareLex (compareOn direction) (compareOn operand)⟩

instance : TransOrd Selector := inferInstanceAs (TransCmp (compareLex _ _))

instance : LawfulEqOrd Selector where
  toReflCmp := inferInstanceAs (ReflCmp (compareLex _ _))
  eq_of_compare {a b} h := by
    obtain ⟨h1, h2⟩ := eq_of_compareLex h
    have e1 : a.direction = b.direction := eq_of_compareOn h1
    have e2 : a.operand = b.operand := eq_of_compareOn h2
    cases a; cases b; simp_all

def text (s : Selector) : String := s.direction.text ++ ":" ++ s.operand.text

end Selector

end GuidedDataflow
