import GuidedDataflow.Program.Signature

/-!
Values that data-flow facts speak about: locals, each owned by a method, and the constants
and object creations that a local can be assigned from. Values are ordered by kind, then
by what they hold.
-/

namespace GuidedDataflow

open Std

inductive Value where
  | localVar (name : String) (method : Signature)
  | int (value : Int)
  | string (value : String)
  | new (type : String)
  | null
deriving DecidableEq, Inhabited, Repr

namespace Value

def isLocal : Value → Bool
  | localVar .. => true
  | _ => false

def isInt : Value → Bool
  | int _ => true
  | _ => false

def isString : Value → Bool
  | string _ => true
  | _ => false

/-- Integer and string constants. -/
def isLiteral (v : Value) : Bool := v.isInt || v.isString

/-- Whatever is not a local is created where it is assigned. -/
def isAllocation (v : Value) : Bool := !v.isLocal

/-- The method a local belongs to. -/
def method? : Value → Option Signature
  | localVar _ method => some method
  | _ => none

def text : Value → String
  | localVar name _ => name
  | int value => toString value
  | string value => "\"" ++ value ++ "\""
  | new type => "new " ++ type
  | null => "null"

/-- The place of a value's kind in the order. -/
def rank : Value → Nat
  | localVar .. => 0
  | int _ => 1
  | string _ => 2
  | new _ => 3
  | null => 4

def number : Value → Int
  | int value => value
  | _ => 0

/-- The text that a value of its kind holds: a local's name, a string, a type. -/
def word : Value → String
  | localVar name _ => name
  | string value => value
  | new type => type
  | _ => ""

def owner : Value → Signature
  | localVar _ method => method
  | _ => ⟨""⟩

/-- Kind first; two values of one kind differ in what they hold. -/
def order : Value → Value → Ordering :=
  compareLex (compareOn rank) (compareLex (compareOn number)
    (compareLex (compareOn word) (compareOn owner)))

instance : Ord Value := ⟨order⟩

instance : TransOrd Value := inferInstanceAs (TransCmp (compareLex _ _))

instance : LawfulEqOrd Value where
  toReflCmp := inferInstanceAs (ReflCmp (compareLex _ _))
  eq_of_compare {a b} h := by
    obtain ⟨h1, h⟩ := eq_of_compareLex h
    obtain ⟨h2, h⟩ := eq_of_compareLex h
    obtain ⟨h3, h4⟩ := eq_of_compareLex h
    have e1 : a.rank = b.rank := eq_of_compareOn h1
    have e2 : a.number = b.number := eq_of_compareOn h2
    have e3 : a.word = b.word := eq_of_compareOn h3
    have e4 : a.owner = b.owner := eq_of_compareOn h4
    cases a <;> cases b <;> simp_all [rank, number, word, owner]

end Value

end GuidedDataflow
