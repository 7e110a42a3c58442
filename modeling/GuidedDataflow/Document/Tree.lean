/-!
Plain data as documents hold it. Mappings keep their entries in the order written and may
repeat a key. Fractional numbers occur but carry no value, since nothing asks for one.
-/

namespace GuidedDataflow

/-- Keys of mappings. A key that is a number may stand for a field by its position. -/
inductive Key where
  | name (text : String)
  | index (position : Nat)
  | other
deriving DecidableEq, Inhabited, Repr

inductive Tree where
  | null
  | bool (value : Bool)
  | int (value : Int)
  | float
  | text (value : String)
  | list (items : List Tree)
  | map (entries : List (Key × Tree))
deriving Inhabited, Repr

namespace Tree

/-- A mapping with names as keys. -/
def record (entries : List (String × Tree)) : Tree :=
  .map (entries.map fun (name, value) => (.name name, value))

def nat (n : Nat) : Tree := .int n

def list? : Tree → Option (List Tree)
  | list items => some items
  | _ => none

def text? : Tree → Option String
  | text value => some value
  | _ => none

def nat? : Tree → Option Nat
  | int value => value.toNat?
  | _ => none

end Tree

end GuidedDataflow
