import GuidedDataflow.OrderedSet
import GuidedDataflow.Text.Blank
import GuidedDataflow.Text.Split

/-!
Method signatures such as `<java.lang.String: void <init>(char[])>`. A signature is its
text; the declaring class and the method name are read off that text on demand, and a
text of another shape simply has none.
-/

namespace GuidedDataflow

open Std Text

structure Signature where
  text : String
deriving DecidableEq, Inhabited, Repr

namespace Signature

instance : Ord Signature := ⟨compareOn text⟩

instance : TransOrd Signature := inferInstanceAs (TransCmp (compareOn text))

instance : LawfulEqOrd Signature where
  toReflCmp := inferInstanceAs (ReflCmp (compareOn text))
  eq_of_compare {a b} h := by
    have : a.text = b.text := eq_of_compareOn h
    cases a; cases b; simp_all

/-- The trimmed text between a leading `<` and the first colon after it. -/
def declaringClass? (s : Signature) : Option String :=
  match s.text.toList with
  | '<' :: inner => (splitOnce? ':' inner).map fun (before, _) => String.ofList (trim before)
  | _ => none

/-- The last space-separated word between the first colon and the first parenthesis. The
colon has to come first, and the word must not be empty. -/
def methodName? (s : Signature) : Option String := do
  let (front, _) ← splitOnce? '(' s.text.toList
  let (_, head) ← splitOnce? ':' front
  let name := lastPiece ' ' (trim head)
  if name.isEmpty then none else some (String.ofList name)

end Signature

end GuidedDataflow
