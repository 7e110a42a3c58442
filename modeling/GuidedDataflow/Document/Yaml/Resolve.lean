import GuidedDataflow.Document.Yaml.Node

/-!
What plain scalars stand for: null, booleans, whole numbers in four notations, fractional
numbers, and text where nothing else fits. Digits after a leading zero are text.
-/

namespace GuidedDataflow.Yaml

/-- Nothing at all is null too. -/
def isNullText (cs : List Char) : Bool :=
  cs.isEmpty || ["~", "null", "Null", "NULL"].any (·.toList = cs)

def boolOf? (cs : List Char) : Option Bool :=
  if ["true", "True", "TRUE"].any (·.toList = cs) then some true
  else if ["false", "False", "FALSE"].any (·.toList = cs) then some false
  else none

/-- The value of a digit of any base up to sixteen. -/
def digitOf? (base : Nat) (c : Char) : Option Nat := (Json.hexValue? c).filter (· < base)

/-- The value of one or more digits of a base. -/
def magnitude? (base : Nat) (digits : List Char) : Option Nat :=
  if digits.isEmpty then none
  else do
    let values ← digits.mapM (digitOf? base)
    return values.foldl (fun n d => base * n + d) 0

/-- Digits that begin with a zero and go on. A sign may stand before them. -/
def hasLeadingZero (cs : List Char) : Bool :=
  let unsigned :=
    match cs with
    | '+' :: rest | '-' :: rest => rest
    | cs => cs
  match unsigned with
  | '0' :: c :: rest => (c :: rest).all Char.isDigit
  | _ => false

/-- The size of a whole number up to `limit`, written without a sign. -/
def unsigned? (limit : Nat) (cs : List Char) : Option Nat :=
  let found :=
    match cs with
    | '0' :: 'x' :: digits => magnitude? 16 digits
    | '0' :: 'o' :: digits => magnitude? 8 digits
    | '0' :: 'b' :: digits => magnitude? 2 digits
    | cs => if hasLeadingZero cs then none else magnitude? 10 cs
  found.filter (· ≤ limit)

/-- A whole number that is not negative; a plus sign may stand before it. -/
def natOf? (limit : Nat) (cs : List Char) : Option Nat :=
  match cs with
  | '+' :: rest => unsigned? limit rest
  | cs => unsigned? limit cs

/-- A whole number with a minus sign. -/
def negativeOf? (limit : Nat) (cs : List Char) : Option Int :=
  match cs with
  | '-' :: rest => (unsigned? limit rest).map fun n => -n
  | _ => none

/-- Fractional numbers, infinities and not-a-number. A number that is too large is none. -/
def isFloat (cs : List Char) : Bool :=
  let (sign, unsigned) :=
    match cs with
    | '+' :: rest => (some '+', rest)
    | '-' :: rest => (some '-', rest)
    | cs => (none, cs)
  if [".inf", ".Inf", ".INF"].any (·.toList = unsigned) then true
  else if [".nan", ".NaN", ".NAN"].any (·.toList = unsigned) then sign.isNone
  else
    match Decimal.scan? true unsigned with
    | some (d, _, rest) => rest.isEmpty && d.isFinite
    | none => false

/-- What a plain scalar stands for. A whole number beyond 64 bits, up to 128, stands for
nothing that can be held. -/
def resolve? (text : String) : Option Tree :=
  let cs := text.toList
  if isNullText cs then some .null
  else
    match boolOf? cs with
    | some b => some (.bool b)
    | none =>
      match natOf? maxUnsigned cs with
      | some n => some (.nat n)
      | none =>
        match negativeOf? maxNegative cs with
        | some n => some (.int n)
        | none =>
          if (natOf? maxWideUnsigned cs).isSome || (negativeOf? maxWideNegative cs).isSome then none
          else if !hasLeadingZero cs && isFloat cs then some .float
          else some (.text text)

/-- The key that a node is, where it is the key of a mapping. -/
def keyOf : Tree → Key
  | .text s => .name s
  | .int n => match n.toNat? with
    | some i => .index i
    | none => .other
  | _ => .other

namespace Node

mutual

/-- The node as plain data. -/
def tree? : Node → Option Tree
  | .scalar true text => resolve? text
  | .scalar false text => some (.text text)
  | .sequence items => (treeItems? items).map .list
  | .mapping entries => (treeEntries? entries).map .map

def treeItems? : List Node → Option (List Tree)
  | [] => some []
  | n :: ns => do
    let t ← tree? n
    let ts ← treeItems? ns
    return t :: ts

def treeEntries? : List (Node × Node) → Option (List (Key × Tree))
  | [] => some []
  | (k, v) :: es => do
    let key ← tree? k
    let value ← tree? v
    let rest ← treeEntries? es
    return (keyOf key, value) :: rest

end

end Node

end GuidedDataflow.Yaml
