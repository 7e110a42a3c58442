import GuidedDataflow.Document.Yaml.Resolve

/-!
Reading typed values from documents, in one way for plain data and for YAML nodes. Plain data
says of each value what it is. A YAML node is read by what is expected of it: a name is the
raw text of any scalar, a number a plain scalar, and an empty plain scalar may also be an
empty list or record.

A record is a mapping from field names. In plain data it may also be the list of its fields
in order, and a key that is a number stands for the field at that position. No field may occur
twice.
-/

namespace GuidedDataflow

structure Field where
  name : String
  /-- The field may be left out at the end of a list of fields. -/
  optional : Bool
deriving DecidableEq, Inhabited, Repr

/-- The fields of a record that are there. -/
abbrev Record (α : Type) := List (String × α)

namespace Record

variable {α : Type}

def get? (r : Record α) (name : String) : Option α := r.lookup name

/-- A field that must be there. -/
def required? {β : Type} (r : Record α) (name : String) (read : α → Option β) : Option β :=
  (r.get? name).bind read

/-- A field with a value to take where it is missing. -/
def withDefault? {β : Type} (r : Record α) (name : String) (value : β) (read : α → Option β) :
    Option β :=
  match r.get? name with
  | none => some value
  | some found => read found

/-- A field that may be missing or null. -/
def nullable? {β : Type} (r : Record α) (name : String) (isNull : α → Bool)
    (read : α → Option β) : Option (Option β) :=
  match r.get? name with
  | none => some none
  | some found => if isNull found then some none else (read found).map some

/-- Adds an entry, which must not repeat a field. One that is no field is refused if `strict`
and left out otherwise. -/
def add? (fields : List Field) (strict : Bool) (name : String) (value : α) (r : Record α) :
    Option (Record α) :=
  if !fields.any (·.name = name) then if strict then none else some r
  else if (r.get? name).isSome then none
  else some (r ++ [(name, value)])

/-- Pairs a list of values with the fields in order. Only optional fields may be missing. -/
def ofList? : List Field → List α → Option (Record α)
  | [], [] => some []
  | [], _ :: _ => none
  | f :: fs, [] => if f.optional then ofList? fs [] else none
  | f :: fs, v :: vs => (ofList? fs vs).map ((f.name, v) :: ·)

end Record

/-- Documents that typed values can be read from. -/
class Document (α : Type) where
  isNull : α → Bool
  /-- A whole number of at most 64 bits that is not negative. -/
  nat? : α → Option Nat
  text? : α → Option String
  items? : α → Option (List α)
  record? : List Field → (strict : Bool) → α → Option (Record α)
  /-- One of the names, for a choice that holds nothing more. -/
  name? : List String → α → Option String
  /-- The text of the named entry, and the rest of the mapping or list as plain data. -/
  tagged? : String → α → Option (String × Tree)

namespace Tree

/-- The field name that a key stands for. A position behind the last field is no field. -/
def fieldName? (fields : List Field) : Key → Option String
  | .name s => some s
  | .index i => some ((fields[i]?.map Field.name).getD "")
  | .other => none

def record? (fields : List Field) (strict : Bool) : Tree → Option (Record Tree)
  | .list items => Record.ofList? fields items
  | .map entries =>
    entries.foldlM (fun r (key, value) => do
      let name ← fieldName? fields key
      Record.add? fields strict name value r) []
  | _ => none

/-- A name by itself, or a mapping with the name as its one key and null as its value. -/
def name? (names : List String) (t : Tree) : Option String :=
  let found :=
    match t with
    | .text s => some s
    | .map [(.name s, .null)] => some s
    | .map [(.index i, .null)] => names[i]?
    | _ => none
  found.filter names.contains

/-- Takes the tag out of the entries. It must be there once. -/
def splitTag? (tag : String) (entries : List (Key × Tree)) :
    Option (Tree × List (Key × Tree)) :=
  match entries.partition (·.1 = .name tag) with
  | ([(_, value)], rest) => some (value, rest)
  | _ => none

def tagged? (tag : String) : Tree → Option (String × Tree)
  | .list (.text name :: rest) => some (name, .list rest)
  | .map entries => do
    let (value, rest) ← splitTag? tag entries
    return (← value.text?, .map rest)
  | _ => none

instance : Document Tree where
  isNull
    | .null => true
    | _ => false
  nat? := nat?
  text? := text?
  items? := list?
  record? := record?
  name? := name?
  tagged? := tagged?

end Tree

namespace Yaml.Node

def isBlank : Node → Bool
  | .scalar true "" => true
  | _ => false

def text? : Node → Option String
  | .scalar _ text => some text
  | _ => none

def items? (n : Node) : Option (List Node) :=
  match n with
  | .sequence items => some items
  | n => if n.isBlank then some [] else none

def record? (fields : List Field) (strict : Bool) (n : Node) : Option (Record Node) :=
  match n with
  | .mapping entries =>
    entries.foldlM (fun r (key, value) => do
      Record.add? fields strict (← key.text?) value r) []
  | n => if n.isBlank then some [] else none

def tagged? (tag : String) : Node → Option (String × Tree)
  | .sequence (first :: rest) => do return (← first.text?, .list (← rest.mapM tree?))
  | .mapping entries => do
    let keyed ← entries.mapM fun (key, value) => (key.tree?.map keyOf).map (·, value)
    match keyed.partition (·.1 = .name tag) with
    | ([(_, value)], rest) =>
      let rest ← rest.mapM fun (key, value) => value.tree?.map (key, ·)
      return (← value.text?, .map rest)
    | _ => none
  | _ => none

instance : Document Node where
  isNull
    | .scalar true text => isNullText text.toList
    | _ => false
  nat?
    | .scalar true text => natOf? maxUnsigned text.toList
    | _ => none
  text? := text?
  items? := items?
  record? := record?
  name? names n := n.text?.filter names.contains
  tagged? := tagged?

end Yaml.Node

/-- A number of at most 32 bits. -/
def Document.nat32? {α : Type} [Document α] (a : α) : Option Nat :=
  (Document.nat? a).filter (· ≤ maxShortUnsigned)

end GuidedDataflow
