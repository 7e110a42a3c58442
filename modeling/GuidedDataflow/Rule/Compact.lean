import GuidedDataflow.Rule.Error
import GuidedDataflow.Rule.Group

/-!
Compact rules: a method signature with markers before its types, such as
`<ON{B}java.lang.String: void <init>(GO{F}char[])>`. A marker before the declaring class
selects the receiver, one before the return type the result, one before a parameter that
argument. Reading first finds the outline, that is where the types stand, and then takes the
markers off each type; what is left is the signature that the rule is kept under.
-/

namespace GuidedDataflow

open Text

inductive Role where
  | on
  | go
deriving DecidableEq, Inhabited, Repr

structure Marker where
  role : Role
  direction : Direction
deriving DecidableEq, Inhabited, Repr

namespace Role

/-- The letters a marker of this role begins with. -/
def lead : Role → List Char
  | on => ['O', 'N', '{']
  | go => ['G', 'O', '{']

end Role

namespace Marker

def all : List Marker :=
  [⟨.on, .forward⟩, ⟨.on, .backward⟩, ⟨.go, .forward⟩, ⟨.go, .backward⟩]

def chars (m : Marker) : List Char :=
  m.role.lead ++ [match m.direction with | .forward => 'F' | .backward => 'B', '}']

def ofChars? (cs : List Char) : Option Marker := all.find? (·.chars = cs)

/-- Takes markers off the front of a text as long as it begins with one. -/
def takeAll : List Char → List Marker × List Char
  | a :: b :: c :: d :: e :: rest =>
    match ofChars? [a, b, c, d, e] with
    | some m =>
      let (ms, bare) := takeAll rest
      (m :: ms, bare)
    | none => ([], a :: b :: c :: d :: e :: rest)
  | cs => ([], cs)

/-- A text that begins like a marker but is none, up to its first closing brace. -/
def unknown? (cs : List Char) : Option (List Char) :=
  if Role.on.lead.isPrefixOf cs || Role.go.lead.isPrefixOf cs then
    some (cs.takeWhile (· ≠ '}') ++ ['}'])
  else none

end Marker

/-- A type with the markers written before it. -/
structure MarkedType where
  markers : List Marker
  bare : List Char
deriving DecidableEq, Inhabited, Repr

namespace MarkedType

def write (t : MarkedType) : List Char := t.markers.flatMap Marker.chars ++ t.bare

/-- Fails with the text of the marker that is not known. -/
def read (cs : List Char) : Except (List Char) MarkedType :=
  let (markers, bare) := Marker.takeAll cs
  match Marker.unknown? bare with
  | some marker => .error marker
  | none => .ok ⟨markers, bare⟩

/-- The selectors that the markers of one role make for the operand. -/
def selectors (t : MarkedType) (role : Role) (operand : Operand) : List Selector :=
  (t.markers.filter (·.role = role)).map fun m => ⟨m.direction, operand⟩

end MarkedType

/-- The parts of `<class: ret name(params)>`, where the types may be of any kind. -/
structure RuleShape (τ : Type) where
  owner : τ
  result : τ
  name : List Char
  params : List τ
deriving DecidableEq, Repr

namespace RuleShape

/-- The types by the operand each one stands for. -/
def operands {τ : Type} (r : RuleShape τ) : List (Operand × τ) :=
  (.base, r.owner) :: (.result, r.result) ::
    r.params.zipIdx.map fun (t, i) => (.positional i, t)

/-- Writes the parts with single separators. -/
def write (r : RuleShape (List Char)) : List Char :=
  ['<'] ++ r.owner ++ [':', ' '] ++ r.result ++ [' '] ++ r.name ++ ['('] ++
    joinWith [','] r.params ++ [')', '>']

def map {τ σ : Type} (f : τ → σ) (r : RuleShape τ) : RuleShape σ :=
  ⟨f r.owner, f r.result, r.name, r.params.map f⟩

end RuleShape

/-- A rule whose types still carry their markers as text. -/
abbrev RuleOutline := RuleShape (List Char)

namespace RuleOutline

/-- What stands between the angle brackets. -/
def inner? (cs : List Char) : Option (List Char) :=
  match trim cs with
  | '<' :: rest => if rest.getLast? = some '>' then some rest.dropLast else none
  | _ => none

/-- The parameters between the parentheses; nothing but blanks is no parameter. -/
def parameters (cs : List Char) : List (List Char) :=
  match trim cs with
  | [] => []
  | cs => (splitAll ',' cs).map trim

/-- Finds the parts, each one trimmed. The class ends at the first colon, the return type at
the first space after it, the name at the first parenthesis, and the closing parenthesis
comes last. -/
def read (cs : List Char) : Except RuleFault RuleOutline :=
  match inner? cs with
  | none => .error .brackets
  | some inner =>
    match splitOnce? ':' inner with
    | none => .error .colon
    | some (owner, rest) =>
      match splitOnce? ' ' (trimLeft rest) with
      | none => .error .space
      | some (result, rest) =>
        match splitOnce? '(' rest with
        | none => .error .openParen
        | some (name, rest) =>
          if rest.getLast? ≠ some ')' then .error .closeParen
          else if (trim name).isEmpty then .error .name
          else .ok ⟨trim owner, trim result, trim name, parameters rest.dropLast⟩

end RuleOutline

/-- A rule with its markers read. -/
abbrev CompactRule := RuleShape MarkedType

namespace CompactRule

/-- Reads the markers of the class, the return type and the parameters in this order. -/
def ofOutline (o : RuleOutline) : Except (List Char) CompactRule := do
  let owner ← MarkedType.read o.owner
  let result ← MarkedType.read o.result
  let params ← o.params.mapM MarkedType.read
  return ⟨owner, result, o.name, params⟩

/-- The plain signature, without markers. -/
def signature (r : CompactRule) : Signature :=
  ⟨String.ofList (RuleShape.write (r.map MarkedType.bare))⟩

def selectors (r : CompactRule) (role : Role) : List Selector :=
  r.operands.flatMap fun (operand, t) => t.selectors role operand

def group (r : CompactRule) : RuleGroup :=
  ⟨r.signature, .ofList (r.selectors .on), .ofList (r.selectors .go)⟩

/-- Writes the rule with its markers. -/
def write (r : CompactRule) : List Char := RuleShape.write (r.map MarkedType.write)

end CompactRule

/-- Reads a compact rule as a rule group. The class and the return type must not be empty
once their markers are off, and there must be an `ON` marker. -/
def RuleGroup.ofCompact (rule : String) : Except RuleError RuleGroup :=
  match RuleOutline.read rule.toList with
  | .error fault => .error (.malformed rule fault)
  | .ok outline =>
    match CompactRule.ofOutline outline with
    | .error marker => .error (.unknownMarker rule (String.ofList marker))
    | .ok compact =>
      if compact.owner.bare.isEmpty || compact.result.bare.isEmpty then
        .error (.malformed rule .type)
      else if compact.group.on.isEmpty then .error (.noTrigger rule)
      else .ok compact.group

end GuidedDataflow
