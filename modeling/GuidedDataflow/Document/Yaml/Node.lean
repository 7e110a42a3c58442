import GuidedDataflow.Document.Tree
import GuidedDataflow.Document.Yaml.Token

/-!
Nodes of a YAML document: scalars, sequences and mappings, as the tokens of the text build
them. A missing value is an empty plain scalar. The text must hold exactly one document, and
collections nest at most 128 deep.
-/

namespace GuidedDataflow.Yaml

inductive Node where
  /-- Only plain scalars can be anything but text. -/
  | scalar (plain : Bool) (text : String)
  | sequence (items : List Node)
  | mapping (entries : List (Node × Node))
deriving Inhabited, Repr

namespace Node

def blank : Node := .scalar true ""

mutual

/-- How deep collections nest. -/
def depth : Node → Nat
  | .scalar .. => 0
  | .sequence items => depthItems items + 1
  | .mapping entries => depthEntries entries + 1

def depthItems : List Node → Nat
  | [] => 0
  | n :: ns => max (depth n) (depthItems ns)

def depthEntries : List (Node × Node) → Nat
  | [] => 0
  | (k, v) :: es => max (max (depth k) (depth v)) (depthEntries es)

end

/-- The tokens before which a value may be missing in a block mapping. -/
def endsBlockValue : List Token → Bool
  | .key :: _ | .value :: _ | .blockEnd :: _ => true
  | _ => false

/-- The tokens before which a value may be missing inside brackets or braces. -/
def endsFlowValue (close : Token) : List Token → Bool
  | .flowEntry :: _ => true
  | t :: _ => t = close
  | [] => false

mutual

/-- A node that begins here. Inside a block mapping a sequence may stand without indentation
of its own. -/
def parse? : Nat → (block indentless : Bool) → List Token → Option (Node × List Token)
  | 0, _, _, _ => none
  | fuel + 1, block, indentless, ts =>
    match ts with
    | .scalar plain text :: ts => some (.scalar plain text, ts)
    | .flowSequenceStart :: ts =>
      (flowItems? fuel true ts).map fun (items, ts) => (.sequence items, ts)
    | .flowMappingStart :: ts =>
      (flowEntries? fuel true ts).map fun (entries, ts) => (.mapping entries, ts)
    | .blockSequenceStart :: ts =>
      if block then (blockItems? fuel ts).map fun (items, ts) => (.sequence items, ts) else none
    | .blockMappingStart :: ts =>
      if block then (blockEntries? fuel ts).map fun (entries, ts) => (.mapping entries, ts)
      else none
    | .blockEntry :: _ =>
      if indentless then
        (indentlessItems? fuel ts).map fun (items, ts) => (.sequence items, ts)
      else none
    | _ => none

/-- The entries of a block sequence, to its end. -/
def blockItems? : Nat → List Token → Option (List Node × List Token)
  | 0, _ => none
  | fuel + 1, ts =>
    match ts with
    | .blockEnd :: ts => some ([], ts)
    | .blockEntry :: ts =>
      let item :=
        match ts with
        | .blockEntry :: _ | .blockEnd :: _ => some (blank, ts)
        | _ => parse? fuel true false ts
      match item with
      | none => none
      | some (n, ts) => (blockItems? fuel ts).map fun (ns, ts) => (n :: ns, ts)
    | _ => none

/-- The entries of a sequence without indentation of its own, as far as they go. -/
def indentlessItems? : Nat → List Token → Option (List Node × List Token)
  | 0, _ => none
  | fuel + 1, ts =>
    match ts with
    | .blockEntry :: ts =>
      let item :=
        match ts with
        | .blockEntry :: _ => some (blank, ts)
        | _ => if endsBlockValue ts then some (blank, ts) else parse? fuel true false ts
      match item with
      | none => none
      | some (n, ts) => (indentlessItems? fuel ts).map fun (ns, ts) => (n :: ns, ts)
    | ts => some ([], ts)

/-- A value behind its indicator, or nothing. -/
def blockValue? : Nat → List Token → Option (Node × List Token)
  | 0, _ => none
  | fuel + 1, ts => if endsBlockValue ts then some (blank, ts) else parse? fuel true true ts

/-- The entries of a block mapping, to its end. -/
def blockEntries? : Nat → List Token → Option (List (Node × Node) × List Token)
  | 0, _ => none
  | fuel + 1, ts =>
    match ts with
    | .blockEnd :: ts => some ([], ts)
    | .key :: ts =>
      match blockValue? fuel ts with
      | none => none
      | some (k, ts) =>
        let found :=
          match ts with
          | .value :: ts => blockValue? fuel ts
          | ts => some (blank, ts)
        match found with
        | none => none
        | some (v, ts) => (blockEntries? fuel ts).map fun (es, ts) => ((k, v) :: es, ts)
    | _ => none

/-- A node inside brackets or braces, unless what ends it comes first. -/
def flowValue? : Nat → Token → List Token → Option (Node × List Token)
  | 0, _, _ => none
  | fuel + 1, close, ts =>
    if endsFlowValue close ts then some (blank, ts) else parse? fuel false false ts

/-- A key inside brackets or braces, unless its colon or what ends the entry comes first. -/
def flowKey? : Nat → Token → List Token → Option (Node × List Token)
  | 0, _, _ => none
  | fuel + 1, close, ts =>
    match ts with
    | .value :: _ => some (blank, ts)
    | _ => flowValue? fuel close ts

/-- The entries of a sequence in brackets, to the closing bracket. An entry that is a key with
a value is a mapping of its own. -/
def flowItems? : Nat → (first : Bool) → List Token → Option (List Node × List Token)
  | 0, _, _ => none
  | fuel + 1, first, ts =>
    match ts with
    | .flowSequenceEnd :: ts => some ([], ts)
    | _ =>
      let entry :=
        match first, ts with
        | true, ts => some ts
        | false, .flowEntry :: ts => some ts
        | false, _ => none
      match entry with
      | none => none
      | some (.flowSequenceEnd :: ts) => some ([], ts)
      | some (.key :: ts) =>
        match flowKey? fuel .flowSequenceEnd ts with
        | none => none
        | some (k, ts) =>
          let found :=
            match ts with
            | .value :: ts => flowValue? fuel .flowSequenceEnd ts
            | ts => some (blank, ts)
          match found with
          | none => none
          | some (v, ts) =>
            (flowItems? fuel false ts).map fun (ns, ts) => (.mapping [(k, v)] :: ns, ts)
      | some ts =>
        match parse? fuel false false ts with
        | none => none
        | some (n, ts) => (flowItems? fuel false ts).map fun (ns, ts) => (n :: ns, ts)

/-- The entries of a mapping in braces, to the closing brace. -/
def flowEntries? : Nat → (first : Bool) → List Token → Option (List (Node × Node) × List Token)
  | 0, _, _ => none
  | fuel + 1, first, ts =>
    match ts with
    | .flowMappingEnd :: ts => some ([], ts)
    | _ =>
      let entry :=
        match first, ts with
        | true, ts => some ts
        | false, .flowEntry :: ts => some ts
        | false, _ => none
      match entry with
      | none => none
      | some (.flowMappingEnd :: ts) => some ([], ts)
      | some (.key :: ts) =>
        match flowKey? fuel .flowMappingEnd ts with
        | none => none
        | some (k, ts) =>
          let found :=
            match ts with
            | .value :: ts => flowValue? fuel .flowMappingEnd ts
            | ts => some (blank, ts)
          match found with
          | none => none
          | some (v, ts) => (flowEntries? fuel false ts).map fun (es, ts) => ((k, v) :: es, ts)
      | some ts =>
        match parse? fuel false false ts with
        | none => none
        | some (k, ts) =>
          (flowEntries? fuel false ts).map fun (es, ts) => ((k, blank) :: es, ts)

end

/-- The node of a document whose tokens these are. -/
def document? (ts : List Token) : Option (Node × List Token) :=
  parse? (4 * ts.length + 4) true false ts

/-- The single document of a token sequence, with or without markers around it. -/
def ofTokens? (ts : List Token) : Option Node :=
  let found :=
    match ts with
    | [] => none
    | .documentStart :: ts =>
      match ts with
      | [] | .documentStart :: _ | .documentEnd :: _ => some (blank, ts)
      | _ => document? ts
    | ts => document? ts
  match found with
  | none => none
  | some (n, rest) => if rest.all (· = .documentEnd) then some n else none

def maxDepth : Nat := 128

def read? (text : String) : Option Node := do
  let n ← ofTokens? (← tokens? text)
  if n.depth ≤ maxDepth then some n else none

end Node

end GuidedDataflow.Yaml
