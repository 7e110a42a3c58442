import GuidedDataflow.Document.Basic
import GuidedDataflow.Document.Json.Reader
import GuidedDataflow.Rule.File

/-!
Reading rule files from YAML and JSON text. An entry is a compact rule as text, or a record of
its signature and selectors. Selectors may carry fields that nobody asks for; entries and the
file itself may not.
-/

namespace GuidedDataflow

open Document

def Direction.ofTree? (t : Tree) : Option Direction :=
  (name? ["forward", "backward"] t).bind fun name =>
    [Direction.forward, .backward].find? (·.text = name)

/-- The arguments of calls are named by a record of their position. -/
def Operand.ofTree? : Tree → Option Operand
  | .map [(.name "positional", t)] => t.nat?.map .positional
  | .map [(.index 2, t)] => t.nat?.map .positional
  | t =>
    match name? ["base", "return"] t with
    | some "base" => some .base
    | some "return" => some .result
    | _ => none

def Selector.ofTree? (t : Tree) : Option Selector := do
  let r ← record? [⟨"direction", false⟩, ⟨"parameter", false⟩] false t
  return ⟨← r.required? "direction" Direction.ofTree?, ← r.required? "parameter" Operand.ofTree?⟩

def Selector.listOfTree? (t : Tree) : Option (List Selector) :=
  (items? t).bind (·.mapM Selector.ofTree?)

def RuleEntry.ofTree? : Tree → Option RuleEntry
  | .text rule => some (.compact rule)
  | t => do
    let r ← record? [⟨"signature", false⟩, ⟨"on", false⟩, ⟨"go", true⟩] true t
    return .structured ⟨← r.required? "signature" Tree.text?⟩
      (← r.required? "on" Selector.listOfTree?) (← r.withDefault? "go" [] Selector.listOfTree?)

namespace RuleFile

/-- A file from a document, with `entry` telling how an entry becomes plain data. -/
def ofDocument? {α : Type} [Document α] (entry : α → Option Tree) (a : α) : Option RuleFile := do
  let r ← record? [⟨"version", false⟩, ⟨"rules", true⟩] true a
  let entries (a : α) : Option (List RuleEntry) :=
    (items? a).bind (·.mapM fun item => (entry item).bind RuleEntry.ofTree?)
  return ⟨← r.required? "version" nat32?, ← r.withDefault? "rules" [] entries⟩

def ofYaml? (text : String) : Option RuleFile :=
  (Yaml.Node.read? text).bind (ofDocument? Yaml.Node.tree?)

def ofJson? (text : String) : Option RuleFile := (Json.read? text).bind (ofDocument? some)

end RuleFile

namespace Specification

def ofYaml (text : String) : Except LoadError Specification :=
  match RuleFile.ofYaml? text with
  | some file => file.strict
  | none => .error .invalidYaml

def ofJson (text : String) : Except LoadError Specification :=
  match RuleFile.ofJson? text with
  | some file => file.strict
  | none => .error .invalidJson

/-- The part of a file's name behind its last dot, unless that dot comes first. -/
def extension? (name : String) : Option String :=
  let base := Text.lastPiece '/' name.toList
  match base.reverse.span (· ≠ '.') with
  | (after, '.' :: before) =>
    if before.isEmpty then none else some (String.ofList after.reverse)
  | _ => none

/-- Loads a file: JSON where the extension says so in any case, YAML otherwise. A file that
does not exist has no content. -/
def ofFile (name : String) (content : Option ByteArray) : Except LoadError Specification :=
  match content.bind String.fromUTF8? with
  | none => .error .unreadable
  | some text =>
    if (extension? name).any fun e => e.toList.map Char.toLower = "json".toList then ofJson text
    else ofYaml text

end Specification

end GuidedDataflow
