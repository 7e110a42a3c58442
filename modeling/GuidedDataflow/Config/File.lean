import GuidedDataflow.Config.Decode
import GuidedDataflow.Document.Yaml.Writer

/-!
Configuration files: a version, a preset by name, and a patch of it. A file is read in this
order, and what it amounts to is validated. A configuration is written as a full patch of the
balanced preset.
-/

namespace GuidedDataflow

open Document

structure ConfigFile where
  version : Option Nat
  preset : String
  analysis : Option ConfigPatch
deriving DecidableEq, Inhabited, Repr

namespace ConfigFile

def fields : List Field := [⟨"version", false⟩, ⟨"preset", false⟩, ⟨"analysis", false⟩]

def read? {α : Type} [Document α] (a : α) : Option ConfigFile := do
  let r ← record? fields true a
  return {
    version := ← r.nullable? "version" isNull nat32?
    preset := ← r.required? "preset" text?
    analysis := ← r.nullable? "analysis" isNull ConfigPatch.read? }

def tree (f : ConfigFile) : Tree :=
  .record <|
    [("version", (f.version.map Tree.nat).getD .null), ("preset", .text f.preset)] ++
      (f.analysis.map fun p => ("analysis", p.tree)).toList

/-- The configuration that a file stands for. -/
def config (f : ConfigFile) : Except ConfigError Config := do
  let version ←
    match f.version with
    | none => throw .missingVersion
    | some version => pure version
  if version ∉ supportedConfigVersions then throw (.unsupportedVersion version)
  let preset ←
    match Preset.ofName? f.preset with
    | none => throw (.unknownPreset f.preset)
    | some preset => pure preset
  let config := (Config.ofPreset preset).patch (f.analysis.getD .empty)
  config.validate
  return config

def ofConfig (c : Config) : ConfigFile where
  version := some 1
  preset := (default : Preset).text
  analysis := some (.ofConfig c)

end ConfigFile

namespace Config

def ofYaml (text : String) : Except ConfigError Config :=
  match (Yaml.Node.read? text).bind ConfigFile.read? with
  | none => .error .invalidYaml
  | some file => file.config

def toYaml (c : Config) : String := Yaml.write (ConfigFile.ofConfig c).tree

/-- Reads a file, which has no content where it does not exist. -/
def ofFile (content : Option ByteArray) : Except ConfigError Config :=
  match content.bind String.fromUTF8? with
  | none => .error .unreadable
  | some text => ofYaml text

end Config

end GuidedDataflow
