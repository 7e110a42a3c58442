/-!
Presets by name. Names are read without regard to case. Lower-casing ASCII letters is enough:
no other character becomes a letter of one of the names.
-/

namespace GuidedDataflow

inductive Preset where
  | fast
  | balanced
  | thorough
deriving DecidableEq, Repr

namespace Preset

instance : Inhabited Preset := ⟨balanced⟩

def all : List Preset := [fast, balanced, thorough]

def text : Preset → String
  | fast => "fast"
  | balanced => "balanced"
  | thorough => "thorough"

def ofName? (name : String) : Option Preset :=
  let lower := name.toList.map Char.toLower
  all.find? fun p => p.text.toList = lower

/-- What is said about a name that is no preset's. -/
def unknownMessage (name : String) : String :=
  "Unknown preset '" ++ name ++ "'. Valid presets: " ++ ", ".intercalate (all.map text)

end Preset

end GuidedDataflow
