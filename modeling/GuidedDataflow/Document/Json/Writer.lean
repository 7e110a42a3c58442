import GuidedDataflow.Document.Tree

/-!
Writing JSON text: on one line without spaces, or spread over lines with two blanks a level.
Quotes, backslashes and control characters are escaped in strings, and nothing else is.
-/

namespace GuidedDataflow.Json

def hexDigit (n : Nat) : Char := Nat.digitChar n

/-- How a character is written inside a string. -/
def escape (c : Char) : List Char :=
  match c with
  | '"' => ['\\', '"']
  | '\\' => ['\\', '\\']
  | '\n' => ['\\', 'n']
  | '\r' => ['\\', 'r']
  | '\t' => ['\\', 't']
  | '\x08' => ['\\', 'b']
  | '\x0c' => ['\\', 'f']
  | c =>
    if c.toNat < 0x20 then
      ['\\', 'u', '0', '0', hexDigit (c.toNat / 16), hexDigit (c.toNat % 16)]
    else [c]

def quote (s : String) : String := String.ofList ('"' :: s.toList.flatMap escape ++ ['"'])

def keyText : Key → String
  | .name s => s
  | .index i => toString i
  | .other => ""

/-- A value without children on one line. -/
def scalar : Tree → String
  | .null => "null"
  | .bool b => if b then "true" else "false"
  | .int n => toString n
  | .float => "0.0"
  | .text s => quote s
  | .list _ => "[]"
  | .map _ => "\x7b\x7d"

mutual

/-- Writes a value on one line. -/
def compact : Tree → String
  | .list items => "[" ++ ",".intercalate (compactItems items) ++ "]"
  | .map entries => "\x7b" ++ ",".intercalate (compactEntries entries) ++ "\x7d"
  | t => scalar t

def compactItems : List Tree → List String
  | [] => []
  | t :: ts => compact t :: compactItems ts

def compactEntries : List (Key × Tree) → List String
  | [] => []
  | (k, t) :: es => (quote (keyText k) ++ ":" ++ compact t) :: compactEntries es

end

def indentation (level : Nat) : String := String.ofList (List.replicate (2 * level) ' ')

/-- Puts the children of a container on lines of their own, one level further in. -/
def layOut (opening closing : String) (level : Nat) (children : List String) : String :=
  if children.isEmpty then opening ++ closing
  else
    let lines := children.map (indentation (level + 1) ++ ·)
    opening ++ "\n" ++ ",\n".intercalate lines ++ "\n" ++ indentation level ++ closing

mutual

/-- Writes a value that stands at the given level. -/
def prettyAt (level : Nat) : Tree → String
  | .list items => layOut "[" "]" level (prettyItems (level + 1) items)
  | .map entries => layOut "\x7b" "\x7d" level (prettyEntries (level + 1) entries)
  | t => scalar t

def prettyItems (level : Nat) : List Tree → List String
  | [] => []
  | t :: ts => prettyAt level t :: prettyItems level ts

def prettyEntries (level : Nat) : List (Key × Tree) → List String
  | [] => []
  | (k, t) :: es => (quote (keyText k) ++ ": " ++ prettyAt level t) :: prettyEntries level es

end

def pretty (t : Tree) : String := prettyAt 0 t

end GuidedDataflow.Json
