import GuidedDataflow.Document.Json.Writer
import GuidedDataflow.Document.Yaml.Resolve

/-!
Writing YAML text in block style, two blanks a level; a list in a mapping is not indented
further than its key. Text is written plain where it reads back as text and nothing in it
could be taken for an indicator, otherwise in single quotes. Text of several lines is written
as a literal block. Characters that cannot be printed force double quotes.
-/

namespace GuidedDataflow.Yaml

/-- The characters that can be written as they are. -/
def isPrintable (c : Char) : Bool :=
  let n := c.toNat
  n = 0x0A || (0x20 ≤ n && n ≤ 0x7E) ||
    (0xA0 ≤ n && n ≠ 0xFEFF && n ≠ 0xFFFE && n ≠ 0xFFFF)

/-- Whether some character is directly followed by another one. -/
def hasPair (p q : Char → Bool) : List Char → Bool
  | a :: b :: rest => (p a && q b) || hasPair p q (b :: rest)
  | _ => false

/-- A blank before a line end, which folding would lose. -/
def hasSpaceBreak (cs : List Char) : Bool := hasPair (· = ' ') isBreak cs

def hasBreakSpace (cs : List Char) : Bool := hasPair isBreak (· = ' ') cs

/-- A colon before a blank or at the end, or a hash behind a blank. -/
def hasInnerIndicator : List Char → Bool
  | [] => false
  | c :: rest =>
    (c = ':' && startsBlank rest) || (isBlankOrBreak c && rest.head? = some '#') ||
      hasInnerIndicator rest

/-- Whether a plain scalar could not begin this way. -/
def startsWithIndicator : List Char → Bool
  | [] => false
  | c :: rest =>
    ['#', ',', '[', ']', '{', '}', '&', '*', '!', '|', '>', '\'', '"', '%', '@', '\x60'].contains c
      || (['?', ':', '-'].contains c && startsBlank rest)
      || ['-', '-', '-'].isPrefixOf (c :: rest) || ['.', '.', '.'].isPrefixOf (c :: rest)

inductive ScalarStyle where
  | plain
  | single
  | double
  | literal
deriving DecidableEq, Inhabited, Repr

/-- Whether text would read back as something other than text, or look like a number. -/
def needsQuotes (cs : List Char) : Bool :=
  match resolve? (String.ofList cs) with
  | some (.text _) => hasLeadingZero cs
  | _ => true

def allowsPlain (cs : List Char) : Bool :=
  let edge (c : Char) : Bool := c = ' ' || isBreak c
  !(cs.head?.any edge || cs.getLast?.any edge || cs.any isBreak || startsWithIndicator cs ||
    hasInnerIndicator cs)

def styleOf (cs : List Char) : ScalarStyle :=
  if !cs.all isPrintable || hasSpaceBreak cs then .double
  else if cs.contains '\n' then if cs.getLast? = some ' ' then .double else .literal
  else if hasBreakSpace cs then .double
  else if !needsQuotes cs && allowsPlain cs then .plain
  else .single

/-- The letter that escapes a character in double quotes. -/
def escapeLetter? : Char → Option Char
  | '\x00' => some '0'
  | '\x07' => some 'a'
  | '\x08' => some 'b'
  | '\t' => some 't'
  | '\n' => some 'n'
  | '\x0b' => some 'v'
  | '\x0c' => some 'f'
  | '\r' => some 'r'
  | '\x1b' => some 'e'
  | '"' => some '"'
  | '\\' => some '\\'
  | '\u0085' => some 'N'
  | '\u2028' => some 'L'
  | '\u2029' => some 'P'
  | _ => none

/-- The last `width` hexadecimal digits of a number, in capitals. -/
def hexDigits : (width : Nat) → Nat → List Char
  | 0, _ => []
  | width + 1, n => hexDigits width (n / 16) ++ [(Json.hexDigit (n % 16)).toUpper]

def escapeDouble (c : Char) : List Char :=
  match escapeLetter? c with
  | some letter => ['\\', letter]
  | none =>
    let n := c.toNat
    if isPrintable c then [c]
    else if n ≤ 0xFF then '\\' :: 'x' :: hexDigits 2 n
    else if n ≤ 0xFFFF then '\\' :: 'u' :: hexDigits 4 n
    else '\\' :: 'U' :: hexDigits 8 n

/-- A line separator is followed by the indentation of the next line. -/
def escapeSingle (indent : Nat) : List Char → List Char
  | [] => []
  | '\'' :: rest => '\'' :: '\'' :: escapeSingle indent rest
  | c :: rest =>
    if isBreak c && !rest.head?.any isBreak then
      c :: List.replicate indent ' ' ++ escapeSingle indent rest
    else c :: escapeSingle indent rest

/-- The lines of a literal block; empty lines are not indented. -/
def literalLines (indent : Nat) : (lineStart : Bool) → List Char → List Char
  | lineStart, [] => if lineStart then [] else ['\n']
  | lineStart, c :: rest =>
    if isBreak c then c :: literalLines indent true rest
    else if lineStart then List.replicate indent ' ' ++ c :: literalLines indent false rest
    else c :: literalLines indent false rest

/-- The header of a literal block: the indentation where the text begins with white space, and
what to do with the line ends at its end. -/
def literalHeader (cs : List Char) : List Char :=
  let stated := if cs.head?.any fun c => c = ' ' || isBreak c then ['2'] else []
  let chomp :=
    match cs.reverse with
    | [] => ['-']
    | [c] => if isBreak c then ['+'] else ['-']
    | c :: d :: _ => if isBreak c then if isBreak d then ['+'] else [] else ['-']
  '|' :: stated ++ chomp

/-- Text with its line end, where further lines are indented to column `indent`. -/
def writeText (indent : Nat) (cs : List Char) : List Char :=
  match styleOf cs with
  | .plain => cs ++ ['\n']
  | .single => '\'' :: escapeSingle indent cs ++ ['\'', '\n']
  | .double => '"' :: cs.flatMap escapeDouble ++ ['"', '\n']
  | .literal => literalHeader cs ++ '\n' :: literalLines indent true cs

/-- A value without children, with its line end. -/
def writeScalar (indent : Nat) : Tree → List Char
  | .text s => writeText indent s.toList
  | t => (Json.scalar t).toList ++ ['\n']

/-- A key is written like text, on one line. -/
def writeKey (k : Key) : List Char := (writeText 0 (Json.keyText k).toList).dropLast

def spaces (n : Nat) : List Char := List.replicate n ' '

mutual

/-- A value behind its key, which stands at column `n`. -/
def writeValue (n : Nat) : Tree → List Char
  | .list (t :: ts) => '\n' :: writeItems n (t :: ts)
  | .map (e :: es) => '\n' :: writeEntries (n + 2) (e :: es)
  | t => ' ' :: writeScalar (n + 2) t

/-- A value behind the dash of a list at column `n`; its first line goes on there. -/
def writeItem (n : Nat) : Tree → List Char
  | .list (t :: ts) => '-' :: ' ' :: writeItem (n + 2) t ++ writeItems n ts
  | .map ((k, v) :: es) => writeKey k ++ ':' :: writeValue n v ++ writeEntries n es
  | t => writeScalar n t

def writeItems (n : Nat) : List Tree → List Char
  | [] => []
  | t :: ts => spaces n ++ '-' :: ' ' :: writeItem (n + 2) t ++ writeItems n ts

def writeEntries (n : Nat) : List (Key × Tree) → List Char
  | [] => []
  | (k, v) :: es => spaces n ++ writeKey k ++ ':' :: writeValue n v ++ writeEntries n es

end

/-- The text of a document. -/
def write (t : Tree) : String :=
  String.ofList <|
    match t with
    | .list (t :: ts) => writeItems 0 (t :: ts)
    | .map (e :: es) => writeEntries 0 (e :: es)
    | t => writeScalar 0 t

end GuidedDataflow.Yaml
