/-!
Reading positions in YAML text, and the character classes that the format is built on. A
position knows its line and column, since indentation decides what belongs together.
-/

namespace GuidedDataflow.Yaml

def isSpaceOrTab (c : Char) : Bool := c = ' ' || c = '\t'

/-- Line ends: line feed, carriage return, next line, line and paragraph separator. -/
def isBreak (c : Char) : Bool :=
  c = '\n' || c = '\r' || c = '\u0085' || c = '\u2028' || c = '\u2029'

def isBlankOrBreak (c : Char) : Bool := isSpaceOrTab c || isBreak c

/-- Whether the text begins with a blank or a line end, or is over. -/
def startsBlank : List Char → Bool
  | [] => true
  | c :: _ => isBlankOrBreak c

/-- The characters that YAML text may consist of. -/
def isAllowed (c : Char) : Bool :=
  let n := c.toNat
  n = 0x09 || n = 0x0A || n = 0x0D || (0x20 ≤ n && n ≤ 0x7E) || n = 0x85 ||
    (0xA0 ≤ n && n ≤ 0xD7FF) || (0xE000 ≤ n && n ≤ 0xFFFD) || 0x10000 ≤ n

structure Source where
  rest : List Char
  index : Nat
  line : Nat
  column : Nat
deriving Inhabited, Repr

namespace Source

def ofChars (cs : List Char) : Source := ⟨cs, 0, 0, 0⟩

/-- Goes on by `n` characters of the same line. -/
def advance (s : Source) (n : Nat) : Source :=
  { s with rest := s.rest.drop n, index := s.index + n, column := s.column + n }

/-- Goes on to the next line, past a line end of `n` characters. -/
def newLine (s : Source) (n : Nat) : Source :=
  ⟨s.rest.drop n, s.index + n, s.line + 1, 0⟩

/-- How many characters the line end here has. -/
def breakLength : List Char → Nat
  | '\r' :: '\n' :: _ => 2
  | _ => 1

/-- What a line end reads as: a line feed, but separators stay what they are. -/
def breakChar : List Char → Char
  | '\u2028' :: _ => '\u2028'
  | '\u2029' :: _ => '\u2029'
  | _ => '\n'

/-- Past the characters of this line that satisfy `p`. -/
def skipWhile (s : Source) (p : Char → Bool) : Source := s.advance (s.rest.takeWhile p).length

/-- Past a byte order mark at the start of a line. -/
def skipOrderMark (s : Source) : Source :=
  match s.rest with
  | '\uFEFF' :: _ => if s.column = 0 then s.advance 1 else s
  | _ => s

/-- Past a comment, up to the line end. -/
def skipComment (s : Source) : Source :=
  match s.rest with
  | '#' :: _ => s.skipWhile fun c => !isBreak c
  | _ => s

/-- Whether a line begins here with the marker, standing alone. -/
def atMarker (s : Source) (marker : List Char) : Bool :=
  s.column = 0 && marker.isPrefixOf s.rest && startsBlank (s.rest.drop marker.length)

def atDocumentStart (s : Source) : Bool := s.atMarker ['-', '-', '-']

def atDocumentEnd (s : Source) : Bool := s.atMarker ['.', '.', '.']

def atDocumentMarker (s : Source) : Bool := s.atDocumentStart || s.atDocumentEnd

end Source

end GuidedDataflow.Yaml
