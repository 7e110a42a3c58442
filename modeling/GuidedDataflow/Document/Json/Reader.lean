import GuidedDataflow.Document.Decimal
import GuidedDataflow.Document.Tree

/-!
Reading JSON text. The whole text must be one value with nothing but white space around it.
Containers nest at most 127 deep. Whole numbers of at most 64 bits are integers; longer ones
and those with a fraction or an exponent are fractional and must be finite. Strings may hold
no raw control character, and an escaped surrogate must be part of a pair.
-/

namespace GuidedDataflow.Json

def isSpace (c : Char) : Bool := c = ' ' || c = '\n' || c = '\r' || c = '\t'

def skipSpace (cs : List Char) : List Char := cs.dropWhile isSpace

/-- The value of a hexadecimal digit. -/
def hexValue? (c : Char) : Option Nat :=
  if '0' ≤ c && c ≤ '9' then some (c.toNat - '0'.toNat)
  else if 'a' ≤ c && c ≤ 'f' then some (c.toNat - 'a'.toNat + 10)
  else if 'A' ≤ c && c ≤ 'F' then some (c.toNat - 'A'.toNat + 10)
  else none

/-- The value of four hexadecimal digits. -/
def hexUnit? (a b c d : Char) : Option Nat := do
  return ((← hexValue? a) * 16 + (← hexValue? b)) * 256 + (← hexValue? c) * 16 + (← hexValue? d)

def isHighSurrogate (n : Nat) : Bool := 0xD800 ≤ n && n < 0xDC00

def isLowSurrogate (n : Nat) : Bool := 0xDC00 ≤ n && n < 0xE000

/-- The characters that a backslash and a letter stand for. -/
def simpleEscape? : Char → Option Char
  | '"' => some '"'
  | '\\' => some '\\'
  | '/' => some '/'
  | 'b' => some '\x08'
  | 'f' => some '\x0c'
  | 'n' => some '\n'
  | 'r' => some '\r'
  | 't' => some '\t'
  | _ => none

/-- The contents of a string up to its closing quote, and what follows the quote. -/
def chars? : List Char → Option (List Char × List Char)
  | [] => none
  | '"' :: rest => some ([], rest)
  | '\\' :: 'u' :: a :: b :: c :: d :: rest => do
    let unit ← hexUnit? a b c d
    if isHighSurrogate unit then
      match rest with
      | '\\' :: 'u' :: a :: b :: c :: d :: rest =>
        let low ← hexUnit? a b c d
        if isLowSurrogate low then
          let (cs, rest) ← chars? rest
          return (Char.ofNat (0x10000 + (unit - 0xD800) * 0x400 + (low - 0xDC00)) :: cs, rest)
        else none
      | _ => none
    else if isLowSurrogate unit then none
    else
      let (cs, rest) ← chars? rest
      return (Char.ofNat unit :: cs, rest)
  | '\\' :: c :: rest => do
    let e ← simpleEscape? c
    let (cs, rest) ← chars? rest
    return (e :: cs, rest)
  | c :: rest =>
    if c.toNat < 0x20 then none
    else do
      let (cs, rest) ← chars? rest
      return (c :: cs, rest)

/-- A number. A leading zero stands alone. -/
def number? (cs : List Char) : Option (Tree × List Char) :=
  let (negative, digits) :=
    match cs with
    | '-' :: rest => (true, rest)
    | _ => (false, cs)
  match digits with
  | '0' :: c :: _ => if c.isDigit then none else read negative digits
  | _ => read negative digits
where
  read (negative : Bool) (digits : List Char) : Option (Tree × List Char) := do
    let (d, fractional, rest) ← Decimal.scan? false digits
    let limit := if negative then maxNegative else maxUnsigned
    if !fractional && d.mantissa ≤ limit && !(negative && d.mantissa = 0) then
      return (.int (if negative then -d.mantissa else d.mantissa), rest)
    else if d.isFinite then return (.float, rest)
    else none

/-- The rest of a list behind an element: more elements, each after a comma, and the end. -/
def moreItems? (item : List Char → Option (Tree × List Char)) :
    Nat → List Char → Option (List Tree × List Char)
  | 0, _ => none
  | fuel + 1, cs =>
    match skipSpace cs with
    | ']' :: rest => some ([], rest)
    | ',' :: rest => do
      let (t, rest) ← item rest
      let (ts, rest) ← moreItems? item fuel rest
      return (t :: ts, rest)
    | _ => none

/-- A name, a colon and a value. -/
def entry? (item : List Char → Option (Tree × List Char)) (cs : List Char) :
    Option ((Key × Tree) × List Char) :=
  match skipSpace cs with
  | '"' :: rest => do
    let (name, rest) ← chars? rest
    match skipSpace rest with
    | ':' :: rest =>
      let (t, rest) ← item rest
      return ((.name (String.ofList name), t), rest)
    | _ => none
  | _ => none

def moreEntries? (item : List Char → Option (Tree × List Char)) :
    Nat → List Char → Option (List (Key × Tree) × List Char)
  | 0, _ => none
  | fuel + 1, cs =>
    match skipSpace cs with
    | '}' :: rest => some ([], rest)
    | ',' :: rest => do
      let (e, rest) ← entry? item rest
      let (es, rest) ← moreEntries? item fuel rest
      return (e :: es, rest)
    | _ => none

/-- A value with blanks before it, in which containers nest at most `depth` deep. -/
def value? : Nat → List Char → Option (Tree × List Char)
  | depth, cs =>
    match skipSpace cs with
    | 'n' :: 'u' :: 'l' :: 'l' :: rest => some (.null, rest)
    | 't' :: 'r' :: 'u' :: 'e' :: rest => some (.bool true, rest)
    | 'f' :: 'a' :: 'l' :: 's' :: 'e' :: rest => some (.bool false, rest)
    | '"' :: rest => (chars? rest).map fun (text, rest) => (.text (String.ofList text), rest)
    | '[' :: rest =>
      match depth with
      | 0 => none
      | depth + 1 =>
        match skipSpace rest with
        | ']' :: rest => some (.list [], rest)
        | rest => do
          let (t, rest) ← value? depth rest
          let (ts, rest) ← moreItems? (value? depth) rest.length rest
          return (.list (t :: ts), rest)
    | '{' :: rest =>
      match depth with
      | 0 => none
      | depth + 1 =>
        match skipSpace rest with
        | '}' :: rest => some (.map [], rest)
        | rest => do
          let (e, rest) ← entry? (value? depth) rest
          let (es, rest) ← moreEntries? (value? depth) rest.length rest
          return (.map (e :: es), rest)
    | rest => number? rest

def maxDepth : Nat := 127

def read? (text : String) : Option Tree :=
  match value? maxDepth text.toList with
  | some (t, rest) => if (skipSpace rest).isEmpty then some t else none
  | none => none

end GuidedDataflow.Json
